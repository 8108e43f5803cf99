import Dagayn.ByteSlices
import Dagayn.CfgTest
import Dagayn.Dict
import Dagayn.RustTokens
import Dagayn.StackWalk

/-!
# The module tree of a crate

`build_crate_modules` walks the files of a crate with a stack, from the root along its top-level
`mod` declarations, and records a file at its first visit. `Chain` is what the declarations say:
the module paths, the files they name, and the attributes on the way. The tree has every module
path, and a file is test-only just if all its chains are gated, where each path names one file,
each file has one path, and the last declaration of a file speaks for all of them.
-/

namespace Dagayn

namespace RustModules

/-! ## Paths of files -/

def parentDir (file : List Char) : List Char := (file.rdropWhile (· ≠ '/')).dropLast

def fileName (file : List Char) : List Char := file.rtakeWhile (· ≠ '/')

def join (dir tail : List Char) : List Char := if dir = [] then tail else dir ++ '/' :: tail

/-- Lexically normalizes `a/b/../c` to `a/c`. -/
def normalize (path : List Char) : List Char :=
  let parts := (path.splitOn '/').foldl (fun parts part =>
    if part = [] ∨ part = ['.'] then parts
    else if part = ['.', '.'] then parts.dropLast
    else parts ++ [part]) []
  List.intercalate ['/'] parts

/-- `trim_end_matches(".rs")`, on the text read from its end. -/
def trimRs : List Char → List Char
  | 's' :: 'r' :: '.' :: rest => trimRs rest
  | text => text

def isModRs (file root : List Char) : Bool :=
  file = root || "/mod.rs".toList.isSuffixOf file || file = "mod.rs".toList

/-- Where `mod name;` looks for a file. -/
def baseDir (file root : List Char) : List Char :=
  if isModRs file root then parentDir file
  else join (parentDir file) (trimRs (fileName file).reverse).reverse

/-! ## Declarations -/

/-- A match of `MOD_DECL`: where it and its attributes begin and end, and its other groups. -/
structure ModDecl where
  start : Nat
  attrs : Nat × Nat
  name : List Char
  opens : Bool
deriving DecidableEq

/-- The expressions of the `regex` crate. -/
structure Regexes where
  modDecl : List Char → List ModDecl
  pathAttr : List Char → Option (List Char)
  cfgAttr : List Char → List (List Char)

/-- A repository: its files, and what `read_to_string` gives. -/
structure Tree where
  files : List (List Char)
  text : List Char → Option (List Char)

/-- `repo_root.join(rel).is_file()`. -/
def Tree.file? (t : Tree) (rel : List Char) : Option { f // f ∈ t.files } :=
  if h : rel ∈ t.files then some ⟨rel, h⟩ else none

variable (x : Regexes) (t : Tree) (root : List Char)

def attrsOf (text : List Char) (d : ModDecl) : List Char :=
  (slice d.attrs.1 d.attrs.2 text).getD []

def gatedByCfgTest (attrs : List Char) : Bool := (x.cfgAttr attrs).any cfgImpliesTest

/-- The file that `mod name;` names. -/
def moduleFile (file attrs name : List Char) : Option { f // f ∈ t.files } :=
  match x.pathAttr attrs with
  | some tail => t.file? (normalize (join (parentDir file) tail))
  | none => [join (baseDir file root) (name ++ ".rs".toList),
      join (baseDir file root) (name ++ "/mod.rs".toList)].findSome? t.file?

/-- The declarations of a file that are in no block. -/
def topLevel (text : List Char) : List ModDecl :=
  let code := RustCode.blankNonCode text
  (x.modDecl code).filter fun d => RustCode.depthOf ((sliceTo d.start code).getD []) = 0

def declsOf (file : List Char) : List ModDecl :=
  match t.text file with
  | none => []
  | some text => topLevel x text

/-- The attributes of a declaration of a file. -/
def attrsIn (file : List Char) (d : ModDecl) : List Char := attrsOf ((t.text file).getD []) d

/-! ## The walk -/

abbrev ModPath := List (List Char)

structure CrateModules where
  byPath : Dict ModPath (List Char)
  byFile : Dict (List Char) ModPath
  testOnly : List (List Char)

/-- A file that waits on the stack. -/
structure Pending where
  path : ModPath
  file : List Char
  testOnly : Bool
  found : file ∈ root :: t.files
deriving DecidableEq

variable {t root}

/-- What `mod name;` puts on the stack. -/
def childOf (e : Pending t root) (d : ModDecl) : Option (Pending t root) :=
  if d.opens then none
  else (moduleFile x t root e.file (attrsIn t e.file d) d.name).map fun child =>
    { path := e.path ++ [d.name]
      file := child.1
      testOnly := e.testOnly || gatedByCfgTest x (attrsIn t e.file d)
      found := List.mem_cons_of_mem _ child.2 }

/-- `mod name { .. }`: the module lives in this file. -/
def declareInline (e : Pending t root) (m : CrateModules) (d : ModDecl) : CrateModules :=
  let path := e.path ++ [d.name]
  if d.opens ∧ path ∉ m.byPath then { m with byPath := AList.insert path e.file m.byPath } else m

/-- A declaration of the file, `pending` with its top in front. -/
def declare (e : Pending t root) (s : CrateModules × List (Pending t root)) (d : ModDecl) :
    CrateModules × List (Pending t root) :=
  if d.opens then (declareInline e s.1 d, s.2)
  else
    match childOf x e d with
    | none => s
    | some child => (s.1, child :: s.2)

def CrateModules.record (m : CrateModules) (e : Pending t root) : CrateModules where
  byPath := AList.insert e.path e.file m.byPath
  byFile := AList.insert e.file e.path m.byFile
  testOnly := if e.testOnly then m.testOnly ++ [e.file] else m.testOnly

def moduleWalk : StackWalk (Pending t root) (List Char) where
  node := Pending.file
  next e := (declsOf x t e.file).filterMap (childOf x e)
  bound := root :: t.files
  node_mem e := e.found

theorem declare_eq (e : Pending t root) (s : CrateModules × List (Pending t root)) (d : ModDecl) :
    declare x e s d = (declareInline e s.1 d, (childOf x e d).toList ++ s.2) := by
  by_cases hopens : d.opens = true
  · have hchild : childOf x e d = none := if_pos hopens
    rw [declare, if_pos hopens, hchild]
    rfl
  · have hinline : declareInline e s.1 d = s.1 := if_neg fun h => hopens h.1
    rw [declare, if_neg hopens, hinline]
    cases childOf x e d <;> rfl

theorem foldl_declare (e : Pending t root) (ds : List ModDecl)
    (s : CrateModules × List (Pending t root)) : ds.foldl (declare x e) s =
      (ds.foldl (declareInline e) s.1, (ds.filterMap (childOf x e)).reverse ++ s.2) := by
  induction ds generalizing s with
  | nil => rfl
  | cons d ds ih =>
      rw [List.foldl_cons, ih, declare_eq, List.foldl_cons]
      cases hchild : childOf x e d with
      | none => rw [List.filterMap_cons_none hchild]; rfl
      | some child => rw [List.filterMap_cons_some hchild]; simp

theorem byFile_declareInline (e : Pending t root) (m : CrateModules) (d : ModDecl) :
    (declareInline e m d).byFile = m.byFile ∧ (declareInline e m d).testOnly = m.testOnly := by
  unfold declareInline
  dsimp only
  split <;> exact ⟨rfl, rfl⟩

theorem byFile_foldl (e : Pending t root) (ds : List ModDecl) (m : CrateModules) :
    (ds.foldl (declareInline e) m).byFile = m.byFile ∧
      (ds.foldl (declareInline e) m).testOnly = m.testOnly := by
  induction ds generalizing m with
  | nil => exact ⟨rfl, rfl⟩
  | cons d ds ih =>
      obtain ⟨hfile, htest⟩ := byFile_declareInline e m d
      rw [List.foldl_cons, (ih _).1, (ih _).2, hfile, htest]
      exact ⟨rfl, rfl⟩

def unvisited (t : Tree) (root : List Char) (m : CrateModules) : List (List Char) :=
  (root :: t.files).filter fun file => file ∉ m.byFile

theorem length_unvisited_lt {m m' : CrateModules} {e : Pending t root} (h : e.file ∉ m.byFile)
    (h' : m'.byFile = AList.insert e.file e.path m.byFile) :
    (unvisited t root m').length < (unvisited t root m).length := by
  have hsub : unvisited t root m' = (unvisited t root m).filter (· ≠ e.file) := by
    rw [unvisited, unvisited, List.filter_filter, h']
    refine List.filter_congr fun file _ => ?_
    simp only [AList.mem_insert, not_or, ne_eq, Bool.decide_and]
  have hmem : e.file ∈ unvisited t root m := List.mem_filter.mpr ⟨e.found, decide_eq_true h⟩
  rw [hsub]
  exact List.length_filter_lt_length_iff_exists.mpr ⟨_, hmem, by simp⟩

def walk (m : CrateModules) : List (Pending t root) → CrateModules
  | [] => m
  | e :: pending =>
      if e.file ∈ m.byFile then walk m pending
      else
        let s := (declsOf x t e.file).foldl (declare x e) (m.record e, pending)
        walk s.1 s.2
termination_by pending => ((unvisited t root m).length, pending.length)
decreasing_by
  · exact Prod.Lex.right _ (Nat.lt_succ_self _)
  · rename_i h
    refine Prod.Lex.left _ _ (length_unvisited_lt h ?_)
    rw [foldl_declare]
    exact (byFile_foldl e _ _).1

variable (t root) in
def rootEntry : Pending t root where
  path := []
  file := root
  testOnly := false
  found := List.mem_cons_self

variable (t root) in
def buildCrateModules : CrateModules := walk x ⟨∅, ∅, []⟩ [rootEntry t root]

/-! ## The tree is what the visited entries put into it -/

def CrateModules.visit (m : CrateModules) (e : Pending t root) : CrateModules :=
  (declsOf x t e.file).foldl (declareInline e) (m.record e)

theorem walk_skip {m : CrateModules} {e : Pending t root} (h : e.file ∈ m.byFile)
    (pending : List (Pending t root)) : walk x m (e :: pending) = walk x m pending := by
  rw [walk, if_pos h]

theorem walk_visit {m : CrateModules} {e : Pending t root} (h : e.file ∉ m.byFile)
    (pending : List (Pending t root)) :
    walk x m (e :: pending) = walk x (m.visit x e) ((moduleWalk x).push e pending) := by
  rw [walk, if_neg h, foldl_declare]
  rfl

def treeOf (seen : List (Pending t root)) : CrateModules :=
  seen.foldl (CrateModules.visit x) ⟨∅, ∅, []⟩

variable {x}

theorem treeOf_concat (seen : List (Pending t root)) (e : Pending t root) :
    treeOf x (seen ++ [e]) = (treeOf x seen).visit x e := List.foldl_concat _ _ _ _

theorem mem_byFile_treeOf {seen : List (Pending t root)} {file : List Char} :
    file ∈ (treeOf x seen).byFile ↔ file ∈ seen.map Pending.file := by
  induction seen using List.reverseRecOn with
  | nil => exact ⟨fun h => absurd h (AList.notMem_empty _), fun h => absurd h List.not_mem_nil⟩
  | append_singleton seen e ih =>
      have hfile := (byFile_foldl e (declsOf x t e.file) ((treeOf x seen).record e)).1
      rw [treeOf_concat, CrateModules.visit, hfile, List.map_append, List.mem_append, ← ih]
      exact (AList.mem_insert _).trans (or_comm.trans (or_congr_right List.mem_singleton.symm))

theorem walk_eq (stack seen : List (Pending t root)) :
    walk x (treeOf x seen) stack = treeOf x ((moduleWalk x).run seen stack) := by
  fun_induction (moduleWalk x).run seen stack with
  | case1 seen => rw [walk]
  | case2 seen e stack hseen ih =>
      rw [walk_skip x (mem_byFile_treeOf.mpr hseen), ih]
  | case3 seen e stack hseen ih =>
      rw [walk_visit x fun h => hseen (mem_byFile_treeOf.mp h), ← treeOf_concat, ih]

variable (x t root) in
def visits : List (Pending t root) := (moduleWalk x).run [] [rootEntry t root]

theorem buildCrateModules_eq : buildCrateModules x t root = treeOf x (visits x t root) :=
  walk_eq [rootEntry t root] []

variable (x) in
/-- The module paths that a visited entry puts into the tree. -/
def Puts (e : Pending t root) (path : ModPath) : Prop :=
  path = e.path ∨ ∃ d ∈ declsOf x t e.file, d.opens = true ∧ path = e.path ++ [d.name]

/-- What is in the tree stays, and what is added is the file of the entry. -/
structure Grows (m m' : CrateModules) (file : List Char) (paths : ModPath → Prop) : Prop where
  sound : ∀ path f, m'.byPath.lookup path = some f →
    m.byPath.lookup path = some f ∨ (f = file ∧ paths path)
  keeps : ∀ path, path ∈ m.byPath → path ∈ m'.byPath
  adds : ∀ path, paths path → path ∈ m'.byPath

theorem grows_declareInline (e : Pending t root) (m : CrateModules) (d : ModDecl) :
    Grows m (declareInline e m d) e.file
      fun path => d.opens = true ∧ path = e.path ++ [d.name] := by
  unfold declareInline
  dsimp only
  split
  · rename_i h
    refine ⟨fun path f hlookup => ?_, fun path hpath => ?_, fun path hpath => ?_⟩
    · rw [Dict.lookup_insert_ite] at hlookup
      split at hlookup
      · rename_i heq
        exact .inr ⟨(Option.some.inj hlookup).symm, h.1, heq⟩
      · exact .inl hlookup
    · exact (AList.mem_insert _).mpr (.inr hpath)
    · exact (AList.mem_insert _).mpr (.inl hpath.2)
  · rename_i h
    refine ⟨fun _ _ hlookup => .inl hlookup, fun _ hpath => hpath, ?_⟩
    rintro path ⟨hopens, rfl⟩
    exact Decidable.not_not.mp fun hnot => h ⟨hopens, hnot⟩

theorem grows_foldl (e : Pending t root) (ds : List ModDecl) (m : CrateModules) :
    Grows m (ds.foldl (declareInline e) m) e.file fun path =>
      ∃ d ∈ ds, d.opens = true ∧ path = e.path ++ [d.name] := by
  induction ds generalizing m with
  | nil =>
      exact ⟨fun _ _ h => .inl h, fun _ h => h, fun _ ⟨_, hd, _⟩ => absurd hd List.not_mem_nil⟩
  | cons d ds ih =>
      have hfirst := grows_declareInline e m d
      have hrest := ih (declareInline e m d)
      refine ⟨fun path f h => ?_, fun path h => hrest.keeps _ (hfirst.keeps _ h), ?_⟩
      · rcases hrest.sound path f h with h | ⟨rfl, d', hd', hpath⟩
        · rcases hfirst.sound path f h with h | ⟨rfl, hpath⟩
          · exact .inl h
          · exact .inr ⟨rfl, d, List.mem_cons_self, hpath⟩
        · exact .inr ⟨rfl, d', List.mem_cons_of_mem _ hd', hpath⟩
      · rintro path ⟨d', hd', hpath⟩
        rcases List.mem_cons.mp hd' with rfl | hd'
        · exact hrest.keeps _ (hfirst.adds _ hpath)
        · exact hrest.adds _ ⟨d', hd', hpath⟩

theorem grows_visit (e : Pending t root) (m : CrateModules) :
    Grows m (m.visit x e) e.file (Puts x e) := by
  have hrest := grows_foldl e (declsOf x t e.file) (m.record e)
  refine ⟨fun path f h => ?_, fun path h => hrest.keeps _ ((AList.mem_insert _).mpr (.inr h)), ?_⟩
  · rcases hrest.sound path f h with h | ⟨rfl, hpath⟩
    · rw [CrateModules.record, Dict.lookup_insert_ite] at h
      split at h
      · rename_i heq
        exact .inr ⟨(Option.some.inj h).symm, .inl heq⟩
      · exact .inl h
    · exact .inr ⟨rfl, .inr hpath⟩
  · rintro path (rfl | hpath)
    · exact hrest.keeps _ ((AList.mem_insert _).mpr (.inl rfl))
    · exact hrest.adds _ hpath

theorem lookup_treeOf {seen : List (Pending t root)} {path : ModPath} {file : List Char}
    (h : (treeOf x seen).byPath.lookup path = some file) :
    ∃ e ∈ seen, e.file = file ∧ Puts x e path := by
  induction seen using List.reverseRecOn with
  | nil => cases h
  | append_singleton seen e ih =>
      rw [treeOf_concat] at h
      rcases (grows_visit e _).sound path file h with h | ⟨rfl, hputs⟩
      · obtain ⟨e', he', hfile⟩ := ih h
        exact ⟨e', List.mem_append_left _ he', hfile⟩
      · exact ⟨e, by simp, rfl, hputs⟩

theorem mem_treeOf {seen : List (Pending t root)} {e : Pending t root} (he : e ∈ seen)
    {path : ModPath} (h : Puts x e path) : path ∈ (treeOf x seen).byPath := by
  induction seen using List.reverseRecOn with
  | nil => cases he
  | append_singleton seen e' ih =>
      rw [treeOf_concat]
      rcases List.mem_append.mp he with he | he
      · exact (grows_visit e' _).keeps _ (ih he)
      · exact (grows_visit e' _).adds _ (List.mem_singleton.mp he ▸ h)

theorem mem_testOnly_treeOf {seen : List (Pending t root)} {file : List Char} :
    file ∈ (treeOf x seen).testOnly ↔ ∃ e ∈ seen, e.file = file ∧ e.testOnly = true := by
  induction seen using List.reverseRecOn with
  | nil => exact ⟨fun h => absurd h List.not_mem_nil, fun ⟨_, he, _⟩ => absurd he List.not_mem_nil⟩
  | append_singleton seen e ih =>
      have htest := (byFile_foldl e (declsOf x t e.file) ((treeOf x seen).record e)).2
      have hrecord : file ∈ ((treeOf x seen).record e).testOnly ↔
          file ∈ (treeOf x seen).testOnly ∨ (file = e.file ∧ e.testOnly = true) := by
        rw [CrateModules.record]
        dsimp only
        cases e.testOnly <;> simp
      rw [treeOf_concat, CrateModules.visit, htest, hrecord, ih]
      constructor
      · rintro (⟨e', he', h⟩ | ⟨rfl, h⟩)
        · exact ⟨e', List.mem_append_left _ he', h⟩
        · exact ⟨e, by simp, rfl, h⟩
      · rintro ⟨e', he', rfl, h⟩
        rcases List.mem_append.mp he' with he' | he'
        · exact .inl ⟨e', he', rfl, h⟩
        · obtain rfl := List.mem_singleton.mp he'
          exact .inr ⟨rfl, h⟩

/-! ## What the declarations say -/

section Ideal

variable (x t root)

def Declares (file : List Char) (d : ModDecl) (child : List Char) : Prop :=
  d ∈ declsOf x t file ∧ d.opens = false ∧
    (moduleFile x t root file (attrsIn t file d) d.name).map Subtype.val = some child

/-- A chain of declarations from the root: the module path, the file, the attributes passed. -/
inductive Chain : ModPath → List Char → List (List Char) → Prop
  | root : Chain [] root []
  | decl {path : ModPath} {file child : List Char} {passed : List (List Char)} {d : ModDecl}
      (h : Chain path file passed) (hd : Declares x t root file d child) :
      Chain (path ++ [d.name]) child (passed ++ [attrsIn t file d])

/-- A module path names a file, in which it may be an inline module. -/
def Names (path : ModPath) (file : List Char) : Prop :=
  (∃ passed, Chain x t root path file passed) ∨
    ∃ front passed d, Chain x t root front file passed ∧ d ∈ declsOf x t file ∧
      d.opens = true ∧ path = front ++ [d.name]

/-- Some `cfg` of the attributes implies `test`. -/
def Gates (attrs : List Char) : Prop := ∃ predicate ∈ x.cfgAttr attrs, ImpliesTest predicate

/-- Every chain to the file passes a gated declaration. -/
def AllGated (file : List Char) : Prop :=
  ∀ path passed, Chain x t root path file passed → ∃ attrs ∈ passed, Gates x attrs

def LastDeclares (file : List Char) (d : ModDecl) (child : List Char) : Prop :=
  Declares x t root file d child ∧ ∃ before after, declsOf x t file = before ++ d :: after ∧
    ∀ a ∈ after, ¬ Declares x t root file a child

/-- Each path names one file, each file has one path, and where a file is not gated the last
declaration of a child is taken for gated just if all its declarations are. -/
structure Settled : Prop where
  oneFile : ∀ path file file', Names x t root path file → Names x t root path file' → file = file'
  onePath : ∀ file path path' passed passed', Chain x t root path file passed →
    Chain x t root path' file passed' → path = path'
  lastGate : ∀ path file passed, Chain x t root path file passed →
    (¬ ∃ attrs ∈ passed, Gates x attrs) → ∀ d child, LastDeclares x t root file d child →
      (gatedByCfgTest x (attrsIn t file d) = true ↔
        ∀ d', Declares x t root file d' child → Gates x (attrsIn t file d'))

end Ideal

theorem childOf_eq_some {e c : Pending t root} {d : ModDecl} (h : childOf x e d = some c) :
    d.opens = false ∧
      (moduleFile x t root e.file (attrsIn t e.file d) d.name).map Subtype.val = some c.file ∧
      c.path = e.path ++ [d.name] ∧
      c.testOnly = (e.testOnly || gatedByCfgTest x (attrsIn t e.file d)) := by
  rw [childOf] at h
  split at h
  · cases h
  · rename_i hopens
    obtain ⟨child, hchild, rfl⟩ := Option.map_eq_some_iff.mp h
    exact ⟨Bool.eq_false_iff.mpr hopens, by rw [hchild]; rfl, rfl, rfl⟩

theorem childOf_of_declares {e : Pending t root} {d : ModDecl} {child : List Char}
    (h : Declares x t root e.file d child) : ∃ c, childOf x e d = some c ∧ c.file = child := by
  obtain ⟨hmem, hopens, hfile⟩ := h
  cases hchild : childOf x e d with
  | none =>
      rw [childOf, if_neg (by rw [hopens]; exact Bool.false_ne_true),
        Option.map_eq_none_iff] at hchild
      rw [hchild] at hfile
      cases hfile
  | some c =>
      have hval := (childOf_eq_some hchild).2.1
      rw [hfile] at hval
      exact ⟨c, rfl, (Option.some.inj hval).symm⟩

theorem mem_next {e c : Pending t root} (h : c ∈ (moduleWalk x).next e) :
    ∃ d, Declares x t root e.file d c.file ∧ c.path = e.path ++ [d.name] ∧
      c.testOnly = (e.testOnly || gatedByCfgTest x (attrsIn t e.file d)) := by
  obtain ⟨d, hd, hchild⟩ := List.mem_filterMap.mp h
  obtain ⟨hopens, hfile, hpath, htest⟩ := childOf_eq_some hchild
  exact ⟨d, ⟨hd, hopens, hfile⟩, hpath, htest⟩

theorem chain_of_visits {e : Pending t root} (he : e ∈ visits x t root) :
    ∃ passed, Chain x t root e.path e.file passed := by
  refine StackWalk.forall_run (w := moduleWalk x)
    (p := fun e => ∃ passed, Chain x t root e.path e.file passed) ?_ ⟨[], .root⟩ e he
  rintro e ⟨passed, hchain⟩ c hc
  obtain ⟨d, hd, hpath, -⟩ := mem_next hc
  exact ⟨_, hpath ▸ hchain.decl hd⟩

theorem visits_of_chain {path : ModPath} {file : List Char} {passed : List (List Char)}
    (h : Chain x t root path file passed) : ∃ e ∈ visits x t root, e.file = file := by
  induction h with
  | root => exact StackWalk.root_run (w := moduleWalk x) (rootEntry t root)
  | decl _ hd ih =>
      obtain ⟨e, he, rfl⟩ := ih
      obtain ⟨c, hc, rfl⟩ := childOf_of_declares hd
      exact StackWalk.next_run (w := moduleWalk x) _ e he c (List.mem_filterMap.mpr ⟨_, hd.1, hc⟩)

theorem eq_of_file_eq {e e' : Pending t root} (he : e ∈ visits x t root)
    (he' : e' ∈ visits x t root) (h : e.file = e'.file) : e = e' :=
  List.inj_on_of_nodup_map (StackWalk.nodup_run (w := moduleWalk x) _) he he' h

theorem LastDeclares.eq {file child : List Char} {d d' : ModDecl}
    (h : LastDeclares x t root file d child) (h' : LastDeclares x t root file d' child) :
    d = d' := by
  obtain ⟨hd, before, after, hsplit, hafter⟩ := h
  obtain ⟨hd', before', after', hsplit', hafter'⟩ := h'
  rw [hsplit] at hsplit'
  rcases List.append_eq_append_iff.mp hsplit' with ⟨mid, -, hmid⟩ | ⟨mid, -, hmid⟩
  · cases mid with
    | nil => exact (List.cons.inj hmid).1
    | cons b mid => exact absurd hd' (hafter d' (by rw [(List.cons.inj hmid).2]; simp))
  · cases mid with
    | nil => exact (List.cons.inj hmid).1.symm
    | cons b mid => exact absurd hd (hafter' d (by rw [(List.cons.inj hmid).2]; simp))

/-- A visited entry is the root, or comes from the last declaration of its file in another. -/
theorem last_visit {e : Pending t root} (he : e ∈ visits x t root) : e = rootEntry t root ∨
    ∃ g ∈ visits x t root, ∃ d, LastDeclares x t root g.file d e.file ∧
      e.path = g.path ++ [d.name] ∧
      e.testOnly = (g.testOnly || gatedByCfgTest x (attrsIn t g.file d)) := by
  refine (StackWalk.last_run (w := moduleWalk x) _ e he).imp_right ?_
  rintro ⟨after, ⟨g, hg, before, hnext⟩, hafter⟩
  obtain ⟨ds, ds', hsplit, -, hback⟩ := List.filterMap_eq_append_iff.mp hnext
  obtain ⟨front, d, back, rfl, hfront, hd, rfl⟩ := List.filterMap_eq_cons_iff.mp hback
  obtain ⟨hopens, hfile, hpath, htest⟩ := childOf_eq_some hd
  have hdecls : declsOf x t g.file = (ds ++ front) ++ d :: back := by
    rw [hsplit, List.append_assoc]
  refine ⟨g, hg, d, ⟨⟨by rw [hdecls]; simp, hopens, hfile⟩, _, _, hdecls, ?_⟩, hpath, htest⟩
  intro a ha hdeclares
  obtain ⟨c, hc, hcfile⟩ := childOf_of_declares hdeclares
  exact hafter c (List.mem_filterMap.mpr ⟨a, ha, hc⟩) hcfile

theorem names_of_puts {e : Pending t root} (he : e ∈ visits x t root) {path : ModPath}
    (h : Puts x e path) : Names x t root path e.file := by
  obtain ⟨passed, hchain⟩ := chain_of_visits he
  rcases h with rfl | ⟨d, hd, hopens, rfl⟩
  · exact .inl ⟨passed, hchain⟩
  · exact .inr ⟨_, passed, d, hchain, hd, hopens, rfl⟩

/-! ## When the tree is right -/

theorem names_of_lookup {path : ModPath} {file : List Char}
    (h : (buildCrateModules x t root).byPath.lookup path = some file) :
    Names x t root path file := by
  rw [buildCrateModules_eq] at h
  obtain ⟨e, he, rfl, hputs⟩ := lookup_treeOf h
  exact names_of_puts he hputs

/-- The chains to a file have one module path. -/
def OnePath (x : Regexes) (t : Tree) (root : List Char) : Prop :=
  ∀ file path path' passed passed', Chain x t root path file passed →
    Chain x t root path' file passed' → path = path'

theorem mem_byPath_of_names (hone : OnePath x t root) {path : ModPath} {file : List Char}
    (h : Names x t root path file) : path ∈ (buildCrateModules x t root).byPath := by
  rw [buildCrateModules_eq]
  rcases h with ⟨passed, hchain⟩ | ⟨front, passed, d, hchain, hd, hopens, rfl⟩
  · obtain ⟨e, he, rfl⟩ := visits_of_chain hchain
    obtain ⟨passed', hchain'⟩ := chain_of_visits he
    exact mem_treeOf he (.inl (hone _ _ _ _ _ hchain hchain'))
  · obtain ⟨e, he, rfl⟩ := visits_of_chain hchain
    obtain ⟨passed', hchain'⟩ := chain_of_visits he
    refine mem_treeOf he (.inr ⟨d, hd, hopens, ?_⟩)
    rw [hone _ _ _ _ _ hchain hchain']

theorem mem_testOnly_iff {e : Pending t root} (he : e ∈ visits x t root) :
    e.file ∈ (buildCrateModules x t root).testOnly ↔ e.testOnly = true := by
  rw [buildCrateModules_eq, mem_testOnly_treeOf]
  constructor
  · rintro ⟨e', he', hfile, htest⟩
    rwa [← eq_of_file_eq he' he hfile]
  · exact fun h => ⟨e, he, rfl, h⟩

theorem Chain.last {path : ModPath} {file : List Char} {passed : List (List Char)}
    (h : Chain x t root path file passed) : (path = [] ∧ file = root ∧ passed = []) ∨
      ∃ front g passed' d, Chain x t root front g passed' ∧ Declares x t root g d file ∧
        path = front ++ [d.name] ∧ passed = passed' ++ [attrsIn t g d] := by
  cases h with
  | root => exact .inl ⟨rfl, rfl, rfl⟩
  | decl h hd => exact .inr ⟨_, _, _, _, h, hd, rfl, rfl⟩

section

variable (hfile : ∀ path file file', Names x t root path file → Names x t root path file' →
  file = file') (hone : OnePath x t root)

include hfile hone

theorem parent_eq {path path' : ModPath} {file file' child : List Char}
    {passed passed' : List (List Char)} {d d' : ModDecl} (h : Chain x t root path file passed)
    (hd : Declares x t root file d child) (h' : Chain x t root path' file' passed')
    (hd' : Declares x t root file' d' child) : file' = file := by
  have hpath := hone _ _ _ _ _ (h.decl hd) (h'.decl hd')
  obtain rfl := (List.append_inj' hpath rfl).1
  exact hfile path _ _ (.inl ⟨_, h'⟩) (.inl ⟨_, h⟩)

theorem ne_root_of_declares {path : ModPath} {file child : List Char}
    {passed : List (List Char)} {d : ModDecl} (h : Chain x t root path file passed)
    (hd : Declares x t root file d child) : child ≠ root := by
  rintro rfl
  exact absurd (hone _ _ _ _ _ (h.decl hd) .root) (by simp)

/-- A child of a file with an ungated chain is gated just if all its declarations are. -/
theorem allGated_child {path : ModPath} {file child : List Char} {passed : List (List Char)}
    {d : ModDecl} (h : Chain x t root path file passed)
    (hopen : ¬ ∃ attrs ∈ passed, Gates x attrs) (hd : Declares x t root file d child) :
    AllGated x t root child ↔
      ∀ d', Declares x t root file d' child → Gates x (attrsIn t file d') := by
  constructor
  · intro hall d' hd'
    obtain ⟨attrs, hmem, hgate⟩ := hall _ _ (h.decl hd')
    rcases List.mem_append.mp hmem with hmem | hmem
    · exact absurd ⟨attrs, hmem, hgate⟩ hopen
    · exact List.mem_singleton.mp hmem ▸ hgate
  · intro hall path' passed' h'
    rcases h'.last with ⟨-, hroot, -⟩ | ⟨front, g, passed'', d', hg, hd', -, rfl⟩
    · exact absurd hroot (ne_root_of_declares hfile hone h hd)
    · obtain rfl := parent_eq hfile hone h hd hg hd'
      exact ⟨_, by simp, hall d' hd'⟩

theorem AllGated.child {path : ModPath} {file child : List Char} {passed : List (List Char)}
    {d : ModDecl} (hall : AllGated x t root file) (h : Chain x t root path file passed)
    (hd : Declares x t root file d child) : AllGated x t root child := by
  intro path' passed' h'
  rcases h'.last with ⟨-, hroot, -⟩ | ⟨front, g, passed'', d', hg, hd', -, rfl⟩
  · exact absurd hroot (ne_root_of_declares hfile hone h hd)
  · obtain rfl := parent_eq hfile hone h hd hg hd'
    obtain ⟨attrs, hmem, hgate⟩ := hall _ _ hg
    exact ⟨attrs, List.mem_append_left _ hmem, hgate⟩

theorem visit_child {g e : Pending t root} (hg : g ∈ visits x t root)
    (he : e ∈ visits x t root) {d : ModDecl} (hd : Declares x t root g.file d e.file) :
    ∃ d', LastDeclares x t root g.file d' e.file ∧
      e.testOnly = (g.testOnly || gatedByCfgTest x (attrsIn t g.file d')) := by
  obtain ⟨passed, hchain⟩ := chain_of_visits hg
  rcases last_visit he with rfl | ⟨g', hg', d', hd', -, htest⟩
  · exact absurd rfl (ne_root_of_declares hfile hone hchain hd)
  · obtain ⟨passed', hchain'⟩ := chain_of_visits hg'
    obtain rfl := eq_of_file_eq hg' hg (parent_eq hfile hone hchain hd hchain' hd'.1)
    exact ⟨d', hd', htest⟩

theorem testOnly_iff (hlast : ∀ path file passed, Chain x t root path file passed →
      (¬ ∃ attrs ∈ passed, Gates x attrs) → ∀ d child, LastDeclares x t root file d child →
        (gatedByCfgTest x (attrsIn t file d) = true ↔
          ∀ d', Declares x t root file d' child → Gates x (attrsIn t file d')))
    {path : ModPath} {file : List Char} {passed : List (List Char)}
    (h : Chain x t root path file passed) : ∀ e ∈ visits x t root, e.file = file →
      (e.testOnly = true ↔ AllGated x t root file) := by
  induction h with
  | root =>
      rintro e he hroot
      have hungated : ¬ AllGated x t root root := fun hall => by
        obtain ⟨attrs, hmem, -⟩ := hall _ _ .root
        exact absurd hmem List.not_mem_nil
      rcases last_visit he with rfl | ⟨g, hg, d, hd, -, -⟩
      · exact ⟨fun h => (by cases h), fun h => absurd h hungated⟩
      · obtain ⟨passed, hchain⟩ := chain_of_visits hg
        exact absurd hroot (ne_root_of_declares hfile hone hchain hd.1)
  | decl h hd ih =>
      rintro e he rfl
      obtain ⟨g, hg, rfl⟩ := visits_of_chain h
      obtain ⟨d', hd', htest⟩ := visit_child hfile hone hg he hd
      have hgate := ih g hg rfl
      by_cases hall : AllGated x t root g.file
      · rw [htest, hgate.mpr hall]
        exact ⟨fun _ => hall.child hfile hone h hd, fun _ => rfl⟩
      · have hopen : g.testOnly = false := Bool.eq_false_iff.mpr fun h => hall (hgate.mp h)
        obtain ⟨path', passed', hchain', hungated⟩ : ∃ path' passed',
            Chain x t root path' g.file passed' ∧ ¬ ∃ attrs ∈ passed', Gates x attrs := by
          simpa only [AllGated, not_forall, exists_prop] using hall
        rw [htest, hopen, Bool.false_or, hlast _ _ _ hchain' hungated d' _ hd',
          allGated_child hfile hone hchain' hungated hd]

end

/-- A file of a tree that has all module paths with their files has one path: its other paths
would be inline modules of it, and then it declares itself. -/
theorem onePath_of_names (h : ∀ path file,
    (buildCrateModules x t root).byPath.lookup path = some file ↔ Names x t root path file) :
    OnePath x t root := by
  have hfile : ∀ path file file', Names x t root path file → Names x t root path file' →
      file = file' := fun path file file' hn hn' => by
    have hlookup := (h path file).mpr hn
    rw [(h path file').mpr hn'] at hlookup
    exact (Option.some.inj hlookup).symm
  -- a path of the file is that of its visit, or an inline module there
  have hputs : ∀ {e : Pending t root} {path passed}, e ∈ visits x t root →
      Chain x t root path e.file passed → Puts x e path := by
    intro e path passed he hchain
    have hlookup := (h path e.file).mpr (.inl ⟨passed, hchain⟩)
    rw [buildCrateModules_eq] at hlookup
    obtain ⟨e', he', heq, hp⟩ := lookup_treeOf hlookup
    rwa [eq_of_file_eq he' he heq] at hp
  have hvisit : ∀ {e : Pending t root} {path passed}, e ∈ visits x t root →
      Chain x t root path e.file passed → path = e.path := by
    intro e path passed he hchain
    rcases hputs he hchain with hpath | ⟨d, -, -, hpath⟩
    · exact hpath
    · obtain ⟨passed₀, hchain₀⟩ := chain_of_visits he
      rcases hchain.last with ⟨rfl, -, -⟩ | ⟨front, g, passed', d', hg, hd', rfl, rfl⟩
      · exact absurd hpath (by simp)
      · obtain ⟨hfront, hname⟩ := List.append_inj' hpath rfl
        obtain rfl := hfront
        obtain rfl := hfile _ _ _ (.inl ⟨_, hg⟩) (.inl ⟨_, hchain₀⟩)
        -- the file declares itself, and has a path that is too long
        have htwice := hputs he (hchain.decl hd')
        rcases htwice with htwice | ⟨d'', -, -, htwice⟩
        · have hlength := congrArg List.length htwice
          simp only [List.length_append, List.length_singleton] at hlength
          omega
        · have hlength := congrArg List.length htwice
          simp only [List.length_append, List.length_singleton] at hlength
          omega
  intro file path path' passed passed' hchain hchain'
  obtain ⟨e, he, rfl⟩ := visits_of_chain hchain
  rw [hvisit he hchain, hvisit he hchain']

/-- What holds of the tree is named by the declarations; with one module path a file all that they
name holds; and the tree has just the named paths with their files and the gated files just if the
declarations are settled. -/
theorem buildCrateModules_iff (x : Regexes) (t : Tree) (root : List Char) :
    (∀ path file, (buildCrateModules x t root).byPath.lookup path = some file →
      Names x t root path file) ∧
    (OnePath x t root → ∀ path, path ∈ (buildCrateModules x t root).byPath ↔
      ∃ file, Names x t root path file) ∧
    ((∀ path file, (buildCrateModules x t root).byPath.lookup path = some file ↔
        Names x t root path file) ∧
      (∀ file, file ∈ (buildCrateModules x t root).testOnly ↔
        (∃ path passed, Chain x t root path file passed) ∧ AllGated x t root file) ↔
      Settled x t root) := by
  have hmem : ∀ {path}, path ∈ (buildCrateModules x t root).byPath →
      ∃ file, (buildCrateModules x t root).byPath.lookup path = some file := fun h =>
    Option.isSome_iff_exists.mp (AList.lookup_isSome.mpr h)
  refine ⟨fun _ _ => names_of_lookup, fun hone path => ⟨fun h => ?_, ?_⟩, ?_, ?_⟩
  · obtain ⟨file, hlookup⟩ := hmem h
    exact ⟨file, names_of_lookup hlookup⟩
  · rintro ⟨file, hnames⟩
    exact mem_byPath_of_names hone hnames
  · rintro ⟨hpaths, htests⟩
    have hone := onePath_of_names hpaths
    have hfile : ∀ path file file', Names x t root path file → Names x t root path file' →
        file = file' := fun path file file' hn hn' => by
      have hlookup := (hpaths path file).mpr hn
      rw [(hpaths path file').mpr hn'] at hlookup
      exact (Option.some.inj hlookup).symm
    refine ⟨hfile, hone, fun path file passed hchain hungated d child hd => ?_⟩
    obtain ⟨g, hg, rfl⟩ := visits_of_chain hchain
    obtain ⟨e, he, rfl⟩ := visits_of_chain (hchain.decl hd.1)
    obtain ⟨d', hd', htest⟩ := visit_child hfile hone hg he hd.1
    have hopen : g.testOnly = false := Bool.eq_false_iff.mpr fun h =>
      hungated (((htests g.file).mp ((mem_testOnly_iff hg).mpr h)).2 _ _ hchain)
    obtain rfl := hd.eq hd'
    have hboth := (mem_testOnly_iff he).symm.trans (htests e.file)
    rw [htest, hopen, Bool.false_or, allGated_child hfile hone hchain hungated hd.1] at hboth
    exact hboth.trans (and_iff_right ⟨_, _, hchain.decl hd.1⟩)
  · intro hsettled
    obtain ⟨hfile, hone, hlast⟩ := hsettled
    refine ⟨fun path file => ⟨names_of_lookup, fun hnames => ?_⟩, fun file => ⟨fun h => ?_, ?_⟩⟩
    · obtain ⟨file', hlookup⟩ := hmem (mem_byPath_of_names hone hnames)
      rw [hlookup, hfile _ _ _ (names_of_lookup hlookup) hnames]
    · have h' := h
      rw [buildCrateModules_eq, mem_testOnly_treeOf] at h'
      obtain ⟨e, he, rfl, htest⟩ := h'
      obtain ⟨passed, hchain⟩ := chain_of_visits he
      exact ⟨⟨_, _, hchain⟩, (testOnly_iff hfile hone hlast hchain e he rfl).mp htest⟩
    · rintro ⟨⟨path, passed, hchain⟩, hall⟩
      obtain ⟨e, he, rfl⟩ := visits_of_chain hchain
      exact (mem_testOnly_iff he).mpr ((testOnly_iff hfile hone hlast hchain e he rfl).mpr hall)

/-! ## A file that is declared twice -/

/-- `x.rs` as a module of the crate, and as a test module. -/
def twiceText : List Char :=
  "mod x;\n#[cfg(test)]\n#[path = \"x.rs\"]\nmod y;\n".toList

def twiceTree : Tree where
  files := ["lib.rs".toList, "x.rs".toList]
  text file := if file = "lib.rs".toList then some twiceText else some []

def twiceRegexes : Regexes where
  modDecl code := if code = [] then [] else
    [⟨0, (0, 0), "x".toList, false⟩, ⟨7, (7, 37), "y".toList, false⟩]
  pathAttr attrs := if attrs = [] then none else some "x.rs".toList
  cfgAttr attrs := if attrs = [] then [] else ["test".toList]

def twiceEntry (name : List Char) (testOnly : Bool) : Pending twiceTree "lib.rs".toList where
  path := [name]
  file := "x.rs".toList
  testOnly := testOnly
  found := by decide

/-- The tree lacks the module `x` of the crate, and takes its file for test-only. -/
theorem buildCrateModules_twice :
    let m := buildCrateModules twiceRegexes twiceTree "lib.rs".toList
    Chain twiceRegexes twiceTree "lib.rs".toList ["x".toList] "x.rs".toList [[]] ∧
      (¬ ∃ attrs ∈ [[]], Gates twiceRegexes attrs) ∧
      ["x".toList] ∉ m.byPath ∧ "x.rs".toList ∈ m.testOnly := by
  have hdecl : Declares twiceRegexes twiceTree "lib.rs".toList "lib.rs".toList
      ⟨0, (0, 0), "x".toList, false⟩ "x.rs".toList := by
    refine ⟨?_, rfl, ?_⟩ <;> decide +kernel
  have hattrs : attrsIn twiceTree "lib.rs".toList ⟨0, (0, 0), "x".toList, false⟩ = [] := by
    decide +kernel
  have hroot : (moduleWalk twiceRegexes).push (rootEntry twiceTree "lib.rs".toList) [] =
      [twiceEntry "y".toList true, twiceEntry "x".toList false] := by
    decide +kernel
  have hfile : (moduleWalk twiceRegexes).push (twiceEntry "y".toList true)
      [twiceEntry "x".toList false] = [twiceEntry "x".toList false] := by
    decide +kernel
  dsimp only
  rw [buildCrateModules, walk_visit _ (by decide), hroot, walk_visit _ (by decide +kernel), hfile,
    walk_skip _ (by decide +kernel), walk]
  refine ⟨?_, ?_, by decide +kernel, by decide +kernel⟩
  · have hchain := Chain.root.decl hdecl
    rwa [hattrs] at hchain
  · rintro ⟨attrs, hmem, predicate, hpredicate, -⟩
    rw [List.mem_singleton.mp hmem] at hpredicate
    cases hpredicate

end RustModules

end Dagayn
