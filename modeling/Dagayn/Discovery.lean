import Dagayn.DetectLanguage
import Dagayn.IgnorePatterns
import Dagayn.PathWalk
import Dagayn.ScipIndex

/-!
# The files that are indexed

`collect_parseable_files` takes the candidates that git lists, or else those that `walk_files`
meets, and keeps those that no pattern matches and that a parser reads. git names the entries of
the tree and never goes through a link. The walk goes through a link to a directory, and it does
not go into a directory whose own path matches a pattern, also where the pattern is one for files;
`collectParseableFiles_spec` says which files come out of it.
-/

namespace Dagayn

open RelPath Languages

def normals (path : List (List Char)) : List Component := path.map .normal

/-- The glob library, and what the system answers about a path below the root of the repository,
links followed but for `isSymlink`. -/
structure FileSystem where
  globs : Globset
  readDir : List (List Char) → Option (List (List Char))
  isDir : List Component → Bool
  isFile : List Component → Bool
  isSymlink : List Component → Bool
  read : List Component → Option (List UInt8)
  nodup : ∀ {dir names}, readDir dir = some names → names.Nodup
  proper : ∀ {dir names}, readDir dir = some names →
    ∀ c ∈ names, c ≠ [] ∧ c ≠ ['.'] ∧ c ≠ ['.', '.'] ∧ '/' ∉ c
  isDir_of_readDir : ∀ {dir names}, readDir dir = some names → isDir (normals dir) = true
  isFile_of_isDir : ∀ {path}, isDir path = true → isFile path = false
  /-- A path that goes round through links ends where it is too long, or has too many of them. -/
  limit : Nat
  length_le_limit : ∀ {dir : List (List Char)}, isDir (normals dir) = true →
    dir.length ≤ limit

def writtenPath (path : List (List Char)) : List Char :=
  (List.intercalate ['/'] path).map fun c => if c = '\\' then '/' else c

namespace FileSystem

variable (fs : FileSystem) (patterns : List (List Char))

def entries (dir : List (List Char)) : List (List Char) := (fs.readDir dir).getD []

/-- The loop body of `walk_files`, for a name in a directory; the stack has its top in front. -/
def walkEntry (dir : List (List Char)) (acc : List (List (List Char)) × List (List Char))
    (name : List Char) : List (List (List Char)) × List (List Char) :=
  let path := dir ++ [name]
  if fs.isDir (normals path) then
    if shouldIgnoreRs fs.globs (writtenPath path) patterns then acc else (path :: acc.1, acc.2)
  else if !fs.isFile (normals path) then acc
  else (acc.1, acc.2 ++ [writtenPath path])

theorem nodup_entries (dir : List (List Char)) : (fs.entries dir).Nodup := by
  rw [entries]
  cases h : fs.readDir dir with
  | none => exact List.nodup_nil
  | some names => exact fs.nodup h

theorem proper_of_mem_entries {dir : List (List Char)} {name : List Char}
    (hname : name ∈ fs.entries dir) :
    name ≠ [] ∧ name ≠ ['.'] ∧ name ≠ ['.', '.'] ∧ '/' ∉ name := by
  rw [entries] at hname
  cases h : fs.readDir dir with
  | none => rw [h] at hname; cases hname
  | some names => exact fs.proper h name (by rwa [h] at hname)

theorem isDir_of_mem_entries {dir : List (List Char)} {name : List Char}
    (hname : name ∈ fs.entries dir) : fs.isDir (normals dir) = true := by
  rw [entries] at hname
  cases h : fs.readDir dir with
  | none => rw [h] at hname; cases hname
  | some names => exact fs.isDir_of_readDir h

def subdirs : PathWalk (List Char) where
  next dir := (fs.entries dir).filter fun name =>
    fs.isDir (normals (dir ++ [name])) &&
      !shouldIgnoreRs fs.globs (writtenPath (dir ++ [name])) patterns
  nodup dir := (fs.nodup_entries dir).filter _
  depth := fs.limit
  next_deep dir hdeep := by
    refine List.filter_eq_nil_iff.mpr fun name _ hkeep => ?_
    have hle := fs.length_le_limit (Bool.and_eq_true_iff.mp hkeep).1
    rw [List.length_append, List.length_singleton] at hle
    omega

def filesIn (dir : List (List Char)) : List (List (List Char)) :=
  ((fs.entries dir).filter fun name => fs.isFile (normals (dir ++ [name]))).map
    fun name => dir ++ [name]

/-- What the loop over the entries of a directory adds to the stack and to the files. -/
theorem foldl_walkEntry (dir : List (List Char)) (stack : List (List (List Char)))
    (out : List (List Char)) :
    (fs.entries dir).foldl (fs.walkEntry patterns dir) (stack, out) =
      (((fs.subdirs patterns).children dir).reverse ++ stack,
        out ++ (fs.filesIn dir).map writtenPath) := by
  rw [PathWalk.children, filesIn]
  change _ = ((((fs.entries dir).filter _).map _).reverse ++ stack, _)
  generalize fs.entries dir = names
  induction names generalizing stack out with
  | nil => simp
  | cons name names ih =>
      rw [List.foldl_cons, walkEntry]
      by_cases hdir : fs.isDir (normals (dir ++ [name])) = true
      · have hfile := fs.isFile_of_isDir hdir
        by_cases hign : shouldIgnoreRs fs.globs (writtenPath (dir ++ [name])) patterns = true
        · simp only [hdir, hign, if_true, ih]
          rw [List.filter_cons_of_neg (by simp [hign]), List.filter_cons_of_neg (by simp [hfile])]
        · simp only [hdir, hign, if_true, if_false, Bool.false_eq_true, ih]
          rw [List.filter_cons_of_pos (by simp [hdir, hign]),
            List.filter_cons_of_neg (by simp [hfile]), List.map_cons, List.reverse_cons,
            List.append_assoc]
          rfl
      · by_cases hfile : fs.isFile (normals (dir ++ [name])) = true
        · simp only [hdir, hfile, Bool.not_true, if_false, Bool.false_eq_true, ih]
          rw [List.filter_cons_of_neg (by simp [hdir]), List.filter_cons_of_pos (by simp [hfile]),
            List.map_cons, List.map_cons, List.append_assoc]
          rfl
        · simp only [hdir, hfile, Bool.not_false, if_true, if_false, Bool.false_eq_true, ih]
          rw [List.filter_cons_of_neg (by simp [hdir]), List.filter_cons_of_neg (by simp [hfile])]

/-- The loop of `walk_files`. -/
def walkFrom : List (List (List Char)) → List (List Char) → List (List Char)
  | [], out => out
  | dir :: stack, out =>
      match _h : (fs.entries dir).foldl (fs.walkEntry patterns dir) (stack, out) with
      | (stack', out') => walkFrom stack' out'
termination_by stack => (stack.map (fs.subdirs patterns).size).sum
decreasing_by
  rw [foldl_walkEntry] at _h
  rw [← (Prod.mk.inj _h).1]
  exact (fs.subdirs patterns).sizes_lt dir stack

def walkFiles : List (List Char) := fs.walkFrom patterns [[]] []

def lastName (path : List Component) : Option (List Char) :=
  match path.getLast? with
  | some (.normal name) => some name
  | _ => none

/-- `filter_parseable_files` on one candidate. -/
def isParseable (text : List Char) : Bool :=
  let path := components text
  !shouldIgnoreRs fs.globs text patterns && (fs.isFile path && !fs.isSymlink path) &&
    ((detectLanguage (lastName path) (fs.read path)).isSome && !isBinary (fs.read path))

def filterParseableFiles (candidates : List (List Char)) : List (List Char) :=
  candidates.filter (fs.isParseable patterns)

def loadIgnorePatterns : List (List Char) :=
  let raw := (fs.read [.normal ".dagaynignore".toList]).bind fromUtf8
  defaultIgnorePatterns.map String.toList ++
    ((Scip.lines (raw.getD [])).map trim).filter fun line => line ≠ [] && line.head? ≠ some '#'

/-- `collect_parseable_files`, by what git lists. -/
def collectParseableFiles (listing : Option (List (List Char))) : List (List Char) :=
  let patterns := fs.loadIgnorePatterns
  let candidates := (listing.filter (· ≠ [])).getD (fs.walkFiles patterns)
  fs.filterParseableFiles patterns candidates

/-! ## What the walk reaches -/

variable {fs patterns}

/-- Every name on the way to a path is listed in the directory in front of it. -/
def InTree (fs : FileSystem) (path : List (List Char)) : Prop :=
  ∀ dir name, dir ++ [name] <+: path → name ∈ fs.entries dir

/-- A path is below the root, and above another. -/
def OnTheWay (dir path : List (List Char)) : Prop := dir ≠ [] ∧ dir <+: path ∧ dir ≠ path

/-- No directory on the way to a path matches a pattern. -/
def Open (fs : FileSystem) (patterns path : List (List Char)) : Prop :=
  ∀ dir, OnTheWay dir path → shouldIgnoreRs fs.globs (writtenPath dir) patterns = false

/-- No directory on the way to a path is a link. -/
def Direct (fs : FileSystem) (path : List (List Char)) : Prop :=
  ∀ dir, OnTheWay dir path → fs.isSymlink (normals dir) = false

theorem inTree_snoc {dir : List (List Char)} {name : List Char} :
    fs.InTree (dir ++ [name]) ↔ fs.InTree dir ∧ name ∈ fs.entries dir := by
  constructor
  · intro h
    exact ⟨fun d n hle => h d n (hle.trans (List.prefix_append _ _)),
      h dir name (List.prefix_refl _)⟩
  · rintro ⟨h, hname⟩ d n hle
    rcases List.prefix_concat_iff.mp hle with heq | hle
    · obtain ⟨rfl, hn⟩ := List.append_inj' heq rfl
      rwa [List.singleton_inj.mp hn]
    · exact h d n hle

theorem onTheWay_snoc {d dir : List (List Char)} {name : List Char} :
    OnTheWay d (dir ++ [name]) ↔ d ≠ [] ∧ d <+: dir := by
  rw [OnTheWay, List.prefix_concat_iff]
  constructor
  · rintro ⟨hne, heq | hle, hdiff⟩
    · exact absurd heq hdiff
    · exact ⟨hne, hle⟩
  · rintro ⟨hne, hle⟩
    refine ⟨hne, .inr hle, fun heq => ?_⟩
    have hlen := hle.length_le
    rw [heq, List.length_append, List.length_singleton] at hlen
    omega

/-- The walk comes to a directory of the tree when neither it nor one on its way is ignored. -/
theorem leads_iff {dir : List (List Char)} :
    (fs.subdirs patterns).Leads [] dir ↔ fs.InTree dir ∧
      ∀ d, d ≠ [] → d <+: dir → fs.isDir (normals d) = true ∧
        shouldIgnoreRs fs.globs (writtenPath d) patterns = false := by
  induction dir using List.reverseRecOn with
  | nil =>
      refine ⟨fun _ => ⟨fun d n hle => ?_, fun d hne hle => ?_⟩, fun _ => .refl _⟩
      · cases List.append_eq_nil_iff.mp (List.prefix_nil.mp hle) |>.2
      · exact absurd (List.prefix_nil.mp hle) hne
  | append_singleton dir name ih =>
      have hnext : name ∈ (fs.subdirs patterns).next dir ↔ name ∈ fs.entries dir ∧
          fs.isDir (normals (dir ++ [name])) = true ∧
            shouldIgnoreRs fs.globs (writtenPath (dir ++ [name])) patterns = false := by
        rw [subdirs, List.mem_filter, Bool.and_eq_true, Bool.not_eq_true']
      rw [PathWalk.leads_snoc, inTree_snoc, ih, hnext]
      constructor
      · rintro (hnil | ⟨⟨htree, hall⟩, hname, hlast⟩)
        · cases (List.append_eq_nil_iff.mp hnil.symm).2
        · refine ⟨⟨htree, hname⟩, fun d hne hle => ?_⟩
          rcases List.prefix_concat_iff.mp hle with rfl | hle
          · exact hlast
          · exact hall d hne hle
      · rintro ⟨⟨htree, hname⟩, hall⟩
        exact .inr ⟨⟨htree, fun d hne hle => hall d hne (hle.trans (List.prefix_append _ _))⟩,
          hname, hall _ (by simp) (List.prefix_refl _)⟩

/-- The paths of the files that the walk meets. -/
def met (fs : FileSystem) (patterns : List (List Char)) : List (List (List Char)) :=
  ((fs.subdirs patterns).run [[]]).flatMap fs.filesIn

theorem walkFrom_eq (stack : List (List (List Char))) (out : List (List Char)) :
    fs.walkFrom patterns stack out =
      out ++ (((fs.subdirs patterns).run stack).flatMap fs.filesIn).map writtenPath := by
  fun_induction walkFrom fs patterns stack out with
  | case1 out => rw [PathWalk.run, List.flatMap_nil, List.map_nil, List.append_nil]
  | case2 out dir stack stack' out' h ih =>
      rw [foldl_walkEntry] at h
      obtain ⟨rfl, rfl⟩ := Prod.mk.inj h
      rw [ih, PathWalk.run, List.flatMap_cons, List.map_append, List.append_assoc]

theorem walkFiles_eq : fs.walkFiles patterns = (fs.met patterns).map writtenPath := by
  rw [walkFiles, walkFrom_eq, List.nil_append, met]

/-- A file of the tree that the walk comes to. -/
structure Reached (fs : FileSystem) (patterns : List (List Char)) (p : RepoPath) : Prop where
  inTree : fs.InTree p.components
  isFile : fs.isFile (normals p.components) = true
  isOpen : fs.Open patterns p.components

theorem mem_filesIn {dir path : List (List Char)} :
    path ∈ fs.filesIn dir ↔ ∃ name ∈ fs.entries dir,
      fs.isFile (normals (dir ++ [name])) = true ∧ path = dir ++ [name] := by
  rw [filesIn, List.mem_map]
  simp only [List.mem_filter, and_assoc]
  exact exists_congr fun name => and_congr_right fun _ => and_congr_right fun _ => eq_comm

theorem InTree.toRepoPath {dir : List (List Char)} {name : List Char}
    (h : fs.InTree (dir ++ [name])) : ∃ p : RepoPath, p.components = dir ++ [name] := by
  refine ⟨⟨dir ++ [name], by simp, fun c hc => ?_⟩, rfl⟩
  obtain ⟨front, back, hsplit⟩ := List.append_of_mem hc
  refine fs.proper_of_mem_entries (h front c ⟨back, ?_⟩)
  rw [hsplit, List.append_assoc, List.singleton_append]

theorem mem_met {path : List (List Char)} :
    path ∈ fs.met patterns ↔ ∃ p, fs.Reached patterns p ∧ p.components = path := by
  rw [met, List.mem_flatMap]
  simp only [PathWalk.mem_run, List.mem_singleton, exists_eq_left, leads_iff, mem_filesIn]
  constructor
  · rintro ⟨dir, ⟨htree, hall⟩, name, hname, hfile, rfl⟩
    have htree' := inTree_snoc.mpr ⟨htree, hname⟩
    obtain ⟨p, hp⟩ := htree'.toRepoPath
    refine ⟨p, ⟨hp ▸ htree', hp ▸ hfile, fun d hway => ?_⟩, hp⟩
    rw [hp] at hway
    obtain ⟨hne, hle⟩ := onTheWay_snoc.mp hway
    exact (hall d hne hle).2
  · rintro ⟨p, hp, rfl⟩
    obtain ⟨dir, name, hlast⟩ := (List.eq_nil_or_concat' _).resolve_left p.nonempty
    obtain ⟨htree, hfile, hopen⟩ := hp
    rw [hlast] at htree hfile hopen ⊢
    obtain ⟨hdir, hname⟩ := inTree_snoc.mp htree
    refine ⟨dir, ⟨hdir, fun d hne hle => ⟨?_, hopen d (onTheWay_snoc.mpr ⟨hne, hle⟩)⟩⟩,
      name, hname, hfile, rfl⟩
    -- what stands behind `d` on the way is an entry of it
    obtain ⟨rest, rfl⟩ := hle
    have hentry : (rest ++ [name]).head (by simp) ∈ fs.entries d := by
      refine htree d _ ⟨(rest ++ [name]).tail, ?_⟩
      rw [List.append_assoc, List.append_assoc, List.singleton_append, List.cons_head_tail]
    exact fs.isDir_of_mem_entries hentry

theorem nodup_met : (fs.met patterns).Nodup := by
  refine List.nodup_flatMap.mpr ⟨fun dir _ => ?_, ?_⟩
  · exact ((fs.nodup_entries dir).filter _).map fun x y hxy =>
      List.singleton_inj.mp (List.append_cancel_left hxy)
  · refine List.Pairwise.imp ?_ (PathWalk.nodup_run (List.pairwise_singleton _ _))
    intro dir dir' hne path hpath hpath'
    obtain ⟨name, -, -, rfl⟩ := mem_filesIn.mp hpath
    obtain ⟨name', -, -, heq⟩ := mem_filesIn.mp hpath'
    exact hne (List.append_inj' heq rfl).1

/-! ## What is to be indexed -/

/-- A regular file of the tree that a parser reads, and whose own path no pattern matches. -/
structure Accepted (fs : FileSystem) (p : RepoPath) : Prop where
  inTree : fs.InTree p.components
  regular : fs.isFile (normals p.components) = true ∧ fs.isSymlink (normals p.components) = false
  indexable : (detectLanguage p.components.getLast? (fs.read (normals p.components))).isSome ∧
    isBinary (fs.read (normals p.components)) = false
  unmatched : shouldIgnoreRs fs.globs p.text fs.loadIgnorePatterns = false

structure Expected (fs : FileSystem) (p : RepoPath) : Prop extends fs.Accepted p where
  direct : fs.Direct p.components

/-- The paths are those of the expected files, each once. -/
def ExactlyExpected (fs : FileSystem) (paths : List (List Char)) : Prop :=
  paths.Nodup ∧ ∀ t, t ∈ paths ↔ ∃ p, fs.Expected p ∧ p.text = t

theorem lastName_normals (path : List (List Char)) : lastName (normals path) = path.getLast? := by
  rw [lastName, normals, List.getLast?_map]
  cases path.getLast? <;> rfl

theorem isParseable_text {p : RepoPath} (htree : fs.InTree p.components) :
    fs.isParseable fs.loadIgnorePatterns p.text = true ↔ fs.Accepted p := by
  have hpath : components p.text = normals p.components := components_text p
  simp only [isParseable, hpath, lastName_normals, Bool.and_eq_true, Bool.not_eq_true']
  constructor
  · rintro ⟨⟨hign, hreg⟩, hind⟩
    exact ⟨htree, hreg, hind, hign⟩
  · rintro ⟨-, hreg, hind, hign⟩
    exact ⟨⟨hign, hreg⟩, hind⟩

/-! ## What the walk gives -/

theorem repoPath_ext {p q : RepoPath} (h : p.components = q.components) : p = q := by
  cases p; cases q; cases h; rfl

theorem collect_none : fs.collectParseableFiles none =
    ((fs.met fs.loadIgnorePatterns).filter fun path =>
      fs.isParseable fs.loadIgnorePatterns (writtenPath path)).map writtenPath := by
  dsimp only [collectParseableFiles, Option.filter_none, Option.getD_none]
  rw [filterParseableFiles, walkFiles_eq, List.filter_map, Function.comp_def]

/-- The text of a file that the walk comes to is kept. -/
def Kept (fs : FileSystem) (p : RepoPath) : Prop :=
  fs.Reached fs.loadIgnorePatterns p ∧
    fs.isParseable fs.loadIgnorePatterns (writtenPath p.components) = true

theorem mem_collect {t : List Char} :
    t ∈ fs.collectParseableFiles none ↔ ∃ p, fs.Kept p ∧ writtenPath p.components = t := by
  rw [collect_none, List.mem_map]
  simp only [List.mem_filter, mem_met]
  constructor
  · rintro ⟨_, ⟨⟨p, hp, rfl⟩, hkeep⟩, rfl⟩
    exact ⟨p, ⟨hp, hkeep⟩, rfl⟩
  · rintro ⟨p, ⟨hp, hkeep⟩, rfl⟩
    exact ⟨_, ⟨⟨p, hp, rfl⟩, hkeep⟩, rfl⟩

theorem nodup_collect : (fs.collectParseableFiles none).Nodup ↔
    ∀ p q, fs.Kept p → fs.Kept q → writtenPath p.components = writtenPath q.components → p = q := by
  rw [collect_none, List.nodup_map_iff_inj_on (nodup_met.filter _)]
  simp only [List.mem_filter, mem_met]
  constructor
  · intro h p q hp hq heq
    exact repoPath_ext (h _ ⟨⟨p, hp.1, rfl⟩, hp.2⟩ _ ⟨⟨q, hq.1, rfl⟩, hq.2⟩ heq)
  · rintro h _ ⟨⟨p, hp, rfl⟩, hkeep⟩ _ ⟨⟨q, hq, rfl⟩, hkeep'⟩ heq
    rw [h p q ⟨hp, hkeep⟩ ⟨hq, hkeep'⟩ heq]

/-- Every kept text stands for one file that the walk came to, and for one that is expected; and
the walk came to something for every expected file. -/
structure WrittenApart (fs : FileSystem) : Prop where
  apart : ∀ p q, fs.Kept p → fs.Kept q →
    writtenPath p.components = writtenPath q.components → p = q
  expected : ∀ p, fs.Kept p → ∃ q, fs.Expected q ∧ q.text = writtenPath p.components
  reached : ∀ p, fs.Expected p → ∃ q, fs.Reached fs.loadIgnorePatterns q ∧
    writtenPath q.components = p.text

theorem exactlyExpected_iff :
    fs.ExactlyExpected (fs.collectParseableFiles none) ↔ fs.WrittenApart := by
  constructor
  · rintro ⟨hnodup, hmem⟩
    refine ⟨nodup_collect.mp hnodup, fun p hp => ?_, fun p hp => ?_⟩
    · exact (hmem _).mp (mem_collect.mpr ⟨p, hp, rfl⟩)
    · obtain ⟨q, hq, heq⟩ := mem_collect.mp ((hmem _).mpr ⟨p, hp, rfl⟩)
      exact ⟨q, hq.1, heq⟩
  · intro h
    refine ⟨nodup_collect.mpr h.apart, fun t => mem_collect.trans ⟨?_, ?_⟩⟩
    · rintro ⟨p, hp, rfl⟩
      exact h.expected p hp
    · rintro ⟨p, hp, rfl⟩
      obtain ⟨q, hq, heq⟩ := h.reached p hp
      refine ⟨q, ⟨hq, ?_⟩, heq⟩
      rw [heq]
      exact (isParseable_text hp.inTree).mpr hp.toAccepted

/-! ## Trees without a backslash -/

/-- No name of the tree has a backslash, which the walk writes as a separator. -/
def NoBackslash (fs : FileSystem) : Prop := ∀ dir, ∀ name ∈ fs.entries dir, '\\' ∉ name

theorem map_intercalate {f : Char → Char} (hf : f '/' = '/') (names : List (List Char)) :
    (List.intercalate ['/'] names).map f = List.intercalate ['/'] (names.map (List.map f)) := by
  induction names with
  | nil => rfl
  | cons name rest ih =>
      cases rest with
      | nil => simp
      | cons next rest =>
          rw [List.intercalate_cons_cons, List.map_append, List.map_append, ih, List.map_cons,
            List.map_nil, hf]
          exact List.intercalate_cons_cons.symm

theorem writtenPath_eq_text (hplain : fs.NoBackslash) {p : RepoPath}
    (htree : fs.InTree p.components) : writtenPath p.components = p.text := by
  rw [writtenPath, map_intercalate (by decide), RepoPath.text]
  refine congrArg _ ((List.map_congr_left fun name hname => ?_).trans (List.map_id _))
  obtain ⟨front, back, hsplit⟩ := List.append_of_mem hname
  have hentry : name ∈ fs.entries front := by
    refine htree front name ⟨back, ?_⟩
    rw [hsplit, List.append_assoc, List.singleton_append]
  refine (List.map_congr_left fun c hc => if_neg ?_).trans (List.map_id _)
  rintro rfl
  exact hplain front name hentry hc

theorem text_injective {p q : RepoPath} (h : p.text = q.text) : p = q := by
  refine repoPath_ext ?_
  rw [← p.splitOn_text, h, q.splitOn_text]

theorem kept_iff (hplain : fs.NoBackslash) {p : RepoPath} :
    fs.Kept p ↔ fs.Accepted p ∧ fs.Open fs.loadIgnorePatterns p.components := by
  constructor
  · rintro ⟨⟨htree, -, hopen⟩, hkeep⟩
    rw [writtenPath_eq_text hplain htree, isParseable_text htree] at hkeep
    exact ⟨hkeep, hopen⟩
  · rintro ⟨hacc, hopen⟩
    refine ⟨⟨hacc.inTree, hacc.regular.1, hopen⟩, ?_⟩
    rwa [writtenPath_eq_text hplain hacc.inTree, isParseable_text hacc.inTree]

/-- Without a backslash the texts are the paths; what can go wrong is a file behind a link to a
directory, and one in a directory whose path matches a pattern. -/
theorem writtenApart_iff (hplain : fs.NoBackslash) :
    fs.WrittenApart ↔ ∀ p, fs.Accepted p →
      (fs.Direct p.components ↔ fs.Open fs.loadIgnorePatterns p.components) := by
  constructor
  · intro h p hacc
    constructor
    · intro hdirect
      obtain ⟨q, hq, heq⟩ := h.reached p ⟨hacc, hdirect⟩
      rw [writtenPath_eq_text hplain hq.inTree] at heq
      exact text_injective heq ▸ hq.isOpen
    · intro hopen
      obtain ⟨q, hq, heq⟩ := h.expected p ((kept_iff hplain).mpr ⟨hacc, hopen⟩)
      rw [writtenPath_eq_text hplain hacc.inTree] at heq
      exact text_injective heq ▸ hq.direct
  · intro h
    refine ⟨fun p q hp hq heq => ?_, fun p hp => ?_, fun p hp => ?_⟩
    · rw [writtenPath_eq_text hplain hp.1.inTree, writtenPath_eq_text hplain hq.1.inTree] at heq
      exact text_injective heq
    · obtain ⟨hacc, hopen⟩ := (kept_iff hplain).mp hp
      exact ⟨p, ⟨hacc, (h p hacc).mpr hopen⟩, (writtenPath_eq_text hplain hacc.inTree).symm⟩
    · have hopen := (h p hp.toAccepted).mp hp.direct
      exact ⟨p, ⟨hp.inTree, hp.regular.1, hopen⟩, writtenPath_eq_text hplain hp.inTree⟩

/-- When the walk gives the expected files. -/
theorem collect_iff (fs : FileSystem) :
    (fs.ExactlyExpected (fs.collectParseableFiles none) ↔ fs.WrittenApart) ∧
      (fs.NoBackslash → (fs.ExactlyExpected (fs.collectParseableFiles none) ↔
        ∀ p, fs.Accepted p →
          (fs.Direct p.components ↔ fs.Open fs.loadIgnorePatterns p.components))) :=
  ⟨exactlyExpected_iff, fun hplain => exactlyExpected_iff.trans (writtenApart_iff hplain)⟩

/-- A file `x.py` and a link `loop` to the directory that both are in. -/
def looped : FileSystem where
  globs := dirGlobs
  readDir dir :=
    if dir.length ≤ 40 ∧ ∀ name ∈ dir, name = "loop".toList then
      some ["x.py".toList, "loop".toList]
    else none
  isDir path := path.length ≤ 40 ∧ ∀ part ∈ path, part = .normal "loop".toList
  isFile path := path.length ≤ 41 ∧ path.getLast? = some (.normal "x.py".toList) ∧
    ∀ part ∈ path.dropLast, part = .normal "loop".toList
  isSymlink path := path ≠ [] ∧ path.length ≤ 41 ∧ ∀ part ∈ path, part = .normal "loop".toList
  read path := if path.getLast? = some (.normal "x.py".toList) then some [] else none
  nodup h := by
    split at h
    · cases h; decide
    · cases h
  proper h := by
    split at h
    · cases h; decide
    · cases h
  isDir_of_readDir h := by
    split at h
    · rename_i hdir
      refine decide_eq_true ⟨by simpa [normals] using hdir.1, fun part hpart => ?_⟩
      obtain ⟨name, hname, rfl⟩ := List.mem_map.mp hpart
      exact congrArg _ (hdir.2 name hname)
    · cases h
  isFile_of_isDir h := by
    refine decide_eq_false fun hfile => ?_
    have hlast := (of_decide_eq_true h).2 _ (List.mem_of_getLast? hfile.2.1)
    exact absurd hlast (by decide)
  limit := 40
  length_le_limit h := by simpa [normals] using (of_decide_eq_true h).1

/-- A directory `a.lock` with a file `x.py` in it. -/
def locked : FileSystem where
  globs := dirGlobs
  readDir dir :=
    if dir = [] then some ["a.lock".toList]
    else if dir = ["a.lock".toList] then some ["x.py".toList]
    else none
  isDir path := path = [] ∨ path = [.normal "a.lock".toList]
  isFile path := path = [.normal "a.lock".toList, .normal "x.py".toList]
  isSymlink _ := false
  read path := if path = [.normal "a.lock".toList, .normal "x.py".toList] then some [] else none
  nodup h := by
    split at h
    · cases h; decide
    · split at h
      · cases h; decide
      · cases h
  proper h := by
    split at h
    · cases h; decide
    · split at h
      · cases h; decide
      · cases h
  isDir_of_readDir h := by
    split at h
    · rename_i hdir; subst hdir; rfl
    · split at h
      · rename_i hdir; subst hdir; rfl
      · cases h
  isFile_of_isDir h := by
    rcases of_decide_eq_true h with rfl | rfl <;> decide
  limit := 1
  length_le_limit h := by
    rcases of_decide_eq_true h with h | h
    · have hlen := congrArg List.length h
      simp [normals] at hlen
      simp [hlen]
    · have hlen := congrArg List.length h
      simp [normals] at hlen
      simp [hlen]

theorem noBackslash_looped : looped.NoBackslash := by
  intro dir name hname
  rw [entries] at hname
  dsimp only [looped] at hname
  split at hname
  · exact (by decide : ∀ name ∈ ["x.py".toList, "loop".toList], '\\' ∉ name) name hname
  · cases hname

theorem noBackslash_locked : locked.NoBackslash := by
  intro dir name hname
  rw [entries] at hname
  dsimp only [locked] at hname
  split at hname
  · exact (by decide : ∀ name ∈ ["a.lock".toList], '\\' ∉ name) name hname
  · split at hname
    · exact (by decide : ∀ name ∈ ["x.py".toList], '\\' ∉ name) name hname
    · cases hname

theorem inTree_pair {a b : List Char} (ha : a ∈ fs.entries []) (hb : b ∈ fs.entries [a]) :
    fs.InTree [a, b] := by
  have hroot : fs.InTree [] := fun d n hle => by
    cases (List.append_eq_nil_iff.mp (List.prefix_nil.mp hle)).2
  have hdir : fs.InTree ([] ++ [a]) := inTree_snoc.mpr ⟨hroot, ha⟩
  exact inTree_snoc.mpr ⟨hdir, hb⟩

theorem onTheWay_pair {d : List (List Char)} {a b : List Char} :
    OnTheWay d [a, b] ↔ d = [a] := by
  refine (onTheWay_snoc : OnTheWay d ([a] ++ [b]) ↔ _).trans ?_
  constructor
  · rintro ⟨hne, hle⟩
    rcases (@List.prefix_concat_iff _ d [] a).mp hle with heq | hnil
    · exact heq
    · exact absurd (List.prefix_nil.mp hnil) hne
  · rintro rfl
    exact ⟨List.cons_ne_nil _ _, List.prefix_refl _⟩

def loopPath : RepoPath := ⟨["loop".toList, "x.py".toList], by decide, by decide⟩

def lockPath : RepoPath := ⟨["a.lock".toList, "x.py".toList], by decide, by decide⟩

/-- The walk goes through the link, and not into the directory that `*.lock` matches. -/
theorem collect_fails :
    ¬ looped.ExactlyExpected (looped.collectParseableFiles none) ∧
      ¬ locked.ExactlyExpected (locked.collectParseableFiles none) := by
  refine ⟨fun h => ?_, fun h => ?_⟩
  · have hiff := (writtenApart_iff noBackslash_looped).mp (exactlyExpected_iff.mp h) loopPath
      ⟨inTree_pair (by decide) (by decide), by decide, by decide +kernel, by decide +kernel⟩
    have hopen : looped.Open looped.loadIgnorePatterns loopPath.components := fun d hd => by
      rw [onTheWay_pair.mp hd]
      decide +kernel
    exact absurd (hiff.mpr hopen _ (onTheWay_pair.mpr rfl)) (by decide)
  · have hiff := (writtenApart_iff noBackslash_locked).mp (exactlyExpected_iff.mp h) lockPath
      ⟨inTree_pair (by decide) (by decide), by decide, by decide +kernel, by decide +kernel⟩
    exact absurd (hiff.mp (fun _ _ => rfl) _ (onTheWay_pair.mpr rfl)) (by decide +kernel)

end FileSystem

end Dagayn
