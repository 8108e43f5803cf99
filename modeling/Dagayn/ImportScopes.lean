import Dagayn.Dict
import Dagayn.GraphReads
import Dagayn.TestedBy

/-!
# What the imports of a file explain

`file_imports` of the dead-code check: for every file the modules it imports, the names it
binds to them, and the lines of the calls and references the graph resolved through such a
binding. A mention of a name on one of these lines is explained, if the name is bound to
another module than the one that is asked for: `boundElsewhere_of_explains` says what the graph
then holds.
-/

namespace Dagayn

namespace ImportScopes

open Bridges

structure FileImports where
  modules : Dict String (List Int × Bool) := ∅
  bound : Dict String (Dict String (List Int)) := ∅

namespace FileImports

def explains (i : FileImports) (name : String) (line : Int) (ownFile : String) : Bool :=
  (Dict.getD i.bound name ∅).entries.any fun entry =>
    match i.modules.lookup entry.1 with
    | some (importedAt, _) =>
        entry.1 ≠ ownFile && (entry.2.contains line || importedAt.contains line)
    | none => false

/-- An entry for the name and the module, with lines behind those that it has. -/
def bind (i : FileImports) (name module : String) (lines : List Int) : FileImports :=
  let inner := Dict.getD i.bound name ∅
  { i with bound := i.bound.insert name (inner.insert module (Dict.getD inner module [] ++ lines)) }

def importAt (i : FileImports) (module : String) (line : Int) (external : Bool) : FileImports :=
  let (lines, marked) := Dict.getD i.modules module ([], false)
  { i with modules := i.modules.insert module (lines ++ [line], marked || external) }

def unbind (i : FileImports) (name module : String) : FileImports :=
  match i.bound.lookup name with
  | some inner => { i with bound := i.bound.insert name (inner.erase module) }
  | none => i

end FileImports

structure Collected where
  files : Dict String FileImports := ∅
  /-- The local name, for imports from an external package. -/
  externalNames : Dict (String × String × String) String := ∅
  /-- The qualified names that the binding of a repository module stands for. -/
  definitions : Dict (String × String × String) (List String) := ∅

def Collected.update (c : Collected) (file : String) (f : FileImports → FileImports) : Collected :=
  { c with files := c.files.insert file (f (Dict.getD c.files file {})) }

def Collected.define (c : Collected) (key : String × String × String) (qualified : String) :
    Collected :=
  { c with definitions :=
      c.definitions.insert key (Dict.getD c.definitions key [] ++ [qualified]) }

/-- The pairs of an import's `names`: the imported name and the local one. -/
def namePairs (extra : Json) : List (String × String) :=
  match extra.get "names" with
  | some (.arr bound) => bound.filterMap fun pair =>
      match pair with
      | .arr (imported :: localName :: _) =>
          match imported.asStr, localName.asStr with
          | some imported, some localName => some (imported, localName)
          | _, _ => none
      | _ => none
  | _ => []

def isExternal (edge : GraphEdge) : Bool := edge.extra.get "external" == some (.bool true)

section Passes

variable (g : GraphReads) (names : List String) (relative : String → String)

def addName (edge : GraphEdge) (c : Collected) (pair : String × String) : Collected :=
  let module := relative edge.targetQualified
  let file := relative edge.filePath
  if names.contains pair.2 then
    let c := c.update file (·.bind pair.2 module [])
    if isExternal edge then
      { c with externalNames := c.externalNames.insert (file, module, pair.1) pair.2 }
    else c.define (file, pair.2, module) (edge.targetQualified ++ "::" ++ pair.1)
  else c

def addImport (c : Collected) (edge : GraphEdge) : Collected :=
  let file := relative edge.filePath
  let c := (namePairs edge.extra).foldl (addName names relative edge) (c.update file id)
  c.update file (·.importAt (relative edge.targetQualified) edge.line (isExternal edge))

/-- A call or reference resolved to `module::name`. -/
def addUse (name : String) (c : Collected) (edge : GraphEdge) : Collected :=
  match (stripSuffix name edge.targetQualified).bind (stripSuffix "::") with
  | none => c
  | some module =>
      let module := relative module
      let file := relative edge.filePath
      match (c.files.lookup file).bind (·.modules.lookup module) with
      | none => c
      | some (_, external) =>
          let c := if external then c else c.define (file, name, module) edge.targetQualified
          c.update file (·.bind name module [edge.line])

/-- A call or reference to an external package, whose `external_symbol` names what it uses. -/
def addPackageUse (package : String) (c : Collected) (edge : GraphEdge) : Collected :=
  let file := relative edge.filePath
  match (edge.extra.getStr "external_symbol").map (lastPart ['.']) with
  | none => c
  | some imported =>
      match c.externalNames.lookup (file, package, imported), c.files.lookup file with
      | some localName, some _ => c.update file (·.bind localName package [edge.line])
      | _, _ => c

/-- A binding of a repository module that does not define the name. -/
def dropUndefined (c : Collected)
    (entry : Sigma fun _ : String × String × String => List String) : Collected :=
  if entry.2.any fun qualified => (g.namedNode qualified).isSome then c
  else
    match c.files.lookup entry.1.1 with
    | some _ => c.update entry.1.1 (·.unbind entry.1.2.1 entry.1.2.2)
    | none => c

def importsPass : Collected := (g.getEdgesByKind "IMPORTS_FROM").foldl (addImport names relative) {}

/-- `get_edges_by_target_names` of one kind, qualified targets only. -/
def usesOfName (kind name : String) : List GraphEdge :=
  (g.getEdgesByKind kind).filter fun edge =>
    edgeTargetName edge.targetQualified = name && edge.targetQualified ≠ name

def usesPass (c : Collected) : Collected :=
  ["CALLS", "REFERENCES"].foldl (fun c kind =>
    names.dedup.foldl (fun c name => (usesOfName g kind name).foldl (addUse relative name) c) c) c

def packageUses (package : String) : List GraphEdge :=
  g.edges.filter fun edge =>
    edge.targetQualified = package && (edge.kind = "CALLS" || edge.kind = "REFERENCES")

def packagesPass (c : Collected) : Collected :=
  ((c.externalNames.keys.map fun key => key.2.1).dedup).foldl (fun c package =>
    (packageUses g package).foldl (addPackageUse relative package) c) c

def definedPass (c : Collected) : Collected := c.definitions.entries.foldl (dropUndefined g) c

def collected : Collected :=
  definedPass g <| packagesPass g relative <| usesPass g names relative <|
    importsPass g names relative

/-- `file_imports`; where it goes through a hash map, the order does not show in the result. -/
def fileImports : Dict String FileImports := (collected g names relative).files

end Passes

/-! ## What the graph says -/

section Spec

variable (g : GraphReads) (relative : String → String)

def Imports (file module : String) (line : Int) : Prop :=
  ∃ edge ∈ g.edges, edge.kind = "IMPORTS_FROM" ∧ relative edge.filePath = file ∧
    relative edge.targetQualified = module ∧ edge.line = line

/-- An import of the module in the file binds the name, to what the module calls `imported`. -/
def BindsName (file module imported name : String) : Prop :=
  ∃ edge ∈ g.edges, edge.kind = "IMPORTS_FROM" ∧ relative edge.filePath = file ∧
    relative edge.targetQualified = module ∧ (imported, name) ∈ namePairs edge.extra

def isUse (edge : GraphEdge) : Prop := edge.kind = "CALLS" ∨ edge.kind = "REFERENCES"

def ResolvedTo (file name module : String) (line : Int) : Prop :=
  ∃ edge ∈ g.edges, isUse edge ∧ relative edge.filePath = file ∧ edge.line = line ∧
    ∃ written, edge.targetQualified = written ++ "::" ++ name ∧ relative written = module

def UsesPackage (file name package : String) (line : Int) : Prop :=
  ∃ edge ∈ g.edges, isUse edge ∧ relative edge.filePath = file ∧ edge.line = line ∧
    edge.targetQualified = package ∧ ∃ symbol, edge.extra.getStr "external_symbol" = some symbol ∧
      BindsName g relative file package (lastPart ['.'] symbol) name

/-- The name is bound in the file by an import from another module than `own`, and the line is
one of such an import, or of a use resolved through it. -/
def BoundElsewhere (file name : String) (line : Int) (own : String) : Prop :=
  ∃ module, module ≠ own ∧ (∃ at_, Imports g relative file module at_) ∧
    ((∃ imported, BindsName g relative file module imported name) ∨
      ∃ at_, ResolvedTo g relative file name module at_) ∧
    (Imports g relative file module line ∨ ResolvedTo g relative file name module line ∨
      UsesPackage g relative file name module line)

end Spec

/-! ## The passes collect what the graph says -/

section Proofs

variable {g : GraphReads} {names : List String} {relative : String → String} {c : Collected}
  {file module name : String}

def Collected.importedAt (c : Collected) (file module : String) : Option (List Int × Bool) :=
  (Dict.getD c.files file {}).modules.lookup module

def Collected.usesOf (c : Collected) (file name module : String) : Option (List Int) :=
  ((Dict.getD c.files file {}).bound.lookup name).bind (·.lookup module)

structure Known (g : GraphReads) (relative : String → String) (c : Collected) : Prop where
  imported : ∀ {file module lines external}, c.importedAt file module = some (lines, external) →
    lines ≠ [] ∧ ∀ line ∈ lines, Imports g relative file module line
  uses : ∀ {file name module lines}, c.usesOf file name module = some lines →
    ((∃ imported, BindsName g relative file module imported name) ∨
      ∃ line, ResolvedTo g relative file name module line) ∧
    ∀ line ∈ lines, ResolvedTo g relative file name module line ∨
      UsesPackage g relative file name module line
  external : ∀ {file package imported name},
    c.externalNames.lookup (file, package, imported) = some name →
      BindsName g relative file package imported name

theorem Known.empty : Known g relative {} where
  imported h := by cases h
  uses h := by cases h
  external h := by cases h

theorem importedAt_update {f : FileImports → FileImports} {file' module' : String} :
    (c.update file f).importedAt file' module' =
      if file' = file then (f (Dict.getD c.files file {})).modules.lookup module'
      else c.importedAt file' module' := by
  rw [Collected.importedAt, Collected.update, Dict.getD_insert]
  split <;> rfl

theorem usesOf_update {f : FileImports → FileImports} {file' name' module' : String} :
    (c.update file f).usesOf file' name' module' =
      if file' = file then
        ((f (Dict.getD c.files file {})).bound.lookup name').bind (·.lookup module')
      else c.usesOf file' name' module' := by
  rw [Collected.usesOf, Collected.update, Dict.getD_insert]
  split <;> rfl

theorem Known.update (h : Known g relative c) {f : FileImports → FileImports}
    (hmodules : ∀ i, (f i).modules = i.modules)
    (huses : ∀ {name module lines},
      ((f (Dict.getD c.files file {})).bound.lookup name).bind (·.lookup module) = some lines →
        ((∃ imported, BindsName g relative file module imported name) ∨
          ∃ line, ResolvedTo g relative file name module line) ∧
        ∀ line ∈ lines, ResolvedTo g relative file name module line ∨
          UsesPackage g relative file name module line) :
    Known g relative (c.update file f) where
  imported hlookup := by
    rw [importedAt_update] at hlookup
    split at hlookup
    · rename_i heq
      rw [hmodules] at hlookup
      exact heq ▸ h.imported hlookup
    · exact h.imported hlookup
  uses hlookup := by
    rw [usesOf_update] at hlookup
    split at hlookup
    · rename_i heq
      exact heq ▸ huses hlookup
    · exact h.uses hlookup
  external hlookup := h.external hlookup

theorem lookup_bind (i : FileImports) (name module name' module' : String) (lines : List Int) :
    ((i.bind name module lines).bound.lookup name').bind (·.lookup module') =
      if name' = name ∧ module' = module then
        some (((i.bound.lookup name).bind (·.lookup module)).getD [] ++ lines)
      else (i.bound.lookup name').bind (·.lookup module') := by
  have hinner : Dict.getD (Dict.getD i.bound name ∅) module [] =
      ((i.bound.lookup name).bind (·.lookup module)).getD [] := by
    cases hname : i.bound.lookup name with
    | none => simp [Dict.getD, hname]
    | some inner => simp [Dict.getD, hname]
  rw [FileImports.bind]
  dsimp only
  rw [Dict.lookup_insert_ite, hinner]
  by_cases hname : name' = name
  · subst hname
    rw [if_pos rfl, Option.bind_some, Dict.lookup_insert_ite]
    by_cases hmodule : module' = module
    · rw [if_pos hmodule, if_pos ⟨rfl, hmodule⟩]
    · rw [if_neg hmodule, if_neg fun h => hmodule h.2, Dict.getD]
      cases i.bound.lookup name' with
      | none => rfl
      | some inner => rfl
  · rw [if_neg hname, if_neg fun h => hname h.1]

theorem Known.bind (h : Known g relative c) {lines : List Int}
    (hbinds : (∃ imported, BindsName g relative file module imported name) ∨
      ∃ line, ResolvedTo g relative file name module line)
    (hlines : ∀ line ∈ lines, ResolvedTo g relative file name module line ∨
      UsesPackage g relative file name module line) :
    Known g relative (c.update file (·.bind name module lines)) := by
  refine h.update (fun _ => rfl) fun {name' module' lines'} hlookup => ?_
  rw [lookup_bind] at hlookup
  split at hlookup
  · rename_i heq
    obtain ⟨rfl, rfl⟩ := heq
    obtain rfl := Option.some.inj hlookup
    refine ⟨hbinds, fun line hline => ?_⟩
    rcases List.mem_append.mp hline with hold | hnew
    · cases hprev : ((Dict.getD c.files file {}).bound.lookup name').bind (·.lookup module') with
      | none =>
          rw [hprev] at hold
          exact absurd hold List.not_mem_nil
      | some before =>
          rw [hprev] at hold
          exact (h.uses hprev).2 line hold
    · exact hlines line hnew
  · exact h.uses hlookup

theorem Known.unbind (h : Known g relative c) :
    Known g relative (c.update file (·.unbind name module)) := by
  refine h.update (fun i => ?_) fun {name' module' lines'} hlookup => ?_
  · unfold FileImports.unbind
    split <;> rfl
  · suffices hbefore : c.usesOf file name' module' = some lines' from h.uses hbefore
    unfold FileImports.unbind at hlookup
    split at hlookup
    · rename_i inner hinner
      dsimp only at hlookup
      rw [Dict.lookup_insert_ite] at hlookup
      split at hlookup
      · rename_i heq
        rw [Option.bind_some, Dict.lookup_erase_ite] at hlookup
        split at hlookup
        · cases hlookup
        · rw [Collected.usesOf, heq, hinner]
          exact hlookup
      · exact hlookup
    · exact hlookup

theorem Known.importAt (h : Known g relative c) {line : Int} {external : Bool}
    (himports : Imports g relative file module line) :
    Known g relative (c.update file (·.importAt module line external)) where
  imported {file' module' lines external'} hlookup := by
    rw [importedAt_update] at hlookup
    split at hlookup
    · rename_i heq
      subst heq
      rw [FileImports.importAt] at hlookup
      dsimp only at hlookup
      rw [Dict.lookup_insert_ite] at hlookup
      split at hlookup
      · rename_i heq
        subst heq
        obtain ⟨rfl, -⟩ := Prod.mk.inj (Option.some.inj hlookup)
        refine ⟨by simp, fun line' hline => ?_⟩
        rcases List.mem_append.mp hline with hold | hnew
        · cases hprev : (Dict.getD c.files file' {}).modules.lookup module' with
          | none =>
              rw [Dict.getD, hprev] at hold
              exact absurd hold List.not_mem_nil
          | some before =>
              rw [Dict.getD, hprev] at hold
              have hbefore : c.importedAt file' module' = some (before.1, before.2) := hprev
              exact (h.imported hbefore).2 line' hold
        · rw [List.mem_singleton.mp hnew]
          exact himports
      · exact h.imported hlookup
    · exact h.imported hlookup
  uses hlookup := by
    rw [usesOf_update] at hlookup
    split at hlookup
    · rename_i heq
      exact h.uses (heq ▸ hlookup)
    · exact h.uses hlookup
  external hlookup := h.external hlookup

theorem Known.of_files (h : Known g relative c) {c' : Collected} (hfiles : c'.files = c.files)
    (hexternal : ∀ {file package imported name},
      c'.externalNames.lookup (file, package, imported) = some name →
        BindsName g relative file package imported name) : Known g relative c' where
  imported hlookup := h.imported (by rwa [Collected.importedAt, hfiles] at hlookup)
  uses hlookup := h.uses (by rwa [Collected.usesOf, hfiles] at hlookup)
  external hlookup := hexternal hlookup

theorem Known.define (h : Known g relative c) (key : String × String × String)
    (qualified : String) : Known g relative (c.define key qualified) :=
  h.of_files rfl h.external

theorem Known.update_id (h : Known g relative c) (file : String) :
    Known g relative (c.update file id) :=
  h.update (fun _ => rfl) fun hlookup => h.uses hlookup

theorem stripSuffix_spec {suffix text rest : String} (h : stripSuffix suffix text = some rest) :
    text = rest ++ suffix := by
  rw [stripSuffix] at h
  split at h
  · rename_i hsuffix
    obtain ⟨front, hfront⟩ := List.isSuffixOf_iff_suffix.mp hsuffix
    obtain rfl := Option.some.inj h
    rw [← String.toList_inj, String.toList_append, ← hfront]
    simp
  · cases h

section Steps

variable {edge : GraphEdge}

theorem Known.addName (h : Known g relative c) (hedge : edge ∈ g.edges)
    (hkind : edge.kind = "IMPORTS_FROM") {pair : String × String}
    (hpair : pair ∈ namePairs edge.extra) :
    Known g relative (addName names relative edge c pair) := by
  have hbinds : BindsName g relative (relative edge.filePath) (relative edge.targetQualified)
      pair.1 pair.2 := ⟨edge, hedge, hkind, rfl, rfl, hpair⟩
  have hbound := h.bind (.inl ⟨pair.1, hbinds⟩) fun line hline => absurd hline List.not_mem_nil
  unfold ImportScopes.addName
  dsimp only
  split
  · split
    · refine hbound.of_files rfl fun hlookup => ?_
      rw [Dict.lookup_insert_ite] at hlookup
      split at hlookup
      · rename_i heq
        obtain ⟨rfl, rfl, rfl⟩ : _ ∧ _ ∧ _ := by simpa using heq
        obtain rfl := Option.some.inj hlookup
        exact hbinds
      · exact hbound.external hlookup
    · exact hbound.define _ _
  · exact h

theorem Known.addImport (h : Known g relative c) (hedge : edge ∈ g.edges)
    (hkind : edge.kind = "IMPORTS_FROM") :
    Known g relative (addImport names relative c edge) := by
  refine Known.importAt ?_ ⟨edge, hedge, hkind, rfl, rfl, rfl⟩
  refine List.foldlRecOn _ _ (h.update_id _) fun c' h' pair hpair => ?_
  exact h'.addName hedge hkind hpair

theorem Known.addUse (h : Known g relative c) (hedge : edge ∈ g.edges) (hkind : isUse edge) :
    Known g relative (addUse relative name c edge) := by
  unfold ImportScopes.addUse
  split
  · exact h
  · rename_i written hwritten
    obtain ⟨front, hfront, hsep⟩ := Option.bind_eq_some_iff.mp hwritten
    have htarget : edge.targetQualified = written ++ "::" ++ name := by
      rw [stripSuffix_spec hfront, stripSuffix_spec hsep]
    have hresolved : ResolvedTo g relative (relative edge.filePath) name (relative written)
        edge.line := ⟨edge, hedge, hkind, rfl, rfl, written, htarget, rfl⟩
    dsimp only
    split
    · exact h
    · rename_i lines external himported
      have hdefined : Known g relative (if external then c else
          c.define (relative edge.filePath, name, relative written) edge.targetQualified) := by
        split
        · exact h
        · exact h.define _ _
      refine hdefined.bind (.inr ⟨edge.line, hresolved⟩) fun line hline => ?_
      rw [List.mem_singleton.mp hline]
      exact .inl hresolved

theorem Known.addPackageUse (h : Known g relative c) {package : String} (hedge : edge ∈ g.edges)
    (hkind : isUse edge) (hpackage : edge.targetQualified = package) :
    Known g relative (addPackageUse relative package c edge) := by
  unfold ImportScopes.addPackageUse
  dsimp only
  split
  · exact h
  · rename_i imported himported
    obtain ⟨symbol, hsymbol, rfl⟩ := Option.map_eq_some_iff.mp himported
    split
    · rename_i localName i hlocal hfile
      have hbinds := h.external hlocal
      refine h.bind (.inl ⟨_, hbinds⟩) fun line hline => ?_
      rw [List.mem_singleton.mp hline]
      exact .inr ⟨edge, hedge, hkind, rfl, rfl, hpackage, symbol, hsymbol, hbinds⟩
    · exact h

theorem Known.dropUndefined (h : Known g relative c)
    (entry : Sigma fun _ : String × String × String => List String) :
    Known g relative (dropUndefined g c entry) := by
  unfold ImportScopes.dropUndefined
  split
  · exact h
  · split
    · exact h.unbind
    · exact h

end Steps

theorem known_importsPass (g : GraphReads) (names : List String) (relative : String → String) :
    Known g relative (importsPass g names relative) := by
  refine List.foldlRecOn _ _ Known.empty fun c h edge hedge => ?_
  obtain ⟨hmem, hkind⟩ := List.mem_filter.mp hedge
  exact h.addImport hmem (of_decide_eq_true hkind)

theorem Known.usesPass (h : Known g relative c) :
    Known g relative (usesPass g names relative c) := by
  refine List.foldlRecOn _ _ h fun c h kind hkind => ?_
  refine List.foldlRecOn _ _ h fun c h name _ => ?_
  refine List.foldlRecOn _ _ h fun c h edge hedge => ?_
  obtain ⟨hmem, hedgeKind⟩ := List.mem_filter.mp (List.mem_filter.mp hedge).1
  have hkind' : edge.kind = kind := of_decide_eq_true hedgeKind
  refine h.addUse hmem ?_
  simpa [isUse, hkind'] using hkind

theorem Known.packagesPass (h : Known g relative c) :
    Known g relative (packagesPass g relative c) := by
  refine List.foldlRecOn _ _ h fun c h package _ => ?_
  refine List.foldlRecOn _ _ h fun c h edge hedge => ?_
  obtain ⟨hmem, hedge⟩ := List.mem_filter.mp hedge
  rw [Bool.and_eq_true, Bool.or_eq_true] at hedge
  simp only [decide_eq_true_eq] at hedge
  exact h.addPackageUse hmem hedge.2 hedge.1

theorem Known.definedPass (h : Known g relative c) : Known g relative (definedPass g c) :=
  List.foldlRecOn _ _ h fun _ h entry _ => h.dropUndefined entry

theorem known_collected (g : GraphReads) (names : List String) (relative : String → String) :
    Known g relative (collected g names relative) :=
  (known_importsPass g names relative).usesPass.packagesPass.definedPass

/-- A mention that the imports of its file explain is bound to another module in the graph. -/
theorem boundElsewhere_of_explains {i : FileImports} {line : Int} {own : String}
    (hfile : (fileImports g names relative).lookup file = some i)
    (h : i.explains name line own = true) : BoundElsewhere g relative file name line own := by
  have hknown := known_collected g names relative
  have hfileD : Dict.getD (collected g names relative).files file {} = i := by
    rw [Dict.getD, ← fileImports, hfile]
    rfl
  obtain ⟨⟨module, uses⟩, hentry, hmatch⟩ := List.any_eq_true.mp h
  dsimp only at hmatch
  split at hmatch
  · rename_i importedAt external himported
    have hlines : (collected g names relative).importedAt file module =
        some (importedAt, external) := by
      rw [Collected.importedAt, hfileD]
      exact himported
    have huses : (collected g names relative).usesOf file name module = some uses := by
      rw [Collected.usesOf, hfileD]
      cases hname : i.bound.lookup name with
      | none =>
          rw [Dict.getD, hname] at hentry
          exact absurd hentry List.not_mem_nil
      | some inner =>
          rw [Dict.getD, hname] at hentry
          exact Option.mem_def.mp (AList.mem_lookup_iff.mpr hentry)
    rw [Bool.and_eq_true, decide_eq_true_eq, Bool.or_eq_true, List.contains_iff_mem,
      List.contains_iff_mem] at hmatch
    obtain ⟨hne, himports⟩ := hknown.imported hlines
    obtain ⟨at_, hat⟩ := List.exists_mem_of_ne_nil _ hne
    refine ⟨module, hmatch.1, ⟨at_, himports at_ hat⟩, (hknown.uses huses).1, ?_⟩
    rcases hmatch.2 with hline | hline
    · exact .inr ((hknown.uses huses).2 line hline)
    · exact .inl (himports line hline)
  · cases hmatch

end Proofs

end ImportScopes

end Dagayn
