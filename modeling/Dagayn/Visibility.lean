import Dagayn.ImportTargets
import Dagayn.TestedBy

/-!
# Which file can name which symbol

The visibility of `postprocess/bare_names.rs` beyond imports: namespaces that two files share
or one imports from the other, the files that declare a class, and the family a file's
language belongs to. `resolve_via_imports` binds a name to the one visible candidate. Only the
elements of the import relation count (`resolveViaImports_congr`).
-/

namespace Dagayn

open Grouping

/-! ## Text -/

/-- The parts before and behind the last occurrence of `sep`. -/
def splitLast (sep : List Char) : List Char → Option (List Char × List Char)
  | [] => none
  | c :: rest =>
      match splitLast sep rest with
      | some (before, behind) => some (c :: before, behind)
      | none =>
          if sep.isPrefixOf (c :: rest) then some ([], (c :: rest).drop sep.length) else none

def rsplitOnce (sep : String) (text : String) : Option (String × String) :=
  (splitLast sep.toList text.toList).map fun p => (String.ofList p.1, String.ofList p.2)

def asciiLowercase (text : String) : String := String.ofList (text.toList.map Char.toLower)

/-- `replace("::", ".")`. -/
def dotScopes : List Char → List Char
  | ':' :: ':' :: rest => '.' :: dotScopes rest
  | c :: rest => c :: dotScopes rest
  | [] => []

def normalizeNamespace (value : String) : String :=
  let dotted := dotScopes (value.toList.map fun c => if c = '\\' then '.' else c)
  String.ofList (['.'].intercalate ((dotted.splitOnP (· = '.')).filter fun part => !part.isEmpty))

def namespaceFileSuffixes : List String :=
  ["c", "cjs", "cpp", "cs", "cts", "dart", "go", "h", "hpp", "java", "jl", "js", "json", "jsx",
    "kt", "md", "mjs", "mts", "php", "py", "rb", "rs", "scala", "swift", "tf", "ts", "tsx"]

def isNamespaceCandidate (target : String) : Bool :=
  if '/' ∈ target.toList then false
  else
    match rsplitOnce "." target with
    | some (_, suffix) => asciiLowercase suffix ∉ namespaceFileSuffixes
    | none => true

/-! ## Language families -/

/-- The results of `language_family`. -/
inductive LanguageFamily where
  | python
  | rust
  | c
  | javascript
  | jvm
  | csharp
  | go
  | ruby
  | php
  | swift
  | dart
  | lua
  | perl
  | r
  | julia
  | elixir
  | zig
  | gdscript
  | bash
deriving DecidableEq, Repr

def familyExtensions : List (LanguageFamily × List String) :=
  [(.python, ["py", "pyi", "ipynb"]), (.rust, ["rs"]),
    (.c, ["c", "h", "cc", "cpp", "cxx", "hh", "hpp", "hxx", "m", "mm"]),
    (.javascript, ["js", "jsx", "mjs", "cjs", "ts", "tsx", "mts", "cts", "vue", "svelte"]),
    (.jvm, ["java", "kt", "kts", "scala", "sc"]), (.csharp, ["cs"]), (.go, ["go"]),
    (.ruby, ["rb"]), (.php, ["php"]), (.swift, ["swift"]), (.dart, ["dart"]), (.lua, ["lua"]),
    (.perl, ["pl", "pm"]), (.r, ["r"]), (.julia, ["jl"]), (.elixir, ["ex", "exs"]),
    (.zig, ["zig"]), (.gdscript, ["gd"]), (.bash, ["sh", "bash", "zsh"])]

def languageFamily (filePath : String) : Option LanguageFamily :=
  (rsplitOnce "." filePath).bind fun p =>
    (familyExtensions.find? fun f => asciiLowercase p.2 ∈ f.2).map Prod.fst

/-- `same_language_family`: an unknown one rules nothing out. -/
def sameLanguageFamily : Option LanguageFamily → Option LanguageFamily → Bool
  | some a, some b => a = b
  | _, _ => true

/-! ## Visibility -/

/-- `SymbolVisibility`: the namespaces a file declares and imports, and the files that declare
a class. -/
structure SymbolVisibility where
  declared : Dict String (List String)
  imported : Dict String (List String)
  classFiles : Dict String (List String)

namespace SymbolVisibility

variable (v : SymbolVisibility)

def canSee (sourceFile targetFile : String) : Bool :=
  (v.declared.getD targetFile []).any fun ns =>
    ns ∈ v.declared.getD sourceFile [] || ns ∈ v.imported.getD sourceFile []

def declaringFiles (targetQualified : String) : List String :=
  match splitOnce "::" targetQualified with
  | some (_, symbol) =>
      match rsplitOnce "." symbol with
      | some (owner, _) => v.classFiles.getD owner []
      | none => []
  | none => []

end SymbolVisibility

namespace Store

/-- The namespaces the `File` nodes declare. -/
def declaredNamespaces (s : Store) : List (String × String) :=
  (s.nodes.rows.filter fun n => n.input.kind = "File").flatMap fun n =>
    match n.input.extra.get "namespaces" with
    | some (.arr names) =>
        ((names.filterMap Json.asStr).map normalizeNamespace).filterMap fun key =>
          if key = "" then none else some (n.input.filePath, key)
    | _ => []

/-- The namespaces the imports name: of `using A.B.Type` also `A.B`. -/
def importedNamespaces (s : Store) : List (String × String) :=
  (s.edges.rows.filter fun r => r.kind = "IMPORTS_FROM" && isNamespaceCandidate r.target).flatMap
    fun r =>
      let key := normalizeNamespace r.target
      if key = "" then []
      else
        match rsplitOnce "." key with
        | some (parent, _) => [(r.filePath, parent), (r.filePath, key)]
        | none => [(r.filePath, key)]

def symbolVisibility (s : Store) : SymbolVisibility where
  declared := setMap s.declaredNamespaces
  imported := if s.declaredNamespaces = [] then ∅ else setMap s.importedNamespaces
  classFiles := setMap ((s.nodes.rows.filter fun n => n.input.kind = "Class").map
    fun n => (n.input.name, n.input.filePath))

end Store

/-! ## Candidates -/

section Resolve

variable (targets : Dict String (List String)) (v : SymbolVisibility)

def fileIsVisible (sourceFile targetFile : String) : Bool :=
  sourceFile = targetFile || targetFile ∈ targets.getD sourceFile [] ||
    v.canSee sourceFile targetFile

def directoryOf (path : String) : String := ((rsplitOnce "/" path).map Prod.fst).getD ""

def isPlausibleBareEdge (sourceFile targetFile targetQualified : String) : Bool :=
  if sourceFile = "" || targetFile = "" then false
  else
    let family := languageFamily targetFile
    if !sameLanguageFamily (languageFamily sourceFile) family then false
    else if fileIsVisible targets v sourceFile targetFile then true
    else
      (v.declaringFiles targetQualified).any fun file =>
        sameLanguageFamily family (languageFamily file) &&
          (family ≠ some .go || directoryOf file = directoryOf targetFile) &&
          fileIsVisible targets v sourceFile file

/-- `resolve_via_imports`: the one candidate that is visible from the file. -/
def resolveViaImports (candidates : List String) (sourceFile : String) :
    Option (String × Float × ConfidenceTier) :=
  match candidates.filter fun q =>
      isPlausibleBareEdge targets v sourceFile (nodeFileFromQualified q "") q with
  | [only] =>
      let targetFile := nodeFileFromQualified only ""
      let topLevel := !(splitOnce "::" only).any fun p => '.' ∈ p.2.toList
      let direct := topLevel &&
        (sourceFile = targetFile || targetFile ∈ targets.getD sourceFile [])
      if direct then some (only, directImportConfidence, .high)
      else some (only, inferredConfidence, .medium)
  | _ => none

theorem mem_of_resolveViaImports {candidates : List String} {sourceFile : String}
    {found : String × Float × ConfidenceTier}
    (h : resolveViaImports targets v candidates sourceFile = some found) :
    found.1 ∈ candidates := by
  unfold resolveViaImports at h
  split at h
  · rename_i only honly
    have hmem : only ∈ candidates := by
      refine List.mem_of_mem_filter (p := fun q =>
        isPlausibleBareEdge targets v sourceFile (nodeFileFromQualified q "") q) ?_
      rw [honly]
      exact List.mem_singleton_self _
    simp only at h
    split at h <;> (obtain rfl := Option.some.inj h; exact hmem)
  · cases h

end Resolve

theorem resolveViaImports_congr {targets targets' : Dict String (List String)}
    (h : ∀ file x, x ∈ targets.getD file [] ↔ x ∈ targets'.getD file []) (v : SymbolVisibility)
    (candidates : List String) (sourceFile : String) :
    resolveViaImports targets v candidates sourceFile =
      resolveViaImports targets' v candidates sourceFile := by
  have hvisible : fileIsVisible targets v = fileIsVisible targets' v := by
    funext source target
    rw [fileIsVisible, fileIsVisible, decide_eq_decide.mpr (h source target)]
  have hbareEdge : isPlausibleBareEdge targets v = isPlausibleBareEdge targets' v := by
    funext source target q
    rw [isPlausibleBareEdge, isPlausibleBareEdge, hvisible]
  unfold resolveViaImports
  rw [hbareEdge]
  split
  · rename_i only honly
    simp only [decide_eq_decide.mpr (h sourceFile (nodeFileFromQualified only ""))]
  · rfl

end Dagayn
