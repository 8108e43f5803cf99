import Dagayn.Text

/-!
# Path keys

`normalize_file_path_key` and `normalize_qualified_key`: the rows of the store name files
by their path in the repository, callers also by an absolute one. A key that is
normalised once stays as it is (`normalizeQualifiedKey_idem`), also where the path of a
link leads to a name with `::` in it.
-/

namespace Dagayn

def isAbsolute (path : String) : Bool := path.toList.head? = some '/'

namespace Path

/-- `Components::trim_left` behind the root: separators and `.` are no components. -/
def trimFront : List Char → List Char
  | '/' :: rest => trimFront rest
  | ['.'] => []
  | '.' :: '/' :: rest => trimFront rest
  | text => text

/-- `Components::trim_right`. -/
def trimBack (text : List Char) : List Char := (trimFront text.reverse).reverse

/-- The components of an absolute path behind the root. -/
def parts (text : List Char) : List (List Char) :=
  (text.splitOn '/').filter fun part => part ≠ [] && part ≠ ['.']

/-- The path behind the components of a base, `as_path` of what is left of them. -/
def stripParts (text : List Char) : List (List Char) → Option (List Char)
  | [] => some (trimBack (trimFront text))
  | part :: base =>
      let here := trimFront text
      if here.takeWhile (· ≠ '/') = part then stripParts (here.dropWhile (· ≠ '/')) base else none

/-- `Path::strip_prefix` of an absolute path; a base that is not absolute and not empty
starts with another component than the root. -/
def stripPrefix (path base : String) : Option String :=
  if isAbsolute base then (stripParts path.toList (parts base.toList)).map String.ofList
  else none

theorem head?_trimFront (text : List Char) : (trimFront text).head? ≠ some '/' := by
  fun_induction trimFront text with
  | case1 rest ih => exact ih
  | case2 => simp
  | case3 rest ih => exact ih
  | case4 text hslash _ _ =>
      intro hhead
      obtain ⟨rest, rfl⟩ := List.head?_eq_some_iff.mp hhead
      exact hslash rest rfl

theorem trimFront_suffix (text : List Char) : trimFront text <:+ text := by
  fun_induction trimFront text with
  | case1 rest ih => exact ih.trans (List.suffix_cons _ _)
  | case2 => exact List.nil_suffix
  | case3 rest ih => exact ih.trans ((List.suffix_cons _ _).trans (List.suffix_cons _ _))
  | case4 text _ _ _ => exact List.suffix_refl _

theorem not_isAbsolute_of_stripPrefix {path base rel : String}
    (h : stripPrefix path base = some rel) : isAbsolute rel = false := by
  have hparts : ∀ (base : List (List Char)) (text rel : List Char),
      stripParts text base = some rel → rel.head? ≠ some '/' := by
    intro base
    induction base with
    | nil =>
        intro text rel hrel
        obtain rfl := Option.some.inj hrel
        obtain ⟨behind, hbehind⟩ := trimFront_suffix (trimFront text).reverse
        have hfront : trimFront text = trimBack (trimFront text) ++ behind.reverse := by
          rw [trimBack, ← List.reverse_append, hbehind, List.reverse_reverse]
        intro hhead
        refine head?_trimFront text ?_
        rw [hfront, List.head?_append, hhead]
        rfl
    | cons part base ih =>
        intro text rel hrel
        rw [stripParts] at hrel
        split at hrel
        · exact ih _ _ hrel
        · cases hrel
  unfold stripPrefix at h
  split at h
  · obtain ⟨rel', hrel', rfl⟩ := Option.map_eq_some_iff.mp h
    simpa [isAbsolute] using hparts _ _ _ hrel'
  · cases h

end Path

/-- What the keys rest on: the metadata and the file system. The callers that write
`repo_root` write the text of a path; a canonical path is absolute. -/
structure PathKeys where
  repoRoot : Option String
  canonicalize : String → Option String
  root_ne : repoRoot ≠ some ""
  canonical_absolute : ∀ path canonical, canonicalize path = some canonical →
    isAbsolute canonical = true

namespace PathKeys

/-- The keys of a graph without a root. -/
def rootless : PathKeys :=
  ⟨none, fun _ => none, by decide, fun _ _ h => by cases h⟩

open Dagayn.Path

def normalizeFilePathKey (k : PathKeys) (filePath : String) : String :=
  if !isAbsolute filePath then filePath
  else
    match k.repoRoot with
    | none => filePath
    | some root =>
        match stripPrefix filePath root with
        | some rel => rel
        | none =>
            match k.canonicalize filePath, k.canonicalize root with
            | some path, some root => (stripPrefix path root).getD filePath
            | _, _ => filePath

def normalizeQualifiedKey (k : PathKeys) (qualifiedName : String) : String :=
  match splitOnce "::" qualifiedName with
  | some (filePath, rest) => k.normalizeFilePathKey filePath ++ "::" ++ rest
  | none => k.normalizeFilePathKey qualifiedName

def fileKeyCandidates (k : PathKeys) (filePath : String) : List String :=
  let normalized := k.normalizeFilePathKey filePath
  if normalized = filePath then [filePath] else [filePath, normalized]

def qualifiedKeyCandidates (k : PathKeys) (qualifiedName : String) : List String :=
  let normalized := k.normalizeQualifiedKey qualifiedName
  if normalized = qualifiedName then [qualifiedName] else [qualifiedName, normalized]

variable (k : PathKeys)

theorem normalizeFilePathKey_of_relative {path : String} (h : isAbsolute path = false) :
    k.normalizeFilePathKey path = path := by
  simp [normalizeFilePathKey, h]

theorem normalizeFilePathKey_cases (path : String) :
    k.normalizeFilePathKey path = path ∨ isAbsolute (k.normalizeFilePathKey path) = false := by
  unfold normalizeFilePathKey
  split
  · exact .inl rfl
  · split
    · exact .inl rfl
    · split
      · rename_i hrel
        exact .inr (not_isAbsolute_of_stripPrefix hrel)
      · split
        · rename_i path' root' _ _
          cases hrel : stripPrefix path' root' with
          | none => exact .inl rfl
          | some rel => exact .inr (not_isAbsolute_of_stripPrefix hrel)
        · exact .inl rfl

theorem splitOnce_eq {text file rest : String} (h : splitOnce "::" text = some (file, rest)) :
    text = file ++ "::" ++ rest := by
  have hsplit : ∀ (cs : List Char) (p : List Char × List Char),
      splitFirst "::".toList cs = some p → cs = p.1 ++ "::".toList ++ p.2 := by
    intro cs
    induction cs with
    | nil => intro p hp; cases hp
    | cons c cs ih =>
        intro p hp
        rw [splitFirst] at hp
        split at hp
        · rename_i hpre
          obtain rfl := Option.some.inj hp
          obtain ⟨rest, hrest⟩ := List.isPrefixOf_iff_prefix.mp hpre
          rw [List.nil_append, ← hrest, List.drop_left]
        · obtain ⟨q, hq, rfl⟩ := Option.map_eq_some_iff.mp hp
          rw [List.cons_append, List.cons_append, ← ih q hq]
  obtain ⟨p, hp, heq⟩ := Option.map_eq_some_iff.mp h
  obtain ⟨rfl, rfl⟩ := Prod.mk.inj heq
  refine String.toList_inj.mp ?_
  rw [hsplit _ _ hp]
  simp

theorem normalizeQualifiedKey_of_relative {text : String} (h : isAbsolute text = false) :
    k.normalizeQualifiedKey text = text := by
  unfold normalizeQualifiedKey
  split
  · rename_i file rest hsplit
    have htext := splitOnce_eq hsplit
    have hfile : isAbsolute file = false := by
      have hhead : text.toList.head? ≠ some '/' := by simpa [isAbsolute] using h
      rw [htext] at hhead
      cases hchars : file.toList with
      | nil => simp [isAbsolute, hchars]
      | cons c cs => simpa [isAbsolute, hchars] using hhead
    rw [k.normalizeFilePathKey_of_relative hfile, ← htext]
  · exact k.normalizeFilePathKey_of_relative h

theorem normalizeQualifiedKey_idem (text : String) :
    k.normalizeQualifiedKey (k.normalizeQualifiedKey text) = k.normalizeQualifiedKey text := by
  have hcases : k.normalizeQualifiedKey text = text ∨
      isAbsolute (k.normalizeQualifiedKey text) = false := by
    unfold normalizeQualifiedKey
    split
    · rename_i file rest hsplit
      rcases k.normalizeFilePathKey_cases file with heq | hrel
      · rw [heq]
        exact .inl (splitOnce_eq hsplit).symm
      · right
        cases hchars : (k.normalizeFilePathKey file).toList with
        | nil => simp [isAbsolute, hchars]
        | cons c cs => simpa [isAbsolute, hchars] using hrel
    · exact k.normalizeFilePathKey_cases text
  rcases hcases with heq | hrel
  · rw [heq, heq]
  · exact k.normalizeQualifiedKey_of_relative hrel

end PathKeys

end Dagayn
