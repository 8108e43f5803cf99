import Mathlib

/-!
# Splitting and trimming text

Character-list versions of the string searches the sources make: the text behind
the last occurrence of a separator, the two parts around the first one, and a text
without the blanks at its ends.
-/

namespace Dagayn

instance lawfulBEqChars : LawfulBEq (List Char) := inferInstance

/-- `char::is_whitespace`: the Unicode property `White_Space`. -/
def isWhitespace (c : Char) : Bool :=
  let n := c.toNat
  (9 ≤ n && n ≤ 13) || n = 0x20 || n = 0x85 || n = 0xA0 || n = 0x1680 ||
    (0x2000 ≤ n && n ≤ 0x200A) || n = 0x2028 || n = 0x2029 || n = 0x202F || n = 0x205F ||
    n = 0x3000

theorem forall_mem_of_all {α : Type} {p : α → Prop} [DecidablePred p] {l : List α}
    (h : (l.all fun a => p a) = true) : ∀ a ∈ l, p a := fun a ha =>
  of_decide_eq_true (List.all_eq_true.mp h a ha)

def trim (text : List Char) : List Char :=
  (text.dropWhile isWhitespace).rdropWhile isWhitespace

theorem trim_eq_self {text : List Char} (h : ∀ c ∈ text, isWhitespace c = false) :
    trim text = text := by
  have hfront : text.dropWhile isWhitespace = text :=
    List.dropWhile_eq_self_iff.mpr fun hpos => by simp [h _ (List.getElem_mem hpos)]
  rw [trim, hfront]
  exact List.rdropWhile_eq_self_iff.mpr fun hne => by simp [h _ (List.getLast_mem hne)]

theorem trim_sublist (text : List Char) : (trim text).Sublist text :=
  (List.rdropWhile_prefix _ _).sublist.trans (List.dropWhile_sublist _)

theorem length_trim_le (text : List Char) : (trim text).length ≤ text.length :=
  (trim_sublist text).length_le

/-- What follows the last occurrence of `sep`. -/
def afterLast (sep : List Char) : List Char → Option (List Char)
  | [] => none
  | c :: rest =>
      match afterLast sep rest with
      | some s => some s
      | none =>
          if sep.isPrefixOf (c :: rest) then some ((c :: rest).drop sep.length) else none

/-- The parts before and behind the first occurrence of `sep`. -/
def splitFirst (sep : List Char) : List Char → Option (List Char × List Char)
  | [] => none
  | c :: rest =>
      if sep.isPrefixOf (c :: rest) then some ([], (c :: rest).drop sep.length)
      else (splitFirst sep rest).map fun p => (c :: p.1, p.2)

def splitOnce (sep : String) (text : String) : Option (String × String) :=
  (splitFirst sep.toList text.toList).map fun p => (String.ofList p.1, String.ofList p.2)

/-- `text LIKE '%::%'`. -/
def hasScope (text : String) : Bool := (splitFirst [':', ':'] text.toList).isSome

/-- `text LIKE '%<suffix>'` for a suffix in lower case: `LIKE` ignores ASCII case. -/
def likeSuffix (suffix text : String) : Bool :=
  suffix.toList.isSuffixOf (text.toList.map Char.toLower)

/-- The suffixes by which a target is taken for a file. -/
def fileTargetSuffixes : List String :=
  [".md", ".markdown", ".py", ".tf", ".tfvars", ".rs", ".js", ".mjs", ".cjs", ".ts", ".mts",
    ".cts", ".tsx", ".jsx", ".java", ".go", ".rb", ".php", ".cs", ".cpp", ".hpp", ".c", ".h",
    ".swift", ".kt", ".scala", ".dart", ".ipynb"]

def stripSuffix (suffix text : String) : Option String :=
  if suffix.toList.isSuffixOf text.toList then
    some (String.ofList (text.toList.take (text.toList.length - suffix.toList.length)))
  else none

theorem afterLast_eq_none_iff (sep : List Char) :
    ∀ cs, afterLast sep cs = none ↔ splitFirst sep cs = none
  | [] => by simp [afterLast, splitFirst]
  | c :: cs => by
      have ih := afterLast_eq_none_iff sep cs
      simp only [afterLast, splitFirst]
      cases h : afterLast sep cs with
      | some s =>
          have hne : splitFirst sep cs ≠ none := fun h' => by simp [ih.mpr h'] at h
          simp only [reduceCtorEq, false_iff]
          split
          · simp
          · simpa using hne
      | none =>
          have hnone : splitFirst sep cs = none := ih.mp h
          simp only [hnone, Option.map_none]
          split <;> simp

theorem length_afterLast_lt (sep : List Char) (hsep : sep ≠ []) :
    ∀ {cs rest}, afterLast sep cs = some rest → rest.length < cs.length
  | [], rest, h => by simp [afterLast] at h
  | c :: cs, rest, h => by
      simp only [afterLast] at h
      have hpos : 0 < sep.length := List.length_pos_iff.mpr hsep
      split at h
      · rename_i s hs
        obtain rfl : s = rest := by simpa using h
        have hlt := length_afterLast_lt sep hsep hs
        rw [List.length_cons]
        omega
      · split at h
        · obtain rfl : (c :: cs).drop sep.length = rest := by simpa using h
          rw [List.length_drop, List.length_cons]
          omega
        · cases h

end Dagayn
