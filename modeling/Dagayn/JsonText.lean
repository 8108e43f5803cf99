import Dagayn.Scanner

/-!
# JSON text

The grammar both JSON readers of the repository follow, with what they may differ in
left to them: a number is kept as its literal, a string as the UTF-16 code units it
spells (an escape may spell half of a surrogate pair), an object as its fields in
document order. The words beside numbers, strings, arrays and objects are a parameter:
Python's reader knows three more than `serde_json`.

A number is the longest run of characters that can stand in one. A reader that stops
earlier, behind the longest prefix that is a number, stops before a character that can
follow no value, so both accept the same texts.
-/

namespace Dagayn

inductive JsonDoc where
  | null
  | bool (b : Bool)
  | num (literal : List Char)
  | str (units : List Nat)
  | arr (items : List JsonDoc)
  | obj (fields : List (List Nat × JsonDoc))

namespace JsonText

open Scanner

/-! ## Numbers and words -/

def isNumberChar (c : Char) : Bool :=
  c.isDigit || c = '-' || c = '+' || c = '.' || c = 'e' || c = 'E'

def isDigits (t : List Char) : Bool := !t.isEmpty && t.all Char.isDigit

def isExponent : List Char → Bool
  | [] => true
  | c :: t =>
      (c = 'e' || c = 'E') &&
        match t with
        | '+' :: u => isDigits u
        | '-' :: u => isDigits u
        | u => isDigits u

def isFraction : List Char → Bool
  | '.' :: c :: t => c.isDigit && isExponent (t.dropWhile Char.isDigit)
  | t => isExponent t

def isMagnitude : List Char → Bool
  | '0' :: t => isFraction t
  | c :: t => c.isDigit && isFraction (t.dropWhile Char.isDigit)
  | [] => false

/-- `-? (0 | [1-9][0-9]*) (\.[0-9]+)? ([eE][+-]?[0-9]+)?`. -/
def isNumber : List Char → Bool
  | '-' :: t => isMagnitude t
  | t => isMagnitude t

def number : Scanner JsonDoc := fun cs =>
  let t := cs.takeWhile isNumberChar
  if isNumber t then some (.num t, cs.dropWhile isNumberChar) else none

abbrev Words := List (List Char × JsonDoc)

def jsonWords : Words :=
  [("null".toList, .null), ("true".toList, .bool true), ("false".toList, .bool false)]

def word (words : Words) : Scanner JsonDoc := fun cs =>
  (words.find? fun w => w.1.isPrefixOf cs).map fun w => (w.2, cs.drop w.1.length)

/-! ## Strings -/

def hexVal (c : Char) : Option Nat :=
  if c.isDigit then some (c.toNat - 48)
  else if 'a' ≤ c ∧ c ≤ 'f' then some (c.toNat - 87)
  else if 'A' ≤ c ∧ c ≤ 'F' then some (c.toNat - 55)
  else none

def hex4 (a b c d : Char) : Option Nat :=
  (hexVal a).bind fun a => (hexVal b).bind fun b => (hexVal c).bind fun c =>
    (hexVal d).map fun d => ((a * 16 + b) * 16 + c) * 16 + d

/-- The character behind a backslash other than `u`. -/
def escapeOf (c : Char) : Option Nat :=
  if c = '"' ∨ c = '\\' ∨ c = '/' then some c.toNat
  else if c = 'b' then some 8
  else if c = 'f' then some 12
  else if c = 'n' then some 10
  else if c = 'r' then some 13
  else if c = 't' then some 9
  else none

def utf16 (n : Nat) : List Nat :=
  if n < 0x10000 then [n] else [0xd800 + (n - 0x10000) / 0x400, 0xdc00 + (n - 0x10000) % 0x400]

def stringBody : Scanner (List Nat)
  | [] => none
  | c :: cs =>
      if c = '"' then some ([], cs)
      else if c = '\\' then
        match cs with
        | 'u' :: x :: y :: z :: w :: cs =>
            (hex4 x y z w).bind fun n => (stringBody cs).map fun s => (n :: s.1, s.2)
        | e :: cs => (escapeOf e).bind fun n => (stringBody cs).map fun s => (n :: s.1, s.2)
        | [] => none
      else if c.toNat < 0x20 then none
      else (stringBody cs).map fun s => (utf16 c.toNat ++ s.1, s.2)

def string : Scanner (List Nat)
  | '"' :: cs => stringBody cs
  | _ => none

/-! ## Values -/

/-- A value at the front of a text, with fuel for its length. -/
def value (words : Words) : Nat → Scanner JsonDoc
  | 0, _ => none
  | n + 1, cs =>
      match cs with
      | '"' :: rest => (stringBody rest).map fun s => (.str s.1, s.2)
      | '[' :: rest => (delimited (value words n) ']' n rest).map fun s => (.arr s.1, s.2)
      | '\x7b' :: rest =>
          (delimited (pair string (value words n)) '\x7d' n rest).map fun s => (.obj s.1, s.2)
      | cs => (number cs).or (word words cs)

def parse (words : Words) (text : List Char) : Option JsonDoc :=
  (value words text.length (skipBlanks text)).bind fun r =>
    if (skipBlanks r.2).isEmpty then some r.1 else none

/-- `t` is the text of the value `d`, with nothing around it. -/
def TextOf (t : List Char) (d : JsonDoc) : Prop := value jsonWords t.length t = some (d, [])

/-! ## A value is read alike whatever follows it -/

def separates (c : Char) : Bool := !isNumberChar c

theorem separates_of_isBlank (c : Char) (h : isBlank c = true) : separates c = true := by
  simp only [isBlank, Bool.or_eq_true, decide_eq_true_eq] at h
  rcases h with ((rfl | rfl) | rfl) | rfl <;> rfl

theorem number_follows : Follows separates number fun _ => number := by
  intro cs d rest h
  unfold number at h
  dsimp only at h
  split at h
  · rename_i hnum
    cases h
    have ht : ∀ c ∈ cs.takeWhile isNumberChar, isNumberChar c = true :=
      fun c hc => List.mem_takeWhile_imp hc
    refine ⟨cs.takeWhile isNumberChar, ?_, List.takeWhile_append_dropWhile.symm,
      fun _ _ rest' hrest' => ?_⟩
    · intro hnil
      rw [hnil] at hnum
      exact absurd hnum (by decide)
    · have hrest : rest'.takeWhile isNumberChar = [] ∧ rest'.dropWhile isNumberChar = rest' := by
        cases rest' with
        | nil => exact ⟨rfl, rfl⟩
        | cons c rest' =>
            have hc : ¬isNumberChar c = true := by simpa [separates] using hrest' c rfl
            exact ⟨List.takeWhile_cons_of_neg hc, List.dropWhile_cons_of_neg hc⟩
      unfold number
      dsimp only
      rw [List.takeWhile_append_of_pos ht, List.dropWhile_append_of_pos ht, hrest.1, hrest.2,
        List.append_nil, if_pos hnum]
  · exact absurd h (by simp)

theorem stringBody_quote (cs : List Char) : stringBody ('"' :: cs) = some ([], cs) := by
  rw [stringBody.eq_def]
  simp

theorem stringBody_hex {x y z w : Char} {n : Nat} (h : hex4 x y z w = some n) (cs : List Char) :
    stringBody ('\\' :: 'u' :: x :: y :: z :: w :: cs)
      = (stringBody cs).map fun s => (n :: s.1, s.2) := by
  rw [stringBody.eq_def]
  simp [h]

theorem stringBody_escape {e : Char} {n : Nat} (h : escapeOf e = some n) (cs : List Char) :
    stringBody ('\\' :: e :: cs) = (stringBody cs).map fun s => (n :: s.1, s.2) := by
  have hne : e ≠ 'u' := by
    rintro rfl
    have hnone : escapeOf 'u' = none := by decide
    rw [hnone] at h
    exact absurd h (by simp)
  rw [stringBody.eq_def]
  simp [hne, h]

theorem stringBody_plain {c : Char} (hquote : c ≠ '"') (hslash : c ≠ '\\')
    (hctl : ¬c.toNat < 0x20) (cs : List Char) :
    stringBody (c :: cs) = (stringBody cs).map fun s => (utf16 c.toNat ++ s.1, s.2) := by
  rw [stringBody.eq_def]
  simp [hquote, hslash, hctl]

theorem stringBody_follows : ∀ (cs : List Char) (us : List Nat) (rest : List Char),
    stringBody cs = some (us, rest) →
    ∃ t, t ≠ [] ∧ cs = t ++ rest ∧ ∀ rest', stringBody (t ++ rest') = some (us, rest') := by
  intro cs
  fun_induction stringBody cs with
  | case1 =>
      intro us rest h
      exact absurd h (by simp)
  | case2 cs =>
      intro us rest h
      cases h
      exact ⟨['"'], by simp, rfl, fun rest' => stringBody_quote rest'⟩
  | case3 x y z w cs hquote ih =>
      intro us rest h
      obtain ⟨n, hn, h⟩ := Option.bind_eq_some_iff.mp h
      obtain ⟨⟨us', r⟩, hs, h⟩ := Option.map_eq_some_iff.mp h
      cases h
      obtain ⟨t, -, rfl, ht⟩ := ih us' r hs
      refine ⟨'\\' :: 'u' :: x :: y :: z :: w :: t, by simp, rfl, fun rest' => ?_⟩
      simp only [List.cons_append]
      rw [stringBody_hex hn, ht rest']
      rfl
  | case4 e cs hu hquote ih =>
      intro us rest h
      obtain ⟨n, hn, h⟩ := Option.bind_eq_some_iff.mp h
      obtain ⟨⟨us', r⟩, hs, h⟩ := Option.map_eq_some_iff.mp h
      cases h
      obtain ⟨t, -, rfl, ht⟩ := ih us' r hs
      refine ⟨'\\' :: e :: t, by simp, rfl, fun rest' => ?_⟩
      simp only [List.cons_append]
      rw [stringBody_escape hn, ht rest']
      rfl
  | case5 =>
      intro us rest h
      exact absurd h (by simp)
  | case6 c cs hquote hslash hctl =>
      intro us rest h
      exact absurd h (by simp)
  | case7 c cs hquote hslash hctl ih =>
      intro us rest h
      obtain ⟨⟨us', r⟩, hs, h⟩ := Option.map_eq_some_iff.mp h
      cases h
      obtain ⟨t, -, rfl, ht⟩ := ih us' r hs
      refine ⟨c :: t, by simp, rfl, fun rest' => ?_⟩
      rw [List.cons_append, stringBody_plain hquote hslash hctl, ht rest']
      rfl

theorem string_follows : Follows separates string fun _ => string := by
  intro cs us rest h
  unfold string at h
  split at h
  · rename_i cs
    obtain ⟨t, -, rfl, ht⟩ := stringBody_follows cs us rest h
    exact ⟨'"' :: t, by simp, rfl, fun _ _ rest' _ => ht rest'⟩
  · exact absurd h (by simp)

theorem number_word {w : List Char × JsonDoc} (hw : w ∈ jsonWords) (rest : List Char) :
    number (w.1 ++ rest) = none := by
  simp only [jsonWords, List.mem_cons, List.not_mem_nil, or_false] at hw
  rcases hw with rfl | rfl | rfl <;> rfl

theorem word_append (extra : Words) {cs : List Char} {r : JsonDoc × List Char}
    (h : word jsonWords cs = some r) : word (jsonWords ++ extra) cs = some r := by
  unfold word at h ⊢
  obtain ⟨w, hw, h⟩ := Option.map_eq_some_iff.mp h
  rw [List.find?_append, hw]
  exact congrArg some h

theorem word_follows (extra : Words) {cs : List Char} {d : JsonDoc} {rest : List Char}
    (h : word jsonWords cs = some (d, rest)) :
    ∃ w ∈ jsonWords, cs = w.1 ++ rest ∧
      ∀ rest', word (jsonWords ++ extra) (w.1 ++ rest') = some (d, rest') := by
  unfold word at h
  obtain ⟨w, hw, h⟩ := Option.map_eq_some_iff.mp h
  have hmem := List.mem_of_find?_eq_some hw
  have hpre : w.1.isPrefixOf cs = true :=
    List.find?_some (p := fun w : List Char × JsonDoc => w.1.isPrefixOf cs) hw
  obtain ⟨r, rfl⟩ := List.isPrefixOf_iff_prefix.mp hpre
  rw [List.drop_left] at h
  cases h
  refine ⟨w, hmem, rfl, fun rest' => word_append extra ?_⟩
  simp only [jsonWords, List.mem_cons, List.not_mem_nil, or_false] at hmem
  rcases hmem with rfl | rfl | rfl <;> rfl

theorem scalar_follows (extra : Words) {cs : List Char} {d : JsonDoc} {rest : List Char}
    (h : (number cs).or (word jsonWords cs) = some (d, rest)) :
    ∃ t, t ≠ [] ∧ cs = t ++ rest ∧ ∀ rest', Ends separates rest' →
      (number (t ++ rest')).or (word (jsonWords ++ extra) (t ++ rest')) = some (d, rest') := by
  cases hnum : number cs with
  | some r =>
      rw [hnum, Option.some_or] at h
      cases h
      obtain ⟨t, ht, hcs, htake⟩ := number_follows cs d rest hnum
      refine ⟨t, ht, hcs, fun rest' hrest' => ?_⟩
      have hread : number (t ++ rest') = some (d, rest') :=
        htake t.length (Nat.le_refl _) rest' hrest'
      rw [hread, Option.some_or]
  | none =>
      rw [hnum, Option.none_or] at h
      obtain ⟨w, hw, hcs, hword⟩ := word_follows extra h
      refine ⟨w.1, ?_, hcs, fun rest' _ => ?_⟩
      · simp only [jsonWords, List.mem_cons, List.not_mem_nil, or_false] at hw
        rcases hw with rfl | rfl | rfl <;> simp
      · rw [number_word hw rest', Option.none_or, hword rest']

/-- What a reader with fuel `n` reads, a reader that may know more words reads again
with fuel for the text alone. By induction on `n`: every element of an array or object
is shorter than the whole. -/
theorem value_follows (extra : Words) : ∀ n,
    Follows separates (value jsonWords n) (value (jsonWords ++ extra)) := by
  intro n
  induction n with
  | zero =>
      intro cs d rest h
      exact absurd h (by simp [value])
  | succ n ih =>
      intro cs d rest h
      rw [value.eq_def] at h
      dsimp only at h
      split at h
      · rename_i r
        obtain ⟨⟨us, r'⟩, hs, h⟩ := Option.map_eq_some_iff.mp h
        cases h
        obtain ⟨t, -, rfl, ht⟩ := stringBody_follows r us r' hs
        refine ⟨'"' :: t, by simp, rfl, fun m hm rest' _ => ?_⟩
        obtain ⟨m, rfl⟩ : ∃ k, m = k + 1 := ⟨m - 1, by simp at hm; omega⟩
        rw [List.cons_append, value, ht rest']
        rfl
      · rename_i r
        obtain ⟨⟨ds, r'⟩, hs, h⟩ := Option.map_eq_some_iff.mp h
        cases h
        obtain ⟨t, rfl, ht⟩ := delimited_follows separates_of_isBlank ih rfl rfl hs
        refine ⟨'[' :: t, by simp, rfl, fun m hm rest' _ => ?_⟩
        obtain ⟨m, rfl⟩ : ∃ k, m = k + 1 := ⟨m - 1, by simp at hm; omega⟩
        have hlen : t.length ≤ m := by simpa using hm
        rw [List.cons_append, value, ht m m hlen hlen rest']
        rfl
      · rename_i r
        obtain ⟨⟨es, r'⟩, hs, h⟩ := Option.map_eq_some_iff.mp h
        cases h
        have hpair := pair_follows separates_of_isBlank string_follows ih rfl
        obtain ⟨t, rfl, ht⟩ := delimited_follows separates_of_isBlank hpair rfl rfl hs
        refine ⟨'\x7b' :: t, by simp, rfl, fun m hm rest' _ => ?_⟩
        obtain ⟨m, rfl⟩ : ∃ k, m = k + 1 := ⟨m - 1, by simp at hm; omega⟩
        have hlen : t.length ≤ m := by simpa using hm
        rw [List.cons_append, value, ht m m hlen hlen rest']
        rfl
      · rename_i hquote hbracket hbrace
        obtain ⟨t, ht, rfl, htake⟩ := scalar_follows extra h
        refine ⟨t, ht, rfl, fun m hm rest' hrest' => ?_⟩
        obtain ⟨c, u, rfl⟩ := List.exists_cons_of_ne_nil ht
        obtain ⟨m, rfl⟩ : ∃ k, m = k + 1 := ⟨m - 1, by simp at hm; omega⟩
        have hne : c ≠ '"' ∧ c ≠ '[' ∧ c ≠ '\x7b' := by
          refine ⟨?_, ?_, ?_⟩
          · rintro rfl; exact hquote _ rfl
          · rintro rfl; exact hbracket _ rfl
          · rintro rfl; exact hbrace _ rfl
        have hread := htake rest' hrest'
        rw [List.cons_append] at hread ⊢
        rw [value]
        · exact hread
        · intro r hr; exact hne.1 (List.cons.inj hr).1
        · intro r hr; exact hne.2.1 (List.cons.inj hr).1
        · intro r hr; exact hne.2.2 (List.cons.inj hr).1

theorem TextOf.takes {t : List Char} {d : JsonDoc} (h : TextOf t d) (extra : Words) {m : Nat}
    (hm : t.length ≤ m) : Takes separates (value (jsonWords ++ extra) m) t d := by
  obtain ⟨u, -, hu, htake⟩ := value_follows extra t.length t d [] h
  rw [List.append_nil] at hu
  subst hu
  exact htake m hm

theorem textOf_of_value {n : Nat} {cs rest : List Char} {d : JsonDoc}
    (h : value jsonWords n cs = some (d, rest)) : ∃ t, cs = t ++ rest ∧ TextOf t d := by
  obtain ⟨t, -, hcs, htake⟩ := value_follows [] n cs d rest h
  refine ⟨t, hcs, ?_⟩
  have hread := htake t.length (Nat.le_refl _) [] (by simp [Ends])
  rwa [List.append_nil, List.append_nil] at hread

theorem textOf_of_withText {n : Nat} {cs rest : List Char} {e : List Char × JsonDoc}
    (h : withText (value jsonWords n) cs = some (e, rest)) : TextOf e.1 e.2 := by
  obtain ⟨⟨d, r⟩, hv, h'⟩ := Option.map_eq_some_iff.mp h
  obtain ⟨t, rfl, ht⟩ := textOf_of_value hv
  rw [withText_append hv] at h
  cases h
  exact ht

theorem TextOf.start {t : List Char} {d : JsonDoc} (h : TextOf t d) :
    ∃ c u, t = c :: u ∧ isBlank c = false := by
  obtain ⟨u, hne, hu, -⟩ := value_follows [] t.length t d [] h
  rw [List.append_nil] at hu
  subst hu
  obtain ⟨c, u, rfl⟩ := List.exists_cons_of_ne_nil hne
  refine ⟨c, u, rfl, ?_⟩
  by_contra hc
  have hblank : isBlank c = true := by simpa using hc
  unfold TextOf at h
  simp only [isBlank, Bool.or_eq_true, decide_eq_true_eq] at hblank
  rcases hblank with ((rfl | rfl) | rfl) | rfl <;> exact absurd h (by simp [value, number, word,
    jsonWords, isNumberChar, isNumber, isMagnitude])

theorem TextOf.skipBlanks {t : List Char} {d : JsonDoc} (h : TextOf t d) (rest : List Char) :
    skipBlanks (t ++ rest) = t ++ rest := by
  obtain ⟨c, u, rfl, hc⟩ := h.start
  exact skipBlanks_cons hc (u ++ rest)

theorem TextOf.parse {t : List Char} {d : JsonDoc} (h : TextOf t d) (extra : Words) :
    parse (jsonWords ++ extra) t = some d := by
  have hskip := h.skipBlanks []
  have hread := h.takes extra (Nat.le_refl _) [] (by simp [Ends])
  rw [List.append_nil] at hskip hread
  unfold JsonText.parse
  rw [hskip, hread]
  rfl

end JsonText

end Dagayn
