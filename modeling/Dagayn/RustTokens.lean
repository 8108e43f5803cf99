import Dagayn.RustBlanks

/-!
# The tokens of Rust code

Rust's lexical rules, as of the 2021 edition: what a text is made of, and what may follow a token.
`ideal` is a text with spaces in the place of its comments and literals. The scan of
`blank_non_code` gives it where no token is one that the scan takes for another.
-/

namespace Dagayn

namespace RustCode

/-! ## Tokens -/

/-- A character of an identifier; beyond ASCII any character may be one. -/
def isIdentChar (c : Char) : Bool := isWordChar c || 0x80 ≤ c.toNat

def IsWord (text : List Char) : Prop := text ≠ [] ∧ ∀ c ∈ text, isIdentChar c = true

/-- A block comment behind its opening, inside `depth` others, up to its closing. -/
def blockEnd : Nat → List Char → Option (List Char × List Char)
  | _, [] => none
  | depth, '*' :: '/' :: rest =>
      match depth with
      | 0 => some (['*', '/'], rest)
      | depth + 1 => (blockEnd depth rest).map fun s => ('*' :: '/' :: s.1, s.2)
  | depth, '/' :: '*' :: rest =>
      (blockEnd (depth + 1) rest).map fun s => ('/' :: '*' :: s.1, s.2)
  | depth, c :: rest => (blockEnd depth rest).map fun s => (c :: s.1, s.2)

/-- A string literal behind its opening quote. -/
inductive StringBody : List Char → Prop
  | close : StringBody ['"']
  | plain {c : Char} {body : List Char} (hquote : c ≠ '"') (hslash : c ≠ '\\')
      (h : StringBody body) : StringBody (c :: body)
  | escape (e : Char) {body : List Char} (h : StringBody body) : StringBody ('\\' :: e :: body)

/-- A character literal behind its opening quote. -/
inductive CharBody : List Char → Prop
  | plain {c : Char} (hquote : c ≠ '\'') (hslash : c ≠ '\\') : CharBody [c, '\'']
  | escape (e : Char) {tail : List Char} (h : '\'' ∉ tail) :
      CharBody ('\\' :: e :: (tail ++ ['\'']))

/-- `b` and `c` in front of a literal. -/
inductive LiteralPrefix where
  | none
  | byte
  | cString
deriving DecidableEq

def LiteralPrefix.text : LiteralPrefix → List Char
  | .none => []
  | .byte => ['b']
  | .cString => ['c']

inductive Token where
  | code (c : Char) (h : isWordChar c = false) (hquote : c ≠ '"') (htick : c ≠ '\'')
  | word (text : List Char) (h : IsWord text)
  | number (digit : Char) (text : List Char) (hdigit : digit.isDigit = true)
      (h : ∀ c ∈ text, isWordChar c = true)
  | rawIdent (text : List Char) (h : IsWord text)
  | lifetime (raw : Bool) (text : List Char) (h : IsWord text)
  | line (text : List Char) (h : '\n' ∉ text)
  | block (text : List Char) (h : blockEnd 0 text = some (text, []))
  | str (front : LiteralPrefix) (body : List Char) (h : StringBody body)
  | rawStr (front : LiteralPrefix) (hashes : Nat) (body : List Char)
      (h : ¬ ('"' :: List.replicate hashes '#') <:+: body)
  | chr (byte : Bool) (body : List Char) (h : CharBody body)

namespace Token

def text : Token → List Char
  | code c _ _ _ => [c]
  | word text _ => text
  | number digit text _ _ => digit :: text
  | rawIdent text _ => 'r' :: '#' :: text
  | lifetime raw text _ => '\'' :: ((if raw then ['r', '#'] else []) ++ text)
  | line text _ => '/' :: '/' :: text
  | block text _ => '/' :: '*' :: text
  | str front body _ => front.text ++ '"' :: body
  | rawStr front hashes body _ => front.text ++ 'r' :: (List.replicate hashes '#' ++
      '"' :: (body ++ '"' :: List.replicate hashes '#'))
  | chr byte body _ => (if byte then ['b'] else []) ++ '\'' :: body

/-- A token with spaces in its place, if it is a comment or a literal. -/
def ideal : Token → List Char
  | t@(line _ _) => blanks t.text
  | t@(block _ _) => blanks t.text
  | t@(str _ _ _) => blanks t.text
  | t@(rawStr _ _ _ _) => blanks t.text
  | t@(chr _ _ _) => blanks t.text
  | t => t.text

/-- What may stand behind a token: a token is as long as it can be, and no identifier stands
before a quote or a hash. -/
def Follows (rest : List Char) : Token → Prop
  | code c _ _ _ => c = '/' → rest.head? ≠ some '/' ∧ rest.head? ≠ some '*'
  | word _ _ => (∀ c ∈ rest.head?, isIdentChar c = false) ∧ rest.head? ≠ some '"' ∧
      rest.head? ≠ some '\'' ∧ rest.head? ≠ some '#'
  | number _ _ _ _ => ∀ c ∈ rest.head?, isIdentChar c = false
  | rawIdent _ _ => ∀ c ∈ rest.head?, isIdentChar c = false
  | lifetime _ _ _ => (∀ c ∈ rest.head?, isIdentChar c = false) ∧ rest.head? ≠ some '\'' ∧
      rest.head? ≠ some '#'
  | line _ _ => ∀ c ∈ rest.head?, c = '\n'
  | _ => True

end Token

def codeText (ts : List Token) : List Char := ts.flatMap Token.text

/-- The text without its comments and literals. -/
def idealText (ts : List Token) : List Char := ts.flatMap Token.ideal

def Lexes : List Token → Prop
  | [] => True
  | t :: ts => t.Follows (codeText ts) ∧ Lexes ts

/-! ## Tokens that the scan takes for what they are -/

/-- A name ends in an `r` of which the scan does not see that it ends a name. -/
def rawEnd : Option Char → List Char → Bool
  | _, [] => false
  | before, [c] => c = 'r' && !before.any isWordChar
  | _, c :: c' :: text => rawEnd (some c) (c' :: text)

def quoted (rest : List Char) : Prop := (rest.dropWhile (· = '#')).head? = some '"'

def Token.Plain (rest : List Char) : Token → Prop
  | .rawIdent text _ => rawEnd (some '#') text = true → ¬ quoted rest
  | .lifetime raw text _ =>
      rawEnd (some (if raw then '#' else '\'')) text = true → ¬ quoted rest
  | .block text _ => ¬ ['/', '*'] <:+: text
  | .str front _ _ => front = .none
  | .rawStr front _ _ _ => front = .none
  | .chr byte body _ => byte = false ∧ ¬ ['\\', '\''] <+: body
  | _ => True

/-- No comment in a comment, no prefix `b` or `c`, no `'\''`, no name that seems to begin a raw
string. -/
def AllPlain : List Token → Prop
  | [] => True
  | t :: ts => t.Plain (codeText ts) ∧ AllPlain ts

/-! ## Names -/

def Passes (rest : List Char) : Option Char → List Char → Prop
  | _, [] => True
  | before, c :: text =>
      charRegionAt before (c :: (text ++ rest)) = none ∧ Passes rest (some c) text

theorem blankChars_of_passes {rest : List Char} : ∀ {text : List Char} {before : Option Char},
    Passes rest before text →
    blankChars before (text ++ rest) = text ++ blankChars (text.getLast?.or before) rest
  | [], _, _ => rfl
  | c :: text, before, h => by
      rw [List.cons_append, blankChars_of_none h.1, blankChars_of_passes h.2]
      cases text with
      | nil => rfl
      | cons c' text =>
          rw [List.getLast?_cons_cons]
          cases hlast : (c' :: text).getLast? with
          | none => exact absurd (List.getLast?_eq_none_iff.mp hlast) (List.cons_ne_nil _ _)
          | some last => rfl

theorem ne_of_isIdentChar {c a : Char} (h : isIdentChar c = true) (ha : isIdentChar a = false) :
    c ≠ a := by
  rintro rfl
  rw [ha] at h
  cases h

theorem charRegionAt_of_ne {c : Char} (hslash : c ≠ '/') (hraw : c ≠ 'r') (hquote : c ≠ '"')
    (htick : c ≠ '\'') (before : Option Char) (rest : List Char) :
    charRegionAt before (c :: rest) = none :=
  regionAt_of_ne hslash hraw hquote htick _ rest

/-- An `r` is no raw string where an identifier character is before it, or no quote behind. -/
theorem charRegionAt_r {before : Option Char} {rest : List Char}
    (h : before.any isWordChar = true ∨ ¬ quoted rest) :
    charRegionAt before ('r' :: rest) = none := by
  rw [charRegionAt]
  by_cases hstart : (rest.head? = some '"' ∨ rest.head? = some '#') ∧
      before.any isWordChar = false
  · obtain ⟨hfront, hword⟩ := hstart
    have hnot : ¬ quoted rest := h.resolve_left (by rw [hword]; exact Bool.false_ne_true)
    have hregion : regionAt id (fun _ => 1) false ('r' :: rest) = _ :=
      regionAt_raw ascii_id hfront
    rw [hword, hregion]
    simp only [id]
    cases hdrop : rest.dropWhile (· = '#') with
    | nil => rfl
    | cons quote behind =>
        have hquote : quote ≠ '"' := by
          rintro rfl
          exact hnot (by rw [quoted, hdrop]; rfl)
        simp only [if_neg hquote]
  · exact regionAt_r ascii_id hstart

theorem not_quoted_of_ident {c : Char} (h : isIdentChar c = true) (rest : List Char) :
    ¬ quoted (c :: rest) := by
  have hhash : c ≠ '#' := ne_of_isIdentChar h (by decide)
  rw [quoted, List.dropWhile_cons_of_neg (by simpa using hhash), List.head?_cons]
  exact fun heq => ne_of_isIdentChar h (by decide) (Option.some.inj heq)

/-- The scan passes over a name that does not seem to end in the start of a raw string. -/
theorem passes_ident {rest : List Char} : ∀ {text : List Char} {before : Option Char},
    (∀ c ∈ text, isIdentChar c = true) → (rawEnd before text = true → ¬ quoted rest) →
    Passes rest before text
  | [], _, _, _ => trivial
  | c :: text, before, hall, hend => by
      have hc := hall c List.mem_cons_self
      refine ⟨?_, ?_⟩
      · by_cases hraw : c = 'r'
        · subst hraw
          refine charRegionAt_r ?_
          cases text with
          | nil =>
              cases hword : before.any isWordChar with
              | true => exact .inl rfl
              | false => exact .inr (hend (by rw [rawEnd, hword]; rfl))
          | cons c' text =>
              exact .inr (not_quoted_of_ident (hall c' (by simp)) _)
        · exact charRegionAt_of_ne (ne_of_isIdentChar hc (by decide)) hraw
            (ne_of_isIdentChar hc (by decide)) (ne_of_isIdentChar hc (by decide)) _ _
      · refine passes_ident (fun c' hc' => hall c' (List.mem_cons_of_mem _ hc')) fun h => ?_
        cases text with
        | nil => cases h
        | cons c' text => exact hend h

theorem rawEnd_of_word : ∀ {text : List Char} {before : Option Char},
    before.any isWordChar = true → (∀ c ∈ text, isWordChar c = true) → rawEnd before text = false
  | [], _, _, _ => rfl
  | [c], before, hbefore, _ => by rw [rawEnd, hbefore, Bool.not_true, Bool.and_false]
  | c :: c' :: text, before, _, hall => by
      rw [rawEnd]
      exact rawEnd_of_word (hall c List.mem_cons_self) fun d hd =>
        hall d (List.mem_cons_of_mem _ hd)

theorem not_quoted_of_head? {rest : List Char} (hquote : rest.head? ≠ some '"')
    (hhash : rest.head? ≠ some '#') : ¬ quoted rest := by
  cases rest with
  | nil => exact fun h => by cases h
  | cons c rest =>
      have hc : c ≠ '#' := fun h => hhash (by rw [h]; rfl)
      rw [quoted, List.dropWhile_cons_of_neg (by simpa using hc)]
      exact hquote

/-! ## Comments and literals -/

theorem takeString_stringBody {body : List Char} (h : StringBody body) (rest : List Char) :
    Jsonc.takeString id (body ++ rest) = (body, rest) := by
  induction h with
  | close => exact Jsonc.takeString_quote rest
  | plain hquote hslash _ ih => rw [List.cons_append, Jsonc.takeString_plain hquote hslash, ih]
  | escape e _ ih => rw [List.cons_append, List.cons_append, Jsonc.takeString_escape, ih]

theorem takeBlock_of_blockEnd {text : List Char} (hend : blockEnd 0 text = some (text, []))
    (hflat : ¬ ['/', '*'] <:+: text) (rest : List Char) :
    Jsonc.takeBlock id (text ++ rest) = (text, rest) := by
  induction text with
  | nil => cases hend
  | cons c text ih =>
      have htail : ¬ ['/', '*'] <:+: text := fun h =>
        hflat (h.trans (List.suffix_cons c text).isInfix)
      unfold blockEnd at hend
      split at hend
      · rename_i heq
        cases heq
      · rename_i behind heq
        obtain ⟨rfl, rfl⟩ := List.cons.inj heq
        obtain ⟨-, rfl⟩ := Prod.mk.inj (Option.some.inj hend)
        exact if_pos ⟨rfl, rfl⟩
      · rename_i behind heq
        obtain ⟨rfl, rfl⟩ := List.cons.inj heq
        exact absurd ⟨[], behind, rfl⟩ hflat
      · rename_i c' text' hclose hopen heq
        obtain ⟨rfl, rfl⟩ := List.cons.inj heq
        obtain ⟨s, hs, hmap⟩ := Option.map_eq_some_iff.mp hend
        obtain ⟨htext, hbehind⟩ := Prod.mk.inj hmap
        have hrest := ih (by rw [hs, ← (List.cons.inj htext).2, ← hbehind]) htail
        cases hmore : text ++ rest with
        | nil =>
            obtain ⟨rfl, rfl⟩ := List.append_eq_nil_iff.mp hmore
            cases hs
        | cons e more =>
            have hnot : ¬ (c = id '*' ∧ e = id '/') := by
              rintro ⟨rfl, rfl⟩
              cases text with
              | nil => cases hs
              | cons e' text =>
                  obtain ⟨rfl, -⟩ := List.cons.inj hmore
                  exact hclose text rfl rfl
            rw [hmore] at hrest
            rw [List.cons_append, hmore, Jsonc.takeBlock, if_neg hnot, hrest]

theorem takeRaw_body {hashes : Nat} {body : List Char}
    (h : ¬ ('"' :: List.replicate hashes '#') <:+: body) (rest : List Char) :
    takeRaw id hashes (body ++ '"' :: (List.replicate hashes '#' ++ rest)) =
      (body ++ '"' :: List.replicate hashes '#', rest) := by
  induction body with
  | nil =>
      have hlength : (List.replicate hashes '#').length = hashes := List.length_replicate
      rw [List.nil_append, takeRaw, List.take_left' hlength, List.drop_left' hlength]
      exact if_pos ⟨rfl, rfl⟩
  | cons b body ih =>
      have htail := ih fun hin => h (hin.trans (List.suffix_cons b body).isInfix)
      have hnot : ¬ (b = id '"' ∧ (body ++ '"' :: (List.replicate hashes '#' ++ rest)).take hashes =
          List.replicate hashes (id '#')) := by
        rintro ⟨rfl, htake⟩
        rcases Nat.lt_or_ge body.length hashes with hshort | hlong
        · have hquote := congrArg (fun l => l[body.length]?) htake
          simp only [List.getElem?_take_of_lt hshort, List.getElem?_append_right (Nat.le_refl _),
            Nat.sub_self, List.getElem?_cons_zero, List.getElem?_replicate_of_lt hshort] at hquote
          exact absurd (Option.some.inj hquote) (by decide)
        · rw [List.take_append_of_le_length hlong] at htake
          have hsplit := List.take_append_drop hashes body
          rw [htake] at hsplit
          exact h ⟨[], body.drop hashes, by
            rw [List.nil_append, List.cons_append]
            exact congrArg ('"' :: ·) hsplit⟩
      rw [List.cons_append, takeRaw, if_neg hnot, htail]
      rfl

theorem takeChar_body {body : List Char} (h : CharBody body) (hplain : ¬ ['\\', '\''] <+: body)
    (rest : List Char) : takeChar id (fun _ => 1) (body ++ rest) = some (body, rest) := by
  cases h with
  | plain hquote hslash =>
      rw [takeChar]
      exact (if_neg fun h => hslash (Option.some.inj h)).trans (if_pos rfl)
  | escape e htail =>
      rename_i tail
      have he : e ≠ '\'' := fun heq => hplain ⟨tail ++ ['\''], by rw [heq]; rfl⟩
      have hpass : ∀ c ∈ e :: tail, decide (c ≠ '\'') = true := by
        intro c hc
        refine decide_eq_true ?_
        rcases List.mem_cons.mp hc with rfl | hc
        · exact he
        · exact fun heq => htail (heq ▸ hc)
      have hrest : e :: (tail ++ ['\'']) ++ rest = (e :: tail) ++ '\'' :: rest := by simp
      rw [takeChar, List.cons_append]
      refine (if_pos rfl).trans ?_
      rw [List.tail_cons, hrest]
      simp only [id]
      rw [List.dropWhile_append_of_pos hpass, List.takeWhile_append_of_pos hpass,
        List.dropWhile_cons_of_neg (by decide), List.takeWhile_cons_of_neg (by decide)]
      simp

/-! ## The scan gives the ideal text -/

/-- No identifier goes on behind an identifier character of ASCII. -/
def Ready (before : Option Char) (text : List Char) : Prop :=
  before.any isWordChar = true → ∀ c ∈ text.head?, isIdentChar c = false

def Scans (t : Token) (before : Option Char) (rest : List Char) : Prop :=
  ∃ before', Ready before' rest ∧
    blankChars before (t.text ++ rest) = t.ideal ++ blankChars before' rest

theorem ready_of_not_word {before : Option Char} (h : before.any isWordChar = false)
    (rest : List Char) : Ready before rest := fun hword => by
  rw [h] at hword
  cases hword

theorem scans_code {c : Char} {h : isWordChar c = false} {hquote : c ≠ '"'} {htick : c ≠ '\''}
    {before : Option Char} {rest : List Char}
    (hfollows : (Token.code c h hquote htick).Follows rest) :
    Scans (.code c h hquote htick) before rest := by
  have hbefore : (some c).any isWordChar = false := h
  refine ⟨some c, ready_of_not_word hbefore rest, ?_⟩
  have hraw : c ≠ 'r' := by
    rintro rfl
    exact absurd h (by decide)
  have hnone : charRegionAt before (c :: rest) = none := by
    by_cases hslash : c = '/'
    · subst hslash
      obtain ⟨hline, hblock⟩ := hfollows rfl
      exact regionAt_slash ascii_id _ hline hblock
    · exact charRegionAt_of_ne hslash hraw hquote htick before rest
  exact blankChars_of_none hnone

theorem scans_passes {t : Token} {before : Option Char} {rest : List Char}
    (hpasses : Passes rest before t.text) (hideal : t.ideal = t.text)
    (hfollows : ∀ c ∈ rest.head?, isIdentChar c = false) : Scans t before rest :=
  ⟨_, fun _ => hfollows, by rw [blankChars_of_passes hpasses, hideal]⟩

theorem isIdentChar_of_isWordChar {c : Char} (h : isWordChar c = true) : isIdentChar c = true := by
  rw [isIdentChar, h, Bool.true_or]

theorem scans_number {digit : Char} {text : List Char} {hdigit : digit.isDigit = true}
    {h : ∀ c ∈ text, isWordChar c = true} {before : Option Char} {rest : List Char}
    (hfollows : (Token.number digit text hdigit h).Follows rest) :
    Scans (.number digit text hdigit h) before rest := by
  have hword : isWordChar digit = true := by
    rw [isWordChar, Char.isAlphanum, hdigit, Bool.or_true, Bool.true_or]
  have hraw : digit ≠ 'r' := by
    rintro rfl
    exact absurd hdigit (by decide)
  refine scans_passes (passes_ident ?_ fun hend => ?_) rfl hfollows
  · intro c hc
    rcases List.mem_cons.mp hc with rfl | hc
    · exact isIdentChar_of_isWordChar hword
    · exact isIdentChar_of_isWordChar (h c hc)
  · change rawEnd before (digit :: text) = true at hend
    cases text with
    | nil => simp [rawEnd, hraw] at hend
    | cons c text =>
        have hnext := @rawEnd_of_word (c :: text) (some digit) hword h
        rw [rawEnd, hnext] at hend
        cases hend

theorem passes_rawIdent {text rest : List Char} (h : IsWord text)
    (hplain : rawEnd (some '#') text = true → ¬ quoted rest) (before : Option Char) :
    Passes rest before ('r' :: '#' :: text) := by
  obtain ⟨c, text, rfl⟩ := List.exists_cons_of_ne_nil h.1
  have hnot : ¬ quoted ('#' :: ((c :: text) ++ rest)) := by
    have htail := not_quoted_of_ident (h.2 c List.mem_cons_self) (text ++ rest)
    rw [quoted, List.dropWhile_cons_of_pos (by decide)]
    exact htail
  exact ⟨charRegionAt_r (.inr hnot),
    charRegionAt_of_ne (by decide) (by decide) (by decide) (by decide) _ _,
    passes_ident h.2 hplain⟩

theorem scans_lifetime {raw : Bool} {text : List Char} {h : IsWord text} {before : Option Char}
    {rest : List Char} (hfollows : (Token.lifetime raw text h).Follows rest)
    (hplain : (Token.lifetime raw text h).Plain rest) :
    Scans (.lifetime raw text h) before rest := by
  obtain ⟨hident, htick, -⟩ := hfollows
  refine scans_passes ?_ rfl hident
  obtain ⟨c, text, rfl⟩ := List.exists_cons_of_ne_nil h.1
  have hc := h.2 c List.mem_cons_self
  have hslash : c ≠ '\\' := ne_of_isIdentChar hc (by decide)
  have hregion : ∀ more, charRegionAt before ('\'' :: more) = _ := fun more =>
    regionAt_tick ascii_id _ more
  cases raw with
  | false =>
      refine ⟨?_, passes_ident h.2 hplain⟩
      have hnone : takeChar id (fun _ => 1) (c :: (text ++ rest)) = none := by
        have hnext : (text ++ rest).head? ≠ some '\'' := by
          cases text with
          | nil => exact htick
          | cons c' text =>
              exact fun heq => ne_of_isIdentChar (h.2 c' (by simp)) (by decide)
                (Option.some.inj heq)
        have hone : (c :: (text ++ rest))[1]? ≠ some (id '\'') := by
          rwa [List.getElem?_cons_succ, ← List.head?_eq_getElem?]
        rw [takeChar]
        exact (if_neg fun h => hslash (Option.some.inj h)).trans (if_neg hone)
      exact (hregion _).trans (by
        show Option.map _ (takeChar id (fun _ => 1) (c :: (text ++ rest))) = none
        rw [hnone]
        rfl)
  | true =>
      refine ⟨?_, passes_rawIdent h hplain _⟩
      exact hregion _

theorem scans_line {text : List Char} {h : '\n' ∉ text} {before : Option Char}
    {rest : List Char} (hfollows : (Token.line text h).Follows rest) :
    Scans (.line text h) before rest := by
  have hpass : ∀ c ∈ '/' :: text, decide (c ≠ '\n') = true := by
    intro c hc
    rcases List.mem_cons.mp hc with rfl | hc
    · decide
    · exact decide_eq_true fun heq => h (heq ▸ hc)
  have hstop : rest.takeWhile (· ≠ '\n') = [] ∧ rest.dropWhile (· ≠ '\n') = rest := by
    cases rest with
    | nil => exact ⟨rfl, rfl⟩
    | cons c rest =>
        obtain rfl := hfollows c rfl
        exact ⟨rfl, rfl⟩
  have hregion : charRegionAt before ('/' :: ('/' :: text ++ rest)) =
      some ('/' :: ('/' :: text ++ rest).takeWhile (· ≠ '\n'),
        ('/' :: text ++ rest).dropWhile (· ≠ '\n')) := regionAt_line _ rfl
  rw [List.takeWhile_append_of_pos hpass, List.dropWhile_append_of_pos hpass, hstop.1, hstop.2,
    List.append_nil] at hregion
  refine ⟨('/' :: '/' :: text).getLast?, fun _ c hc => ?_, blankChars_of_some hregion⟩
  rw [hfollows c hc]
  decide

theorem scans_region {t : Token} {before : Option Char} {rest : List Char}
    (hregion : charRegionAt before (t.text ++ rest) = some (t.text, rest))
    (hideal : t.ideal = blanks t.text) (hlast : t.text.getLast?.any isWordChar = false) :
    Scans t before rest :=
  ⟨_, ready_of_not_word hlast rest, by rw [blankChars_of_some hregion, hideal]⟩

theorem getLast?_cons_of_eq {l : List Char} {a : Char} (h : l.getLast? = some a) (b : Char) :
    (b :: l).getLast? = some a := by
  rw [List.getLast?_cons, h, Option.getD_some]

theorem getLast?_stringBody {body : List Char} (h : StringBody body) :
    body.getLast? = some '"' := by
  induction h with
  | close => rfl
  | plain _ _ _ ih => exact getLast?_cons_of_eq ih _
  | escape e _ ih => exact getLast?_cons_of_eq (getLast?_cons_of_eq ih _) _

theorem getLast?_charBody {body : List Char} (h : CharBody body) : body.getLast? = some '\'' := by
  cases h with
  | plain _ _ => rfl
  | escape e h =>
      rw [← List.cons_append, ← List.cons_append, List.getLast?_concat]

theorem getLast?_blockEnd {depth : Nat} {text : List Char} {s : List Char × List Char}
    (h : blockEnd depth text = some s) : s.1.getLast? = some '/' := by
  fun_induction blockEnd depth text generalizing s with
  | case1 => cases h
  | case2 rest =>
      obtain rfl := Option.some.inj h
      rfl
  | case3 rest depth ih =>
      obtain ⟨s', hs', rfl⟩ := Option.map_eq_some_iff.mp h
      exact getLast?_cons_of_eq (getLast?_cons_of_eq (ih hs') _) _
  | case4 depth rest ih =>
      obtain ⟨s', hs', rfl⟩ := Option.map_eq_some_iff.mp h
      exact getLast?_cons_of_eq (getLast?_cons_of_eq (ih hs') _) _
  | case5 depth c rest _ _ ih =>
      obtain ⟨s', hs', rfl⟩ := Option.map_eq_some_iff.mp h
      exact getLast?_cons_of_eq (ih hs') _

theorem any_getLast? {text : List Char} {a : Char} (h : text.getLast? = some a)
    (ha : isWordChar a = false) : text.getLast?.any isWordChar = false := by
  rw [h]
  exact ha

theorem getLast?_closing (hashes : Nat) (body : List Char) :
    (body ++ '"' :: List.replicate hashes '#').getLast?.any isWordChar = false := by
  rw [List.getLast?_append_of_ne_nil _ (List.cons_ne_nil _ _)]
  cases hashes with
  | zero => rfl
  | succ n =>
      rw [List.replicate_succ']
      exact any_getLast? (getLast?_cons_of_eq List.getLast?_concat _) (by decide)

theorem charRegionAt_rawStr {before : Option Char} (hword : before.any isWordChar = false)
    {hashes : Nat} {body : List Char} (h : ¬ ('"' :: List.replicate hashes '#') <:+: body)
    (rest : List Char) :
    charRegionAt before ('r' :: (List.replicate hashes '#' ++
      '"' :: (body ++ '"' :: (List.replicate hashes '#' ++ rest)))) =
      some ('r' :: (List.replicate hashes '#' ++
        '"' :: (body ++ '"' :: List.replicate hashes '#')), rest) := by
  have hpass : ∀ c ∈ List.replicate hashes '#', decide (c = '#') = true := fun c hc =>
    decide_eq_true (List.eq_of_mem_replicate hc)
  have hfront : (List.replicate hashes '#' ++
      '"' :: (body ++ '"' :: (List.replicate hashes '#' ++ rest))).head? = some '"' ∨
        (List.replicate hashes '#' ++
          '"' :: (body ++ '"' :: (List.replicate hashes '#' ++ rest))).head? = some '#' := by
    cases hashes with
    | zero => exact .inl rfl
    | succ n => exact .inr rfl
  have hregion : regionAt id (fun _ => 1) false ('r' :: _) = _ := regionAt_raw ascii_id hfront
  rw [charRegionAt, hword, hregion]
  simp only [id]
  rw [List.dropWhile_append_of_pos hpass, List.takeWhile_append_of_pos hpass,
    List.dropWhile_cons_of_neg (by decide), List.takeWhile_cons_of_neg (by decide),
    List.append_nil]
  simp only [if_true, List.length_replicate]
  rw [takeRaw_body h]

theorem scans_of_plain {t : Token} {before : Option Char} {rest : List Char}
    (hready : Ready before (t.text ++ rest)) (hfollows : t.Follows rest)
    (hplain : t.Plain rest) : Scans t before rest := by
  cases t with
  | code c h hquote htick => exact scans_code hfollows
  | word text h =>
      obtain ⟨hident, hquote, -, hhash⟩ := hfollows
      exact scans_passes (passes_ident h.2 fun _ => not_quoted_of_head? hquote hhash) rfl hident
  | number digit text hdigit h => exact scans_number hfollows
  | rawIdent text h => exact scans_passes (passes_rawIdent h hplain before) rfl hfollows
  | lifetime raw text h => exact scans_lifetime hfollows hplain
  | line text h => exact scans_line hfollows
  | block text h =>
      have hlast := getLast?_cons_of_eq (getLast?_cons_of_eq (getLast?_blockEnd h) '*') '/'
      refine scans_region ?_ rfl (any_getLast? hlast (by decide))
      have hregion : charRegionAt before ('/' :: '*' :: (text ++ rest)) = some _ :=
        regionAt_block ascii_id _ (text ++ rest)
      rwa [takeBlock_of_blockEnd h hplain] at hregion
  | str front body h =>
      obtain rfl : front = .none := hplain
      have hlast := getLast?_cons_of_eq (getLast?_stringBody h) '"'
      refine scans_region ?_ rfl (any_getLast? hlast (by decide))
      have hregion : charRegionAt before ('"' :: (body ++ rest)) = some _ :=
        regionAt_quote ascii_id _ (body ++ rest)
      rwa [takeString_stringBody h] at hregion
  | rawStr front hashes body h =>
      obtain rfl : front = .none := hplain
      have hword : before.any isWordChar = false := by
        rw [Bool.eq_false_iff]
        exact fun hword => absurd (hready hword 'r' rfl) (by decide)
      refine scans_region ?_ rfl ?_
      · have hregion := charRegionAt_rawStr hword h rest
        simp only [Token.text, LiteralPrefix.text, List.nil_append, List.cons_append,
          List.append_assoc] at hregion ⊢
        exact hregion
      · have hlast := getLast?_closing hashes ('r' :: (List.replicate hashes '#' ++ '"' :: body))
        simp only [List.cons_append, List.append_assoc] at hlast
        exact hlast
  | chr byte body h =>
      obtain ⟨rfl, hescape⟩ := hplain
      have hlast := getLast?_cons_of_eq (getLast?_charBody h) '\''
      refine scans_region ?_ rfl (any_getLast? hlast (by decide))
      have hregion : charRegionAt before ('\'' :: (body ++ rest)) = _ :=
        regionAt_tick ascii_id _ (body ++ rest)
      rw [takeChar_body h hescape] at hregion
      exact hregion

theorem codeText_cons (t : Token) (ts : List Token) : codeText (t :: ts) = t.text ++ codeText ts :=
  List.flatMap_cons

theorem blankChars_of_plain : ∀ {ts : List Token} {before : Option Char}, Lexes ts → AllPlain ts →
    Ready before (codeText ts) → blankChars before (codeText ts) = idealText ts
  | [], _, _, _, _ => by rw [codeText, List.flatMap_nil, blankChars]; rfl
  | t :: ts, before, hlexes, hplain, hready => by
      rw [codeText_cons] at hready ⊢
      obtain ⟨before', hready', hscan⟩ := scans_of_plain hready hlexes.1 hplain.1
      rw [hscan, blankChars_of_plain hlexes.2 hplain.2 hready']
      exact List.flatMap_cons.symm

/-! ## The text that the declarations are read from -/

/-- The brace depth that `build_crate_modules` takes of the text before a declaration. -/
def depthOf (code : List Char) : Int := (code.count '{' : Int) - code.count '}'

def Token.depth : Token → Int
  | .code c _ _ _ => depthOf [c]
  | _ => 0

theorem depthOf_append (code code' : List Char) :
    depthOf (code ++ code') = depthOf code + depthOf code' := by
  simp only [depthOf, List.count_append]
  omega

theorem depthOf_of_ne {code : List Char} (h : ∀ c ∈ code, c ≠ '{' ∧ c ≠ '}') :
    depthOf code = 0 := by
  have hopen : '{' ∉ code := fun hc => (h _ hc).1 rfl
  have hclose : '}' ∉ code := fun hc => (h _ hc).2 rfl
  rw [depthOf, List.count_eq_zero.mpr hopen, List.count_eq_zero.mpr hclose]
  rfl

theorem depthOf_ident {text : List Char} (h : ∀ c ∈ text, isIdentChar c = true) :
    depthOf text = 0 :=
  depthOf_of_ne fun c hc =>
    ⟨ne_of_isIdentChar (h c hc) (by decide), ne_of_isIdentChar (h c hc) (by decide)⟩

theorem mem_blanks {text : List Char} {c : Char} (h : c ∈ blanks text) : c = '\n' ∨ c = ' ' := by
  obtain ⟨d, -, hd⟩ := List.mem_flatMap.mp h
  rw [blankChar] at hd
  split at hd
  · rename_i hnewline
    rw [List.mem_singleton.mp hd]
    exact .inl hnewline
  · exact .inr (List.eq_of_mem_replicate hd)

theorem depthOf_blanks (text : List Char) : depthOf (blanks text) = 0 :=
  depthOf_of_ne fun c hc => by
    rcases mem_blanks hc with rfl | rfl <;> decide

theorem Token.depthOf_ideal (t : Token) : depthOf t.ideal = t.depth := by
  cases t with
  | code c h hquote htick => rfl
  | word text h => exact depthOf_ident h.2
  | number digit text hdigit h =>
      refine depthOf_ident fun c hc => ?_
      rcases List.mem_cons.mp hc with rfl | hc
      · exact isIdentChar_of_isWordChar (by
          rw [isWordChar, Char.isAlphanum, hdigit, Bool.or_true, Bool.true_or])
      · exact isIdentChar_of_isWordChar (h c hc)
  | rawIdent text h =>
      exact (depthOf_append ['r', '#'] text).trans (by rw [depthOf_ident h.2]; rfl)
  | lifetime raw text h =>
      have hfront : depthOf ('\'' :: if raw then ['r', '#'] else []) = 0 := by
        cases raw <;> rfl
      exact (depthOf_append ('\'' :: if raw then ['r', '#'] else []) text).trans (by
        rw [hfront, depthOf_ident h.2]
        rfl)
  | line text h => exact depthOf_blanks _
  | block text h => exact depthOf_blanks _
  | str front body h => exact depthOf_blanks _
  | rawStr front hashes body h => exact depthOf_blanks _
  | chr byte body h => exact depthOf_blanks _

theorem depthOf_idealText (ts : List Token) :
    depthOf (idealText ts) = (ts.map Token.depth).sum := by
  induction ts with
  | nil => rfl
  | cons t ts ih =>
      have hcons : idealText (t :: ts) = t.ideal ++ idealText ts := List.flatMap_cons
      rw [hcons, depthOf_append, t.depthOf_ideal, ih, List.map_cons, List.sum_cons]

theorem length_utf8_blanks (text : List Char) :
    (utf8 (blanks text)).length = (utf8 text).length := by
  rw [← map_blankByte, List.length_map]

theorem Token.length_ideal (t : Token) : (utf8 t.ideal).length = (utf8 t.text).length := by
  cases t with
  | code _ _ _ _ => rfl
  | word _ _ => rfl
  | number _ _ _ _ => rfl
  | rawIdent _ _ => rfl
  | lifetime _ _ _ => rfl
  | line text h => exact length_utf8_blanks _
  | block text h => exact length_utf8_blanks _
  | str front body h => exact length_utf8_blanks _
  | rawStr front hashes body h => exact length_utf8_blanks _
  | chr byte body h => exact length_utf8_blanks _

theorem length_idealText (ts : List Token) :
    (utf8 (idealText ts)).length = (utf8 (codeText ts)).length := by
  induction ts with
  | nil => rfl
  | cons t ts ih =>
      have hcons : idealText (t :: ts) = t.ideal ++ idealText ts := List.flatMap_cons
      rw [hcons, codeText_cons, utf8_append, utf8_append, List.length_append,
        List.length_append, t.length_ideal, ih]

/-- Bytes and newlines stay in their places, and the output is UTF-8, for every text. Of tokens
that the scan takes for what they are it leaves all but the comments and literals, and what is
before a token has the brace depth of the code. -/
theorem blankNonCode_ideal (text : List Char) (ts : List Token) :
    (List.Forall₂ Blanked (blankFrom none (utf8 text)) (utf8 text) ∧
      Jsonc.fromUtf8 (blankFrom none (utf8 text)) = some (blankNonCode text)) ∧
    (Lexes ts → AllPlain ts → blankNonCode (codeText ts) = idealText ts ∧
      ∀ front back, ts = front ++ back → idealText ts = idealText front ++ idealText back ∧
        (utf8 (idealText front)).length = (utf8 (codeText front)).length ∧
        depthOf (idealText front) = (front.map Token.depth).sum) := by
  refine ⟨⟨forall₂_blankFrom none _, ?_⟩, fun hlexes hplain => ⟨?_, ?_⟩⟩
  · rw [blankNonCode_eq, fromUtf8_blankFrom]
  · rw [blankNonCode_eq]
    exact blankChars_of_plain hlexes hplain fun hnone => by cases hnone
  · rintro front back rfl
    exact ⟨List.flatMap_append, length_idealText front, depthOf_idealText front⟩

/-- `/* a /* b */ mod x; */` is one comment, of which the end is left. -/
theorem blankNonCode_nested : ∃ ts, Lexes ts ∧ blankNonCode (codeText ts) ≠ idealText ts ∧
    codeText ts = "/* a /* b */ mod x; */".toList ∧
    blankNonCode (codeText ts) = "             mod x; */".toList :=
  ⟨[.block " a /* b */ mod x; */".toList (by decide +kernel)], ⟨trivial, trivial⟩,
    by decide +kernel, by decide +kernel, by decide +kernel⟩

end RustCode

end Dagayn
