import Dagayn.Utf8
import Mathlib

/-!
# JSON with comments

`strip_jsonc_comments` goes over the bytes of a text once. Only ASCII bytes decide where it cuts,
so what it does can be told on the characters: `pieces` cuts any text into string literals,
comments and single characters, and the output is the text of the pieces that `clean` keeps
(`stripBytes_utf8`).
-/

namespace Dagayn

namespace Jsonc

/-! ## The scan -/

section Units

/- The characters of a text, or its bytes: `u` is the code unit of an ASCII character. -/
variable {α : Type} [DecidableEq α] (u : Char → α)

/-- A string literal behind its opening quote, up to the closing one, and what is behind it. -/
def takeString : List α → List α × List α
  | [] => ([], [])
  | [b] => ([b], [])
  | b :: e :: rest =>
      if b = u '"' then ([b], e :: rest)
      else if b = u '\\' then
        let s := takeString rest
        (b :: e :: s.1, s.2)
      else
        let s := takeString (e :: rest)
        (b :: s.1, s.2)

/-- A block comment behind its opening, up to the closing, and what is behind it. -/
def takeBlock : List α → List α × List α
  | [] => ([], [])
  | [b] => ([b], [])
  | b :: e :: rest =>
      if b = u '*' ∧ e = u '/' then ([b, e], rest)
      else
        let s := takeBlock (e :: rest)
        (b :: s.1, s.2)

variable {u}

theorem length_takeString (bs : List α) : (takeString u bs).2.length ≤ bs.length := by
  fun_induction takeString u bs with
  | case1 => exact Nat.le_refl _
  | case2 b => exact Nat.zero_le _
  | case3 e rest => exact Nat.le_succ _
  | case4 e rest _ s ih => exact ih.trans (Nat.le_add_right _ 2)
  | case5 b e rest _ _ s ih => exact ih.trans (Nat.le_succ _)

theorem length_takeBlock (bs : List α) : (takeBlock u bs).2.length ≤ bs.length := by
  fun_induction takeBlock u bs with
  | case1 => exact Nat.le_refl _
  | case2 b => exact Nat.zero_le _
  | case3 b e rest _ =>
      simp only [List.length_cons]
      omega
  | case4 b e rest _ s ih => exact ih.trans (Nat.le_succ _)

end Units

def isAsciiWhitespace (b : UInt8) : Bool := b ∈ [0x20, 0x09, 0x0A, 0x0C, 0x0D]

/-- The loop of `strip_jsonc_comments`: what is copied so far, and where a `,` was copied while
only whitespace has followed it. -/
def stripFrom (out : List UInt8) (comma : Option Nat) : List UInt8 → List UInt8
  | [] => out
  | b :: rest =>
      if b = '"'.toUInt8 then
        let s := takeString Char.toUInt8 rest
        stripFrom (out ++ b :: s.1) none s.2
      else if b = '/'.toUInt8 ∧ rest.head? = some '/'.toUInt8 then
        stripFrom out comma (rest.dropWhile (· ≠ '\n'.toUInt8))
      else if b = '/'.toUInt8 ∧ rest.head? = some '*'.toUInt8 then
        stripFrom out comma (takeBlock Char.toUInt8 rest.tail).2
      else if b = '\x7d'.toUInt8 ∨ b = ']'.toUInt8 then
        match comma with
        | some i => stripFrom (out.eraseIdx i ++ [b]) none rest
        | none => stripFrom (out ++ [b]) none rest
      else if b = ','.toUInt8 then stripFrom (out ++ [b]) (some out.length) rest
      else stripFrom (out ++ [b]) (if isAsciiWhitespace b then comma else none) rest
termination_by bytes => bytes.length
decreasing_by
  all_goals simp only [List.length_cons]
  · exact Nat.lt_succ_of_le (length_takeString rest)
  · exact Nat.lt_succ_of_le (List.length_dropWhile_le _ rest)
  · have hblock := length_takeBlock (u := Char.toUInt8) rest.tail
    rw [List.length_tail] at hblock
    omega
  all_goals exact Nat.lt_succ_self _

def fromUtf8 (bytes : List UInt8) : Option (List Char) :=
  let text := fromUtf8Lossy bytes
  if utf8 text = bytes then some text else none

def stripJsoncComments (text : List Char) : List Char :=
  (fromUtf8 (stripFrom [] none (utf8 text))).getD []

/-! ## Pieces of a text -/

inductive Piece where
  | str (text : List Char)
  | line (text : List Char)
  | block (text : List Char)
  | close (c : Char)
  | comma
  | blank (c : Char)
  | other (c : Char)
deriving DecidableEq

def Piece.text : Piece → List Char
  | .str text => text
  | .line text => text
  | .block text => text
  | .close c => [c]
  | .comma => [',']
  | .blank c => [c]
  | .other c => [c]

def textOf (ps : List Piece) : List Char := ps.flatMap Piece.text

def isSpace (c : Char) : Bool := c ∈ [' ', '\t', '\n', '\x0C', '\r']

def pieces : List Char → List Piece
  | [] => []
  | c :: rest =>
      if c = '"' then
        let s := takeString id rest
        .str (c :: s.1) :: pieces s.2
      else if c = '/' ∧ rest.head? = some '/' then
        .line (c :: rest.takeWhile (· ≠ '\n')) :: pieces (rest.dropWhile (· ≠ '\n'))
      else if c = '/' ∧ rest.head? = some '*' then
        let s := takeBlock id rest.tail
        .block ('/' :: '*' :: s.1) :: pieces s.2
      else if c = '\x7d' ∨ c = ']' then .close c :: pieces rest
      else if c = ',' then .comma :: pieces rest
      else if isSpace c then .blank c :: pieces rest
      else .other c :: pieces rest
termination_by text => text.length
decreasing_by
  all_goals simp only [List.length_cons]
  · exact Nat.lt_succ_of_le (length_takeString rest)
  · exact Nat.lt_succ_of_le (List.length_dropWhile_le _ rest)
  · have hblock := length_takeBlock (u := id) rest.tail
    rw [List.length_tail] at hblock
    omega
  all_goals exact Nat.lt_succ_self _

/-- The next piece but for blanks and comments closes an object or an array. -/
def closes : List Piece → Bool
  | [] => false
  | .line _ :: ps => closes ps
  | .block _ :: ps => closes ps
  | .blank _ :: ps => closes ps
  | .close _ :: _ => true
  | .str _ :: _ => false
  | .comma :: _ => false
  | .other _ :: _ => false

/-- The pieces without the comments and the trailing commas. -/
def clean : List Piece → List Piece
  | [] => []
  | .line _ :: ps => clean ps
  | .block _ :: ps => clean ps
  | .comma :: ps => if closes ps then clean ps else .comma :: clean ps
  | .str text :: ps => .str text :: clean ps
  | .close c :: ps => .close c :: clean ps
  | .blank c :: ps => .blank c :: clean ps
  | .other c :: ps => .other c :: clean ps

/-! ## Bytes and characters -/

/-- The bytes of a text start with the byte of an ASCII character where the text does. -/
theorem head?_utf8 {a : Char} (ha : a.toNat < 0x80) (text : List Char) :
    (utf8 text).head? = some a.toUInt8 ↔ text.head? = some a := by
  cases text with
  | nil => simp [utf8_nil]
  | cons c text =>
      rw [List.head?_cons, Option.some.injEq]
      constructor
      · intro h
        refine eq_of_mem_encode ha ?_
        rw [utf8_cons, List.head?_append_of_ne_nil _ String.utf8EncodeChar_ne_nil] at h
        exact List.mem_of_mem_head? h
      · rintro rfl
        rw [utf8_ascii ha, List.head?_cons]

/-- A scanner that looks for the bytes of ASCII characters passes over the others whole. -/
theorem takeString_pass {bs : List UInt8}
    (h : ∀ b ∈ bs, b ≠ '"'.toUInt8 ∧ b ≠ '\\'.toUInt8) (rest : List UInt8) :
    takeString Char.toUInt8 (bs ++ rest) =
      (bs ++ (takeString Char.toUInt8 rest).1, (takeString Char.toUInt8 rest).2) := by
  induction bs with
  | nil => rfl
  | cons b bs ih =>
      obtain ⟨hquote, hslash⟩ := h b List.mem_cons_self
      have htail := ih fun b' hb' => h b' (List.mem_cons_of_mem _ hb')
      cases hrest : bs ++ rest with
      | nil =>
          obtain ⟨rfl, rfl⟩ := List.append_eq_nil_iff.mp hrest
          simp [takeString]
      | cons e more =>
          rw [hrest] at htail
          rw [List.cons_append, hrest, takeString, if_neg hquote, if_neg hslash, htail]
          rfl

theorem pass_of_ne {a c : Char} (ha : a.toNat < 0x80) (h : c ≠ a) :
    ∀ b ∈ String.utf8EncodeChar c, b ≠ a.toUInt8 := fun _ hb heq =>
  h (eq_of_mem_encode ha (heq ▸ hb))

theorem encode_tail (c : Char) : ∃ b tail, String.utf8EncodeChar c = b :: tail ∧
    ∀ a : Char, a.toNat < 0x80 → ∀ b' ∈ tail, b' ≠ a.toUInt8 := by
  obtain ⟨b, tail, hcode⟩ := List.exists_cons_of_ne_nil (String.utf8EncodeChar_ne_nil (c := c))
  refine ⟨b, tail, hcode, fun a ha b' hb' heq => ?_⟩
  rcases encode_cases c with ⟨-, hone⟩ | ⟨-, hhigh⟩
  · rw [hone] at hcode
    obtain ⟨-, rfl⟩ := List.cons.inj hcode
    exact absurd hb' List.not_mem_nil
  · have hb := hhigh b' (hcode ▸ List.mem_cons_of_mem b hb')
    rw [heq, toNat_toUInt8 ha] at hb
    omega

theorem takeString_utf8 (text : List Char) : takeString Char.toUInt8 (utf8 text) =
    (utf8 (takeString id text).1, utf8 (takeString id text).2) := by
  have hpass : ∀ c : Char, c ≠ '"' → c ≠ '\\' → ∀ b ∈ String.utf8EncodeChar c,
      b ≠ '"'.toUInt8 ∧ b ≠ '\\'.toUInt8 := fun c hquote hslash b hb =>
    ⟨pass_of_ne (by decide) hquote b hb, pass_of_ne (by decide) hslash b hb⟩
  fun_induction takeString id text with
  | case1 => rfl
  | case2 c =>
      by_cases hquote : c = '"'
      · subst hquote
        rfl
      · by_cases hslash : c = '\\'
        · subst hslash
          rfl
        · have h := takeString_pass (hpass c hquote hslash) []
          rw [List.append_nil] at h
          rw [utf8_cons, utf8_nil, List.append_nil, h, takeString, List.append_nil]
  | case3 e rest =>
      obtain ⟨b, tail, hcode, -⟩ := encode_tail e
      rw [id, utf8_ascii (by decide), utf8_cons, hcode, List.cons_append, takeString, if_pos rfl]
      rfl
  | case4 e rest hne s ih =>
      obtain ⟨b, tail, hcode, htail⟩ := encode_tail e
      have hskip := takeString_pass (fun b' hb' => ⟨htail '"' (by decide) b' hb',
        htail '\\' (by decide) b' hb'⟩) (utf8 rest)
      rw [id, utf8_ascii (by decide), utf8_cons, hcode, List.cons_append, takeString,
        if_neg (by decide), if_pos rfl, hskip, ih, utf8_ascii (by decide), utf8_cons, hcode]
      rfl
  | case5 c e rest hquote hslash s ih =>
      rw [utf8_cons, takeString_pass (hpass c hquote hslash), ih, utf8_cons]

theorem takeBlock_pass {bs : List UInt8} (h : ∀ b ∈ bs, b ≠ '*'.toUInt8) (rest : List UInt8) :
    takeBlock Char.toUInt8 (bs ++ rest) =
      (bs ++ (takeBlock Char.toUInt8 rest).1, (takeBlock Char.toUInt8 rest).2) := by
  induction bs with
  | nil => rfl
  | cons b bs ih =>
      have hstar := h b List.mem_cons_self
      have htail := ih fun b' hb' => h b' (List.mem_cons_of_mem _ hb')
      cases hrest : bs ++ rest with
      | nil =>
          obtain ⟨rfl, rfl⟩ := List.append_eq_nil_iff.mp hrest
          simp [takeBlock]
      | cons e more =>
          rw [hrest] at htail
          rw [List.cons_append, hrest, takeBlock, if_neg fun h => hstar h.1, htail]
          rfl

theorem takeBlock_utf8 (text : List Char) : takeBlock Char.toUInt8 (utf8 text) =
    (utf8 (takeBlock id text).1, utf8 (takeBlock id text).2) := by
  fun_induction takeBlock id text with
  | case1 => rfl
  | case2 c =>
      by_cases hstar : c = '*'
      · subst hstar
        rfl
      · have h := takeBlock_pass (pass_of_ne (by decide) hstar) []
        rw [List.append_nil] at h
        rw [utf8_cons, utf8_nil, List.append_nil, h, takeBlock, List.append_nil]
  | case3 c e rest hends =>
      obtain ⟨rfl, rfl⟩ := hends
      rw [id, id, utf8_ascii (by decide), utf8_ascii (by decide), takeBlock, if_pos ⟨rfl, rfl⟩]
      rfl
  | case4 c e rest hends s ih =>
      by_cases hstar : c = '*'
      · subst hstar
        have hne : e ≠ '/' := fun h => hends ⟨rfl, h⟩
        obtain ⟨b, tail, hcode, -⟩ := encode_tail e
        have hb : b ≠ '/'.toUInt8 :=
          pass_of_ne (by decide) hne b (hcode ▸ List.mem_cons_self)
        have hrest : utf8 (e :: rest) = b :: (tail ++ utf8 rest) := by
          rw [utf8_cons, hcode, List.cons_append]
        rw [utf8_ascii (by decide), hrest, takeBlock, if_neg fun h => hb h.2, ← hrest, ih,
          utf8_ascii (by decide)]
      · rw [utf8_cons, takeBlock_pass (pass_of_ne (by decide) hstar), ih, utf8_cons]

theorem dropWhile_newline_utf8 (text : List Char) :
    (utf8 text).dropWhile (· ≠ '\n'.toUInt8) = utf8 (text.dropWhile (· ≠ '\n')) := by
  induction text with
  | nil => rfl
  | cons c text ih =>
      by_cases hc : c = '\n'
      · subst hc
        rw [utf8_ascii (by decide), List.dropWhile_cons_of_neg (by decide),
          List.dropWhile_cons_of_neg (by decide), utf8_ascii (by decide)]
      · have hpass : ∀ b ∈ String.utf8EncodeChar c, decide (b ≠ '\n'.toUInt8) = true :=
          fun b hb => decide_eq_true (pass_of_ne (by decide) hc b hb)
        rw [utf8_cons, List.dropWhile_append_of_pos hpass, ih,
          List.dropWhile_cons_of_pos (by simpa using hc)]

theorem toUInt8_eq_iff {a c : Char} (ha : a.toNat < 0x80) (hc : c.toNat < 0x80) :
    c.toUInt8 = a.toUInt8 ↔ c = a :=
  ⟨fun h => eq_of_mem_encode ha (by rw [encode_ascii hc, h]; exact List.mem_singleton_self _),
    congrArg _⟩

theorem isAsciiWhitespace_toUInt8 {c : Char} (hc : c.toNat < 0x80) :
    isAsciiWhitespace c.toUInt8 = isSpace c := by
  have heq : ∀ a : Char, a.toNat < 0x80 → (c.toUInt8 = a.toUInt8 ↔ c = a) := fun a ha =>
    toUInt8_eq_iff ha hc
  show decide (c.toUInt8 ∈ [' '.toUInt8, '\t'.toUInt8, '\n'.toUInt8, '\x0C'.toUInt8,
    '\r'.toUInt8]) = decide (c ∈ [' ', '\t', '\n', '\x0C', '\r'])
  simp only [List.mem_cons, List.not_mem_nil, or_false, heq ' ' (by decide),
    heq '\t' (by decide), heq '\n' (by decide), heq '\x0C' (by decide), heq '\r' (by decide)]

/-! ## The output -/

/-- What is copied so far, where the pending comma is known to be a trailing one or not. -/
def settle (out : List UInt8) (comma : Option Nat) (trailing : Bool) : List UInt8 :=
  match comma with
  | some i => if trailing then out.eraseIdx i else out
  | none => out

theorem settle_false (out : List UInt8) (comma : Option Nat) : settle out comma false = out := by
  cases comma <;> rfl

theorem settle_append {out : List UInt8} {comma : Option Nat}
    (h : ∀ i ∈ comma, i < out.length) (more : List UInt8) (trailing : Bool) :
    settle (out ++ more) comma trailing = settle out comma trailing ++ more := by
  cases comma with
  | none => rfl
  | some i =>
      have hi := h i rfl
      cases trailing with
      | false => rfl
      | true => exact List.eraseIdx_append_of_lt_length hi more

theorem stripFrom_cons_other {b : UInt8} (hquote : b ≠ '"'.toUInt8) (hslash : b ≠ '/'.toUInt8)
    (hbrace : b ≠ '\x7d'.toUInt8) (hbracket : b ≠ ']'.toUInt8) (hcomma : b ≠ ','.toUInt8)
    (out : List UInt8) (comma : Option Nat) (rest : List UInt8) :
    stripFrom out comma (b :: rest) =
      stripFrom (out ++ [b]) (if isAsciiWhitespace b then comma else none) rest := by
  rw [stripFrom.eq_def]
  dsimp only
  rw [if_neg hquote, if_neg fun h => hslash h.1, if_neg fun h => hslash h.1,
    if_neg fun h => h.elim hbrace hbracket, if_neg hcomma]

theorem stripFrom_high {bs : List UInt8} (h : ∀ b ∈ bs, 0x80 ≤ b.toNat) (hne : bs ≠ [])
    (out : List UInt8) (comma : Option Nat) (rest : List UInt8) :
    stripFrom out comma (bs ++ rest) = stripFrom (out ++ bs) none rest := by
  induction bs generalizing out comma with
  | nil => exact absurd rfl hne
  | cons b bs ih =>
      have hb := h b List.mem_cons_self
      have hascii : ∀ a : UInt8, a.toNat < 0x80 → b ≠ a := by
        rintro a ha rfl
        omega
      have hblank : isAsciiWhitespace b = false := by
        simp only [isAsciiWhitespace, List.mem_cons, List.not_mem_nil, or_false,
          decide_eq_false_iff_not, not_or]
        exact ⟨hascii _ (by decide), hascii _ (by decide), hascii _ (by decide),
          hascii _ (by decide), hascii _ (by decide)⟩
      rw [List.cons_append, stripFrom_cons_other (hascii _ (by decide)) (hascii _ (by decide))
        (hascii _ (by decide)) (hascii _ (by decide)) (hascii _ (by decide)), hblank]
      cases bs with
      | nil => rfl
      | cons b' bs =>
          have hmore := ih (fun b hb => h b (List.mem_cons_of_mem _ hb)) (List.cons_ne_nil _ _)
            (out ++ [b]) none
          rw [List.append_assoc, List.singleton_append] at hmore
          exact hmore

theorem stripFrom_char {c : Char} (hquote : c ≠ '"') (hslash : c ≠ '/') (hbrace : c ≠ '\x7d')
    (hbracket : c ≠ ']') (hcomma : c ≠ ',') (out : List UInt8) (comma : Option Nat)
    (text : List Char) : stripFrom out comma (utf8 (c :: text)) =
      stripFrom (out ++ String.utf8EncodeChar c) (if isSpace c then comma else none)
        (utf8 text) := by
  rw [utf8_cons]
  rcases encode_cases c with ⟨hc, hcode⟩ | ⟨hc, hhigh⟩
  · have hne : ∀ a : Char, a.toNat < 0x80 → c ≠ a → c.toUInt8 ≠ a.toUInt8 := fun a ha h heq =>
      h ((toUInt8_eq_iff ha hc).mp heq)
    rw [hcode, List.singleton_append, stripFrom_cons_other (hne _ (by decide) hquote)
      (hne _ (by decide) hslash) (hne _ (by decide) hbrace) (hne _ (by decide) hbracket)
      (hne _ (by decide) hcomma), isAsciiWhitespace_toUInt8 hc]
  · have hspace : isSpace c = false := by
      simp only [isSpace, List.mem_cons, List.not_mem_nil, or_false, decide_eq_false_iff_not,
        not_or]
      refine ⟨?_, ?_, ?_, ?_, ?_⟩ <;>
      · rintro rfl
        exact absurd hc (by decide)
    rw [stripFrom_high hhigh String.utf8EncodeChar_ne_nil, hspace]
    rfl

theorem stripFrom_quote (out : List UInt8) (comma : Option Nat) (text : List Char) :
    stripFrom out comma (utf8 ('"' :: text)) =
      stripFrom (out ++ utf8 ('"' :: (takeString id text).1)) none
        (utf8 (takeString id text).2) := by
  rw [utf8_ascii (by decide), stripFrom.eq_def]
  dsimp only
  rw [if_pos rfl, takeString_utf8, utf8_ascii (by decide)]

theorem stripFrom_line (out : List UInt8) (comma : Option Nat) {text : List Char}
    (h : text.head? = some '/') : stripFrom out comma (utf8 ('/' :: text)) =
      stripFrom out comma (utf8 (text.dropWhile (· ≠ '\n'))) := by
  rw [utf8_ascii (by decide), stripFrom.eq_def]
  dsimp only
  rw [if_neg (by decide), if_pos ⟨rfl, (head?_utf8 (by decide) text).mpr h⟩,
    dropWhile_newline_utf8]

theorem stripFrom_block (out : List UInt8) (comma : Option Nat) (text : List Char) :
    stripFrom out comma (utf8 ('/' :: '*' :: text)) =
      stripFrom out comma (utf8 (takeBlock id text).2) := by
  rw [utf8_ascii (by decide), utf8_ascii (by decide), stripFrom.eq_def]
  dsimp only
  rw [if_neg (by decide), if_neg fun h => absurd (Option.some.inj h.2) (by decide),
    if_pos ⟨rfl, rfl⟩, List.tail_cons, takeBlock_utf8]

theorem stripFrom_slash (out : List UInt8) (comma : Option Nat) {text : List Char}
    (hline : text.head? ≠ some '/') (hblock : text.head? ≠ some '*') :
    stripFrom out comma (utf8 ('/' :: text)) = stripFrom (out ++ utf8 ['/']) none (utf8 text) := by
  rw [utf8_ascii (by decide), stripFrom.eq_def]
  dsimp only
  rw [if_neg (by decide), if_neg fun h => hline ((head?_utf8 (by decide) text).mp h.2),
    if_neg fun h => hblock ((head?_utf8 (by decide) text).mp h.2), if_neg (by decide),
    if_neg (by decide)]
  rfl

theorem stripFrom_close {c : Char} (hc : c = '\x7d' ∨ c = ']') (out : List UInt8)
    (comma : Option Nat) (text : List Char) : stripFrom out comma (utf8 (c :: text)) =
      stripFrom (settle out comma true ++ utf8 [c]) none (utf8 text) := by
  rcases hc with rfl | rfl <;>
  · rw [utf8_ascii (by decide), stripFrom.eq_def]
    dsimp only
    rw [if_neg (by decide), if_neg fun h => absurd h.1 (by decide),
      if_neg fun h => absurd h.1 (by decide), if_pos (by decide)]
    cases comma <;> rfl

theorem stripFrom_comma (out : List UInt8) (comma : Option Nat) (text : List Char) :
    stripFrom out comma (utf8 (',' :: text)) =
      stripFrom (out ++ utf8 [',']) (some out.length) (utf8 text) := by
  rw [utf8_ascii (by decide), stripFrom.eq_def]
  dsimp only
  rw [if_neg (by decide), if_neg fun h => absurd h.1 (by decide),
    if_neg fun h => absurd h.1 (by decide), if_neg (by decide), if_pos rfl]
  rfl

theorem utf8_textOf_cons (p : Piece) (ps : List Piece) :
    utf8 (textOf (p :: ps)) = utf8 p.text ++ utf8 (textOf ps) := by
  rw [textOf, List.flatMap_cons, utf8_append]
  rfl

/-- A pending comma is settled with what comes behind it. -/
theorem settle_comma (out : List UInt8) (ps : List Piece) :
    settle (out ++ utf8 [',']) (some out.length) (closes ps) ++ utf8 (textOf (clean ps)) =
      out ++ utf8 (textOf (clean (.comma :: ps))) := by
  rw [clean]
  cases closes ps with
  | false =>
      rw [settle_false, if_neg (by decide), utf8_textOf_cons, ← List.append_assoc]
      rfl
  | true =>
      rw [if_pos rfl, settle, if_pos rfl, List.eraseIdx_append_of_length_le (Nat.le_refl _),
        Nat.sub_self]
      congr 1
      exact List.append_nil out

theorem stripFrom_utf8 (text : List Char) : ∀ (out : List UInt8) (comma : Option Nat),
    (∀ i ∈ comma, i < out.length) → stripFrom out comma (utf8 text) =
      settle out comma (closes (pieces text)) ++ utf8 (textOf (clean (pieces text))) := by
  fun_induction pieces text with
  | case1 =>
      intro out comma _
      rw [utf8_nil, stripFrom, closes, settle_false]
      exact (List.append_nil out).symm
  | case2 rest s ih =>
      intro out comma _
      rw [stripFrom_quote, ih _ none nofun, closes, settle_false, clean, utf8_textOf_cons,
        ← List.append_assoc]
      rfl
  | case3 c rest _ hline ih =>
      intro out comma hcomma
      obtain ⟨rfl, hhead⟩ := hline
      rw [stripFrom_line out comma hhead, ih out comma hcomma, closes, clean]
  | case4 c rest _ _ hblock s ih =>
      intro out comma hcomma
      obtain ⟨rfl, hhead⟩ := hblock
      obtain ⟨rest, rfl⟩ := List.head?_eq_some_iff.mp hhead
      rw [stripFrom_block, closes, clean]
      exact ih out comma hcomma
  | case5 c rest _ _ _ hclose ih =>
      intro out comma _
      rw [stripFrom_close hclose, ih _ none nofun, closes, clean, utf8_textOf_cons,
        ← List.append_assoc]
      rfl
  | case6 rest _ _ _ _ ih =>
      intro out comma _
      have hlast : ∀ i ∈ some out.length, i < (out ++ utf8 [',']).length := by
        rintro i hi
        obtain rfl := Option.mem_some_iff.mp hi
        rw [List.length_append]
        exact Nat.lt_add_of_pos_right (by decide)
      rw [stripFrom_comma, ih _ _ hlast, settle_comma, closes, settle_false]
  | case7 c rest hquote hline hblock hclose hcomma hspace ih =>
      intro out comma hpending
      obtain ⟨hbrace, hbracket⟩ := not_or.mp hclose
      have hslash : c ≠ '/' := by
        rintro rfl
        exact absurd hspace (by decide)
      have hmore : ∀ i ∈ comma, i < (out ++ String.utf8EncodeChar c).length := fun i hi => by
        rw [List.length_append]
        exact Nat.lt_add_right _ (hpending i hi)
      rw [stripFrom_char hquote hslash hbrace hbracket hcomma, if_pos hspace, ih _ _ hmore,
        settle_append hpending, closes, clean, utf8_textOf_cons, Piece.text, utf8_cons, utf8_nil,
        List.append_nil, List.append_assoc]
  | case8 c rest hquote hline hblock hclose hcomma hspace ih =>
      intro out comma _
      obtain ⟨hbrace, hbracket⟩ := not_or.mp hclose
      have hcopy : stripFrom out comma (utf8 (c :: rest)) =
          stripFrom (out ++ utf8 [c]) none (utf8 rest) := by
        by_cases hslash : c = '/'
        · subst hslash
          exact stripFrom_slash out comma (fun h => hline ⟨rfl, h⟩) (fun h => hblock ⟨rfl, h⟩)
        · rw [stripFrom_char hquote hslash hbrace hbracket hcomma, if_neg hspace, utf8_cons,
            utf8_nil, List.append_nil]
      rw [hcopy, ih _ none nofun, closes, settle_false, clean, utf8_textOf_cons,
        ← List.append_assoc]
      rfl

theorem fromUtf8_utf8 (text : List Char) : fromUtf8 (utf8 text) = some text := by
  rw [fromUtf8, fromUtf8Lossy_utf8, if_pos rfl]

theorem stripBytes_utf8 (text : List Char) :
    fromUtf8 (stripFrom [] none (utf8 text)) = some (textOf (clean (pieces text))) := by
  rw [stripFrom_utf8 text [] none nofun, settle, List.nil_append, fromUtf8_utf8]

theorem stripJsoncComments_eq (text : List Char) :
    stripJsoncComments text = textOf (clean (pieces text)) := by
  rw [stripJsoncComments, stripBytes_utf8, Option.getD_some]

/-! ## Pieces that are read back -/

theorem takeString_quote (rest : List Char) : takeString id ('"' :: rest) = (['"'], rest) := by
  cases rest with
  | nil => rfl
  | cons e rest =>
      rw [takeString]
      exact if_pos rfl

theorem takeString_escape (e : Char) (rest : List Char) : takeString id ('\\' :: e :: rest) =
    ('\\' :: e :: (takeString id rest).1, (takeString id rest).2) := by
  rw [takeString, if_neg (by decide)]
  exact if_pos rfl

theorem takeString_plain {b : Char} (hquote : b ≠ '"') (hslash : b ≠ '\\') (rest : List Char) :
    takeString id (b :: rest) = (b :: (takeString id rest).1, (takeString id rest).2) := by
  cases rest with
  | nil => rfl
  | cons e rest =>
      rw [takeString, if_neg (show ¬ b = id '"' from hquote)]
      exact if_neg hslash

/-- The pieces are read off the front of their text, whatever follows. -/
def Reads (ps : List Piece) : Prop := ∀ rest, pieces (textOf ps ++ rest) = ps ++ pieces rest

theorem textOf_append (ps qs : List Piece) : textOf (ps ++ qs) = textOf ps ++ textOf qs :=
  List.flatMap_append

theorem Reads.nil : Reads [] := fun _ => rfl

theorem Reads.append {ps qs : List Piece} (hp : Reads ps) (hq : Reads qs) : Reads (ps ++ qs) := by
  intro rest
  rw [textOf_append, List.append_assoc, hp, hq, List.append_assoc]

theorem Reads.cons {p : Piece} {ps : List Piece} (hp : Reads [p]) (hps : Reads ps) :
    Reads (p :: ps) := hp.append hps

theorem Reads.textOf_eq {ps : List Piece} (h : Reads ps) : pieces (textOf ps) = ps := by
  have hall := h []
  rwa [List.append_nil, pieces, List.append_nil] at hall

theorem pieces_cons (c : Char) (rest : List Char) : pieces (c :: rest) =
    if c = '"' then .str (c :: (takeString id rest).1) :: pieces (takeString id rest).2
    else if c = '/' ∧ rest.head? = some '/' then
      .line (c :: rest.takeWhile (· ≠ '\n')) :: pieces (rest.dropWhile (· ≠ '\n'))
    else if c = '/' ∧ rest.head? = some '*' then
      .block ('/' :: '*' :: (takeBlock id rest.tail).1) :: pieces (takeBlock id rest.tail).2
    else if c = '\x7d' ∨ c = ']' then .close c :: pieces rest
    else if c = ',' then .comma :: pieces rest
    else if isSpace c then .blank c :: pieces rest
    else .other c :: pieces rest := by
  rw [pieces]

def isPlain (c : Char) : Bool :=
  !isSpace c && c ∉ ['"', '/', '\x7d', ']', ',']

theorem reads_other {c : Char} (h : isPlain c = true) : Reads [.other c] := by
  intro rest
  simp only [isPlain, List.mem_cons, List.not_mem_nil, or_false, Bool.and_eq_true,
    Bool.not_eq_true', decide_eq_true_eq, not_or] at h
  obtain ⟨hspace, hquote, hslash, hbrace, hbracket, hcomma⟩ := h
  show pieces (c :: rest) = _
  rw [pieces_cons, if_neg hquote, if_neg fun h => hslash h.1, if_neg fun h => hslash h.1,
    if_neg fun h => h.elim hbrace hbracket, if_neg hcomma, hspace]
  rfl

theorem reads_others {text : List Char} (h : ∀ c ∈ text, isPlain c = true) :
    Reads (text.map .other) := by
  induction text with
  | nil => exact .nil
  | cons c text ih =>
      exact .cons (reads_other (h c List.mem_cons_self)) (ih fun c' hc' =>
        h c' (List.mem_cons_of_mem _ hc'))

theorem reads_close {c : Char} (h : c = '\x7d' ∨ c = ']') : Reads [.close c] := by
  intro rest
  show pieces (c :: rest) = _
  rcases h with rfl | rfl <;>
  · rw [pieces_cons, if_neg (by decide), if_neg fun h => absurd h.1 (by decide),
      if_neg fun h => absurd h.1 (by decide), if_pos (by decide)]
    rfl

theorem reads_comma : Reads [.comma] := by
  intro rest
  show pieces (',' :: rest) = _
  rw [pieces_cons, if_neg (by decide), if_neg fun h => absurd h.1 (by decide),
    if_neg fun h => absurd h.1 (by decide), if_neg (by decide), if_pos rfl]
  rfl

theorem reads_blank {c : Char} (h : isSpace c = true) : Reads [.blank c] := by
  intro rest
  have hne : ∀ a : Char, isSpace a = false → c ≠ a := by
    rintro a ha rfl
    rw [ha] at h
    cases h
  have hslash : c ≠ '/' := hne _ (by decide)
  show pieces (c :: rest) = _
  rw [pieces_cons, if_neg (hne _ (by decide)), if_neg fun h => hslash h.1,
    if_neg fun h => hslash h.1, if_neg fun h => h.elim (hne _ (by decide)) (hne _ (by decide)),
    if_neg (hne _ (by decide)), if_pos h]
  rfl

theorem reads_line {text : List Char} (h : '\n' ∉ text) :
    Reads [.line ('/' :: '/' :: text), .blank '\n'] := by
  intro rest
  have hpass : ∀ c ∈ '/' :: text, decide (c ≠ '\n') = true := by
    intro c hc
    rcases List.mem_cons.mp hc with rfl | hc
    · decide
    · exact decide_eq_true fun heq => h (heq ▸ hc)
  have htext : textOf [.line ('/' :: '/' :: text), .blank '\n'] ++ rest =
      '/' :: ('/' :: text ++ '\n' :: rest) := by
    simp [textOf, Piece.text]
  rw [htext, pieces_cons, if_neg (by decide), if_pos ⟨rfl, rfl⟩,
    List.takeWhile_append_of_pos hpass, List.dropWhile_append_of_pos hpass,
    List.takeWhile_cons_of_neg (by decide), List.dropWhile_cons_of_neg (by decide),
    List.append_nil]
  have hnewline := reads_blank (show isSpace '\n' = true by decide) rest
  exact congrArg _ hnewline

theorem takeBlock_append {text : List Char} (h : ¬ ['*', '/'] <:+: text) (rest : List Char) :
    takeBlock id (text ++ '*' :: '/' :: rest) = (text ++ ['*', '/'], rest) := by
  induction text with
  | nil => rfl
  | cons b text ih =>
      have htail := ih fun hin => h (hin.trans (List.suffix_cons b text).isInfix)
      cases hmore : text ++ '*' :: '/' :: rest with
      | nil => exact absurd hmore (List.append_ne_nil_of_right_ne_nil _ (List.cons_ne_nil _ _))
      | cons e more =>
          rw [hmore] at htail
          have hends : ¬ (b = id '*' ∧ e = id '/') := by
            rintro ⟨rfl, rfl⟩
            cases text with
            | nil => exact absurd (List.cons.inj hmore).1 (by decide)
            | cons e' text =>
                obtain ⟨rfl, -⟩ := List.cons.inj hmore
                exact h ⟨[], text, rfl⟩
          rw [List.cons_append, hmore, takeBlock, if_neg hends, htail]
          rfl

theorem reads_block {text : List Char} (h : ¬ ['*', '/'] <:+: text) :
    Reads [.block ('/' :: '*' :: (text ++ ['*', '/']))] := by
  intro rest
  have htext : textOf [.block ('/' :: '*' :: (text ++ ['*', '/']))] ++ rest =
      '/' :: '*' :: (text ++ '*' :: '/' :: rest) := by
    simp [textOf, Piece.text]
  rw [htext, pieces_cons, if_neg (by decide), if_neg fun h => absurd h.2 (by simp),
    if_pos ⟨rfl, rfl⟩, List.tail_cons, takeBlock_append h]
  rfl

end Jsonc

end Dagayn
