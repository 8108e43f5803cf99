import Dagayn.Jsonc
import Mathlib

/-!
# Rust code without comments and literals

`blank_non_code` puts spaces over what it takes for comments and for string and character
literals. `regionAt` is what it takes for one at the front of a text; it looks for ASCII bytes
only, so on the bytes of a text it finds what it finds on the characters (`regionAt_utf8`).
-/

namespace Dagayn

namespace RustCode

open Jsonc (takeString takeBlock)

/-! ## The scan -/

section Units

/- The characters of a text, or its bytes: `u` is the code unit of an ASCII character, `width` the
number of units of the character at the front. -/
variable {α : Type} [DecidableEq α] (u : Char → α) (width : List α → Nat)

/-- A raw string behind its opening quote, up to the quote with the hashes, and what is behind. -/
def takeRaw (hashes : Nat) : List α → List α × List α
  | [] => ([], [])
  | b :: rest =>
      if b = u '"' ∧ rest.take hashes = List.replicate hashes (u '#') then
        (b :: rest.take hashes, rest.drop hashes)
      else
        let s := takeRaw hashes rest
        (b :: s.1, s.2)

/-- A character literal behind its opening quote; a lifetime is none. -/
def takeChar (rest : List α) : Option (List α × List α) :=
  if rest.head? = some (u '\\') then
    match rest.tail.dropWhile (· ≠ u '\'') with
    | [] => none
    | quote :: behind => some (u '\\' :: (rest.tail.takeWhile (· ≠ u '\'') ++ [quote]), behind)
  else
    let n := width rest
    if rest[n]? = some (u '\'') then some (rest.take (n + 1), rest.drop (n + 1)) else none

/-- A comment or literal at the front of the text; `inWord` tells that an identifier character
stands before it. -/
def regionAt (inWord : Bool) : List α → Option (List α × List α)
  | [] => none
  | b :: rest =>
      if b = u '/' ∧ rest.head? = some (u '/') then
        some (b :: rest.takeWhile (· ≠ u '\n'), rest.dropWhile (· ≠ u '\n'))
      else if b = u '/' ∧ rest.head? = some (u '*') then
        let s := takeBlock u rest.tail
        some (b :: u '*' :: s.1, s.2)
      else if b = u 'r' ∧ (rest.head? = some (u '"') ∨ rest.head? = some (u '#')) ∧
          inWord = false then
        let hashes := rest.takeWhile (· = u '#')
        match rest.dropWhile (· = u '#') with
        | [] => none
        | quote :: behind =>
            if quote = u '"' then
              let s := takeRaw u hashes.length behind
              some (b :: (hashes ++ quote :: s.1), s.2)
            else none
      else if b = u '"' then
        let s := takeString u rest
        some (b :: s.1, s.2)
      else if b = u '\'' then (takeChar u width rest).map fun s => (b :: s.1, s.2)
      else none

variable {u width}

theorem takeString_append (text : List α) :
    (takeString u text).1 ++ (takeString u text).2 = text := by
  fun_induction takeString u text with
  | case1 => rfl
  | case2 b => rfl
  | case3 e rest => rfl
  | case4 e rest _ s ih => exact congrArg (fun bs => u '\\' :: e :: bs) ih
  | case5 b e rest _ _ s ih => exact congrArg (b :: ·) ih

theorem takeBlock_append (text : List α) :
    (takeBlock u text).1 ++ (takeBlock u text).2 = text := by
  fun_induction takeBlock u text with
  | case1 => rfl
  | case2 b => rfl
  | case3 b e rest _ => rfl
  | case4 b e rest _ s ih => exact congrArg (b :: ·) ih

theorem takeRaw_append (hashes : Nat) (text : List α) :
    (takeRaw u hashes text).1 ++ (takeRaw u hashes text).2 = text := by
  induction text with
  | nil => rfl
  | cons b text ih =>
      rw [takeRaw]
      split
      · exact congrArg (b :: ·) (List.take_append_drop hashes text)
      · exact congrArg (b :: ·) ih

theorem takeChar_append {text : List α} {s : List α × List α}
    (h : takeChar u width text = some s) : s.1 ++ s.2 = text := by
  rw [takeChar] at h
  split at h
  · rename_i hescaped
    obtain ⟨rest, rfl⟩ := List.head?_eq_some_iff.mp hescaped
    split at h
    · cases h
    · rename_i quote behind hdrop
      obtain rfl := Option.some.inj h
      rw [List.tail_cons] at hdrop ⊢
      have hsplit := List.takeWhile_append_dropWhile (p := (· ≠ u '\'')) (l := rest)
      rw [hdrop] at hsplit
      rw [List.cons_append, List.append_assoc, List.singleton_append, hsplit]
  · dsimp only at h
    split at h
    · obtain rfl := Option.some.inj h
      exact List.take_append_drop _ text
    · cases h

theorem regionAt_append {inWord : Bool} {text : List α} {s : List α × List α}
    (h : regionAt u width inWord text = some s) : s.1 ≠ [] ∧ s.1 ++ s.2 = text := by
  cases text with
  | nil => cases h
  | cons b rest =>
      rw [regionAt] at h
      split at h
      · obtain rfl := Option.some.inj h
        exact ⟨List.cons_ne_nil _ _, congrArg (b :: ·) List.takeWhile_append_dropWhile⟩
      · split at h
        · rename_i hblock
          obtain ⟨rest, rfl⟩ := List.head?_eq_some_iff.mp hblock.2
          obtain rfl := Option.some.inj h
          exact ⟨List.cons_ne_nil _ _,
            congrArg (fun bs => b :: u '*' :: bs) (takeBlock_append rest)⟩
        · split at h
          · dsimp only at h
            split at h
            · cases h
            · rename_i quote behind hdrop
              split at h
              · obtain rfl := Option.some.inj h
                have hsplit := List.takeWhile_append_dropWhile (p := (· = u '#')) (l := rest)
                rw [hdrop] at hsplit
                refine ⟨List.cons_ne_nil _ _, ?_⟩
                dsimp only
                rw [List.cons_append, List.append_assoc, List.cons_append, takeRaw_append, hsplit]
              · cases h
          · split at h
            · obtain rfl := Option.some.inj h
              exact ⟨List.cons_ne_nil _ _, congrArg (b :: ·) (takeString_append rest)⟩
            · split at h
              · obtain ⟨s', hs', heq⟩ := Option.map_eq_some_iff.mp h
                rw [← heq]
                exact ⟨List.cons_ne_nil _ _, congrArg (b :: ·) (takeChar_append hs')⟩
              · cases h

theorem length_regionAt {inWord : Bool} {text : List α} {s : List α × List α}
    (h : regionAt u width inWord text = some s) : s.2.length < text.length := by
  obtain ⟨hne, happ⟩ := regionAt_append h
  have hpos := List.length_pos_iff.mpr hne
  rw [← happ, List.length_append]
  omega

end Units

/-- `is_ascii_alphanumeric` or `_`. -/
def isWordByte (b : UInt8) : Bool :=
  (0x30 ≤ b.toNat ∧ b.toNat ≤ 0x39) || (0x41 ≤ b.toNat ∧ b.toNat ≤ 0x5A) ||
    (0x61 ≤ b.toNat ∧ b.toNat ≤ 0x7A) || b.toNat = 0x5F

/-- `chars().next().map_or(1, char::len_utf8)`. -/
def byteWidth (bytes : List UInt8) : Nat := (bytes.head?.map charWidth).getD 1

def blankByte (b : UInt8) : UInt8 := if b = '\n'.toUInt8 then b else ' '.toUInt8

/-- The loop of `blank_non_code`, with the byte before. -/
def blankFrom (before : Option UInt8) (bytes : List UInt8) : List UInt8 :=
  match bytes with
  | [] => []
  | b :: rest =>
      match _h : regionAt Char.toUInt8 byteWidth (before.any isWordByte) (b :: rest) with
      | some s => s.1.map blankByte ++ blankFrom s.1.getLast? s.2
      | none => b :: blankFrom (some b) rest
termination_by bytes.length
decreasing_by
  · exact length_regionAt (by assumption)
  · exact Nat.lt_succ_self _

def blankNonCode (text : List Char) : List Char :=
  (Jsonc.fromUtf8 (blankFrom none (utf8 text))).getD []

/-! ## The same on characters -/

def isWordChar (c : Char) : Bool := c.isAlphanum || c = '_'

def blankChar (c : Char) : List Char := if c = '\n' then [c] else List.replicate c.utf8Size ' '

def blanks (text : List Char) : List Char := text.flatMap blankChar

def charRegionAt (before : Option Char) (text : List Char) : Option (List Char × List Char) :=
  regionAt id (fun _ => 1) (before.any isWordChar) text

def blankChars (before : Option Char) (text : List Char) : List Char :=
  match text with
  | [] => []
  | c :: rest =>
      match _h : charRegionAt before (c :: rest) with
      | some s => blanks s.1 ++ blankChars s.1.getLast? s.2
      | none => c :: blankChars (some c) rest
termination_by text.length
decreasing_by
  · exact length_regionAt (by assumption)
  · exact Nat.lt_succ_self _

/-! ## Bytes and characters -/

theorem dropWhile_ne_utf8 {a : Char} (ha : a.toNat < 0x80) (text : List Char) :
    (utf8 text).dropWhile (· ≠ a.toUInt8) = utf8 (text.dropWhile (· ≠ a)) := by
  induction text with
  | nil => rfl
  | cons c text ih =>
      by_cases hc : c = a
      · subst hc
        rw [utf8_ascii ha, List.dropWhile_cons_of_neg (by simp),
          List.dropWhile_cons_of_neg (by simp), utf8_ascii ha]
      · have hpass : ∀ b ∈ String.utf8EncodeChar c, decide (b ≠ a.toUInt8) = true :=
          fun b hb => decide_eq_true (Jsonc.pass_of_ne ha hc b hb)
        rw [utf8_cons, List.dropWhile_append_of_pos hpass, ih,
          List.dropWhile_cons_of_pos (by simpa using hc)]

theorem takeWhile_ne_utf8 {a : Char} (ha : a.toNat < 0x80) (text : List Char) :
    (utf8 text).takeWhile (· ≠ a.toUInt8) = utf8 (text.takeWhile (· ≠ a)) := by
  have hsplit := List.takeWhile_append_dropWhile (p := fun b => decide (b ≠ a.toUInt8))
    (l := utf8 text)
  have htext := congrArg utf8 (List.takeWhile_append_dropWhile (p := fun c => decide (c ≠ a))
    (l := text))
  rw [utf8_append, ← dropWhile_ne_utf8 ha] at htext
  exact List.append_cancel_right (hsplit.trans htext.symm)

theorem dropWhile_eq_utf8 {a : Char} (ha : a.toNat < 0x80) (text : List Char) :
    (utf8 text).dropWhile (· = a.toUInt8) = utf8 (text.dropWhile (· = a)) := by
  induction text with
  | nil => rfl
  | cons c text ih =>
      by_cases hc : c = a
      · subst hc
        rw [utf8_ascii ha, List.dropWhile_cons_of_pos (by simp), ih,
          List.dropWhile_cons_of_pos (by simp)]
      · obtain ⟨b, tail, hcode, -⟩ := Jsonc.encode_tail c
        have hb : b ≠ a.toUInt8 := Jsonc.pass_of_ne ha hc b (hcode ▸ List.mem_cons_self)
        rw [utf8_cons, hcode, List.cons_append,
          List.dropWhile_cons_of_neg (by simpa using hb),
          List.dropWhile_cons_of_neg (by simpa using hc), utf8_cons, hcode,
          List.cons_append]

theorem takeWhile_eq_utf8 {a : Char} (ha : a.toNat < 0x80) (text : List Char) :
    (utf8 text).takeWhile (· = a.toUInt8) = utf8 (text.takeWhile (· = a)) := by
  have hsplit := List.takeWhile_append_dropWhile (p := fun b => decide (b = a.toUInt8))
    (l := utf8 text)
  have htext := congrArg utf8 (List.takeWhile_append_dropWhile (p := fun c => decide (c = a))
    (l := text))
  rw [utf8_append, ← dropWhile_eq_utf8 ha] at htext
  exact List.append_cancel_right (hsplit.trans htext.symm)

theorem utf8_replicate {a : Char} (ha : a.toNat < 0x80) (n : Nat) :
    utf8 (List.replicate n a) = List.replicate n a.toUInt8 := by
  induction n with
  | zero => rfl
  | succ n ih => rw [List.replicate_succ, utf8_ascii ha, ih, List.replicate_succ]

theorem take_utf8 {a : Char} (ha : a.toNat < 0x80) (n : Nat) (text : List Char) :
    (utf8 text).take n = List.replicate n a.toUInt8 ↔ text.take n = List.replicate n a := by
  induction n generalizing text with
  | zero => simp
  | succ n ih =>
      cases text with
      | nil => simp [utf8_nil]
      | cons c text =>
          by_cases hc : c = a
          · subst hc
            rw [utf8_ascii ha, List.take_succ_cons, List.take_succ_cons, List.replicate_succ,
              List.replicate_succ, List.cons.injEq, List.cons.injEq, ih]
            simp
          · obtain ⟨b, tail, hcode, -⟩ := Jsonc.encode_tail c
            have hb : b ≠ a.toUInt8 := Jsonc.pass_of_ne ha hc b (hcode ▸ List.mem_cons_self)
            rw [utf8_cons, hcode, List.cons_append, List.take_succ_cons, List.take_succ_cons,
              List.replicate_succ, List.replicate_succ, List.cons.injEq, List.cons.injEq]
            simp [hb, hc]

theorem takeRaw_pass {bs : List UInt8} (h : ∀ b ∈ bs, b ≠ '"'.toUInt8) (n : Nat)
    (rest : List UInt8) : takeRaw Char.toUInt8 n (bs ++ rest) =
      (bs ++ (takeRaw Char.toUInt8 n rest).1, (takeRaw Char.toUInt8 n rest).2) := by
  induction bs with
  | nil => rfl
  | cons b bs ih =>
      rw [List.cons_append, takeRaw, if_neg fun hb => h b List.mem_cons_self hb.1,
        ih fun b' hb' => h b' (List.mem_cons_of_mem _ hb')]
      rfl

theorem takeRaw_utf8 (n : Nat) (text : List Char) : takeRaw Char.toUInt8 n (utf8 text) =
    (utf8 (takeRaw id n text).1, utf8 (takeRaw id n text).2) := by
  induction text with
  | nil => rfl
  | cons c text ih =>
      by_cases hc : c = '"'
      · subst hc
        rw [utf8_ascii (by decide), takeRaw, takeRaw]
        by_cases hhashes : text.take n = List.replicate n '#'
        · have hbytes := (take_utf8 (show '#'.toNat < 0x80 by decide) n text).mpr hhashes
          have htext : utf8 text = List.replicate n '#'.toUInt8 ++ utf8 (text.drop n) := by
            rw [← utf8_replicate (by decide), ← hhashes, ← utf8_append, List.take_append_drop]
          have hdrop : (utf8 text).drop n = utf8 (text.drop n) := by
            have happ := List.take_append_drop n (utf8 text)
            rw [hbytes] at happ
            exact List.append_cancel_left (happ.trans htext)
          rw [if_pos ⟨rfl, hbytes⟩, if_pos ⟨rfl, hhashes⟩, hbytes, hdrop, hhashes,
            utf8_ascii (by decide), utf8_replicate (by decide)]
        · have hbytes := fun h => hhashes ((take_utf8 (by decide) n text).mp h)
          rw [if_neg fun h => hbytes h.2, if_neg fun h => hhashes h.2, ih,
            utf8_ascii (by decide)]
      · rw [utf8_cons, takeRaw_pass (Jsonc.pass_of_ne (by decide) hc), ih, takeRaw,
          if_neg fun h => hc h.1, utf8_cons]

theorem charWidth_encode (c : Char) :
    ∃ b tail, String.utf8EncodeChar c = b :: tail ∧ charWidth b = tail.length + 1 := by
  have hv := toNat_scalar c
  unfold String.utf8EncodeChar
  change ∃ b tail, (ite (c.toNat ≤ _) _ _) = b :: tail ∧ _
  split
  · rename_i h1
    have h1 : c.toNat ≤ 0x7f := h1
    have hb := toNat_byte (n := c.toNat) (by omega)
    refine ⟨.ofNat c.toNat, _, rfl, ?_⟩
    simp only [charWidth, hb]
    exact if_pos (by omega)
  · rename_i h1
    have h1 : ¬ c.toNat ≤ 0x7f := h1
    split
    · rename_i h2
      have h2 : c.toNat ≤ 0x7ff := h2
      have hb := toNat_byte (n := c.toNat / 64 % 0x20 + 0xc0) (by omega)
      refine ⟨.ofNat (c.toNat / 64 % 0x20 + 0xc0), _, rfl, ?_⟩
      simp only [charWidth, hb]
      rw [if_neg (by omega), if_pos (by omega)]
      rfl
    · rename_i h2
      have h2 : ¬ c.toNat ≤ 0x7ff := h2
      split
      · rename_i h3
        have h3 : c.toNat ≤ 0xffff := h3
        have hb := toNat_byte (n := c.toNat / 4096 % 0x10 + 0xe0) (by omega)
        refine ⟨.ofNat (c.toNat / 4096 % 0x10 + 0xe0), _, rfl, ?_⟩
        simp only [charWidth, hb]
        rw [if_neg (by omega), if_neg (by omega), if_pos (by omega)]
        rfl
      · rename_i h3
        have h3 : ¬ c.toNat ≤ 0xffff := h3
        have hb := toNat_byte (n := c.toNat / 262144 % 0x08 + 0xf0) (by omega)
        refine ⟨.ofNat (c.toNat / 262144 % 0x08 + 0xf0), _, rfl, ?_⟩
        simp only [charWidth, hb]
        rw [if_neg (by omega), if_neg (by omega), if_neg (by omega), if_pos (by omega)]
        rfl

theorem takeChar_utf8 (text : List Char) : takeChar Char.toUInt8 byteWidth (utf8 text) =
    (takeChar id (fun _ => 1) text).map fun s => (utf8 s.1, utf8 s.2) := by
  have hslash := Jsonc.head?_utf8 (show '\\'.toNat < 0x80 by decide) text
  rw [takeChar, takeChar]
  simp only [id]
  by_cases hescaped : text.head? = some '\\'
  · obtain ⟨rest, rfl⟩ := List.head?_eq_some_iff.mp hescaped
    have hquote := dropWhile_ne_utf8 (show '\''.toNat < 0x80 by decide) rest
    have hfront := takeWhile_ne_utf8 (show '\''.toNat < 0x80 by decide) rest
    rw [if_pos (hslash.mpr rfl), if_pos hescaped, utf8_ascii (by decide), List.tail_cons,
      List.tail_cons, hquote, hfront]
    cases hdrop : rest.dropWhile (· ≠ '\'') with
    | nil => rfl
    | cons quote behind =>
        have hstop : quote = '\'' := by
          have hhead := List.head_dropWhile_not (fun c => decide (c ≠ '\'')) (l := rest)
            (by rw [hdrop]; exact List.cons_ne_nil _ _)
          simp only [hdrop, List.head_cons] at hhead
          simpa using hhead
        subst hstop
        rw [utf8_ascii (by decide), Option.map_some, utf8_ascii (by decide),
          utf8_append, utf8_ascii (by decide)]
        rfl
  · rw [if_neg fun h => hescaped (hslash.mp h), if_neg hescaped]
    cases text with
    | nil => rfl
    | cons c rest =>
        obtain ⟨b, tail, hcode, hwidth⟩ := charWidth_encode c
        have hbytes : utf8 (c :: rest) = b :: (tail ++ utf8 rest) := by
          rw [utf8_cons, hcode, List.cons_append]
        have hquote := Jsonc.head?_utf8 (show '\''.toNat < 0x80 by decide) rest
        have hbyteWidth : byteWidth (utf8 (c :: rest)) = tail.length + 1 := by
          rw [hbytes]
          exact hwidth
        have hget : (utf8 (c :: rest))[tail.length + 1]? = (utf8 rest).head? := by
          rw [hbytes, List.getElem?_cons_succ, List.getElem?_append_right (Nat.le_refl _),
            Nat.sub_self, List.head?_eq_getElem?]
        have hget' : (c :: rest)[1]? = rest.head? := by
          rw [List.getElem?_cons_succ, List.head?_eq_getElem?]
        rw [hbyteWidth, hget, hget']
        by_cases hends : rest.head? = some '\''
        · obtain ⟨behind, rfl⟩ := List.head?_eq_some_iff.mp hends
          have hfront : utf8 [c, '\''] = b :: (tail ++ ['\''.toUInt8]) := by
            rw [utf8_cons, hcode, utf8_ascii (by decide)]
            rfl
          have hall : utf8 (c :: '\'' :: behind) = utf8 [c, '\''] ++ utf8 behind := by
            rw [← utf8_append]
            rfl
          have hlength : tail.length + 1 + 1 = (utf8 [c, '\'']).length := by
            rw [hfront, List.length_cons, List.length_append, List.length_singleton]
          rw [if_pos (hquote.mpr rfl), if_pos hends, hall, List.take_left' hlength.symm,
            List.drop_left' hlength.symm]
          rfl
        · rw [if_neg fun h => hends (hquote.mp h), if_neg hends]
          rfl

section Units

variable {α : Type} [DecidableEq α] {u : Char → α} {width : List α → Nat}

def Ascii (u : Char → α) : Prop :=
  ∀ a c : Char, a.toNat < 0x80 → c.toNat < 0x80 → a ≠ c → u a ≠ u c

theorem regionAt_of_ne {b : α} (hslash : b ≠ u '/') (hraw : b ≠ u 'r') (hquote : b ≠ u '"')
    (htick : b ≠ u '\'') (inWord : Bool) (rest : List α) :
    regionAt u width inWord (b :: rest) = none := by
  rw [regionAt, if_neg fun h => hslash h.1, if_neg fun h => hslash h.1, if_neg fun h => hraw h.1,
    if_neg hquote, if_neg htick]

theorem regionAt_line (inWord : Bool) {rest : List α} (h : rest.head? = some (u '/')) :
    regionAt u width inWord (u '/' :: rest) =
      some (u '/' :: rest.takeWhile (· ≠ u '\n'), rest.dropWhile (· ≠ u '\n')) := by
  rw [regionAt, if_pos ⟨rfl, h⟩]

variable (hu : Ascii u)

include hu

theorem regionAt_block (inWord : Bool) (rest : List α) :
    regionAt u width inWord (u '/' :: u '*' :: rest) =
      some (u '/' :: u '*' :: (takeBlock u rest).1, (takeBlock u rest).2) := by
  have hne := hu '*' '/' (by decide) (by decide) (by decide)
  rw [regionAt, if_neg fun h => hne (Option.some.inj h.2), if_pos ⟨rfl, rfl⟩]
  rfl

theorem regionAt_slash (inWord : Bool) {rest : List α} (hline : rest.head? ≠ some (u '/'))
    (hblock : rest.head? ≠ some (u '*')) : regionAt u width inWord (u '/' :: rest) = none := by
  rw [regionAt, if_neg fun h => hline h.2, if_neg fun h => hblock h.2,
    if_neg fun h => hu _ _ (by decide) (by decide) (by decide) h.1,
    if_neg (hu _ _ (by decide) (by decide) (by decide)),
    if_neg (hu _ _ (by decide) (by decide) (by decide))]

theorem regionAt_raw {rest : List α}
    (h : rest.head? = some (u '"') ∨ rest.head? = some (u '#')) :
    regionAt u width false (u 'r' :: rest) =
      match rest.dropWhile (· = u '#') with
      | [] => none
      | quote :: behind =>
          if quote = u '"' then
            let s := takeRaw u (rest.takeWhile (· = u '#')).length behind
            some (u 'r' :: (rest.takeWhile (· = u '#') ++ quote :: s.1), s.2)
          else none := by
  rw [regionAt, if_neg fun h => hu _ _ (by decide) (by decide) (by decide) h.1,
    if_neg fun h => hu _ _ (by decide) (by decide) (by decide) h.1, if_pos ⟨rfl, h, rfl⟩]

theorem regionAt_r {inWord : Bool} {rest : List α}
    (h : ¬ ((rest.head? = some (u '"') ∨ rest.head? = some (u '#')) ∧ inWord = false)) :
    regionAt u width inWord (u 'r' :: rest) = none := by
  rw [regionAt, if_neg fun h => hu _ _ (by decide) (by decide) (by decide) h.1,
    if_neg fun h => hu _ _ (by decide) (by decide) (by decide) h.1, if_neg fun h' => h h'.2,
    if_neg (hu _ _ (by decide) (by decide) (by decide)),
    if_neg (hu _ _ (by decide) (by decide) (by decide))]

theorem regionAt_quote (inWord : Bool) (rest : List α) :
    regionAt u width inWord (u '"' :: rest) =
      some (u '"' :: (takeString u rest).1, (takeString u rest).2) := by
  rw [regionAt, if_neg fun h => hu _ _ (by decide) (by decide) (by decide) h.1,
    if_neg fun h => hu _ _ (by decide) (by decide) (by decide) h.1,
    if_neg fun h => hu _ _ (by decide) (by decide) (by decide) h.1, if_pos rfl]

theorem regionAt_tick (inWord : Bool) (rest : List α) :
    regionAt u width inWord (u '\'' :: rest) =
      (takeChar u width rest).map fun s => (u '\'' :: s.1, s.2) := by
  rw [regionAt, if_neg fun h => hu _ _ (by decide) (by decide) (by decide) h.1,
    if_neg fun h => hu _ _ (by decide) (by decide) (by decide) h.1,
    if_neg fun h => hu _ _ (by decide) (by decide) (by decide) h.1,
    if_neg (hu _ _ (by decide) (by decide) (by decide)), if_pos rfl]

end Units

theorem ascii_id : Ascii (id : Char → Char) := fun _ _ _ _ h => h

theorem ascii_toUInt8 : Ascii Char.toUInt8 := fun _ _ ha hc h heq =>
  h ((Jsonc.toUInt8_eq_iff hc ha).mp heq)

theorem length_hashes (text : List Char) :
    (utf8 (text.takeWhile (· = '#'))).length = (text.takeWhile (· = '#')).length := by
  have hall : text.takeWhile (· = '#') = List.replicate (text.takeWhile (· = '#')).length '#' :=
    List.eq_replicate_of_mem fun c hc => by simpa using List.mem_takeWhile_imp hc
  have hlength := congrArg (fun t => (utf8 t).length) hall
  rwa [utf8_replicate (by decide), List.length_replicate] at hlength

section Utf8

variable (inWord : Bool) (rest : List Char)

theorem regionAt_utf8_slash : regionAt Char.toUInt8 byteWidth inWord (utf8 ('/' :: rest)) =
    (regionAt id (fun _ => 1) inWord ('/' :: rest)).map fun s => (utf8 s.1, utf8 s.2) := by
  have hhead : ∀ {a : Char}, a.toNat < 0x80 →
      ((utf8 rest).head? = some a.toUInt8 ↔ rest.head? = some (id a)) := fun ha =>
    Jsonc.head?_utf8 ha rest
  rw [utf8_ascii (by decide)]
  by_cases hline : rest.head? = some (id '/')
  · have hchars : regionAt id (fun _ => 1) inWord ('/' :: rest) = some _ :=
      regionAt_line inWord hline
    rw [regionAt_line inWord ((hhead (by decide)).mpr hline), hchars, Option.map_some,
      dropWhile_ne_utf8 (by decide), takeWhile_ne_utf8 (by decide)]
    exact congrArg (fun bs => some (bs, _)) (utf8_ascii (by decide) _).symm
  by_cases hblock : rest.head? = some (id '*')
  · obtain ⟨rest, rfl⟩ := List.head?_eq_some_iff.mp hblock
    have hchars : regionAt id (fun _ => 1) inWord ('/' :: '*' :: rest) = some _ :=
      regionAt_block ascii_id inWord rest
    simp only [id] at hchars ⊢
    rw [hchars, utf8_ascii (by decide), regionAt_block ascii_toUInt8,
      Jsonc.takeBlock_utf8, Option.map_some, utf8_ascii (by decide),
      utf8_ascii (by decide)]
  · have hchars : regionAt id (fun _ => 1) inWord ('/' :: rest) = none :=
      regionAt_slash ascii_id inWord hline hblock
    rw [hchars, regionAt_slash ascii_toUInt8 inWord
      (fun h => hline ((hhead (by decide)).mp h))
      (fun h => hblock ((hhead (by decide)).mp h))]
    rfl

theorem regionAt_utf8_raw : regionAt Char.toUInt8 byteWidth inWord (utf8 ('r' :: rest)) =
    (regionAt id (fun _ => 1) inWord ('r' :: rest)).map fun s => (utf8 s.1, utf8 s.2) := by
  have hhead : ∀ {a : Char}, a.toNat < 0x80 →
      ((utf8 rest).head? = some a.toUInt8 ↔ rest.head? = some (id a)) := fun ha =>
    Jsonc.head?_utf8 ha rest
  rw [utf8_ascii (by decide)]
  by_cases hstart : (rest.head? = some (id '"') ∨ rest.head? = some (id '#')) ∧
      inWord = false
  · obtain ⟨hfront, rfl⟩ := hstart
    have hchars : regionAt id (fun _ => 1) false ('r' :: rest) = _ :=
      regionAt_raw ascii_id hfront
    rw [hchars, regionAt_raw ascii_toUInt8
      (hfront.imp (hhead (by decide)).mpr (hhead (by decide)).mpr),
      dropWhile_eq_utf8 (by decide), takeWhile_eq_utf8 (by decide)]
    simp only [id]
    cases hdrop : rest.dropWhile (· = '#') with
    | nil => rfl
    | cons quote behind =>
        by_cases hquote : quote = '"'
        · subst hquote
          simp only [utf8_ascii (show '"'.toNat < 0x80 by decide), if_true,
            length_hashes, takeRaw_utf8, Option.map_some,
            utf8_ascii (show 'r'.toNat < 0x80 by decide), utf8_append]
        · obtain ⟨b, tail, hcode, -⟩ := Jsonc.encode_tail quote
          have hb : b ≠ '"'.toUInt8 :=
            Jsonc.pass_of_ne (by decide) hquote b (hcode ▸ List.mem_cons_self)
          rw [utf8_cons, hcode, List.cons_append]
          simp only [if_neg hb, if_neg hquote, Option.map_none]
  · have hchars : regionAt id (fun _ => 1) inWord ('r' :: rest) = none :=
      regionAt_r ascii_id hstart
    rw [hchars, regionAt_r ascii_toUInt8 fun h => hstart
      (h.imp_left (Or.imp (hhead (by decide)).mp (hhead (by decide)).mp))]
    rfl

end Utf8

theorem regionAt_utf8 (inWord : Bool) (text : List Char) :
    regionAt Char.toUInt8 byteWidth inWord (utf8 text) =
      (regionAt id (fun _ => 1) inWord text).map fun s => (utf8 s.1, utf8 s.2) := by
  cases text with
  | nil => rfl
  | cons c rest =>
      by_cases hslash : c = '/'
      · subst hslash
        exact regionAt_utf8_slash inWord rest
      by_cases hraw : c = 'r'
      · subst hraw
        exact regionAt_utf8_raw inWord rest
      by_cases hquote : c = '"'
      · subst hquote
        have hchars : regionAt id (fun _ => 1) inWord ('"' :: rest) = some _ :=
          regionAt_quote ascii_id inWord rest
        rw [utf8_ascii (by decide), hchars, regionAt_quote ascii_toUInt8,
          Jsonc.takeString_utf8, Option.map_some]
        exact congrArg (fun bs => some (bs, _)) (utf8_ascii (by decide) _).symm
      by_cases htick : c = '\''
      · subst htick
        have hchars : regionAt id (fun _ => 1) inWord ('\'' :: rest) = _ :=
          regionAt_tick ascii_id inWord rest
        rw [utf8_ascii (by decide), hchars, regionAt_tick ascii_toUInt8, takeChar_utf8,
          Option.map_map, Option.map_map]
        refine congrArg (fun f => Option.map f _) (funext fun s => ?_)
        exact congrArg (fun bs => (bs, _)) (utf8_ascii (by decide) _).symm
      · obtain ⟨b, tail, hcode, -⟩ := Jsonc.encode_tail c
        have hne : ∀ {a : Char}, a.toNat < 0x80 → c ≠ a → b ≠ a.toUInt8 := fun ha hc =>
          Jsonc.pass_of_ne ha hc b (hcode ▸ List.mem_cons_self)
        have hchars : regionAt id (fun _ => 1) inWord (c :: rest) = none :=
          regionAt_of_ne hslash hraw hquote htick inWord rest
        rw [hchars, utf8_cons, hcode, List.cons_append,
          regionAt_of_ne (hne (by decide) hslash) (hne (by decide) hraw) (hne (by decide) hquote)
            (hne (by decide) htick)]
        rfl

/-! ## The output -/

theorem blankFrom_of_some {before : Option UInt8} {bytes : List UInt8}
    {s : List UInt8 × List UInt8}
    (h : regionAt Char.toUInt8 byteWidth (before.any isWordByte) bytes = some s) :
    blankFrom before bytes = s.1.map blankByte ++ blankFrom s.1.getLast? s.2 := by
  cases bytes with
  | nil => cases h
  | cons b rest =>
      rw [blankFrom]
      split
      · rename_i s' hs'
        obtain rfl := Option.some.inj (h.symm.trans hs')
        rfl
      · rename_i hnone
        rw [h] at hnone
        cases hnone

theorem blankFrom_of_none {before : Option UInt8} {b : UInt8} {rest : List UInt8}
    (h : regionAt Char.toUInt8 byteWidth (before.any isWordByte) (b :: rest) = none) :
    blankFrom before (b :: rest) = b :: blankFrom (some b) rest := by
  rw [blankFrom]
  split
  · rename_i s' hs'
    rw [h] at hs'
    cases hs'
  · rfl

theorem blankChars_of_some {before : Option Char} {text : List Char}
    {s : List Char × List Char} (h : charRegionAt before text = some s) :
    blankChars before text = blanks s.1 ++ blankChars s.1.getLast? s.2 := by
  cases text with
  | nil => cases h
  | cons c rest =>
      rw [blankChars]
      split
      · rename_i s' hs'
        obtain rfl := Option.some.inj (h.symm.trans hs')
        rfl
      · rename_i hnone
        rw [h] at hnone
        cases hnone

theorem blankChars_of_none {before : Option Char} {c : Char} {rest : List Char}
    (h : charRegionAt before (c :: rest) = none) :
    blankChars before (c :: rest) = c :: blankChars (some c) rest := by
  rw [blankChars]
  split
  · rename_i s' hs'
    rw [h] at hs'
    cases hs'
  · rfl

theorem isWordByte_of_high {b : UInt8} (h : 0x80 ≤ b.toNat) : isWordByte b = false := by
  simp only [isWordByte, Bool.or_eq_false_iff, decide_eq_false_iff_not]
  omega

theorem isWordByte_toUInt8 {c : Char} (hc : c.toNat < 0x80) :
    isWordByte c.toUInt8 = isWordChar c := by
  have hall : ∀ n, n < 0x80 →
      isWordByte (Char.ofNat n).toUInt8 = isWordChar (Char.ofNat n) := by decide
  have hone := hall c.toNat hc
  rwa [Char.ofNat_toNat] at hone

theorem isWordChar_of_high {c : Char} (hc : 0x80 ≤ c.toNat) : isWordChar c = false := by
  have hval : c.val.toNat = c.toNat := rfl
  have hZ : 'Z'.val.toNat = 90 := rfl
  have hz : 'z'.val.toNat = 122 := rfl
  have hnine : '9'.val.toNat = 57 := rfl
  simp only [isWordChar, Char.isAlphanum, Char.isAlpha, Char.isUpper, Char.isLower, Char.isDigit,
    UInt32.le_iff_toNat_le, Bool.or_eq_false_iff, decide_eq_false_iff_not, Bool.and_eq_false_iff]
  refine ⟨⟨⟨by omega, .inr (by omega)⟩, .inr (by omega)⟩, ?_⟩
  rintro rfl
  exact absurd hc (by decide)

theorem blankFrom_high {bs : List UInt8} (h : ∀ b ∈ bs, 0x80 ≤ b.toNat) (hne : bs ≠ [])
    (before : Option UInt8) (rest : List UInt8) : ∃ b : UInt8, 0x80 ≤ b.toNat ∧
      blankFrom before (bs ++ rest) = bs ++ blankFrom (some b) rest := by
  induction bs generalizing before with
  | nil => exact absurd rfl hne
  | cons b bs ih =>
      have hb := h b List.mem_cons_self
      have hascii : ∀ a : UInt8, a.toNat < 0x80 → b ≠ a := by
        rintro a ha rfl
        omega
      have hnone : ∀ inWord rest, regionAt Char.toUInt8 byteWidth inWord (b :: rest) = none :=
        regionAt_of_ne (hascii _ (by decide)) (hascii _ (by decide)) (hascii _ (by decide))
          (hascii _ (by decide))
      rw [List.cons_append, blankFrom_of_none (hnone _ _)]
      cases bs with
      | nil => exact ⟨b, hb, rfl⟩
      | cons b' bs =>
          obtain ⟨last, hlast, heq⟩ := ih (fun b hb => h b (List.mem_cons_of_mem _ hb))
            (List.cons_ne_nil _ _) (some b)
          exact ⟨last, hlast, by rw [heq]; rfl⟩

def Alike (b : Option UInt8) (c : Option Char) : Prop := b.any isWordByte = c.any isWordChar

theorem blankFrom_char {b : Option UInt8} {c : Char} {rest : List Char}
    (h : regionAt Char.toUInt8 byteWidth (b.any isWordByte) (utf8 (c :: rest)) = none) :
    ∃ b', Alike (some b') (some c) ∧ blankFrom b (utf8 (c :: rest)) =
      String.utf8EncodeChar c ++ blankFrom (some b') (utf8 rest) := by
  rcases encode_cases c with ⟨hc, hcode⟩ | ⟨hc, hhigh⟩
  · refine ⟨c.toUInt8, isWordByte_toUInt8 hc, ?_⟩
    rw [utf8_ascii hc] at h ⊢
    rw [blankFrom_of_none h, hcode, List.singleton_append]
  · obtain ⟨b', hb', heq⟩ := blankFrom_high hhigh String.utf8EncodeChar_ne_nil b (utf8 rest)
    refine ⟨b', ?_, by rw [utf8_cons, heq]⟩
    rw [Alike, Option.any_some, Option.any_some, isWordByte_of_high hb', isWordChar_of_high hc]

theorem alike_getLast? {text : List Char} (h : text ≠ []) :
    Alike (utf8 text).getLast? text.getLast? := by
  obtain ⟨front, c, rfl⟩ := List.eq_nil_or_concat text |>.resolve_left h
  rw [List.concat_eq_append, utf8_append, utf8_cons, utf8_nil, List.append_nil,
    List.getLast?_append_of_ne_nil _ String.utf8EncodeChar_ne_nil, List.getLast?_concat]
  rcases encode_cases c with ⟨hc, hcode⟩ | ⟨hc, hhigh⟩
  · rw [hcode]
    exact isWordByte_toUInt8 hc
  · obtain ⟨b, hb⟩ := Option.ne_none_iff_exists'.mp
      (fun hnone => String.utf8EncodeChar_ne_nil (List.getLast?_eq_none_iff.mp hnone) :
        (String.utf8EncodeChar c).getLast? ≠ none)
    rw [hb, Alike, Option.any_some, Option.any_some,
      isWordByte_of_high (hhigh b (List.mem_of_getLast? hb)), isWordChar_of_high hc]

theorem map_blankByte (text : List Char) : (utf8 text).map blankByte = utf8 (blanks text) := by
  induction text with
  | nil => rfl
  | cons c text ih =>
      have happ : blanks (c :: text) = blankChar c ++ blanks text := List.flatMap_cons
      rw [utf8_cons, List.map_append, ih, happ, utf8_append]
      congr 1
      by_cases hc : c = '\n'
      · subst hc
        rfl
      · have hbytes : (String.utf8EncodeChar c).map blankByte =
            List.replicate c.utf8Size ' '.toUInt8 := by
          refine List.eq_replicate_iff.mpr ⟨by rw [List.length_map, String.length_utf8EncodeChar],
            fun b hb => ?_⟩
          obtain ⟨b', hb', rfl⟩ := List.mem_map.mp hb
          exact if_neg (Jsonc.pass_of_ne (by decide) hc b' hb')
        rw [hbytes, blankChar, if_neg hc, utf8_replicate (by decide)]

theorem blankFrom_utf8 (n : Nat) : ∀ (text : List Char) (b : Option UInt8) (c : Option Char),
    text.length ≤ n → Alike b c → blankFrom b (utf8 text) = utf8 (blankChars c text) := by
  induction n with
  | zero =>
      intro text b c hn _
      obtain rfl := List.length_eq_zero_iff.mp (Nat.le_zero.mp hn)
      rw [utf8_nil, blankFrom, blankChars, utf8_nil]
  | succ n ih =>
      intro text b c hn halike
      have hregion := regionAt_utf8 (b.any isWordByte) text
      cases hchars : charRegionAt c text with
      | some s =>
          have hblank := blankChars_of_some hchars
          rw [charRegionAt, ← halike] at hchars
          have hshort := length_regionAt hchars
          rw [hchars, Option.map_some] at hregion
          rw [blankFrom_of_some hregion, hblank, utf8_append, map_blankByte,
            ih s.2 _ s.1.getLast? (by omega) (alike_getLast? (regionAt_append hchars).1)]
      | none =>
          cases text with
          | nil => rw [utf8_nil, blankFrom, blankChars, utf8_nil]
          | cons d rest =>
              have hblank := blankChars_of_none hchars
              rw [charRegionAt, ← halike] at hchars
              rw [hchars, Option.map_none] at hregion
              obtain ⟨b', halike', hbytes⟩ := blankFrom_char hregion
              rw [hbytes, hblank, utf8_cons,
                ih rest _ (some d) (by simpa using hn) halike']

theorem fromUtf8_blankFrom (text : List Char) :
    Jsonc.fromUtf8 (blankFrom none (utf8 text)) = some (blankChars none text) := by
  rw [blankFrom_utf8 text.length text none none (Nat.le_refl _) rfl, Jsonc.fromUtf8_utf8]

theorem blankNonCode_eq (text : List Char) : blankNonCode text = blankChars none text := by
  rw [blankNonCode, fromUtf8_blankFrom, Option.getD_some]

/-- A byte stays, or is a space in the place of another one that is no newline. -/
def Blanked (out b : UInt8) : Prop := out = b ∨ (out = ' '.toUInt8 ∧ b ≠ '\n'.toUInt8)

theorem blanked_blankByte (b : UInt8) : Blanked (blankByte b) b := by
  rw [blankByte]
  split
  · exact .inl rfl
  · rename_i hb
    exact .inr ⟨rfl, hb⟩

theorem forall₂_blankFrom (before : Option UInt8) (bytes : List UInt8) :
    List.Forall₂ Blanked (blankFrom before bytes) bytes := by
  fun_induction blankFrom before bytes with
  | case1 => exact .nil
  | case2 before b rest s hs ih =>
      have hmap : List.Forall₂ Blanked (s.1.map blankByte) s.1 := by
        rw [List.forall₂_map_left_iff]
        exact List.forall₂_same.mpr fun b _ => blanked_blankByte b
      have hall : List.Forall₂ Blanked
          (s.1.map blankByte ++ blankFrom s.1.getLast? s.2) (s.1 ++ s.2) :=
        List.rel_append hmap ih
      rwa [(regionAt_append hs).2] at hall
  | case3 before b rest hs ih => exact .cons (.inl rfl) ih

end RustCode

end Dagayn
