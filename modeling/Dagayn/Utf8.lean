import Mathlib

/-!
# UTF-8

`String::from_utf8_lossy` on a list of bytes: a well-formed sequence is decoded, and
the longest prefix of one that the next byte breaks off becomes `U+FFFD`. Encoding is
core's `String.utf8EncodeChar`; decoding what was encoded gives the text back
(`fromUtf8Lossy_utf8`).
-/

namespace Dagayn

def utf8 (text : List Char) : List UInt8 := text.flatMap String.utf8EncodeChar

/-- `text.get(n..)`, with `n` in bytes: `none` behind the end and inside a character. -/
def sliceFrom : Nat → List Char → Option (List Char)
  | 0, text => some text
  | _ + 1, [] => none
  | n + 1, c :: text => if c.utf8Size ≤ n + 1 then sliceFrom (n + 1 - c.utf8Size) text else none

/-- `utf8_char_width` of a first byte, 0 for a byte that starts no sequence. -/
def charWidth (b : UInt8) : Nat :=
  if b.toNat < 0x80 then 1
  else if 0xC2 ≤ b.toNat ∧ b.toNat ≤ 0xDF then 2
  else if 0xE0 ≤ b.toNat ∧ b.toNat ≤ 0xEF then 3
  else if 0xF0 ≤ b.toNat ∧ b.toNat ≤ 0xF4 then 4
  else 0

def isTail (b : UInt8) : Bool := 0x80 ≤ b.toNat ∧ b.toNat ≤ 0xBF

/-- The second bytes of a three-byte sequence: neither overlong nor a surrogate. -/
def second3 (a b : UInt8) : Bool :=
  if a.toNat = 0xE0 then 0xA0 ≤ b.toNat ∧ b.toNat ≤ 0xBF
  else if a.toNat = 0xED then 0x80 ≤ b.toNat ∧ b.toNat ≤ 0x9F
  else isTail b

def second4 (a b : UInt8) : Bool :=
  if a.toNat = 0xF0 then 0x90 ≤ b.toNat ∧ b.toNat ≤ 0xBF
  else if a.toNat = 0xF4 then 0x80 ≤ b.toNat ∧ b.toNat ≤ 0x8F
  else isTail b

/-- `U+FFFD`. -/
def replacement : Char := '\uFFFD'

def join2 (a b : UInt8) : Char := .ofNat (a.toNat % 32 * 64 + b.toNat % 64)

def join3 (a b c : UInt8) : Char :=
  .ofNat (a.toNat % 16 * 4096 + b.toNat % 64 * 64 + c.toNat % 64)

def join4 (a b c d : UInt8) : Char :=
  .ofNat (a.toNat % 8 * 262144 + b.toNat % 64 * 4096 + c.toNat % 64 * 64 + d.toNat % 64)

/-- `String::from_utf8_lossy`. A sequence is given up at the first byte that cannot
continue it, and decoding goes on at that byte. -/
def fromUtf8Lossy : List UInt8 → List Char
  | [] => []
  | a :: rest =>
      match charWidth a with
      | 1 => .ofNat a.toNat :: fromUtf8Lossy rest
      | 2 =>
          match rest with
          | [] => [replacement]
          | b :: rest' =>
              if isTail b then join2 a b :: fromUtf8Lossy rest'
              else replacement :: fromUtf8Lossy (b :: rest')
      | 3 =>
          match rest with
          | [] => [replacement]
          | b :: rest' =>
              if second3 a b then
                match rest' with
                | [] => [replacement]
                | c :: rest'' =>
                    if isTail c then join3 a b c :: fromUtf8Lossy rest''
                    else replacement :: fromUtf8Lossy (c :: rest'')
              else replacement :: fromUtf8Lossy (b :: rest')
      | 4 =>
          match rest with
          | [] => [replacement]
          | b :: rest' =>
              if second4 a b then
                match rest' with
                | [] => [replacement]
                | c :: rest'' =>
                    if isTail c then
                      match rest'' with
                      | [] => [replacement]
                      | d :: rest''' =>
                          if isTail d then join4 a b c d :: fromUtf8Lossy rest'''
                          else replacement :: fromUtf8Lossy (d :: rest''')
                    else replacement :: fromUtf8Lossy (c :: rest'')
              else replacement :: fromUtf8Lossy (b :: rest')
      | _ => replacement :: fromUtf8Lossy rest

/-! ## Decoding what was encoded -/

theorem ofNat_eq_self (c : Char) {n : Nat} (h : n = c.toNat) : Char.ofNat n = c := by
  rw [h, Char.ofNat_toNat]

theorem toNat_scalar (c : Char) : c.toNat < 0xD800 ∨ 0xDFFF < c.toNat ∧ c.toNat < 0x110000 :=
  c.valid

theorem toNat_byte {n : Nat} (h : n < 256) : (UInt8.ofNat n).toNat = n := by
  rw [UInt8.toNat_ofNat', Nat.mod_eq_of_lt h]

theorem toNat_ofNat {n : Nat} (h : n < 0xD800) : (Char.ofNat n).toNat = n := by
  have hv : n.isValidChar := .inl h
  unfold Char.ofNat
  rw [dif_pos hv]
  rfl

theorem isTail_byte (n : Nat) : isTail (.ofNat (n % 0x40 + 0x80)) = true := by
  have hb := toNat_byte (n := n % 0x40 + 0x80) (by omega)
  simp only [isTail, hb, decide_eq_true_eq]
  omega

/-- The bytes of a character: itself, or a lead byte and continuation bytes. -/
theorem encode_lead (c : Char) :
    (c.toNat < 0x80 ∧ String.utf8EncodeChar c = [c.toUInt8]) ∨
      (0x80 ≤ c.toNat ∧ ∃ b t, String.utf8EncodeChar c = b :: t ∧ 0xC0 ≤ b.toNat ∧
        ∀ x ∈ t, isTail x = true) := by
  have hlead : ∀ n {m k : Nat}, 0 < m → m + k ≤ 0x100 → 0xC0 ≤ k →
      0xC0 ≤ (UInt8.ofNat (n % m + k)).toNat := fun n {m k} hm hmk hk => by
    have hmod := Nat.mod_lt n hm
    rw [toNat_byte (by omega)]
    omega
  rcases Nat.lt_or_ge c.toNat 0x80 with hone | hmore
  · refine .inl ⟨hone, String.utf8EncodeChar_eq_singleton ?_⟩
    rw [Char.utf8Size_eq_one_iff, UInt32.le_iff_toNat_le]
    exact Nat.le_of_lt_succ hone
  · refine .inr ⟨hmore, ?_⟩
    unfold String.utf8EncodeChar
    change ∃ b t, (ite (c.toNat ≤ _) _ _) = b :: t ∧ _
    rw [if_neg (by omega)]
    split
    · exact ⟨_, _, rfl, hlead _ (by decide) (by decide) (by decide),
        List.forall_mem_singleton.mpr (isTail_byte _)⟩
    · split
      · exact ⟨_, _, rfl, hlead _ (by decide) (by decide) (by decide),
          List.forall_mem_cons.mpr ⟨isTail_byte _, List.forall_mem_singleton.mpr (isTail_byte _)⟩⟩
      · exact ⟨_, _, rfl, hlead _ (by decide) (by decide) (by decide),
          List.forall_mem_cons.mpr ⟨isTail_byte _, List.forall_mem_cons.mpr
            ⟨isTail_byte _, List.forall_mem_singleton.mpr (isTail_byte _)⟩⟩⟩

theorem encode_cases (c : Char) :
    (c.toNat < 0x80 ∧ String.utf8EncodeChar c = [c.toUInt8]) ∨
      (0x80 ≤ c.toNat ∧ ∀ b ∈ String.utf8EncodeChar c, 0x80 ≤ b.toNat) := by
  refine (encode_lead c).imp_right fun ⟨hc, b, t, hcode, hb, ht⟩ => ⟨hc, fun x hx => ?_⟩
  rw [hcode] at hx
  rcases List.mem_cons.mp hx with rfl | hx
  · omega
  · have htail := ht x hx
    simp only [isTail, decide_eq_true_eq] at htail
    exact htail.1

theorem le_of_mem_encode {c : Char} (h : 0x80 ≤ c.toNat) {b : UInt8}
    (hb : b ∈ String.utf8EncodeChar c) : 0x80 ≤ b.toNat := by
  rcases encode_cases c with ⟨hlt, -⟩ | ⟨-, hall⟩
  · omega
  · exact hall b hb

theorem toNat_toUInt8 {c : Char} (h : c.toNat < 0x80) : c.toUInt8.toNat = c.toNat := by
  have hbyte : c.toUInt8 = UInt8.ofNat c.toNat := rfl
  rw [hbyte, toNat_byte (by omega)]

theorem eq_of_mem_encode {a c : Char} (ha : a.toNat < 0x80)
    (h : a.toUInt8 ∈ String.utf8EncodeChar c) : c = a := by
  have hbyte := toNat_toUInt8 ha
  rcases encode_cases c with ⟨hc, hcode⟩ | ⟨-, hhigh⟩
  · rw [hcode, List.mem_singleton] at h
    have hnat := congrArg UInt8.toNat h
    rw [hbyte, toNat_toUInt8 hc] at hnat
    exact Char.toNat_inj.mp hnat.symm
  · have := hhigh _ h
    omega

theorem encode_ascii {a : Char} (ha : a.toNat < 0x80) :
    String.utf8EncodeChar a = [a.toUInt8] := by
  rcases encode_cases a with ⟨-, h⟩ | ⟨h, -⟩
  · exact h
  · omega

theorem utf8_nil : utf8 [] = [] := rfl

theorem utf8_cons (c : Char) (text : List Char) :
    utf8 (c :: text) = String.utf8EncodeChar c ++ utf8 text := List.flatMap_cons

theorem utf8_append (text text' : List Char) : utf8 (text ++ text') = utf8 text ++ utf8 text' :=
  List.flatMap_append

theorem utf8_ascii {a : Char} (ha : a.toNat < 0x80) (text : List Char) :
    utf8 (a :: text) = a.toUInt8 :: utf8 text := by
  rw [utf8_cons, encode_ascii ha, List.singleton_append]

theorem fromUtf8Lossy_one {a : UInt8} (h : charWidth a = 1) (rest : List UInt8) :
    fromUtf8Lossy (a :: rest) = .ofNat a.toNat :: fromUtf8Lossy rest := by
  rw [fromUtf8Lossy.eq_def]
  simp only [h]

theorem fromUtf8Lossy_two {a b : UInt8} (h : charWidth a = 2) (hb : isTail b = true)
    (rest : List UInt8) :
    fromUtf8Lossy (a :: b :: rest) = join2 a b :: fromUtf8Lossy rest := by
  rw [fromUtf8Lossy.eq_def]
  simp only [h, hb, if_true]

theorem fromUtf8Lossy_three {a b c : UInt8} (h : charWidth a = 3) (hb : second3 a b = true)
    (hc : isTail c = true) (rest : List UInt8) :
    fromUtf8Lossy (a :: b :: c :: rest) = join3 a b c :: fromUtf8Lossy rest := by
  rw [fromUtf8Lossy.eq_def]
  simp only [h, hb, hc, if_true]

theorem fromUtf8Lossy_four {a b c d : UInt8} (h : charWidth a = 4) (hb : second4 a b = true)
    (hc : isTail c = true) (hd : isTail d = true) (rest : List UInt8) :
    fromUtf8Lossy (a :: b :: c :: d :: rest) = join4 a b c d :: fromUtf8Lossy rest := by
  rw [fromUtf8Lossy.eq_def]
  simp only [h, hb, hc, hd, if_true]

theorem fromUtf8Lossy_encode (c : Char) (rest : List UInt8) :
    fromUtf8Lossy (String.utf8EncodeChar c ++ rest) = c :: fromUtf8Lossy rest := by
  have hv := toNat_scalar c
  unfold String.utf8EncodeChar
  change fromUtf8Lossy ((ite (c.toNat ≤ _) _ _) ++ rest) = _
  split
  · rename_i h1
    have h1 : c.toNat ≤ 0x7f := h1
    have ha := toNat_byte (n := c.toNat) (by omega)
    have hw : charWidth (.ofNat c.toNat) = 1 := by
      simp only [charWidth, ha]
      split <;> omega
    refine (fromUtf8Lossy_one hw rest).trans ?_
    rw [ofNat_eq_self c ha]
  split
  · rename_i h1 h2
    have h1 : ¬ c.toNat ≤ 0x7f := h1
    have h2 : c.toNat ≤ 0x7ff := h2
    change fromUtf8Lossy (.ofNat (c.toNat / 64 % 0x20 + 0xc0) ::
      .ofNat (c.toNat % 0x40 + 0x80) :: rest) = _
    have ha := toNat_byte (n := c.toNat / 64 % 0x20 + 0xc0) (by omega)
    have hb := toNat_byte (n := c.toNat % 0x40 + 0x80) (by omega)
    have hw : charWidth (.ofNat (c.toNat / 64 % 0x20 + 0xc0)) = 2 := by
      simp only [charWidth, ha]
      split
      · omega
      · split <;> omega
    rw [fromUtf8Lossy_two hw (isTail_byte _), join2, ha, hb, ofNat_eq_self c (by omega)]
  split
  · rename_i h1 h2 h3
    have h2 : ¬ c.toNat ≤ 0x7ff := h2
    have h3 : c.toNat ≤ 0xffff := h3
    change fromUtf8Lossy (.ofNat (c.toNat / 4096 % 0x10 + 0xe0) ::
      .ofNat (c.toNat / 64 % 0x40 + 0x80) :: .ofNat (c.toNat % 0x40 + 0x80) :: rest) = _
    have ha := toNat_byte (n := c.toNat / 4096 % 0x10 + 0xe0) (by omega)
    have hb := toNat_byte (n := c.toNat / 64 % 0x40 + 0x80) (by omega)
    have hc := toNat_byte (n := c.toNat % 0x40 + 0x80) (by omega)
    have hw : charWidth (.ofNat (c.toNat / 4096 % 0x10 + 0xe0)) = 3 := by
      simp only [charWidth, ha]
      split
      · omega
      · split
        · omega
        · split <;> omega
    have hs : second3 (.ofNat (c.toNat / 4096 % 0x10 + 0xe0))
        (.ofNat (c.toNat / 64 % 0x40 + 0x80)) = true := by
      simp only [second3, isTail, ha, hb]
      split
      · simp only [decide_eq_true_eq]; omega
      · split <;> simp only [decide_eq_true_eq] <;> omega
    rw [fromUtf8Lossy_three hw hs (isTail_byte _), join3, ha, hb, hc,
      ofNat_eq_self c (by omega)]
  · rename_i h1 h2 h3
    have h3 : ¬ c.toNat ≤ 0xffff := h3
    change fromUtf8Lossy (.ofNat (c.toNat / 262144 % 0x08 + 0xf0) ::
      .ofNat (c.toNat / 4096 % 0x40 + 0x80) :: .ofNat (c.toNat / 64 % 0x40 + 0x80) ::
      .ofNat (c.toNat % 0x40 + 0x80) :: rest) = _
    have ha := toNat_byte (n := c.toNat / 262144 % 0x08 + 0xf0) (by omega)
    have hb := toNat_byte (n := c.toNat / 4096 % 0x40 + 0x80) (by omega)
    have hc := toNat_byte (n := c.toNat / 64 % 0x40 + 0x80) (by omega)
    have hd := toNat_byte (n := c.toNat % 0x40 + 0x80) (by omega)
    have hw : charWidth (.ofNat (c.toNat / 262144 % 0x08 + 0xf0)) = 4 := by
      simp only [charWidth, ha]
      split
      · omega
      · split
        · omega
        · split
          · omega
          · split <;> omega
    have hs : second4 (.ofNat (c.toNat / 262144 % 0x08 + 0xf0))
        (.ofNat (c.toNat / 4096 % 0x40 + 0x80)) = true := by
      simp only [second4, isTail, ha, hb]
      split
      · simp only [decide_eq_true_eq]; omega
      · split <;> simp only [decide_eq_true_eq] <;> omega
    rw [fromUtf8Lossy_four hw hs (isTail_byte _) (isTail_byte _), join4, ha, hb, hc, hd,
      ofNat_eq_self c (by omega)]

theorem fromUtf8Lossy_utf8 (text : List Char) : fromUtf8Lossy (utf8 text) = text := by
  induction text with
  | nil => rfl
  | cons c text ih =>
      rw [utf8_cons, fromUtf8Lossy_encode, ih]

end Dagayn
