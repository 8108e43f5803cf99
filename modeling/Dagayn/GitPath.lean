import Dagayn.Text
import Dagayn.Utf8

/-!
# Paths in a diff

git writes the path of a diff's new side behind `+++ `: as it is, or between quotes
with its control characters, quotes, backslashes and non-ASCII bytes escaped, and in
either case with a tab behind it when it has a space. `plus_plus_path` reads such a
line. It reads back every path but two kinds (`plusPlusPath_eq`): of git's named
escapes the decoder knows `\t`, `\n` and `\r` and takes the letter of the others for
itself, and it cuts a decoded path at its first tab; and the blanks at the end of an
unquoted path go with the trimming.
-/

namespace Dagayn

/-! ## What git writes -/

def octDigit (n : Nat) : Char := .ofNat (48 + n)

/-- `quote_c_style` on one byte. -/
def quoteByte (b : UInt8) : List Char :=
  if b.toNat = 7 then ['\\', 'a']
  else if b.toNat = 8 then ['\\', 'b']
  else if b.toNat = 9 then ['\\', 't']
  else if b.toNat = 10 then ['\\', 'n']
  else if b.toNat = 11 then ['\\', 'v']
  else if b.toNat = 12 then ['\\', 'f']
  else if b.toNat = 13 then ['\\', 'r']
  else if b.toNat = 34 then ['\\', '"']
  else if b.toNat = 92 then ['\\', '\\']
  else if b.toNat < 0x20 ∨ 0x7F ≤ b.toNat then
    ['\\', octDigit (b.toNat / 64), octDigit (b.toNat / 8 % 8), octDigit (b.toNat % 8)]
  else [.ofNat b.toNat]

def mustQuote (b : UInt8) : Bool :=
  b.toNat < 0x20 ∨ b.toNat = 34 ∨ b.toNat = 92 ∨ 0x7F ≤ b.toNat

/-- A path behind `a/` or `b/`, quoted as a whole when one of its bytes has an escape. -/
def gitLabel (side path : List Char) : List Char :=
  if (utf8 path).any mustQuote then
    '"' :: (side ++ ((utf8 path).flatMap quoteByte ++ ['"']))
  else side ++ path

/-- A header line with a label: a tab ends one that has a space. -/
def labelLine (mark label : List Char) : List Char :=
  mark ++ (label ++ if ' ' ∈ label then ['\t'] else [])

def plusPlusLine (path : List Char) : List Char :=
  labelLine ['+', '+', '+', ' '] (gitLabel ['b', '/'] path)

/-! ## What is read back -/

def isOctal (c : Char) : Bool := '0' ≤ c && c ≤ '7'

/-- `u8::from_str_radix(&octal, 8).unwrap_or(0)`. -/
def octalByte (digits : List Char) : UInt8 :=
  let n := digits.foldl (fun n d => 8 * n + (d.toNat - 48)) 0
  if n < 256 then .ofNat n else 0

/-- The loop of `_decode_git_quoted_path` over the text between the quotes. -/
def decodeEscapes : List Char → List UInt8
  | [] => []
  | c :: rest =>
      if c = '\\' then
        match rest with
        | [] => []
        | e :: rest =>
            if isOctal e then
              match rest with
              | [] => [octalByte [e]]
              | d :: rest =>
                  if isOctal d then
                    match rest with
                    | [] => [octalByte [e, d]]
                    | d' :: rest =>
                        if isOctal d' then octalByte [e, d, d'] :: decodeEscapes rest
                        else octalByte [e, d] :: decodeEscapes (d' :: rest)
                  else octalByte [e] :: decodeEscapes (d :: rest)
            else if e = 'n' then 10 :: decodeEscapes rest
            else if e = 't' then 9 :: decodeEscapes rest
            else if e = 'r' then 13 :: decodeEscapes rest
            else String.utf8EncodeChar e ++ decodeEscapes rest
      else String.utf8EncodeChar c ++ decodeEscapes rest

def decodeGitQuotedPath (text : List Char) : List Char :=
  if 2 ≤ text.length ∧ text.head? = some '"' ∧ text.getLast? = some '"' then
    fromUtf8Lossy (decodeEscapes text.tail.dropLast)
  else text

/-- `_parse_plus_plus_path`. -/
def plusPlusPath (line : List Char) : Option (List Char) :=
  let raw := trim (line.drop 4)
  if raw = [] ∨ raw = "/dev/null".toList then none
  else
    let path := (decodeGitQuotedPath raw).takeWhile (· ≠ '\t')
    if path.take 2 = ['b', '/'] then some (path.drop 2) else none

/-! ## Bytes of characters -/

theorem encode_byte {n : Nat} (h : n < 0x80) :
    String.utf8EncodeChar (.ofNat n) = [.ofNat n] := by
  have hn : (Char.ofNat n).toNat = n := toNat_ofNat (by omega)
  rw [encode_ascii (by omega), show (Char.ofNat n).toUInt8 = .ofNat (Char.ofNat n).toNat from rfl,
    hn]

/-! ## Decoding what git quoted

`slipByte` is what the decoder makes of an escaped byte: four named escapes come back as
their letter. -/

def slipByte (b : UInt8) : UInt8 :=
  if b.toNat = 7 then 97
  else if b.toNat = 8 then 98
  else if b.toNat = 11 then 118
  else if b.toNat = 12 then 102
  else b

theorem decodeEscapes_plain {c : Char} (hc : c ≠ '\\') (rest : List Char) :
    decodeEscapes (c :: rest) = String.utf8EncodeChar c ++ decodeEscapes rest := by
  rw [decodeEscapes.eq_def]
  simp [hc]

theorem isOctal_octDigit {n : Nat} (h : n < 8) :
    isOctal (octDigit n) = true ∧ (octDigit n).toNat - 48 = n := by
  have hall : ∀ n < 8, isOctal (octDigit n) = true ∧ (octDigit n).toNat - 48 = n := by decide
  exact hall n h

theorem decodeEscapes_octal {i j k : Nat} (hi : i < 4) (hj : j < 8) (hk : k < 8)
    (rest : List Char) :
    decodeEscapes ('\\' :: octDigit i :: octDigit j :: octDigit k :: rest) =
      .ofNat (64 * i + 8 * j + k) :: decodeEscapes rest := by
  obtain ⟨hi1, hi2⟩ := isOctal_octDigit (show i < 8 by omega)
  obtain ⟨hj1, hj2⟩ := isOctal_octDigit hj
  obtain ⟨hk1, hk2⟩ := isOctal_octDigit hk
  have hbyte : octalByte [octDigit i, octDigit j, octDigit k] = .ofNat (64 * i + 8 * j + k) := by
    have hn : 8 * (8 * (8 * 0 + i) + j) + k = 64 * i + 8 * j + k := by omega
    have hlt : 64 * i + 8 * j + k < 256 := by omega
    simp only [octalByte, List.foldl_cons, List.foldl_nil, hi2, hj2, hk2, hn, hlt, if_true]
  rw [decodeEscapes.eq_def]
  simp only [hi1, hj1, hk1, if_true, hbyte]

theorem decodeEscapes_letter {e : Char} (ho : isOctal e = false) (hn : e ≠ 'n') (ht : e ≠ 't')
    (hr : e ≠ 'r') (rest : List Char) :
    decodeEscapes ('\\' :: e :: rest) = String.utf8EncodeChar e ++ decodeEscapes rest := by
  rw [decodeEscapes.eq_def]
  simp [ho, hn, ht, hr]

theorem decodeEscapes_named (rest : List Char) :
    decodeEscapes ('\\' :: 't' :: rest) = 9 :: decodeEscapes rest ∧
      decodeEscapes ('\\' :: 'n' :: rest) = 10 :: decodeEscapes rest ∧
      decodeEscapes ('\\' :: 'r' :: rest) = 13 :: decodeEscapes rest := by
  have ht : isOctal 't' = false := by decide
  have hn : isOctal 'n' = false := by decide
  have hr : isOctal 'r' = false := by decide
  refine ⟨?_, ?_, ?_⟩
  · rw [decodeEscapes.eq_def]
    simp [ht]
  · rw [decodeEscapes.eq_def]
    simp [hn]
  · rw [decodeEscapes.eq_def]
    simp [hr]

theorem decodeEscapes_quoteByte (b : UInt8) (rest : List Char) :
    decodeEscapes (quoteByte b ++ rest) = slipByte b :: decodeEscapes rest := by
  have hb : b.toNat < 256 := b.toNat_lt
  have heq : ∀ n : Nat, b.toNat = n → b = .ofNat n := fun n hn => by rw [← hn, UInt8.ofNat_toNat]
  unfold quoteByte
  split
  · rename_i h
    rw [slipByte, if_pos h]
    exact decodeEscapes_letter (e := 'a') (by decide) (by decide) (by decide) (by decide) rest
  split
  · rename_i h7 h
    rw [slipByte, if_neg h7, if_pos h]
    exact decodeEscapes_letter (e := 'b') (by decide) (by decide) (by decide) (by decide) rest
  split
  · rename_i h7 h8 h
    obtain rfl := heq 9 h
    exact (decodeEscapes_named rest).1
  split
  · rename_i h7 h8 h9 h
    obtain rfl := heq 10 h
    exact (decodeEscapes_named rest).2.1
  split
  · rename_i h7 h8 h9 h10 h
    rw [slipByte, if_neg h7, if_neg h8, if_pos h]
    exact decodeEscapes_letter (e := 'v') (by decide) (by decide) (by decide) (by decide) rest
  split
  · rename_i h7 h8 h9 h10 h11 h
    rw [slipByte, if_neg h7, if_neg h8, if_neg h11, if_pos h]
    exact decodeEscapes_letter (e := 'f') (by decide) (by decide) (by decide) (by decide) rest
  split
  · rename_i h7 h8 h9 h10 h11 h12 h
    obtain rfl := heq 13 h
    exact (decodeEscapes_named rest).2.2
  have hslip : b.toNat ≠ 7 → b.toNat ≠ 8 → b.toNat ≠ 11 → b.toNat ≠ 12 → slipByte b = b :=
    fun h7 h8 h11 h12 => by rw [slipByte, if_neg h7, if_neg h8, if_neg h11, if_neg h12]
  split
  · rename_i h7 h8 h9 h10 h11 h12 h13 h
    obtain rfl := heq 34 h
    exact decodeEscapes_letter (e := '"') (by decide) (by decide) (by decide) (by decide) rest
  split
  · rename_i h7 h8 h9 h10 h11 h12 h13 h34 h
    obtain rfl := heq 92 h
    exact decodeEscapes_letter (e := '\\') (by decide) (by decide) (by decide) (by decide) rest
  split
  · rename_i h7 h8 h9 h10 h11 h12 h13 h34 h92 h
    have hsum : 64 * (b.toNat / 64) + 8 * (b.toNat / 8 % 8) + b.toNat % 8 = b.toNat := by omega
    refine (decodeEscapes_octal (by omega) (by omega) (by omega) rest).trans ?_
    rw [hsum, UInt8.ofNat_toNat, hslip h7 h8 h11 h12]
  · rename_i h7 h8 h9 h10 h11 h12 h13 h34 h92 h
    have hne : Char.ofNat b.toNat ≠ '\\' := fun h' => by
      have := congrArg Char.toNat h'
      rw [toNat_ofNat (by omega)] at this
      exact h92 this
    refine (decodeEscapes_plain hne rest).trans ?_
    rw [encode_byte (by omega), UInt8.ofNat_toNat, hslip h7 h8 h11 h12]
    rfl

theorem decodeEscapes_quoted (bytes : List UInt8) :
    decodeEscapes (bytes.flatMap quoteByte) = bytes.map slipByte := by
  induction bytes with
  | nil => rfl
  | cons b bytes ih => rw [List.flatMap_cons, decodeEscapes_quoteByte, ih, List.map_cons]

/-! ## The same on characters -/

def charQuoted (c : Char) : Bool :=
  c.toNat < 0x20 ∨ c.toNat = 34 ∨ c.toNat = 92 ∨ 0x7F ≤ c.toNat

def slipChar (c : Char) : Char :=
  if c.toNat = 7 then 'a'
  else if c.toNat = 8 then 'b'
  else if c.toNat = 11 then 'v'
  else if c.toNat = 12 then 'f'
  else c

theorem slipByte_of_le {b : UInt8} (h : 0x80 ≤ b.toNat) : slipByte b = b := by
  unfold slipByte
  rw [if_neg (by omega), if_neg (by omega), if_neg (by omega), if_neg (by omega)]

theorem slipChar_of_le {c : Char} (h : 0x80 ≤ c.toNat) : slipChar c = c := by
  unfold slipChar
  rw [if_neg (by omega), if_neg (by omega), if_neg (by omega), if_neg (by omega)]

theorem map_slipByte_encode (c : Char) :
    (String.utf8EncodeChar c).map slipByte = String.utf8EncodeChar (slipChar c) := by
  rcases Nat.lt_or_ge c.toNat 0x80 with h | h
  · have hb := toNat_toUInt8 h
    rw [encode_ascii h, List.map_singleton]
    unfold slipByte slipChar
    rw [hb]
    split
    · rfl
    split
    · rfl
    split
    · rfl
    split
    · rfl
    · rw [encode_ascii h]
  · rw [slipChar_of_le h]
    calc (String.utf8EncodeChar c).map slipByte
        = (String.utf8EncodeChar c).map id :=
          List.map_congr_left fun b hb => slipByte_of_le (le_of_mem_encode h hb)
      _ = String.utf8EncodeChar c := List.map_id _

theorem map_slipByte_utf8 (cs : List Char) : (utf8 cs).map slipByte = utf8 (cs.map slipChar) := by
  induction cs with
  | nil => rfl
  | cons c cs ih =>
      rw [utf8_cons, List.map_append, map_slipByte_encode, ih, List.map_cons, utf8_cons]

theorem any_mustQuote_encode (c : Char) :
    (String.utf8EncodeChar c).any mustQuote = charQuoted c := by
  rcases Nat.lt_or_ge c.toNat 0x80 with h | h
  · have hb := toNat_toUInt8 h
    rw [encode_ascii h]
    simp only [List.any_cons, List.any_nil, Bool.or_false, mustQuote, charQuoted, hb]
  · have hc : charQuoted c = true := by
      simp only [charQuoted, decide_eq_true_eq]
      omega
    have hne : String.utf8EncodeChar c ≠ [] := String.utf8EncodeChar_ne_nil
    rw [hc, List.any_eq_true]
    obtain ⟨b, hb⟩ := List.exists_mem_of_ne_nil _ hne
    have hle := le_of_mem_encode h hb
    refine ⟨b, hb, ?_⟩
    simp only [mustQuote, decide_eq_true_eq]
    omega

theorem any_mustQuote (cs : List Char) : (utf8 cs).any mustQuote = cs.any charQuoted := by
  induction cs with
  | nil => rfl
  | cons c cs ih => rw [utf8_cons, List.any_append, any_mustQuote_encode, ih, List.any_cons]

/-! ## Trimming -/

theorem rdropWhile_append {p : Char → Bool} (pre : List Char) {x : Char} (hx : p x = false)
    (cs : List Char) : (pre ++ (x :: cs)).rdropWhile p = pre ++ (x :: cs.rdropWhile p) := by
  have hdrop : (cs.reverse ++ (x :: pre.reverse)).dropWhile p =
      cs.reverse.dropWhile p ++ (x :: pre.reverse) := by
    rw [List.dropWhile_append]
    split
    · rename_i h
      rw [List.isEmpty_iff.mp h, List.nil_append, List.dropWhile_cons_of_neg (by simp [hx])]
    · rfl
  simp only [List.rdropWhile, List.reverse_append, List.reverse_cons, List.append_assoc,
    List.singleton_append, hdrop, List.reverse_reverse]

theorem trim_cons {c : Char} (hc : isWhitespace c = false) (cs : List Char) :
    trim (c :: cs) = c :: cs.rdropWhile isWhitespace := by
  unfold trim
  rw [List.dropWhile_cons_of_neg (by simp [hc])]
  exact rdropWhile_append [] hc cs

theorem rdropWhile_labelTab (label : List Char) (cs : List Char) :
    (cs ++ if ' ' ∈ label then ['\t'] else []).rdropWhile isWhitespace =
      cs.rdropWhile isWhitespace := by
  have hws : isWhitespace '\t' = true := by decide
  split
  · exact List.rdropWhile_concat_pos _ _ _ hws
  · rw [List.append_nil]

/-! ## What `plus_plus_path` makes of git's line -/

/-- The path read back from the line git writes for `path`. -/
def readBack (path : List Char) : List Char :=
  if path.any charQuoted then (path.map slipChar).takeWhile (· ≠ '\t')
  else path.rdropWhile isWhitespace

theorem drop_plusPlusLine (path : List Char) :
    (plusPlusLine path).drop 4 = gitLabel ['b', '/'] path ++
      if ' ' ∈ gitLabel ['b', '/'] path then ['\t'] else [] := rfl

theorem decode_quoted (path : List Char) :
    decodeGitQuotedPath ('"' :: ('b' :: '/' :: ((utf8 path).flatMap quoteByte ++ ['"']))) =
      'b' :: '/' :: path.map slipChar := by
  have hshape : '"' :: 'b' :: '/' :: ((utf8 path).flatMap quoteByte ++ ['"']) =
      ('"' :: 'b' :: '/' :: (utf8 path).flatMap quoteByte) ++ ['"'] := rfl
  have hb : String.utf8EncodeChar 'b' = [98] := by decide
  have hs : String.utf8EncodeChar '/' = [47] := by decide
  have hbytes : decodeEscapes ('b' :: '/' :: (utf8 path).flatMap quoteByte) =
      utf8 ('b' :: '/' :: path.map slipChar) := by
    rw [decodeEscapes_plain (by decide), decodeEscapes_plain (by decide), decodeEscapes_quoted,
      map_slipByte_utf8, utf8_cons, utf8_cons]
  unfold decodeGitQuotedPath
  rw [if_pos ⟨by simp, rfl, by rw [hshape, List.getLast?_concat]⟩, hshape,
    List.tail_append_of_ne_nil (by simp), List.dropLast_concat, List.tail_cons, hbytes,
    fromUtf8Lossy_utf8]

theorem plusPlusPath_line (path : List Char) :
    plusPlusPath (plusPlusLine path) = some (readBack path) := by
  have hq : isWhitespace '"' = false := by decide
  have hb : isWhitespace 'b' = false := by decide
  have hs : isWhitespace '/' = false := by decide
  unfold plusPlusPath readBack
  rw [drop_plusPlusLine]
  by_cases h : path.any charQuoted = true
  · have hlabel : gitLabel ['b', '/'] path =
        '"' :: ('b' :: '/' :: ((utf8 path).flatMap quoteByte ++ ['"'])) := by
      unfold gitLabel
      rw [any_mustQuote, if_pos h]
      rfl
    have htrim : trim (gitLabel ['b', '/'] path ++
        if ' ' ∈ gitLabel ['b', '/'] path then ['\t'] else []) = gitLabel ['b', '/'] path := by
      generalize hlab : (if ' ' ∈ gitLabel ['b', '/'] path then ['\t'] else []) = tab
      rw [hlabel, List.cons_append, trim_cons hq, ← hlab, rdropWhile_labelTab]
      exact congrArg _
        (rdropWhile_append ('b' :: '/' :: (utf8 path).flatMap quoteByte) hq [])
    simp only [htrim]
    rw [hlabel, decode_quoted, if_neg (by simp), if_pos h]
    simp
  · have hlabel : gitLabel ['b', '/'] path = 'b' :: '/' :: path := by
      unfold gitLabel
      rw [any_mustQuote, if_neg h]
      rfl
    have htrim : trim (gitLabel ['b', '/'] path ++
        if ' ' ∈ gitLabel ['b', '/'] path then ['\t'] else []) =
          'b' :: '/' :: path.rdropWhile isWhitespace := by
      generalize hlab : (if ' ' ∈ gitLabel ['b', '/'] path then ['\t'] else []) = tab
      rw [hlabel, List.cons_append, trim_cons hb, ← hlab, rdropWhile_labelTab]
      exact congrArg _ (rdropWhile_append [] hs path)
    have hdecode : decodeGitQuotedPath ('b' :: '/' :: path.rdropWhile isWhitespace) =
        'b' :: '/' :: path.rdropWhile isWhitespace := by
      unfold decodeGitQuotedPath
      rw [if_neg]
      rintro ⟨-, h0, -⟩
      cases h0
    have htab : ∀ c ∈ path.rdropWhile isWhitespace, decide (c ≠ '\t') = true := by
      intro c hc
      have hmem := (List.rdropWhile_prefix _ path).subset hc
      have hplain : charQuoted c = false := by
        simpa using fun hc' => h (List.any_eq_true.mpr ⟨c, hmem, hc'⟩)
      rw [decide_eq_true_eq]
      rintro rfl
      exact absurd hplain (by decide)
    simp only [htrim]
    rw [hdecode, if_neg (by simp), if_neg h]
    have hb' : decide ('b' ≠ '\t') = true := by decide
    have hs' : decide ('/' ≠ '\t') = true := by decide
    simp only [List.takeWhile_cons, hb', hs', if_true, List.takeWhile_eq_self_iff.mpr htab]
    rfl

/-! ## Which paths come back -/

/-- The named escapes the decoder does not know, and the tab it cuts at. -/
def lostChar (c : Char) : Bool :=
  c.toNat = 7 ∨ c.toNat = 8 ∨ c.toNat = 9 ∨ c.toNat = 11 ∨ c.toNat = 12

/-- None of the characters that do not survive the quotes, and no blank at the end of a
path git leaves unquoted. -/
def Readable (path : List Char) : Prop :=
  path.any lostChar = false ∧ (path.getLast? = some ' ' → path.any charQuoted = true)

theorem slipChar_of_not_lost {c : Char} (h : lostChar c = false) : slipChar c = c := by
  have h : ¬ (c.toNat = 7 ∨ c.toNat = 8 ∨ c.toNat = 9 ∨ c.toNat = 11 ∨ c.toNat = 12) := by
    simpa only [lostChar, decide_eq_false_iff_not] using h
  unfold slipChar
  rw [if_neg (by omega), if_neg (by omega), if_neg (by omega), if_neg (by omega)]

theorem lostChar_slipChar {c : Char} (h : slipChar c ≠ '\t') : lostChar (slipChar c) = false := by
  have hnine : c.toNat ≠ 9 := by
    intro hn
    have hc : c = '\t' := by rw [← Char.ofNat_toNat c, hn]
    exact h (by rw [hc]; decide)
  unfold slipChar
  split
  · decide
  split
  · decide
  split
  · decide
  split
  · decide
  · simp only [lostChar, decide_eq_false_iff_not]
    omega

theorem lost_readBack (path : List Char) : (readBack path).any lostChar = false := by
  rw [List.any_eq_false]
  intro c hc
  unfold readBack at hc
  split at hc
  · have htab : c ≠ '\t' := by simpa using List.mem_takeWhile_imp hc
    obtain ⟨d, -, rfl⟩ := List.mem_map.mp (List.takeWhile_subset _ hc)
    simp [lostChar_slipChar htab]
  · rename_i hq
    have hmem := (List.rdropWhile_prefix _ path).subset hc
    have hplain : charQuoted c = false := by
      simpa using fun hc' => hq (List.any_eq_true.mpr ⟨c, hmem, hc'⟩)
    simp only [charQuoted, decide_eq_false_iff_not] at hplain
    simp only [lostChar, decide_eq_true_eq]
    omega

theorem eq_space_of_blank {c : Char} (hq : charQuoted c = false) (hw : isWhitespace c = true) :
    c = ' ' := by
  have hn : c.toNat = 0x20 := by
    simp only [charQuoted, decide_eq_false_iff_not] at hq
    simp only [isWhitespace, Bool.or_eq_true, Bool.and_eq_true, decide_eq_true_eq] at hw
    omega
  rw [← Char.ofNat_toNat c, hn]

theorem readBack_eq_iff (path : List Char) : readBack path = path ↔ Readable path := by
  unfold readBack Readable
  constructor
  · intro h
    have hlost := lost_readBack path
    unfold readBack at hlost
    rw [h] at hlost
    refine ⟨hlost, fun hlast => ?_⟩
    by_contra hq
    rw [if_neg hq, List.rdropWhile_eq_self_iff] at h
    have hne : path ≠ [] := by rintro rfl; cases hlast
    have hget : path.getLast hne = ' ' :=
      Option.some.inj ((List.getLast?_eq_some_getLast hne).symm.trans hlast)
    exact h hne (by rw [hget]; decide)
  · rintro ⟨hlost, hlast⟩
    have hmem : ∀ c ∈ path, lostChar c = false := fun c hc => by
      simpa using List.any_eq_false.mp hlost c hc
    split
    · have hmap : path.map slipChar = path := by
        calc path.map slipChar = path.map id :=
              List.map_congr_left fun c hc => slipChar_of_not_lost (hmem c hc)
          _ = path := List.map_id _
      rw [hmap, List.takeWhile_eq_self_iff]
      intro c hc
      rw [decide_eq_true_eq]
      rintro rfl
      exact absurd (hmem _ hc) (by decide)
    · rename_i hq
      rw [List.rdropWhile_eq_self_iff]
      intro hne hw
      have hplain : charQuoted (path.getLast hne) = false := by
        simpa using fun hc' => hq (List.any_eq_true.mpr ⟨_, List.getLast_mem hne, hc'⟩)
      have hsp := eq_space_of_blank hplain hw
      exact hq (hlast (by rw [List.getLast?_eq_some_getLast hne, hsp]))

/-- A path is read back from the line git writes for it exactly if it is readable. -/
theorem plusPlusPath_eq_iff (path : List Char) :
    plusPlusPath (plusPlusLine path) = some path ↔ Readable path := by
  rw [plusPlusPath_line, Option.some.injEq, readBack_eq_iff]

/-- A backspace comes back as a `b`. -/
theorem plusPlusPath_backspace :
    plusPlusPath (plusPlusLine ['\x08']) = some ['b'] ∧
      plusPlusPath (plusPlusLine ['\x08']) ≠ some ['\x08'] := by
  decide +kernel

end Dagayn
