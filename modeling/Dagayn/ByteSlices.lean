import Dagayn.Utf8

/-!
# Slices by bytes

`&text[from..to]` panics where an end lies behind the text or inside a character, or before the
start. `slice` is that, with `none` for a panic.
-/

namespace Dagayn

def byteLen (text : List Char) : Nat := (text.map Char.utf8Size).sum

/-- `text.get(..n)`, with `n` in bytes. -/
def sliceTo : Nat → List Char → Option (List Char)
  | 0, _ => some []
  | _ + 1, [] => none
  | n + 1, c :: text =>
      if c.utf8Size ≤ n + 1 then (sliceTo (n + 1 - c.utf8Size) text).map (c :: ·) else none

/-- `text.get(start..stop)`. -/
def slice (start stop : Nat) (text : List Char) : Option (List Char) :=
  if start ≤ stop then (sliceTo stop text).bind (sliceFrom start) else none

@[simp] theorem byteLen_nil : byteLen [] = 0 := rfl

@[simp] theorem byteLen_cons (c : Char) (text : List Char) :
    byteLen (c :: text) = c.utf8Size + byteLen text := by
  rw [byteLen, byteLen, List.map_cons, List.sum_cons]

@[simp] theorem byteLen_append (text text' : List Char) :
    byteLen (text ++ text') = byteLen text + byteLen text' := by
  rw [byteLen, byteLen, byteLen, List.map_append, List.sum_append]

theorem byteLen_pos {text : List Char} (h : text ≠ []) : 0 < byteLen text := by
  obtain ⟨c, rest, rfl⟩ := List.exists_cons_of_ne_nil h
  rw [byteLen_cons]
  exact Nat.add_pos_left c.utf8Size_pos _

theorem sliceFrom_append (text : List Char) (n : Nat) (text' : List Char) :
    sliceFrom (byteLen text + n) (text ++ text') = sliceFrom n text' := by
  induction text with
  | nil => rw [byteLen_nil, Nat.zero_add, List.nil_append]
  | cons c text ih =>
      have hpos := c.utf8Size_pos
      obtain ⟨m, hm⟩ : ∃ m, c.utf8Size + byteLen text + n = m + 1 := ⟨_, (by omega :
        c.utf8Size + byteLen text + n = (c.utf8Size + byteLen text + n - 1) + 1)⟩
      rw [byteLen_cons, hm, List.cons_append, sliceFrom, if_pos (by omega), ← ih]
      congr 1
      omega

theorem sliceTo_append (text : List Char) (n : Nat) (text' : List Char) :
    sliceTo (byteLen text + n) (text ++ text') = (sliceTo n text').map (text ++ ·) := by
  induction text with
  | nil =>
      rw [byteLen_nil, Nat.zero_add, List.nil_append]
      cases sliceTo n text' <;> rfl
  | cons c text ih =>
      have hpos := c.utf8Size_pos
      obtain ⟨m, hm⟩ : ∃ m, c.utf8Size + byteLen text + n = m + 1 := ⟨_, (by omega :
        c.utf8Size + byteLen text + n = (c.utf8Size + byteLen text + n - 1) + 1)⟩
      rw [byteLen_cons, hm, List.cons_append, sliceTo, if_pos (by omega),
        show m + 1 - c.utf8Size = byteLen text + n by omega, ih, Option.map_map]
      rfl

theorem sliceTo_zero (text : List Char) : sliceTo 0 text = some [] := by
  cases text <;> rfl

theorem slice_append (text mid text' : List Char) :
    slice (byteLen text) (byteLen text + byteLen mid) (text ++ (mid ++ text')) = some mid := by
  have hto : sliceTo (byteLen text + byteLen mid) (text ++ (mid ++ text')) =
      some (text ++ mid) := by
    have hmid := sliceTo_append mid 0 text'
    rw [Nat.add_zero, sliceTo_zero, Option.map_some, List.append_nil] at hmid
    rw [sliceTo_append, hmid, Option.map_some]
  have hfrom := sliceFrom_append text 0 mid
  rw [Nat.add_zero] at hfrom
  rw [slice, if_pos (Nat.le_add_right _ _), hto, Option.bind_some, hfrom]
  cases mid <;> rfl

theorem sliceTo_pred (text : List Char) (c : Char) :
    sliceTo (byteLen (text ++ [c]) - 1) (text ++ [c]) =
      if c.utf8Size = 1 then some text else none := by
  have hpos := c.utf8Size_pos
  rw [byteLen_append, byteLen_cons, byteLen_nil,
    show byteLen text + (c.utf8Size + 0) - 1 = byteLen text + (c.utf8Size - 1) by omega,
    sliceTo_append]
  by_cases hone : c.utf8Size = 1
  · rw [if_pos hone, hone, sliceTo_zero, Option.map_some, List.append_nil]
  · obtain ⟨m, hm⟩ : ∃ m, c.utf8Size - 1 = m + 1 := ⟨c.utf8Size - 2, by omega⟩
    rw [if_neg hone, hm, sliceTo, if_neg (by omega)]
    rfl

/-- The bytes behind a character boundary without the last one, where there is none. -/
theorem slice_pred_nil {text : List Char} (h : text ≠ []) :
    slice (byteLen text) (byteLen text - 1) text = none := by
  have hpos := byteLen_pos h
  rw [slice, if_neg (by omega)]

theorem slice_pred_append (text rest : List Char) (c : Char) :
    slice (byteLen text) (byteLen (text ++ (rest ++ [c])) - 1) (text ++ (rest ++ [c])) =
      if c.utf8Size = 1 then some rest else none := by
  have hpos := c.utf8Size_pos
  have hle : byteLen text ≤ byteLen (text ++ (rest ++ [c])) - 1 := by
    rw [byteLen_append, byteLen_append, byteLen_cons]
    omega
  rw [slice, if_pos hle, ← List.append_assoc, sliceTo_pred]
  split
  · have hfrom := sliceFrom_append text 0 rest
    rw [Nat.add_zero] at hfrom
    rw [Option.bind_some, hfrom]
    cases rest <;> rfl
  · rfl

end Dagayn
