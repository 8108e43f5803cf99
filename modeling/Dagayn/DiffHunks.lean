import Dagayn.Difflib

/-!
# The hunks of a diff

`grouped_opcodes` cuts the opcodes into groups with `n` lines of context, and
`unified_diff` prints each group as a hunk. `patchFrom` is what a hunk means: its header
names the lines it stands for, and every line in it that is not added must be found
there. The hunks of two lists make the second out of the first (`patch_hunks_eq`).
-/

namespace Dagayn

namespace Difflib

/-! ## The source's functions -/

/-- At most `n` lines of context stay in front of what follows. -/
def trimFront (n : Nat) (c : Opcode) : Opcode :=
  { c with i1 := max c.i1 (c.i2 - n), j1 := max c.j1 (c.j2 - n) }

/-- At most `n` lines of context stay behind what came. -/
def trimBack (n : Nat) (c : Opcode) : Opcode :=
  { c with i2 := min c.i2 (c.i1 + n), j2 := min c.j2 (c.j1 + n) }

def mapLast (f : Opcode → Opcode) : List Opcode → List Opcode
  | [] => []
  | [c] => [f c]
  | c :: c' :: cs => c :: mapLast f (c' :: cs)

def groupLoop (n : Nat) : List Opcode → List Opcode → List (List Opcode)
  | group, [] =>
      let onlyContext := group.length == 1 && group.head?.any (·.tag == .equal)
      if !group.isEmpty && !onlyContext then [group] else []
  | group, c :: cs =>
      if c.tag = .equal ∧ 2 * n < c.i2 - c.i1 then
        (group ++ [trimBack n c]) :: groupLoop n [trimFront n c] cs
      else groupLoop n (group ++ [c]) cs

/-- The opcodes with the context cut off at both ends. -/
def trimmed (n : Nat) (codes : List Opcode) : List Opcode :=
  let first := fun c : Opcode => if c.tag = .equal then trimFront n c else c
  let last := fun c : Opcode => if c.tag = .equal then trimBack n c else c
  mapLast last (codes.modifyHead first)

def groupedOpcodes {α : Type} [DecidableEq α] (a b : List α) (n : Nat) : List (List Opcode) :=
  let codes := opcodes a b
  let codes := if codes.isEmpty then
    [{ tag := .equal, i1 := 0, i2 := 1, j1 := 0, j2 := 1 }] else codes
  groupLoop n [] (trimmed n codes)

/-- `_format_range_unified`. -/
def range (start stop : Nat) : List Char :=
  match stop - start with
  | 1 => (toString (start + 1)).toList
  | 0 => (toString start).toList ++ [',', '0']
  | length => (toString (start + 1)).toList ++ ',' :: (toString length).toList

/-- Lines `i` to `j`. -/
def slice {α : Type} (l : List α) (i j : Nat) : List α := (l.drop i).take (j - i)

inductive Mark where
  | context
  | removed
  | added
deriving DecidableEq

def Mark.char : Mark → Char
  | context => ' '
  | removed => '-'
  | added => '+'

def linesOf {α : Type} (a b : List α) (c : Opcode) : List (Mark × α) :=
  match c.tag with
  | .equal => (slice a c.i1 c.i2).map (Prod.mk .context)
  | .replace =>
      (slice a c.i1 c.i2).map (Prod.mk .removed) ++ (slice b c.j1 c.j2).map (Prod.mk .added)
  | .delete => (slice a c.i1 c.i2).map (Prod.mk .removed)
  | .insert => (slice b c.j1 c.j2).map (Prod.mk .added)

def firstOf (group : List Opcode) : Opcode := group.head?.getD default

def lastOf (group : List Opcode) : Opcode := group.getLast?.getD default

def groupText (a b : List (List Char)) (group : List Opcode) : List Char :=
  "@@ -".toList ++ range (firstOf group).i1 (lastOf group).i2 ++ " +".toList ++
    range (firstOf group).j1 (lastOf group).j2 ++ " @@\n".toList ++
    (group.flatMap (linesOf a b)).flatMap fun l => l.1.char :: l.2

/-- `unified_diff`, of lines with their ends. -/
def unifiedDiff (a b : List (List Char)) (fromfile tofile : List Char) (n : Nat) : List Char :=
  let groups := groupedOpcodes a b n
  let header := if groups.isEmpty then []
    else "--- ".toList ++ fromfile ++ "\n+++ ".toList ++ tofile ++ "\n".toList
  header ++ groups.flatMap (groupText a b)

/-! ## What hunks mean -/

structure Hunk (α : Type) where
  oldStart : Nat
  oldLen : Nat
  newStart : Nat
  newLen : Nat
  lines : List (Mark × α)

/-- A range as a header gives it: of no lines, the line in front is named. -/
def headerRange (start stop : Nat) : Nat × Nat :=
  if stop - start = 0 then (start, 0) else (start + 1, stop - start)

/-- The place a header's range starts at, counted from zero. -/
def startOf (start len : Nat) : Nat := if len = 0 then start else start - 1

/-- What a hunk's lines make of the lines from its start on, and what is left of these. -/
def applyLines {α : Type} [DecidableEq α] : List (Mark × α) → List α → Option (List α × List α)
  | [], rest => some ([], rest)
  | (.added, l) :: ls, rest => (applyLines ls rest).map fun p => (l :: p.1, p.2)
  | (.context, l) :: ls, rest =>
      if rest.head? = some l then (applyLines ls rest.tail).map fun p => (l :: p.1, p.2) else none
  | (.removed, l) :: ls, rest =>
      if rest.head? = some l then applyLines ls rest.tail else none

/-- Hunks applied to the lines from `i` on, which become those from `j` on. Both ranges of
a header must be right. -/
def patchFrom {α : Type} [DecidableEq α] : Nat → Nat → List (Hunk α) → List α → Option (List α)
  | _, _, [], rest => some rest
  | i, j, h :: hs, rest => do
      let i' := startOf h.oldStart h.oldLen
      let j' := startOf h.newStart h.newLen
      guard (i ≤ i' ∧ i' - i ≤ rest.length ∧ j + (i' - i) = j')
      let (out, rest') ← applyLines h.lines (rest.drop (i' - i))
      guard (out.length = h.newLen ∧ (i' - i) + h.oldLen + rest'.length = rest.length)
      let tail ← patchFrom (i' + h.oldLen) (j' + h.newLen) hs rest'
      some (rest.take (i' - i) ++ out ++ tail)

def patch {α : Type} [DecidableEq α] (hs : List (Hunk α)) (a : List α) : Option (List α) :=
  patchFrom 0 0 hs a

def hunkOf {α : Type} (a b : List α) (group : List Opcode) : Hunk α :=
  let old := headerRange (firstOf group).i1 (lastOf group).i2
  let new := headerRange (firstOf group).j1 (lastOf group).j2
  { oldStart := old.1, oldLen := old.2, newStart := new.1, newLen := new.2,
    lines := group.flatMap (linesOf a b) }

def hunks {α : Type} [DecidableEq α] (a b : List α) (n : Nat) : List (Hunk α) :=
  (groupedOpcodes a b n).map (hunkOf a b)

/-- A header's range in print: the length is left out if it is one. -/
def printRange (start len : Nat) : List Char :=
  if len = 1 then (toString start).toList
  else (toString start).toList ++ ',' :: (toString len).toList

def Hunk.text (h : Hunk (List Char)) : List Char :=
  "@@ -".toList ++ printRange h.oldStart h.oldLen ++ " +".toList ++
    printRange h.newStart h.newLen ++ " @@\n".toList ++ h.lines.flatMap fun l => l.1.char :: l.2

theorem range_eq (start stop : Nat) :
    range start stop = printRange (headerRange start stop).1 (headerRange start stop).2 := by
  unfold range headerRange printRange
  rcases stop - start with _ | _ | len
  · simp
  · simp
  · simp

theorem unifiedDiff_eq (a b : List (List Char)) (fromfile tofile : List Char) (n : Nat) :
    unifiedDiff a b fromfile tofile n =
      (if (hunks a b n).isEmpty then []
        else "--- ".toList ++ fromfile ++ "\n+++ ".toList ++ tofile ++ "\n".toList) ++
      (hunks a b n).flatMap Hunk.text := by
  have htext : groupText a b = fun group => (hunkOf a b group).text := by
    funext group
    delta groupText
    rw [range_eq, range_eq]
    rfl
  rw [unifiedDiff, hunks, List.flatMap_map, List.isEmpty_map, htext]

/-! ## The lines of a group -/

variable {α : Type} {a b : List α}

theorem drop_eq_slice (l : List α) {i j : Nat} (h : i ≤ j) :
    l.drop i = slice l i j ++ l.drop j := by
  have hsum : i + (j - i) = j := by omega
  conv_lhs => rw [← List.take_append_drop (j - i) (l.drop i), List.drop_drop, hsum]
  rfl

theorem slice_self (l : List α) (i : Nat) : slice l i i = [] := by
  rw [slice, Nat.sub_self, List.take_zero]

theorem length_slice (l : List α) {i j : Nat} (h : j ≤ l.length) :
    (slice l i j).length = j - i := by
  rw [slice, List.length_take, List.length_drop]
  omega

theorem slice_append_slice (l : List α) {i j k : Nat} (hij : i ≤ j) (hjk : j ≤ k) :
    slice l i j ++ slice l j k = slice l i k := by
  have hsum : k - i = (j - i) + (k - j) := by omega
  have hdrop : i + (j - i) = j := by omega
  rw [slice, slice, slice, hsum, List.take_add, List.drop_drop, hdrop]

theorem slice_eq_of_matches {i j k : Nat} (h : Matches a b ⟨i, j, k⟩) :
    slice a i (i + k) = slice b j (j + k) := by
  refine List.ext_getElem? fun t => ?_
  rw [slice, slice, Nat.add_sub_cancel_left, Nat.add_sub_cancel_left]
  rcases Nat.lt_or_ge t k with hlt | hge
  · obtain ⟨line, ha, hb⟩ := h t hlt
    rw [List.getElem?_take_of_lt hlt, List.getElem?_take_of_lt hlt, List.getElem?_drop,
      List.getElem?_drop, ha, hb]
  · rw [List.getElem?_eq_none (by rw [List.length_take]; omega),
      List.getElem?_eq_none (by rw [List.length_take]; omega)]

theorem Matches.part {i j k s l : Nat} (h : Matches a b ⟨i, j, k⟩) (hle : s + l ≤ k) :
    Matches a b ⟨i + s, j + s, l⟩ := by
  intro t ht
  have hst := h (s + t) (by simp only at ht ⊢; omega)
  simp only at hst ⊢
  rwa [← Nat.add_assoc, ← Nat.add_assoc] at hst

theorem Tiles.le {cs : List Opcode} {i j i' j' : Nat} (h : Tiles a b i j cs i' j') :
    i ≤ i' ∧ j ≤ j' := by
  induction cs generalizing i j with
  | nil =>
      obtain ⟨rfl, rfl⟩ := h
      exact ⟨Nat.le_refl _, Nat.le_refl _⟩
  | cons c cs ih =>
      obtain ⟨rfl, rfl, hvalid, hcs⟩ := h
      obtain ⟨hi, hj⟩ := ih hcs
      exact ⟨hvalid.i_le.trans hi, hvalid.j_le.trans hj⟩

section Apply

variable [DecidableEq α]

theorem applyLines_append (xs ys : List (Mark × α)) (rest : List α) :
    applyLines (xs ++ ys) rest = (applyLines xs rest).bind fun p =>
      (applyLines ys p.2).map fun q => (p.1 ++ q.1, q.2) := by
  induction xs generalizing rest with
  | nil => simp [applyLines]
  | cons x xs ih =>
      obtain ⟨mark, l⟩ := x
      cases mark with
      | added =>
          rw [List.cons_append, applyLines, applyLines, ih]
          cases applyLines xs rest <;> simp [Function.comp_def]
      | context =>
          rw [List.cons_append, applyLines, applyLines]
          split
          · rw [ih]
            cases applyLines xs rest.tail <;> simp [Function.comp_def]
          · rfl
      | removed =>
          rw [List.cons_append, applyLines, applyLines]
          split
          · rw [ih]
          · rfl

theorem applyLines_added (ls rest : List α) :
    applyLines (ls.map (Prod.mk .added)) rest = some (ls, rest) := by
  induction ls with
  | nil => rfl
  | cons l ls ih => rw [List.map_cons, applyLines, ih, Option.map_some]

theorem applyLines_context (ls rest : List α) :
    applyLines (ls.map (Prod.mk .context)) (ls ++ rest) = some (ls, rest) := by
  induction ls with
  | nil => rfl
  | cons l ls ih =>
      rw [List.map_cons, applyLines, List.cons_append, List.head?_cons, if_pos rfl, List.tail_cons,
        ih, Option.map_some]

theorem applyLines_removed (ls rest : List α) :
    applyLines (ls.map (Prod.mk .removed)) (ls ++ rest) = some ([], rest) := by
  induction ls with
  | nil => rfl
  | cons l ls ih =>
      rw [List.map_cons, applyLines, List.cons_append, List.head?_cons, if_pos rfl, List.tail_cons,
        ih]

theorem applyLines_linesOf {c : Opcode} (h : c.Valid a b) :
    applyLines (linesOf a b c) (a.drop c.i1) = some (slice b c.j1 c.j2, a.drop c.i2) := by
  rw [drop_eq_slice a h.i_le]
  unfold linesOf
  cases htag : c.tag with
  | equal =>
      obtain ⟨hlen, hm⟩ := h.equal htag
      have hsame := slice_eq_of_matches hm
      have hi := h.i_le
      rw [Nat.add_sub_cancel' hi, show c.j1 + (c.i2 - c.i1) = c.j2 by omega] at hsame
      rw [← hsame]
      exact applyLines_context _ _
  | replace =>
      simp only
      rw [applyLines_append, applyLines_removed, Option.bind_some, applyLines_added,
        Option.map_some, List.nil_append]
  | delete =>
      have hj := h.delete htag
      simp only
      rw [applyLines_removed, hj, slice_self]
  | insert =>
      have hi := h.insert htag
      simp only
      rw [applyLines_added, hi, slice_self a, List.nil_append]

theorem applyLines_tiles {cs : List Opcode} {i j i' j' : Nat} (h : Tiles a b i j cs i' j') :
    applyLines (cs.flatMap (linesOf a b)) (a.drop i) = some (slice b j j', a.drop i') := by
  induction cs generalizing i j with
  | nil =>
      obtain ⟨rfl, rfl⟩ := h
      simp [applyLines, slice]
  | cons c cs ih =>
      obtain ⟨rfl, rfl, hvalid, hcs⟩ := h
      rw [List.flatMap_cons, applyLines_append, applyLines_linesOf hvalid, Option.bind_some,
        ih hcs, Option.map_some, slice_append_slice b hvalid.j_le hcs.le.2]

end Apply

/-! ## The groups -/

/-- Groups from `(i, j)` on: equal lines lie in front of each and behind the last. -/
def Grouped (a b : List α) : Nat → Nat → List (List Opcode) → Prop
  | i, j, [] => a.drop i = b.drop j
  | i, j, g :: gs => ∃ d i' j', Matches a b ⟨i, j, d⟩ ∧ g ≠ [] ∧
      Tiles a b (i + d) (j + d) g i' j' ∧ Grouped a b i' j' gs

theorem headerRange_start (i j : Nat) :
    startOf (headerRange i j).1 (headerRange i j).2 = i ∧ (headerRange i j).2 = j - i := by
  unfold headerRange startOf
  split <;> simp_all

theorem Tiles.ends {cs : List Opcode} {i j i' j' : Nat} (h : Tiles a b i j cs i' j')
    (hne : cs ≠ []) : (firstOf cs).i1 = i ∧ (firstOf cs).j1 = j ∧ (lastOf cs).i2 = i' ∧
      (lastOf cs).j2 = j' := by
  induction cs generalizing i j with
  | nil => exact absurd rfl hne
  | cons c cs ih =>
      obtain ⟨rfl, rfl, -, hcs⟩ := h
      cases cs with
      | nil =>
          obtain ⟨rfl, rfl⟩ := hcs
          exact ⟨rfl, rfl, rfl, rfl⟩
      | cons d cs =>
          obtain ⟨-, -, hi, hj⟩ := ih hcs (List.cons_ne_nil d cs)
          have hlast : lastOf (c :: d :: cs) = lastOf (d :: cs) := by
            rw [lastOf, List.getLast?_cons_cons, lastOf]
          rw [hlast]
          exact ⟨rfl, rfl, hi, hj⟩

theorem Tiles.le_length {cs : List Opcode} {i j i' j' : Nat} (h : Tiles a b i j cs i' j')
    (hne : cs ≠ []) : i' ≤ a.length ∧ j' ≤ b.length := by
  induction cs generalizing i j with
  | nil => exact absurd rfl hne
  | cons c cs ih =>
      obtain ⟨-, -, hvalid, hcs⟩ := h
      cases cs with
      | nil =>
          obtain ⟨rfl, rfl⟩ := hcs
          exact ⟨hvalid.le_a, hvalid.le_b⟩
      | cons d cs => exact ih hcs (List.cons_ne_nil d cs)

theorem hunkOf_header {g : List Opcode} {i j i' j' : Nat} (h : Tiles a b i j g i' j')
    (hne : g ≠ []) :
    startOf (hunkOf a b g).oldStart (hunkOf a b g).oldLen = i ∧ (hunkOf a b g).oldLen = i' - i ∧
      startOf (hunkOf a b g).newStart (hunkOf a b g).newLen = j ∧
      (hunkOf a b g).newLen = j' - j := by
  obtain ⟨hi, hj, hi', hj'⟩ := h.ends hne
  simp only [hunkOf, hi, hj, hi', hj']
  exact ⟨(headerRange_start i i').1, (headerRange_start i i').2, (headerRange_start j j').1,
    (headerRange_start j j').2⟩

theorem patchFrom_cons [DecidableEq α] {i j d : Nat} {h : Hunk α} {hs : List (Hunk α)}
    {rest out rest' tail : List α} (hold : startOf h.oldStart h.oldLen = i + d)
    (hnew : startOf h.newStart h.newLen = j + d) (hd : d ≤ rest.length)
    (happly : applyLines h.lines (rest.drop d) = some (out, rest'))
    (hout : out.length = h.newLen) (hlen : d + h.oldLen + rest'.length = rest.length)
    (htail : patchFrom (i + d + h.oldLen) (j + d + h.newLen) hs rest' = some tail) :
    patchFrom i j (h :: hs) rest = some (rest.take d ++ out ++ tail) := by
  simp [patchFrom, hold, hnew, hd, happly, hout, hlen, htail, guard]

theorem patchFrom_grouped [DecidableEq α] (gs : List (List Opcode)) (i j : Nat)
    (h : Grouped a b i j gs) :
    patchFrom i j (gs.map (hunkOf a b)) (a.drop i) = some (b.drop j) := by
  induction gs generalizing i j with
  | nil => rw [List.map_nil, patchFrom, h]
  | cons g gs ih =>
      obtain ⟨d, i', j', hgap, hne, hg, hgs⟩ := h
      obtain ⟨hold, holdLen, hnew, hnewLen⟩ := hunkOf_header hg hne
      obtain ⟨hle, hle'⟩ := hg.le
      obtain ⟨hla, hlb⟩ := hg.le_length hne
      have happly : applyLines (hunkOf a b g).lines ((a.drop i).drop d) =
          some (slice b (j + d) j', a.drop i') := by
        rw [List.drop_drop]
        exact applyLines_tiles hg
      have hcount : d + (hunkOf a b g).oldLen + (a.drop i').length = (a.drop i).length := by
        rw [holdLen, List.length_drop, List.length_drop]
        omega
      have htail : patchFrom (i + d + (hunkOf a b g).oldLen) (j + d + (hunkOf a b g).newLen)
          (gs.map (hunkOf a b)) (a.drop i') = some (b.drop j') := by
        rw [holdLen, hnewLen, Nat.add_sub_cancel' hle, Nat.add_sub_cancel' hle']
        exact ih i' j' hgs
      rw [List.map_cons, patchFrom_cons hold hnew (by rw [List.length_drop]; omega) happly
        (by rw [length_slice b hlb, hnewLen]) hcount htail]
      -- the gap is the same in both lists
      have hgapLines : (a.drop i).take d = slice b j (j + d) := by
        rw [← slice_eq_of_matches hgap, slice, Nat.add_sub_cancel_left]
      rw [hgapLines, slice_append_slice b (Nat.le_add_right j d) hle', ← drop_eq_slice b (by omega)]

/-! ## Cutting into groups -/

theorem trimFront_spec (n : Nat) {c : Opcode} (h : c.Valid a b) (htag : c.tag = .equal) :
    ∃ d, d = c.i2 - c.i1 - n ∧ (trimFront n c).Valid a b ∧ (trimFront n c).i1 = c.i1 + d ∧
      (trimFront n c).j1 = c.j1 + d ∧ Matches a b ⟨c.i1, c.j1, d⟩ := by
  obtain ⟨hlen, hm⟩ := h.equal htag
  have hi := h.i_le
  have hj := h.j_le
  have hi1 : (trimFront n c).i1 = c.i1 + (c.i2 - c.i1 - n) := by
    simp only [trimFront]
    omega
  have hj1 : (trimFront n c).j1 = c.j1 + (c.i2 - c.i1 - n) := by
    simp only [trimFront]
    omega
  refine ⟨_, rfl, ⟨?_, h.le_a, ?_, h.le_b, fun hd => ?_, fun hd => ?_, fun _ => ⟨?_, ?_⟩⟩,
    hi1, hj1, hm.part (s := 0) (by omega)⟩
  · rw [hi1]
    simp only [trimFront]
    omega
  · rw [hj1]
    simp only [trimFront]
    omega
  · cases htag.symm.trans hd
  · cases htag.symm.trans hd
  · rw [hi1, hj1]
    simp only [trimFront]
    omega
  · rw [hi1, hj1]
    simp only [trimFront]
    exact hm.part (by omega)

theorem trimBack_spec (n : Nat) {c : Opcode} (h : c.Valid a b) (htag : c.tag = .equal) :
    ∃ d, d = c.i2 - c.i1 - n ∧ (trimBack n c).Valid a b ∧ (trimBack n c).i2 + d = c.i2 ∧
      (trimBack n c).j2 + d = c.j2 ∧ Matches a b ⟨(trimBack n c).i2, (trimBack n c).j2, d⟩ := by
  obtain ⟨hlen, hm⟩ := h.equal htag
  have hi := h.i_le
  have hj := h.j_le
  have hla := h.le_a
  have hlb := h.le_b
  have hi2 : (trimBack n c).i2 = c.i1 + (c.i2 - c.i1 - (c.i2 - c.i1 - n)) := by
    simp only [trimBack]
    omega
  have hj2 : (trimBack n c).j2 = c.j1 + (c.i2 - c.i1 - (c.i2 - c.i1 - n)) := by
    simp only [trimBack]
    omega
  refine ⟨_, rfl, ⟨?_, ?_, ?_, ?_, fun hd => ?_, fun hd => ?_, fun _ => ⟨?_, ?_⟩⟩, ?_, ?_, ?_⟩
  · rw [hi2]
    exact Nat.le_add_right _ _
  · rw [hi2]
    omega
  · rw [hj2]
    exact Nat.le_add_right _ _
  · rw [hj2]
    omega
  · cases htag.symm.trans hd
  · cases htag.symm.trans hd
  · rw [hi2, hj2]
    simp only [trimBack]
    omega
  · have hpart := hm.part (s := 0) (l := (trimBack n c).i2 - c.i1) (by rw [hi2]; omega)
    exact hpart
  · rw [hi2]
    omega
  · rw [hj2]
    omega
  · rw [hi2, hj2]
    exact hm.part (by omega)

theorem drop_eq_of_matches {i j d : Nat} (h : Matches a b ⟨i, j, d⟩)
    (hrest : a.drop (i + d) = b.drop (j + d)) : a.drop i = b.drop j := by
  rw [drop_eq_slice a (Nat.le_add_right i d), slice_eq_of_matches h, hrest,
    ← drop_eq_slice b (Nat.le_add_right j d)]

theorem drop_eq_of_context {group : List Opcode} {i j i' j' : Nat}
    (h : Tiles a b i j group i' j')
    (hdrop : ¬ (!group.isEmpty && !(group.length == 1 && group.head?.any (·.tag == .equal))) = true)
    (hrest : a.drop i' = b.drop j') : a.drop i = b.drop j := by
  rcases group with _ | ⟨c, _ | ⟨d, cs⟩⟩
  · obtain ⟨rfl, rfl⟩ := h
    exact hrest
  · obtain ⟨rfl, rfl, hvalid, rfl, rfl⟩ := h
    have htag : c.tag = .equal := by simpa using hdrop
    obtain ⟨hlen, hm⟩ := hvalid.equal htag
    have hi := hvalid.i_le
    have hj := hvalid.j_le
    refine drop_eq_of_matches hm ?_
    rwa [Nat.add_sub_cancel' hi, show c.j1 + (c.i2 - c.i1) = c.j2 by omega]
  · exact absurd rfl hdrop

theorem grouped_groupLoop (n : Nat) (cs group : List Opcode) {i j d i' j' ie je : Nat}
    (hgap : Matches a b ⟨i, j, d⟩) (hgroup : Tiles a b (i + d) (j + d) group i' j')
    (hcs : Tiles a b i' j' cs ie je) (hend : a.drop ie = b.drop je) :
    Grouped a b i j (groupLoop n group cs) := by
  induction cs generalizing group i j d i' j' with
  | nil =>
      obtain ⟨rfl, rfl⟩ := hcs
      rw [groupLoop]
      split
      · rename_i hkeep
        have hne : group ≠ [] := by
          rintro rfl
          simp at hkeep
        exact ⟨d, i', j', hgap, hne, hgroup, hend⟩
      · rename_i hdrop
        exact drop_eq_of_matches hgap (drop_eq_of_context hgroup hdrop hend)
  | cons c cs ih =>
      obtain ⟨rfl, rfl, hvalid, hcs⟩ := hcs
      rw [groupLoop]
      split
      · -- long equal lines: `n` of them end the group, `n` of them start the next one
        rename_i hsplit
        obtain ⟨hlen, hlines⟩ := hvalid.equal hsplit.1
        obtain ⟨db, hdb, hback, hbi, hbj, -⟩ := trimBack_spec n hvalid hsplit.1
        obtain ⟨df, hdf, hfront, hfi, hfj, -⟩ := trimFront_spec n hvalid hsplit.1
        have hbetween : Matches a b
            ⟨(trimBack n c).i2, (trimBack n c).j2, c.i2 - c.i1 - 2 * n⟩ := by
          have hpart := hlines.part (s := n) (l := c.i2 - c.i1 - 2 * n) (by omega)
          rwa [show (trimBack n c).i2 = c.i1 + n by omega,
            show (trimBack n c).j2 = c.j1 + n by omega]
        refine ⟨d, (trimBack n c).i2, (trimBack n c).j2, hgap, by simp,
          hgroup.append (tiles_one hback), ih [trimFront n c] hbetween ?_ hcs⟩
        have hone := tiles_one hfront
        rwa [hfi, hfj, show c.i1 + df = (trimBack n c).i2 + (c.i2 - c.i1 - 2 * n) by omega,
          show c.j1 + df = (trimBack n c).j2 + (c.i2 - c.i1 - 2 * n) by omega] at hone
      · exact ih _ hgap (hgroup.append (tiles_one hvalid)) hcs

theorem tiles_trimFirst (n : Nat) {c : Opcode} {cs : List Opcode} {i j i' j' : Nat}
    (h : Tiles a b i j (c :: cs) i' j') :
    ∃ d, Matches a b ⟨i, j, d⟩ ∧ Tiles a b (i + d) (j + d)
      ((if c.tag = .equal then trimFront n c else c) :: cs) i' j' := by
  obtain ⟨rfl, rfl, hvalid, hcs⟩ := h
  by_cases htag : c.tag = .equal
  · obtain ⟨d, -, hfront, hi, hj, hm⟩ := trimFront_spec n hvalid htag
    rw [if_pos htag]
    exact ⟨d, hm, hi, hj, hfront, hcs⟩
  · rw [if_neg htag]
    exact ⟨0, fun t ht => absurd ht (Nat.not_lt_zero t), rfl, rfl, hvalid, hcs⟩

theorem tiles_trimLast (n : Nat) {cs : List Opcode} {i j i' j' : Nat}
    (h : Tiles a b i j cs i' j') (hend : a.drop i' = b.drop j') :
    ∃ ie je, a.drop ie = b.drop je ∧ Tiles a b i j
      (mapLast (fun c => if c.tag = .equal then trimBack n c else c) cs) ie je := by
  induction cs generalizing i j with
  | nil => exact ⟨i', j', hend, h⟩
  | cons c cs ih =>
      obtain ⟨hi, hj, hvalid, hcs⟩ := h
      cases cs with
      | nil =>
          obtain ⟨rfl, rfl⟩ := hcs
          simp only [mapLast]
          by_cases htag : c.tag = .equal
          · obtain ⟨d, -, hback, hi2, hj2, hm⟩ := trimBack_spec n hvalid htag
            rw [if_pos htag]
            refine ⟨(trimBack n c).i2, (trimBack n c).j2, drop_eq_of_matches hm ?_,
              hi, hj, hback, rfl, rfl⟩
            rwa [hi2, hj2]
          · rw [if_neg htag]
            exact ⟨c.i2, c.j2, hend, hi, hj, hvalid, rfl, rfl⟩
      | cons d cs =>
          obtain ⟨ie, je, hend', htiles⟩ := ih hcs
          exact ⟨ie, je, hend', hi, hj, hvalid, htiles⟩

theorem groupLoop_dummy (n : Nat) :
    groupLoop n [] (trimmed n [{ tag := .equal, i1 := 0, i2 := 1, j1 := 0, j2 := 1 }]) = [] := by
  have hshort : ¬ 2 * n < min 1 (1 - n + n) - (1 - n) := by omega
  simp [trimmed, mapLast, trimFront, trimBack, groupLoop, hshort]

theorem grouped_groupedOpcodes [DecidableEq α] (a b : List α) (n : Nat) :
    Grouped a b 0 0 (groupedOpcodes a b n) := by
  have htiles := tiles_opcodes a b
  unfold groupedOpcodes
  cases hcodes : opcodes a b with
  | nil =>
      -- no opcodes: both lists are empty
      rw [hcodes] at htiles
      obtain ⟨ha, hb⟩ := htiles
      simp only [List.isEmpty_nil, if_true, groupLoop_dummy]
      rw [Grouped, List.drop_zero, List.drop_zero, List.length_eq_zero_iff.mp ha.symm,
        List.length_eq_zero_iff.mp hb.symm]
  | cons c cs =>
      rw [hcodes] at htiles
      obtain ⟨d, hgap, hfirst⟩ := tiles_trimFirst n htiles
      have hend : a.drop a.length = b.drop b.length := by
        rw [List.drop_length, List.drop_length]
      obtain ⟨ie, je, hend, hlast⟩ := tiles_trimLast n hfirst hend
      exact grouped_groupLoop n _ [] hgap ⟨rfl, rfl⟩ hlast hend

theorem patch_hunks_eq [DecidableEq α] (a b : List α) (n : Nat) :
    patch (hunks a b n) a = some b := by
  have h := patchFrom_grouped _ 0 0 (grouped_groupedOpcodes a b n)
  rwa [List.drop_zero, List.drop_zero] at h

/-- The queue is worked off; the blocks rise strictly; every line of either list lies in
exactly one opcode, and these are in order; opcodes called equal cover equal lines; and
the hunks make `b` out of `a`. -/
theorem diff_sound [DecidableEq α] (a b : List α) (n : Nat) :
    (∃ blocks, ∀ fuel, 2 * a.length + 1 ≤ fuel →
        queueLoop a b fuel [whole a b] [] = some blocks) ∧
      (matchingBlocks a b).Pairwise (fun p q => p.i < q.i ∧ p.j < q.j) ∧
      (∀ i < a.length, ∃! k : Nat, ∃ c, (opcodes a b)[k]? = some c ∧ c.i1 ≤ i ∧ i < c.i2) ∧
      (∀ j < b.length, ∃! k : Nat, ∃ c, (opcodes a b)[k]? = some c ∧ c.j1 ≤ j ∧ j < c.j2) ∧
      (opcodes a b).Pairwise (fun c d => c.i2 ≤ d.i1 ∧ c.j2 ≤ d.j1) ∧
      (∀ c ∈ opcodes a b, c.tag = .equal → slice a c.i1 c.i2 = slice b c.j1 c.j2) ∧
      patch (hunks a b n) a = some b := by
  have htiles := tiles_opcodes a b
  have hpair := htiles.pairwise
  refine ⟨?_, matchingBlocks_pairwise a b, fun i hi => ?_, fun j hj => ?_, hpair,
    fun c hc htag => ?_,
    patch_hunks_eq a b n⟩
  · obtain ⟨blocks, hloop, -⟩ := queueLoop_spec (2 * a.length + 1) [whole a b] []
      (queueInv_init a b) (by simp [queueCost, whole])
    exact ⟨blocks, fun fuel hfuel => queueLoop_mono hloop hfuel⟩
  · refine existsUnique_getElem hpair (fun c d h hc hd => ?_)
      (htiles.covers_a (Nat.zero_le i) hi)
    omega
  · refine existsUnique_getElem hpair (fun c d h hc hd => ?_)
      (htiles.covers_b (Nat.zero_le j) hj)
    omega
  · obtain ⟨-, -, hvalid⟩ := htiles.ge hc
    obtain ⟨hlen, hm⟩ := hvalid.equal htag
    have hi := hvalid.i_le
    have hj := hvalid.j_le
    have hsame := slice_eq_of_matches hm
    rwa [Nat.add_sub_cancel' hi, show c.j1 + (c.i2 - c.i1) = c.j2 by omega] at hsame

end Difflib

end Dagayn
