import Mathlib

/-!
# The matcher of a diff

The port of Python's `SequenceMatcher`: the longest matching block of a region, the
work queue that cuts the lists at such blocks, and the opcodes between them. The matcher
need not find a longest block for any of this to be sound: what counts is that a block
lies in its region and that its lines are equal (`findLongestMatch_spec`), which the
lines left out as popular do not touch.
-/

namespace Dagayn

namespace Difflib

/-- A run of `size` equal lines from `i` and `j` on. -/
structure Block where
  i : Nat
  j : Nat
  size : Nat
deriving DecidableEq

/-- Lines `alo` to `ahi` against lines `blo` to `bhi`. -/
structure Region where
  alo : Nat
  ahi : Nat
  blo : Nat
  bhi : Nat
deriving DecidableEq

inductive Tag where
  | replace
  | delete
  | insert
  | equal
deriving DecidableEq, Inhabited

structure Opcode where
  tag : Tag
  i1 : Nat
  i2 : Nat
  j1 : Nat
  j2 : Nat
deriving DecidableEq, Inhabited

def whole {α : Type} (a b : List α) : Region :=
  { alo := 0, ahi := a.length, blo := 0, bhi := b.length }

section Matcher

variable {α : Type} [DecidableEq α] (a b : List α)

/-- `b2j`: where the line stands in `b`, unless it is popular. -/
def b2j (line : α) : List Nat :=
  let indices := (List.range b.length).filter fun j => b[j]? = some line
  let ntest := b.length / 100 + 1
  if 200 ≤ b.length ∧ ¬ indices.length ≤ ntest then [] else indices

/-- The loop over the places of line `i`: the lengths of the runs that end there, and the
best block so far. -/
def scanPlaces (r : Region) (i : Nat) (j2len : Nat → Option Nat) :
    List Nat → (Nat → Option Nat) → Block → (Nat → Option Nat) × Block
  | [], next, best => (next, best)
  | j :: js, next, best =>
      if j < r.blo then scanPlaces r i j2len js next best
      else if r.bhi ≤ j then (next, best)
      else
        let k := (if j = 0 then none else j2len (j - 1)).getD 0 + 1
        scanPlaces r i j2len js (Function.update next j (some k))
          (if best.size < k then { i := i + 1 - k, j := j + 1 - k, size := k } else best)

/-- The loop over the lines of `a`. -/
def scanLines (r : Region) : List Nat → (Nat → Option Nat) → Block → Block
  | [], _, best => best
  | i :: is, j2len, best =>
      let places := match a[i]? with
        | some line => b2j b line
        | none => []
      let (next, best) := scanPlaces r i j2len places (fun _ => none) best
      scanLines r is next best

/-- Extension to lines in front, which may be popular ones. -/
def extendBack (r : Region) : Nat → Nat → Nat → Block
  | i + 1, j + 1, size =>
      if r.alo < i + 1 ∧ r.blo < j + 1 ∧ a[i]? = b[j]? then extendBack r i j (size + 1)
      else { i := i + 1, j := j + 1, size := size }
  | i, j, size => { i := i, j := j, size := size }

def extendForward (r : Region) (i j : Nat) : Nat → Nat → Block
  | 0, size => { i := i, j := j, size := size }
  | fuel + 1, size =>
      if i + size < r.ahi ∧ j + size < r.bhi ∧ a[i + size]? = b[j + size]? then
        extendForward r i j fuel (size + 1)
      else { i := i, j := j, size := size }

def findLongestMatch (r : Region) : Block :=
  let best := scanLines a b r (List.range' r.alo (r.ahi - r.alo)) (fun _ => none)
    { i := r.alo, j := r.blo, size := 0 }
  let best := extendBack a b r best.i best.j best.size
  extendForward a b r best.i best.j (r.ahi - (best.i + best.size)) best.size

/-- The regions left of a region beside a block in it, the last one on top. -/
def splitAround (r : Region) (m : Block) : List Region :=
  (if m.i + m.size < r.ahi ∧ m.j + m.size < r.bhi then
    [{ alo := m.i + m.size, ahi := r.ahi, blo := m.j + m.size, bhi := r.bhi }] else []) ++
  (if r.alo < m.i ∧ r.blo < m.j then
    [{ alo := r.alo, ahi := m.i, blo := r.blo, bhi := m.j }] else [])

/-- The loop over the queue; `none` when the rounds do not suffice. -/
def queueLoop : Nat → List Region → List Block → Option (List Block)
  | _, [], blocks => some blocks
  | 0, _ :: _, _ => none
  | fuel + 1, r :: queue, blocks =>
      let m := findLongestMatch a b r
      if 0 < m.size then queueLoop fuel (splitAround r m ++ queue) (blocks ++ [m])
      else queueLoop fuel queue blocks

def Block.le (p q : Block) : Bool :=
  p.i < q.i || p.i == q.i && (p.j < q.j || p.j == q.j && p.size ≤ q.size)

/-- Adjacent blocks are put together; `cur` starts as the empty block in front. -/
def mergeBlocks : Block → List Block → List Block
  | cur, [] => if 0 < cur.size then [cur] else []
  | cur, m :: ms =>
      if cur.i + cur.size = m.i ∧ cur.j + cur.size = m.j then
        mergeBlocks { cur with size := cur.size + m.size } ms
      else if 0 < cur.size then cur :: mergeBlocks m ms
      else mergeBlocks m ms

def matchingBlocks : List Block :=
  let blocks := (queueLoop a b (2 * a.length + 1) [whole a b] []).getD []
  mergeBlocks { i := 0, j := 0, size := 0 } (blocks.mergeSort Block.le) ++
    [{ i := a.length, j := b.length, size := 0 }]

/-- The opcode for what lies between `(i, j)` and a block. -/
def between (i j : Nat) (m : Block) : List Opcode :=
  let tag := if i < m.i ∧ j < m.j then some Tag.replace
    else if i < m.i then some .delete
    else if j < m.j then some .insert
    else none
  match tag with
  | some tag => [{ tag := tag, i1 := i, i2 := m.i, j1 := j, j2 := m.j }]
  | none => []

def same (m : Block) : List Opcode :=
  if 0 < m.size then
    [{ tag := .equal, i1 := m.i, i2 := m.i + m.size, j1 := m.j, j2 := m.j + m.size }]
  else []

/-- The opcodes from `(i, j)` on. -/
def opcodesFrom : Nat → Nat → List Block → List Opcode
  | _, _, [] => []
  | i, j, m :: ms => between i j m ++ same m ++ opcodesFrom (m.i + m.size) (m.j + m.size) ms

def opcodes : List Opcode := opcodesFrom 0 0 (matchingBlocks a b)

end Matcher

/-! ## Blocks of equal lines -/

variable {α : Type} {a b : List α}

def SameLine (a b : List α) (i j : Nat) : Prop := ∃ line, a[i]? = some line ∧ b[j]? = some line

def Matches (a b : List α) (m : Block) : Prop := ∀ t < m.size, SameLine a b (m.i + t) (m.j + t)

structure Inside (r : Region) (m : Block) : Prop where
  alo_le : r.alo ≤ m.i
  le_ahi : m.i + m.size ≤ r.ahi
  blo_le : r.blo ≤ m.j
  le_bhi : m.j + m.size ≤ r.bhi

structure Region.Fits (a b : List α) (r : Region) : Prop where
  alo_le : r.alo ≤ r.ahi
  ahi_le : r.ahi ≤ a.length
  blo_le : r.blo ≤ r.bhi
  bhi_le : r.bhi ≤ b.length

theorem sameLine_of_eq {i j : Nat} (hi : i < a.length) (h : a[i]? = b[j]?) : SameLine a b i j :=
  ⟨a[i], List.getElem?_eq_getElem hi, h ▸ List.getElem?_eq_getElem hi⟩

theorem matches_snoc {i j size : Nat} (h : Matches a b ⟨i, j, size⟩)
    (hs : SameLine a b (i + size) (j + size)) : Matches a b ⟨i, j, size + 1⟩ := by
  intro t ht
  rcases Nat.lt_or_ge t size with hlt | hge
  · exact h t hlt
  · obtain rfl : t = size := Nat.le_antisymm (Nat.lt_succ_iff.mp ht) hge
    exact hs

theorem matches_cons {i j size : Nat} (h : Matches a b ⟨i + 1, j + 1, size⟩)
    (hs : SameLine a b i j) : Matches a b ⟨i, j, size + 1⟩ := by
  intro t ht
  cases t with
  | zero => exact hs
  | succ t =>
      have hst := h t (by simpa using ht)
      rw [Nat.add_right_comm, Nat.add_right_comm j] at hst
      exact hst

/-- A run of equal lines that ends in front of line `i` and place `j`. -/
def RunEnds (a b : List α) (r : Region) (i j k : Nat) : Prop :=
  ∃ i0 j0, i0 + k = i ∧ j0 + k = j ∧ r.alo ≤ i0 ∧ r.blo ≤ j0 ∧ Matches a b ⟨i0, j0, k⟩

def Good (a b : List α) (r : Region) (m : Block) : Prop := Inside r m ∧ Matches a b m

theorem mem_b2j [DecidableEq α] {line : α} {j : Nat} (h : j ∈ b2j b line) : b[j]? = some line := by
  unfold b2j at h
  simp only at h
  split at h
  · cases h
  · exact of_decide_eq_true (List.mem_filter.mp h).2

theorem runEnds_succ {r : Region} {i j : Nat} {j2len : Nat → Option Nat}
    (hlen : ∀ j k, j2len j = some k → RunEnds a b r i (j + 1) k) (hi : r.alo ≤ i)
    (hj : r.blo ≤ j) (hs : SameLine a b i j) :
    RunEnds a b r (i + 1) (j + 1) ((if j = 0 then none else j2len (j - 1)).getD 0 + 1) := by
  have hbase : RunEnds a b r (i + 1) (j + 1) 1 :=
    ⟨i, j, rfl, rfl, hi, hj, matches_snoc (fun t ht => absurd ht (Nat.not_lt_zero t)) hs⟩
  cases j with
  | zero => exact hbase
  | succ j =>
      rw [if_neg (Nat.succ_ne_zero j), Nat.add_sub_cancel]
      cases hk : j2len j with
      | none => exact hbase
      | some k =>
          obtain ⟨i0, j0, hik, hjk, hi0, hj0, hm⟩ := hlen j k hk
          refine ⟨i0, j0, by rw [← hik]; rfl, by rw [← hjk]; rfl, hi0, hj0, matches_snoc hm ?_⟩
          change SameLine a b (i0 + k) (j0 + k)
          rw [hik, hjk]
          exact hs

theorem scanPlaces_spec {r : Region} {i : Nat} {j2len : Nat → Option Nat}
    (hi : r.alo ≤ i) (hi' : i < r.ahi)
    (hlen : ∀ j k, j2len j = some k → RunEnds a b r i (j + 1) k) (places : List Nat)
    (hplaces : ∀ j ∈ places, SameLine a b i j) (next : Nat → Option Nat) (best : Block)
    (hnext : ∀ j k, next j = some k → RunEnds a b r (i + 1) (j + 1) k) (hbest : Good a b r best) :
    (∀ j k, (scanPlaces r i j2len places next best).1 j = some k →
        RunEnds a b r (i + 1) (j + 1) k) ∧
      Good a b r (scanPlaces r i j2len places next best).2 := by
  induction places generalizing next best with
  | nil => exact ⟨hnext, hbest⟩
  | cons j places ih =>
      have ih := ih fun j hj => hplaces j (List.mem_cons_of_mem _ hj)
      rw [scanPlaces]
      split
      · exact ih next best hnext hbest
      · split
        · exact ⟨hnext, hbest⟩
        · have hrun := runEnds_succ hlen hi (by omega) (hplaces j List.mem_cons_self)
          simp only
          generalize (if j = 0 then none else j2len (j - 1)).getD 0 + 1 = k' at hrun ⊢
          refine ih _ _ (fun j' k hk => ?_) ?_
          · rcases eq_or_ne j' j with rfl | hne
            · rw [Function.update_self] at hk
              cases hk
              exact hrun
            · rw [Function.update_of_ne hne] at hk
              exact hnext j' k hk
          · by_cases hk : best.size < k'
            · obtain ⟨i0, j0, hik, hjk, hi0, hj0, hm⟩ := hrun
              rw [if_pos hk, ← hik, ← hjk, Nat.add_sub_cancel, Nat.add_sub_cancel]
              exact ⟨⟨hi0, by simp only; omega, hj0, by simp only; omega⟩, hm⟩
            · rw [if_neg hk]
              exact hbest

theorem scanLines_spec [DecidableEq α] {r : Region} (is : List Nat) (i : Nat) (n : Nat)
    (his : is = List.range' i n) (hi : r.alo ≤ i) (hn : i + n ≤ r.ahi)
    (j2len : Nat → Option Nat) (best : Block)
    (hlen : ∀ j k, j2len j = some k → RunEnds a b r i (j + 1) k) (hbest : Good a b r best) :
    Good a b r (scanLines a b r is j2len best) := by
  induction is generalizing i n j2len best with
  | nil => exact hbest
  | cons i' is ih =>
      cases n with
      | zero => cases his
      | succ n =>
          rw [List.range'_succ] at his
          obtain ⟨rfl, his⟩ := List.cons.inj his
          have hplaces : ∀ j ∈ (match a[i']? with
              | some line => b2j b line
              | none => []), SameLine a b i' j := by
            intro j hj
            cases hget : a[i']? with
            | none =>
                rw [hget] at hj
                cases hj
            | some line =>
                rw [hget] at hj
                exact ⟨line, hget, mem_b2j hj⟩
          obtain ⟨hnext, hgood⟩ := scanPlaces_spec hi (by omega) hlen _ hplaces (fun _ => none) best
            (fun _ _ h => nomatch h) hbest
          exact ih (i' + 1) n his (by omega) (by omega) _ _ hnext hgood

theorem extendBack_spec [DecidableEq α] {r : Region} (hr : r.Fits a b) (i j size : Nat)
    (h : Good a b r ⟨i, j, size⟩) : Good a b r (extendBack a b r i j size) := by
  fun_induction extendBack a b r i j size with
  | case1 i j size hext ih =>
      obtain ⟨⟨h1, h2, h3, h4⟩, hm⟩ := h
      simp only at h1 h2 h3 h4
      have hfits := hr.ahi_le
      have hi : i < a.length := by omega
      exact ih ⟨⟨by simp only; omega, by simp only; omega, by simp only; omega,
        by simp only; omega⟩,
        matches_cons hm (sameLine_of_eq hi hext.2.2)⟩
  | case2 i j size hext => exact h
  | case3 i j size hstop => exact h

theorem extendForward_spec [DecidableEq α] {r : Region} (hr : r.Fits a b) {i j : Nat}
    (fuel size : Nat) (h : Good a b r ⟨i, j, size⟩) :
    Good a b r (extendForward a b r i j fuel size) := by
  induction fuel generalizing size with
  | zero => exact h
  | succ fuel ih =>
      rw [extendForward]
      split
      · rename_i hext
        obtain ⟨⟨h1, h2, h3, h4⟩, hm⟩ := h
        have hfits := hr.ahi_le
        have hi : i + size < a.length := by omega
        exact ih (size + 1) ⟨⟨h1, hext.1, h3, hext.2.1⟩,
          matches_snoc hm (sameLine_of_eq hi hext.2.2)⟩
      · exact h

theorem findLongestMatch_spec [DecidableEq α] {r : Region} (hr : r.Fits a b) :
    Good a b r (findLongestMatch a b r) := by
  have hlo := hr.alo_le
  have hbest := scanLines_spec (r := r) (a := a) (b := b) _ r.alo (r.ahi - r.alo) rfl
    (Nat.le_refl _) (by omega) (fun _ => none) { i := r.alo, j := r.blo, size := 0 }
    (fun _ _ h => nomatch h)
    ⟨⟨Nat.le_refl _, hlo, Nat.le_refl _, hr.blo_le⟩, fun t ht => absurd ht (Nat.not_lt_zero t)⟩
  exact extendForward_spec hr _ _ (extendBack_spec hr _ _ _ hbest)

/-! ## The work queue -/

def Block.region (m : Block) : Region := ⟨m.i, m.i + m.size, m.j, m.j + m.size⟩

def Region.Before (r s : Region) : Prop := r.ahi ≤ s.alo ∧ r.bhi ≤ s.blo

def Region.Beside (r s : Region) : Prop := r.Before s ∨ s.Before r

/-- `r` is a part of `s`. -/
structure Region.Within (r s : Region) : Prop where
  alo_le : s.alo ≤ r.alo
  ahi_le : r.ahi ≤ s.ahi
  blo_le : s.blo ≤ r.blo
  bhi_le : r.bhi ≤ s.bhi

theorem Region.Beside.symm {r s : Region} (h : r.Beside s) : s.Beside r := Or.symm h

theorem Region.Beside.within {r r' s : Region} (h : r.Beside s) (hr : r'.Within r) :
    r'.Beside s := by
  obtain ⟨h1, h2, h3, h4⟩ := hr
  rcases h with ⟨h5, h6⟩ | ⟨h5, h6⟩
  · exact .inl ⟨h2.trans h5, h4.trans h6⟩
  · exact .inr ⟨h5.trans h1, h6.trans h3⟩

theorem region_within {r : Region} {m : Block} (h : Inside r m) : m.region.Within r :=
  ⟨h.alo_le, h.le_ahi, h.blo_le, h.le_bhi⟩

/-- A block that can stand in the result. -/
structure Block.Sound (a b : List α) (m : Block) : Prop where
  pos : 0 < m.size
  le_a : m.i + m.size ≤ a.length
  le_b : m.j + m.size ≤ b.length
  lines : Matches a b m

/-- The regions still queued and the blocks found follow one another in some order. -/
structure QueueInv (a b : List α) (queue : List Region) (blocks : List Block) : Prop where
  fits : ∀ r ∈ queue, r.Fits a b
  sound : ∀ m ∈ blocks, m.Sound a b
  beside : (queue ++ blocks.map Block.region).Pairwise Region.Beside

theorem splitAround_spec {r : Region} {m : Block} (hr : r.Fits a b) (hm : Inside r m) :
    (∀ s ∈ splitAround r m, s.Within r ∧ s.Beside m.region ∧ s.Fits a b) ∧
      (splitAround r m).Pairwise Region.Beside := by
  obtain ⟨h1, h2, h3, h4⟩ := hm
  have hla := hr.ahi_le
  have hlb := hr.bhi_le
  constructor
  · intro s hs
    rcases List.mem_append.mp hs with hs | hs
    · split at hs
      · rename_i hlt
        rw [List.mem_singleton.mp hs]
        refine ⟨⟨?_, ?_, ?_, ?_⟩, .inr ⟨Nat.le_refl _, Nat.le_refl _⟩, ⟨?_, hla, ?_, hlb⟩⟩ <;>
          simp only <;> omega
      · cases hs
    · split at hs
      · rename_i hlt
        rw [List.mem_singleton.mp hs]
        refine ⟨⟨?_, ?_, ?_, ?_⟩, .inl ⟨Nat.le_refl _, Nat.le_refl _⟩, ⟨?_, ?_, ?_, ?_⟩⟩ <;>
          simp only <;> omega
      · cases hs
  · unfold splitAround
    split <;> split
    · refine List.pairwise_pair.mpr (.inr ⟨?_, ?_⟩) <;> simp only <;> omega
    all_goals simp

theorem QueueInv.step {queue : List Region} {blocks : List Block} {r : Region} {m : Block}
    (h : QueueInv a b (r :: queue) blocks) (hm : Good a b r m) (hpos : 0 < m.size) :
    QueueInv a b (splitAround r m ++ queue) (blocks ++ [m]) := by
  have hr := h.fits r List.mem_cons_self
  obtain ⟨hparts, hpair⟩ := splitAround_spec hr hm.1
  obtain ⟨hrest, hothers⟩ := List.pairwise_cons.mp h.beside
  refine ⟨fun s hs => ?_, fun m' hm' => ?_, ?_⟩
  · rcases List.mem_append.mp hs with hs | hs
    · exact (hparts s hs).2.2
    · exact h.fits s (List.mem_cons_of_mem _ hs)
  · rcases List.mem_append.mp hm' with hm' | hm'
    · exact h.sound m' hm'
    · rw [List.mem_singleton.mp hm']
      exact ⟨hpos, hm.1.le_ahi.trans hr.ahi_le, hm.1.le_bhi.trans hr.bhi_le, hm.2⟩
  · -- the parts and the block in the place of the region
    have hperm : (splitAround r m ++ queue ++ (blocks ++ [m]).map Block.region).Perm
        ((splitAround r m ++ [m.region]) ++ (queue ++ blocks.map Block.region)) := by
      rw [List.map_append, List.map_singleton, List.append_assoc, List.append_assoc]
      refine List.Perm.append_left _ ?_
      rw [← List.append_assoc]
      exact List.perm_append_comm
    rw [hperm.pairwise_iff fun h => h.symm]
    refine List.pairwise_append.mpr ⟨List.pairwise_append.mpr ⟨hpair, List.pairwise_singleton _ _,
      fun s hs t ht => ?_⟩, hothers, fun s hs t ht => ?_⟩
    · rw [List.mem_singleton.mp ht]
      exact (hparts s hs).2.1
    · have hwithin : s.Within r := by
        rcases List.mem_append.mp hs with hs | hs
        · exact (hparts s hs).1
        · rw [List.mem_singleton.mp hs]
          exact region_within hm.1
      exact (hrest t ht).within hwithin

theorem QueueInv.drop {queue : List Region} {blocks : List Block} {r : Region}
    (h : QueueInv a b (r :: queue) blocks) : QueueInv a b queue blocks :=
  ⟨fun s hs => h.fits s (List.mem_cons_of_mem _ hs), h.sound, (List.pairwise_cons.mp h.beside).2⟩

def queueCost (queue : List Region) : Nat :=
  (queue.map fun r => 2 * (r.ahi - r.alo) + 1).sum

theorem queueCost_cons (r : Region) (queue : List Region) :
    queueCost (r :: queue) = 2 * (r.ahi - r.alo) + 1 + queueCost queue := rfl

theorem queueCost_splitAround {r : Region} {m : Block} (hm : Inside r m) (hpos : 0 < m.size)
    (queue : List Region) : queueCost (splitAround r m ++ queue) < queueCost (r :: queue) := by
  obtain ⟨h1, h2, -, -⟩ := hm
  unfold splitAround
  split <;> split <;>
    simp only [List.cons_append, List.nil_append, queueCost_cons] <;> omega

theorem queueLoop_spec [DecidableEq α] (fuel : Nat) (queue : List Region) (blocks : List Block)
    (h : QueueInv a b queue blocks) (hfuel : queueCost queue ≤ fuel) :
    ∃ blocks', queueLoop a b fuel queue blocks = some blocks' ∧ QueueInv a b [] blocks' := by
  induction fuel generalizing queue blocks with
  | zero =>
      cases queue with
      | nil => exact ⟨blocks, by simp [queueLoop], h⟩
      | cons r queue =>
          rw [queueCost_cons] at hfuel
          omega
  | succ fuel ih =>
      cases queue with
      | nil => exact ⟨blocks, by simp [queueLoop], h⟩
      | cons r queue =>
          have hm := findLongestMatch_spec (h.fits r List.mem_cons_self)
          rw [queueLoop]
          split
          · rename_i hpos
            have hcost := queueCost_splitAround hm.1 hpos queue
            exact ih _ _ (h.step hm hpos) (by omega)
          · rw [queueCost_cons] at hfuel
            exact ih _ _ h.drop (by omega)

theorem queueLoop_mono [DecidableEq α] {fuel fuel' : Nat} {queue : List Region}
    {blocks blocks' : List Block} (h : queueLoop a b fuel queue blocks = some blocks')
    (hle : fuel ≤ fuel') :
    queueLoop a b fuel' queue blocks = some blocks' := by
  induction fuel generalizing fuel' queue blocks with
  | zero =>
      cases queue with
      | nil => simpa [queueLoop] using h
      | cons r queue => simp [queueLoop] at h
  | succ fuel ih =>
      cases queue with
      | nil => simpa [queueLoop] using h
      | cons r queue =>
          obtain ⟨fuel', rfl⟩ : ∃ k, fuel' = k + 1 := ⟨fuel' - 1, by omega⟩
          rw [queueLoop] at h ⊢
          split
          · rename_i hpos
            rw [if_pos hpos] at h
            exact ih h (by omega)
          · rename_i hpos
            rw [if_neg hpos] at h
            exact ih h (by omega)

theorem queueInv_init (a b : List α) : QueueInv a b [whole a b] [] := by
  refine ⟨fun r hr => ?_, by simp, List.pairwise_singleton _ _⟩
  rw [List.mem_singleton.mp hr]
  exact ⟨Nat.zero_le _, Nat.le_refl _, Nat.zero_le _, Nat.le_refl _⟩

/-! ## Sorting and merging -/

/-- Blocks that follow one another from `(i, j)` on. -/
def Ordered (a b : List α) : Nat → Nat → List Block → Prop
  | _, _, [] => True
  | i, j, m :: ms =>
      i ≤ m.i ∧ j ≤ m.j ∧ m.Sound a b ∧ Ordered a b (m.i + m.size) (m.j + m.size) ms

theorem Block.le_trans (p q r : Block) (hpq : p.le q = true) (hqr : q.le r = true) :
    p.le r = true := by
  simp only [Block.le, Bool.or_eq_true, Bool.and_eq_true, decide_eq_true_eq, beq_iff_eq] at *
  omega

theorem Block.le_total (p q : Block) : (p.le q || q.le p) = true := by
  simp only [Block.le, Bool.or_eq_true, Bool.and_eq_true, decide_eq_true_eq, beq_iff_eq]
  omega

theorem before_of_le {p q : Block} (hbeside : p.region.Beside q.region) (hle : p.le q = true)
    (hq : 0 < q.size) : p.region.Before q.region := by
  rcases hbeside with h | ⟨h, -⟩
  · exact h
  · simp only [Block.le, Bool.or_eq_true, Bool.and_eq_true, decide_eq_true_eq, beq_iff_eq,
      Block.region] at hle h
    omega

theorem ordered_of_pairwise {blocks : List Block} (hsound : ∀ m ∈ blocks, m.Sound a b)
    (hpair : blocks.Pairwise fun p q => p.region.Before q.region) (i j : Nat)
    (hstart : ∀ m ∈ blocks, i ≤ m.i ∧ j ≤ m.j) : Ordered a b i j blocks := by
  induction blocks generalizing i j with
  | nil => trivial
  | cons m ms ih =>
      obtain ⟨hm, hms⟩ := List.pairwise_cons.mp hpair
      obtain ⟨hi, hj⟩ := hstart m List.mem_cons_self
      exact ⟨hi, hj, hsound m List.mem_cons_self,
        ih (fun m' hm' => hsound m' (List.mem_cons_of_mem _ hm')) hms _ _ fun m' hm' => hm m' hm'⟩

theorem ordered_sorted {blocks : List Block} (h : QueueInv a b [] blocks) :
    Ordered a b 0 0 (blocks.mergeSort Block.le) := by
  have hperm := List.mergeSort_perm blocks Block.le
  have hsound : ∀ m ∈ blocks.mergeSort Block.le, m.Sound a b := fun m hm =>
    h.sound m (hperm.mem_iff.mp hm)
  have hbeside : (blocks.mergeSort Block.le).Pairwise fun p q => p.region.Beside q.region := by
    rw [hperm.pairwise_iff fun h => h.symm]
    exact List.pairwise_map.mp h.beside
  refine ordered_of_pairwise hsound ?_ 0 0 fun m _ => ⟨Nat.zero_le _, Nat.zero_le _⟩
  have hsorted := List.pairwise_mergeSort Block.le_trans Block.le_total blocks
  refine (hbeside.and hsorted).imp_of_mem fun {p q} _ hq h => ?_
  exact before_of_le h.1 h.2 (hsound q hq).pos

theorem matches_append {i j k l : Nat} (h : Matches a b ⟨i, j, k⟩)
    (h' : Matches a b ⟨i + k, j + k, l⟩) : Matches a b ⟨i, j, k + l⟩ := by
  intro t ht
  rcases Nat.lt_or_ge t k with hlt | hge
  · exact h t hlt
  · have hst := h' (t - k) (by simp only at ht ⊢; omega)
    simp only at hst ⊢
    rwa [show i + k + (t - k) = i + t by omega, show j + k + (t - k) = j + t by omega] at hst

theorem ordered_mergeBlocks (cur : Block) (ms : List Block) (i j : Nat) (hi : i ≤ cur.i)
    (hj : j ≤ cur.j) (hcur : 0 < cur.size → cur.Sound a b)
    (h : Ordered a b (cur.i + cur.size) (cur.j + cur.size) ms) :
    Ordered a b i j (mergeBlocks cur ms) := by
  induction ms generalizing cur i j with
  | nil =>
      rw [mergeBlocks]
      split
      · rename_i hpos
        exact ⟨hi, hj, hcur hpos, trivial⟩
      · trivial
  | cons m ms ih =>
      obtain ⟨hmi, hmj, hm, hms⟩ := h
      rw [mergeBlocks]
      split
      · -- adjacent: the lines of both blocks are equal
        rename_i hadj
        have hlines : Matches a b ⟨cur.i, cur.j, cur.size + m.size⟩ := by
          have hm' : Matches a b ⟨cur.i + cur.size, cur.j + cur.size, m.size⟩ := by
            rw [hadj.1, hadj.2]
            exact hm.lines
          rcases Nat.eq_zero_or_pos cur.size with hz | hpos
          · rw [hz] at hm' ⊢
            rw [Nat.zero_add]
            exact hm'
          · exact matches_append (hcur hpos).lines hm'
        have hla := hm.le_a
        have hlb := hm.le_b
        refine ih { cur with size := cur.size + m.size } i j hi hj
          (fun hpos => ⟨hpos, by simp only; omega, by simp only; omega, hlines⟩) ?_
        simp only
        rwa [← Nat.add_assoc, ← Nat.add_assoc, hadj.1, hadj.2]
      · split
        · rename_i hpos
          exact ⟨hi, hj, hcur hpos, ih m _ _ hmi hmj (fun _ => hm) hms⟩
        · exact ih m i j (by omega) (by omega) (fun _ => hm) hms

theorem matchingBlocks_spec [DecidableEq α] (a b : List α) : ∃ ms, Ordered a b 0 0 ms ∧
    matchingBlocks a b = ms ++ [{ i := a.length, j := b.length, size := 0 }] := by
  obtain ⟨blocks, hloop, hinv⟩ := queueLoop_spec (2 * a.length + 1) [whole a b] []
    (queueInv_init a b) (by simp [queueCost, whole])
  refine ⟨_, ?_, rfl⟩
  rw [hloop]
  exact ordered_mergeBlocks _ _ 0 0 (Nat.le_refl _) (Nat.le_refl _)
    (fun h => absurd h (Nat.lt_irrefl 0)) (ordered_sorted hinv)

theorem Ordered.le {ms : List Block} {i j : Nat} (h : Ordered a b i j ms) {m : Block}
    (hm : m ∈ ms) : i ≤ m.i ∧ j ≤ m.j ∧ m.Sound a b := by
  induction ms generalizing i j with
  | nil => cases hm
  | cons m' ms ih =>
      obtain ⟨hi, hj, hsound, hms⟩ := h
      rcases List.mem_cons.mp hm with rfl | hm
      · exact ⟨hi, hj, hsound⟩
      · obtain ⟨hi', hj', hsound'⟩ := ih hms hm
        exact ⟨by omega, by omega, hsound'⟩

theorem Ordered.pairwise {ms : List Block} {i j : Nat} (h : Ordered a b i j ms) :
    ms.Pairwise fun p q => p.i < q.i ∧ p.j < q.j := by
  induction ms generalizing i j with
  | nil => exact List.Pairwise.nil
  | cons m ms ih =>
      obtain ⟨-, -, hsound, hms⟩ := h
      refine List.pairwise_cons.mpr ⟨fun m' hm' => ?_, ih hms⟩
      have hle := hms.le hm'
      have hpos := hsound.pos
      omega

theorem matchingBlocks_pairwise [DecidableEq α] (a b : List α) :
    (matchingBlocks a b).Pairwise fun p q => p.i < q.i ∧ p.j < q.j := by
  obtain ⟨ms, hms, heq⟩ := matchingBlocks_spec a b
  rw [heq]
  refine List.pairwise_append.mpr ⟨hms.pairwise, List.pairwise_singleton _ _, fun m hm s hs => ?_⟩
  have hsound := (hms.le hm).2.2
  have hla := hsound.le_a
  have hlb := hsound.le_b
  have hpos := hsound.pos
  rw [List.mem_singleton.mp hs]
  simp only
  omega

/-! ## The opcodes -/

/-- An opcode that says something true. -/
structure Opcode.Valid (a b : List α) (c : Opcode) : Prop where
  i_le : c.i1 ≤ c.i2
  le_a : c.i2 ≤ a.length
  j_le : c.j1 ≤ c.j2
  le_b : c.j2 ≤ b.length
  delete : c.tag = .delete → c.j1 = c.j2
  insert : c.tag = .insert → c.i1 = c.i2
  equal : c.tag = .equal → c.i2 + c.j1 = c.i1 + c.j2 ∧ Matches a b ⟨c.i1, c.j1, c.i2 - c.i1⟩

/-- Valid opcodes, each from where the one in front ends, that lead from `(i, j)` to
`(i', j')`. -/
def Tiles (a b : List α) : Nat → Nat → List Opcode → Nat → Nat → Prop
  | i, j, [], i', j' => i = i' ∧ j = j'
  | i, j, c :: cs, i', j' => c.i1 = i ∧ c.j1 = j ∧ c.Valid a b ∧ Tiles a b c.i2 c.j2 cs i' j'

theorem Tiles.append {cs ds : List Opcode} {i j i' j' i'' j'' : Nat} (h : Tiles a b i j cs i' j')
    (h' : Tiles a b i' j' ds i'' j'') : Tiles a b i j (cs ++ ds) i'' j'' := by
  induction cs generalizing i j with
  | nil =>
      obtain ⟨rfl, rfl⟩ := h
      exact h'
  | cons c cs ih =>
      obtain ⟨h1, h2, hvalid, hcs⟩ := h
      exact ⟨h1, h2, hvalid, ih hcs⟩

theorem tiles_one {c : Opcode} (h : c.Valid a b) : Tiles a b c.i1 c.j1 [c] c.i2 c.j2 :=
  ⟨rfl, rfl, h, rfl, rfl⟩

theorem tiles_between {i j : Nat} {m : Block} (hi : i ≤ m.i) (hj : j ≤ m.j)
    (hla : m.i ≤ a.length) (hlb : m.j ≤ b.length) :
    Tiles a b i j (between i j m) m.i m.j := by
  unfold between
  by_cases hlt : i < m.i <;> by_cases hlt' : j < m.j
  · simp only [hlt, hlt', and_self, if_true]
    exact tiles_one ⟨hi, hla, hj, hlb, nofun, nofun, nofun⟩
  · simp only [hlt, hlt', and_false, if_false, if_true]
    exact tiles_one ⟨hi, hla, hj, hlb, fun _ => Nat.le_antisymm hj (Nat.not_lt.mp hlt'),
      nofun, nofun⟩
  · simp only [hlt, hlt', false_and, if_false, if_true]
    exact tiles_one ⟨hi, hla, hj, hlb, nofun,
      fun _ => Nat.le_antisymm hi (Nat.not_lt.mp hlt), nofun⟩
  · simp only [hlt, hlt', false_and, if_false]
    exact ⟨Nat.le_antisymm hi (Nat.not_lt.mp hlt), Nat.le_antisymm hj (Nat.not_lt.mp hlt')⟩

theorem tiles_same {m : Block} (hm : m.Sound a b) :
    Tiles a b m.i m.j (same m) (m.i + m.size) (m.j + m.size) := by
  rw [same, if_pos hm.pos]
  refine tiles_one ⟨Nat.le_add_right _ _, hm.le_a, Nat.le_add_right _ _, hm.le_b, nofun, nofun,
    fun _ => ⟨?_, ?_⟩⟩
  · simp only
    omega
  · simp only [Nat.add_sub_cancel_left]
    exact hm.lines

theorem tiles_opcodesFrom (ms : List Block) (i j : Nat) (hi : i ≤ a.length) (hj : j ≤ b.length)
    (h : Ordered a b i j ms) :
    Tiles a b i j (opcodesFrom i j (ms ++ [{ i := a.length, j := b.length, size := 0 }]))
      a.length b.length := by
  induction ms generalizing i j with
  | nil =>
      have hend := tiles_between (m := { i := a.length, j := b.length, size := 0 }) hi hj
        (Nat.le_refl _) (Nat.le_refl _)
      simpa [opcodesFrom, same] using hend
  | cons m ms ih =>
      obtain ⟨hmi, hmj, hm, hms⟩ := h
      have hla := hm.le_a
      have hlb := hm.le_b
      exact ((tiles_between hmi hmj (by omega) (by omega)).append (tiles_same hm)).append
        (ih _ _ hla hlb hms)

theorem tiles_opcodes [DecidableEq α] (a b : List α) :
    Tiles a b 0 0 (opcodes a b) a.length b.length := by
  obtain ⟨ms, hms, heq⟩ := matchingBlocks_spec a b
  rw [opcodes, heq]
  exact tiles_opcodesFrom ms 0 0 (Nat.zero_le _) (Nat.zero_le _) hms

theorem Tiles.ge {cs : List Opcode} {i j i' j' : Nat} (h : Tiles a b i j cs i' j') {c : Opcode}
    (hc : c ∈ cs) : i ≤ c.i1 ∧ j ≤ c.j1 ∧ c.Valid a b := by
  induction cs generalizing i j with
  | nil => cases hc
  | cons d cs ih =>
      obtain ⟨rfl, rfl, hvalid, hcs⟩ := h
      rcases List.mem_cons.mp hc with rfl | hc
      · exact ⟨Nat.le_refl _, Nat.le_refl _, hvalid⟩
      · obtain ⟨hi, hj, hvalid'⟩ := ih hcs hc
        exact ⟨hvalid.i_le.trans hi, hvalid.j_le.trans hj, hvalid'⟩

theorem Tiles.pairwise {cs : List Opcode} {i j i' j' : Nat} (h : Tiles a b i j cs i' j') :
    cs.Pairwise fun c d => c.i2 ≤ d.i1 ∧ c.j2 ≤ d.j1 := by
  induction cs generalizing i j with
  | nil => exact List.Pairwise.nil
  | cons c cs ih =>
      obtain ⟨-, -, -, hcs⟩ := h
      exact List.pairwise_cons.mpr ⟨fun d hd => ⟨(hcs.ge hd).1, (hcs.ge hd).2.1⟩, ih hcs⟩

theorem Tiles.covers_a {cs : List Opcode} {i j i' j' : Nat} (h : Tiles a b i j cs i' j') {k : Nat}
    (hk : i ≤ k) (hk' : k < i') : ∃ c ∈ cs, c.i1 ≤ k ∧ k < c.i2 := by
  induction cs generalizing i j with
  | nil =>
      obtain ⟨rfl, -⟩ := h
      omega
  | cons c cs ih =>
      obtain ⟨rfl, -, -, hcs⟩ := h
      rcases Nat.lt_or_ge k c.i2 with hlt | hge
      · exact ⟨c, List.mem_cons_self, hk, hlt⟩
      · obtain ⟨d, hd, hcover⟩ := ih hcs hge
        exact ⟨d, List.mem_cons_of_mem _ hd, hcover⟩

theorem Tiles.covers_b {cs : List Opcode} {i j i' j' : Nat} (h : Tiles a b i j cs i' j') {k : Nat}
    (hk : j ≤ k) (hk' : k < j') : ∃ c ∈ cs, c.j1 ≤ k ∧ k < c.j2 := by
  induction cs generalizing i j with
  | nil =>
      obtain ⟨-, rfl⟩ := h
      omega
  | cons c cs ih =>
      obtain ⟨-, rfl, -, hcs⟩ := h
      rcases Nat.lt_or_ge k c.j2 with hlt | hge
      · exact ⟨c, List.mem_cons_self, hk, hlt⟩
      · obtain ⟨d, hd, hcover⟩ := ih hcs hge
        exact ⟨d, List.mem_cons_of_mem _ hd, hcover⟩

/-- In a list where elements at two places exclude each other, a property of some element
holds at exactly one place. -/
theorem existsUnique_getElem {β : Type} {cs : List β} {p : β → Prop} {R : β → β → Prop}
    (hpair : cs.Pairwise R) (hR : ∀ c d, R c d → p c → ¬ p d) (h : ∃ c ∈ cs, p c) :
    ∃! k : Nat, ∃ c, cs[k]? = some c ∧ p c := by
  obtain ⟨c, hc, hp⟩ := h
  obtain ⟨k, hk⟩ := List.mem_iff_getElem?.mp hc
  refine ⟨k, ⟨c, hk, hp⟩, fun l ⟨d, hl, hd⟩ => ?_⟩
  obtain ⟨hklt, hkget⟩ := List.getElem?_eq_some_iff.mp hk
  obtain ⟨hllt, hlget⟩ := List.getElem?_eq_some_iff.mp hl
  rcases Nat.lt_trichotomy l k with hlt | heq | hlt
  · have := List.pairwise_iff_getElem.mp hpair l k hllt hklt hlt
    rw [hkget, hlget] at this
    exact absurd hp (hR d c this hd)
  · exact heq
  · have := List.pairwise_iff_getElem.mp hpair k l hklt hllt hlt
    rw [hkget, hlget] at this
    exact absurd hd (hR c d this hp)

end Difflib

end Dagayn
