import Mathlib

/-!
# Sorting and removing neighbours

`Vec::dedup` drops elements equal to the one in front; on a sorted list that leaves
every element once.
-/

namespace Dagayn

section Sorted

variable {α β : Type} [DecidableEq α] [DecidableEq β]

/-- `Vec::dedup`. -/
def dedupAdjacent : List α → List α
  | a :: b :: l => if a = b then dedupAdjacent (b :: l) else a :: dedupAdjacent (b :: l)
  | l => l

theorem mem_dedupAdjacent {x : α} : ∀ {l : List α}, x ∈ dedupAdjacent l ↔ x ∈ l
  | [] => Iff.rfl
  | [a] => Iff.rfl
  | a :: b :: l => by
      rw [dedupAdjacent]
      split
      · rename_i hab
        rw [mem_dedupAdjacent, hab]
        simp
      · rw [List.mem_cons, mem_dedupAdjacent, ← List.mem_cons]

theorem map_dedupAdjacent {f : α → β} (hf : Function.Injective f) : ∀ l : List α,
    (dedupAdjacent l).map f = dedupAdjacent (l.map f)
  | [] => rfl
  | [a] => rfl
  | a :: b :: l => by
      rw [List.map_cons, List.map_cons, dedupAdjacent, dedupAdjacent]
      by_cases hab : a = b
      · rw [if_pos hab, if_pos (congrArg f hab), map_dedupAdjacent hf (b :: l)]
        rfl
      · rw [if_neg hab, if_neg (fun h => hab (hf h)), List.map_cons,
          map_dedupAdjacent hf (b :: l)]
        rfl

end Sorted

theorem dedupAdjacent_pairwise {α : Type} [LinearOrder α] [DecidableEq α] : ∀ {l : List α},
    l.Pairwise (· ≤ ·) → (dedupAdjacent l).Pairwise (· < ·)
  | [], _ => List.Pairwise.nil
  | [a], _ => List.pairwise_singleton _ a
  | a :: b :: l, h => by
      have htail := dedupAdjacent_pairwise (List.pairwise_cons.mp h).2
      rw [dedupAdjacent]
      split
      · exact htail
      · rename_i hne
        refine List.pairwise_cons.mpr ⟨fun x hx => ?_, htail⟩
        have hle : a ≤ b := (List.pairwise_cons.mp h).1 b List.mem_cons_self
        rcases List.mem_cons.mp (mem_dedupAdjacent.mp hx) with rfl | hx
        · exact lt_of_le_of_ne hle hne
        · have hbx : b ≤ x :=
            (List.pairwise_cons.mp (List.pairwise_cons.mp h).2).1 x hx
          exact lt_of_lt_of_le (lt_of_le_of_ne hle hne) hbx

theorem dedupAdjacent_insertionSort {α : Type} [LinearOrder α] [DecidableEq α] [DecidableLE α]
    (l : List α) :
    dedupAdjacent (l.insertionSort (· ≤ ·)) = l.dedup.insertionSort (· ≤ ·) := by
  have hsorted := List.pairwise_insertionSort (· ≤ ·) l.dedup
  have hnodup : (l.dedup.insertionSort (· ≤ ·)).Nodup :=
    (List.perm_insertionSort _ _).nodup_iff.mpr (List.nodup_dedup l)
  have hlt : (l.dedup.insertionSort (· ≤ ·)).Pairwise (· < ·) :=
    (hsorted.and hnodup).imp fun h => lt_of_le_of_ne h.1 h.2
  refine (dedupAdjacent_pairwise (List.pairwise_insertionSort (· ≤ ·) l)).eq_of_mem_iff hlt
    fun x => ?_
  rw [mem_dedupAdjacent, List.mem_insertionSort, List.mem_insertionSort, List.mem_dedup]

section Key

variable {α κ : Type} [LinearOrder κ] (key : α → κ)

def sortBy (l : List α) : List α := l.insertionSort fun a b => key a ≤ key b

variable {key}

theorem sortBy_perm (key : α → κ) (l : List α) : (sortBy key l).Perm l :=
  List.perm_insertionSort _ l

theorem sortBy_pairwise (key : α → κ) (l : List α) :
    (sortBy key l).Pairwise fun a b => key a ≤ key b := by
  have : Std.Total fun a b : α => key a ≤ key b := ⟨fun a b => le_total (key a) (key b)⟩
  have : IsTrans α fun a b => key a ≤ key b := ⟨fun _ _ _ => le_trans⟩
  exact List.pairwise_insertionSort _ l

theorem sortBy_strict {l : List α} (h : (l.map key).Nodup) :
    (sortBy key l).Pairwise fun a b => key a < key b := by
  have hnodup := List.pairwise_map.mp (((sortBy_perm key l).map key).nodup_iff.mpr h)
  exact ((sortBy_pairwise key l).and hnodup).imp fun hle => lt_of_le_of_ne hle.1 hle.2

theorem sortBy_of_perm {l l' : List α} (h : l.Perm l')
    (hinj : ∀ a ∈ l, ∀ b ∈ l, key a = key b → a = b) : sortBy key l = sortBy key l' := by
  refine ((sortBy_perm key l).trans (h.trans (sortBy_perm key l').symm)).eq_of_pairwise
    (fun a b ha hb hab hba => ?_) (sortBy_pairwise key l) (sortBy_pairwise key l')
  exact hinj a ((sortBy_perm key l).mem_iff.mp ha) b
    (h.mem_iff.mpr ((sortBy_perm key l').mem_iff.mp hb)) (le_antisymm hab hba)

theorem sortBy_eq {l sorted : List α} (hl : l.Nodup)
    (hsorted : sorted.Pairwise fun a b => key a < key b) (hmem : ∀ a, a ∈ l ↔ a ∈ sorted) :
    sortBy key l = sorted := by
  have hkeys : (sorted.map key).Nodup := List.pairwise_map.mpr (hsorted.imp ne_of_lt)
  have hperm : l.Perm sorted :=
    (List.perm_ext_iff_of_nodup hl (List.Nodup.of_map key hkeys)).mpr hmem
  refine ((sortBy_perm key l).trans hperm).eq_of_pairwise (fun a b ha hb hab hba => ?_)
    (sortBy_pairwise key l) (hsorted.imp le_of_lt)
  have ha' : a ∈ sorted := ((sortBy_perm key l).trans hperm).mem_iff.mp ha
  exact List.inj_on_of_nodup_map hkeys ha' hb (le_antisymm hab hba)

theorem countP_eq_length_takeWhile {a : α} {l : List α}
    (h : l.Pairwise fun a b => key a ≤ key b) :
    l.countP (key · < key a) = (l.takeWhile fun b => ¬key a ≤ key b).length := by
  induction l with
  | nil => rfl
  | cons b l ih =>
      rw [List.pairwise_cons] at h
      by_cases hb : key a ≤ key b
      · have hnone : l.countP (key · < key a) = 0 := by
          refine List.countP_eq_zero.mpr fun c hc => ?_
          simpa using hb.trans (h.1 c hc)
        simp [hb, hnone]
      · simp [lt_of_not_ge hb, ih h.2]

theorem getElem?_sortBy_cons (a : α) (l : List α) :
    (sortBy key (a :: l))[l.countP (key · < key a)]? = some a := by
  have hinsert : sortBy key (a :: l) =
      ((sortBy key l).takeWhile fun b => ¬key a ≤ key b) ++
        a :: (sortBy key l).dropWhile fun b => ¬key a ≤ key b :=
    List.orderedInsert_eq_take_drop _ a _
  rw [hinsert, ← (sortBy_perm key l).countP_eq,
    countP_eq_length_takeWhile (sortBy_pairwise key l), List.getElem?_append_right le_rfl,
    Nat.sub_self]
  rfl

theorem exists_perm_getElem?_sortBy (key : α → κ) {l : List α} {a : α} (ha : a ∈ l) :
    ∃ l', l'.Perm l ∧ (sortBy key l')[l.countP (key · < key a)]? = some a := by
  obtain ⟨front, back, rfl⟩ := List.append_of_mem ha
  refine ⟨a :: (front ++ back), List.perm_middle.symm, ?_⟩
  have hcount : (front ++ a :: back).countP (key · < key a) =
      (front ++ back).countP (key · < key a) := by
    simp
  rw [hcount]
  exact getElem?_sortBy_cons a _

/-- The first `k` are the same in every order where those of one key have `k` in front. -/
theorem take_sortBy_of_perm {l l' : List α} {k : Nat} (h : l'.Perm l)
    (htie : ∀ a ∈ l, ∀ b ∈ l, key a = key b → a ≠ b → k ≤ l.countP (key · < key a)) :
    (sortBy key l').take k = (sortBy key l).take k := by
  have hperm : (sortBy key l').Perm (sortBy key l) :=
    (sortBy_perm key l').trans (h.trans (sortBy_perm key l).symm)
  have hkeys : (sortBy key l').map key = (sortBy key l).map key :=
    (hperm.map key).eq_of_pairwise (fun _ _ _ _ => le_antisymm)
      (List.pairwise_map.mpr (sortBy_pairwise key l'))
      (List.pairwise_map.mpr (sortBy_pairwise key l))
  refine List.ext_getElem? fun i => ?_
  rw [List.getElem?_take, List.getElem?_take]
  split
  · rename_i hi
    have hkey : ((sortBy key l').map key)[i]? = ((sortBy key l).map key)[i]? := by rw [hkeys]
    rw [List.getElem?_map, List.getElem?_map] at hkey
    cases hb : (sortBy key l)[i]? with
    | none =>
        rw [hb] at hkey
        exact Option.map_eq_none_iff.mp hkey
    | some b =>
        rw [hb] at hkey
        obtain ⟨a, ha, hab⟩ := Option.map_eq_some_iff.mp hkey
        rw [ha]
        by_contra hne
        have hmem : a ∈ l := h.mem_iff.mp
          ((sortBy_perm key l').mem_iff.mp (List.mem_of_getElem? ha))
        have hmem' : b ∈ l := (sortBy_perm key l).mem_iff.mp (List.mem_of_getElem? hb)
        have hk := htie b hmem' a hmem hab.symm fun heq => hne (congrArg some heq.symm)
        -- What has a smaller key than the element at `i` stands in front of `i`.
        have hfront : l.countP (key · < key b) ≤ i := by
          rw [← (sortBy_perm key l).countP_eq, ← List.take_append_drop i (sortBy key l),
            List.countP_append]
          have hback : ((sortBy key l).drop i).countP (fun c => decide (key c < key b)) = 0 := by
            refine List.countP_eq_zero.mpr fun c hc => ?_
            obtain ⟨j, hj⟩ := List.mem_iff_getElem?.mp hc
            rw [List.getElem?_drop] at hj
            rw [decide_eq_true_eq, not_lt]
            rcases Nat.eq_zero_or_pos j with rfl | hpos
            · rw [Nat.add_zero, hb] at hj
              obtain rfl := Option.some.inj hj
              exact le_rfl
            · obtain ⟨hlt, rfl⟩ := List.getElem?_eq_some_iff.mp hb
              obtain ⟨hlt', rfl⟩ := List.getElem?_eq_some_iff.mp hj
              exact List.pairwise_iff_getElem.mp (sortBy_pairwise key l) _ _ hlt hlt' (by omega)
          rw [hback, Nat.add_zero]
          exact List.countP_le_length.trans (List.length_take_le _ _)
        omega
  · rfl

theorem take_one_sortBy {l : List α} {a : α} (ha : a ∈ l)
    (hleast : ∀ b ∈ l, b ≠ a → key a < key b) : (sortBy key l).take 1 = [a] := by
  have hmem : a ∈ sortBy key l := (sortBy_perm key l).mem_iff.mpr ha
  cases hs : sortBy key l with
  | nil => rw [hs] at hmem; cases hmem
  | cons b rest =>
      have hb : b ∈ l := (sortBy_perm key l).mem_iff.mp (by rw [hs]; exact List.mem_cons_self)
      have hsorted := sortBy_pairwise key l
      rw [hs] at hsorted hmem
      by_cases hba : b = a
      · rw [hba]
        rfl
      · have hle : key b ≤ key a :=
          (List.pairwise_cons.mp hsorted).1 a ((List.mem_cons.mp hmem).resolve_left (Ne.symm hba))
        exact absurd (hleast b hb hba) (not_lt_of_ge hle)

theorem le_of_head?_sortBy {l : List α} {a : α} (h : (sortBy key l).head? = some a) :
    a ∈ l ∧ ∀ b ∈ l, key a ≤ key b := by
  obtain ⟨rest, hs⟩ := List.head?_eq_some_iff.mp h
  have hsorted := sortBy_pairwise key l
  rw [hs] at hsorted
  have hmem : ∀ b, b ∈ l ↔ b = a ∨ b ∈ rest := fun b => by
    rw [← (sortBy_perm key l).mem_iff, hs, List.mem_cons]
  refine ⟨(hmem a).mpr (.inl rfl), fun b hb => ?_⟩
  rcases (hmem b).mp hb with rfl | hb
  · exact le_rfl
  · exact (List.pairwise_cons.mp hsorted).1 b hb

end Key

end Dagayn
