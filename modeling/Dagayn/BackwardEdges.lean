import Mathlib

/-!
# The backward edges of an order

Weighted edges between members of a list. `Peeled` are the orders that come from taking one
member after the other: to the end when nothing leaves it, to the front when at least as much
leaves it as enters it. In such an order the edges that point backwards weigh at most half of all
(`Peeled.two_mul_backward_le`), and some member can always be taken (`exists_into_le_out`).
-/

namespace Dagayn

structure Arcs (V E : Type) where
  edges : List E
  source : E → V
  target : E → V
  weight : E → Nat

namespace Arcs

section Load

variable {E : Type} (weight : E → Nat) (edges : List E)

def load (p : E → Prop) [DecidablePred p] : Nat := ((edges.filter (p ·)).map weight).sum

variable {weight edges}

theorem load_congr {p q : E → Prop} [DecidablePred p] [DecidablePred q]
    (h : ∀ e ∈ edges, p e ↔ q e) : load weight edges p = load weight edges q := by
  rw [load, load, List.filter_congr fun e he => decide_eq_decide.mpr (h e he)]

theorem load_split {p q r : E → Prop} [DecidablePred p] [DecidablePred q] [DecidablePred r]
    (h : ∀ e ∈ edges, (p e ↔ q e ∨ r e) ∧ ¬(q e ∧ r e)) :
    load weight edges p = load weight edges q + load weight edges r := by
  induction edges with
  | nil => rfl
  | cons e edges ih =>
      have ih := ih fun e' he' => h e' (List.mem_cons_of_mem _ he')
      obtain ⟨hor, hand⟩ := h e List.mem_cons_self
      simp only [load, List.filter_cons, decide_eq_true_eq, hor] at ih ⊢
      by_cases hq : q e <;> by_cases hr : r e
      · exact absurd ⟨hq, hr⟩ hand
      all_goals simp [hq, hr, ih]; try omega

theorem load_none {p : E → Prop} [DecidablePred p] (h : ∀ e ∈ edges, ¬p e) :
    load weight edges p = 0 := by
  rw [load, List.filter_eq_nil_iff.mpr fun e he => by simpa using h e he]
  rfl

/-- Where no two edges have a property, the first that has it is all that they weigh. -/
theorem load_find? (weight : E → Nat) {p : E → Prop} [DecidablePred p]
    (h : edges.Pairwise fun e e' => ¬(p e ∧ p e')) :
    (edges.find? (p ·)).elim 0 weight = load weight edges p := by
  induction edges with
  | nil => rfl
  | cons e edges ih =>
      obtain ⟨hnew, hrest⟩ := List.pairwise_cons.mp h
      by_cases he : p e
      · have hnone : edges.filter (p ·) = [] := by
          refine List.filter_eq_nil_iff.mpr fun e' he' => ?_
          rw [decide_eq_true_eq]
          exact fun hp => hnew e' he' ⟨he, hp⟩
        simp [load, he, hnone]
      · rw [List.find?_cons_of_neg (by simp [he]), ih hrest]
        simp [load, he]

end Load

section Orders

def swap {V E : Type} (a : Arcs V E) : Arcs V E :=
  { a with source := a.target, target := a.source }

def Loopless {V E : Type} (a : Arcs V E) : Prop := ∀ e ∈ a.edges, a.source e ≠ a.target e

theorem Loopless.swap {V E : Type} {a : Arcs V E} (h : a.Loopless) : a.swap.Loopless :=
  fun e he => (h e he).symm

variable {V E : Type} [DecidableEq V] (a : Arcs V E)

def outload (x : V) (R : List V) : Nat :=
  load a.weight a.edges fun e => a.source e = x ∧ a.target e ∈ R

def inload (x : V) (R : List V) : Nat := outload a.swap x R

def within (R : List V) : Nat := load a.weight a.edges fun e => a.source e ∈ R ∧ a.target e ∈ R

/-- What points from a member of an order to an earlier one. -/
def backward (l : List V) : Nat :=
  load a.weight a.edges fun e => (a.source e ∈ l ∧ a.target e ∈ l) ∧
    l.idxOf (a.target e) < l.idxOf (a.source e)

/-- The orders of a set that come from taking its members one by one. -/
inductive Peeled : List V → List V → Prop
  | nil : Peeled [] []
  | head {x : V} {l R : List V} : x ∈ R → inload a x R ≤ outload a x R →
      Peeled l (R.erase x) → Peeled (x :: l) R
  | last {x : V} {l R : List V} : x ∈ R → outload a x R = 0 →
      Peeled l (R.erase x) → Peeled (l ++ [x]) R

variable {a}

theorem Peeled.perm {l R : List V} (h : Peeled a l R) : l.Perm R := by
  induction h with
  | nil => exact .refl _
  | head hx _ _ ih => exact (ih.cons _).trans (List.perm_cons_erase hx).symm
  | last hx _ _ ih =>
      exact List.perm_append_comm.trans ((ih.cons _).trans (List.perm_cons_erase hx).symm)

/-! ## Taking the members of a set -/

theorem sum_load_fibre {p : E → Prop} [DecidablePred p] (f : E → V) {R : List V} (hR : R.Nodup) :
    (R.map fun x => load a.weight a.edges fun e => f e = x ∧ p e).sum =
      load a.weight a.edges fun e => f e ∈ R ∧ p e := by
  induction R with
  | nil => exact (load_none fun e _ hin => List.not_mem_nil hin.1).symm
  | cons x R ih =>
      obtain ⟨hx, hR⟩ := List.nodup_cons.mp hR
      rw [List.map_cons, List.sum_cons, ih hR]
      refine (load_split fun e _ => ⟨by rw [List.mem_cons, or_and_right], ?_⟩).symm
      rintro ⟨⟨heq, -⟩, hin, -⟩
      exact hx (heq ▸ hin)

theorem sum_outload (R S : List V) (hR : R.Nodup) :
    (R.map fun x => outload a x S).sum =
      load a.weight a.edges fun e => a.source e ∈ R ∧ a.target e ∈ S :=
  sum_load_fibre a.source hR

theorem outload_eq_sum (x : V) {R : List V} (hR : R.Nodup) :
    outload a x R =
      (R.map fun y => load a.weight a.edges fun e => a.source e = x ∧ a.target e = y).sum := by
  have hswap : ∀ y, (load a.weight a.edges fun e => a.source e = x ∧ a.target e = y) =
      load a.weight a.edges fun e => a.target e = y ∧ a.source e = x := fun y =>
    load_congr fun e _ => and_comm
  simp only [hswap, sum_load_fibre a.target hR]
  exact load_congr fun e _ => and_comm

/-- As much leaves the members of a set for the set as enters them from it, so for one of them
what leaves is at least what enters. -/
theorem exists_inload_le_outload {R : List V} (hR : R.Nodup) (hne : R ≠ []) :
    ∃ x ∈ R, inload a x R ≤ outload a x R := by
  by_contra hall
  push Not at hall
  have hin : (R.map fun x => inload a x R).sum =
      load a.weight a.edges fun e => a.target e ∈ R ∧ a.source e ∈ R :=
    sum_outload (a := a.swap) R R hR
  have hout := sum_outload (a := a) R R hR
  have hsame : (load a.weight a.edges fun e => a.target e ∈ R ∧ a.source e ∈ R) =
      load a.weight a.edges fun e => a.source e ∈ R ∧ a.target e ∈ R :=
    load_congr fun e _ => and_comm
  have hlt := List.sum_lt_sum_of_ne_nil hne _ _ hall
  rw [hout, ← hsame, ← hin] at hlt
  exact lt_irrefl _ hlt

/-! ## What points backwards -/

variable {x : V} {l R : List V}

theorem outload_congr (hloop : a.Loopless) (h : ∀ y, y ≠ x → (y ∈ R ↔ y ∈ l)) :
    outload a x R = outload a x l := by
  refine load_congr fun e he => and_congr_right fun heq => h (a.target e) ?_
  exact heq ▸ (hloop e he).symm

theorem within_perm (h : l.Perm R) : within a l = within a R :=
  load_congr fun e _ => by rw [h.mem_iff, h.mem_iff]

theorem within_cons (hx : x ∉ l) (hloop : a.Loopless) :
    within a (x :: l) = outload a x l + inload a x l + within a l := by
  have hends : load a.weight a.edges (fun e => (a.source e = x ∧ a.target e ∈ l) ∨
      (a.target e = x ∧ a.source e ∈ l)) = outload a x l + inload a x l := by
    refine load_split fun e _ => ⟨Iff.rfl, ?_⟩
    rintro ⟨⟨heq, -⟩, -, hin⟩
    exact hx (heq ▸ hin)
  rw [← hends]
  refine load_split fun e he => ⟨?_, ?_⟩
  · have hne := hloop e he
    simp only [List.mem_cons]
    constructor
    · rintro ⟨hs | hs, ht | ht⟩
      · exact absurd (hs.trans ht.symm) hne
      · exact .inl (.inl ⟨hs, ht⟩)
      · exact .inl (.inr ⟨ht, hs⟩)
      · exact .inr ⟨hs, ht⟩
    · rintro ((⟨hs, ht⟩ | ⟨ht, hs⟩) | ⟨hs, ht⟩)
      · exact ⟨.inl hs, .inr ht⟩
      · exact ⟨.inr hs, .inl ht⟩
      · exact ⟨.inr hs, .inr ht⟩
  · rintro ⟨⟨heq, -⟩ | ⟨heq, -⟩, hs, ht⟩
    · exact hx (heq ▸ hs)
    · exact hx (heq ▸ ht)

theorem backward_cons (hx : x ∉ l) :
    backward a (x :: l) = inload a x l + backward a l := by
  have hpos : ∀ y ∈ l, (x :: l).idxOf y = l.idxOf y + 1 := fun y hy =>
    List.idxOf_cons_ne _ fun heq => hx (heq ▸ hy)
  refine load_split fun e _ => ⟨?_, ?_⟩
  · constructor
    · rintro ⟨⟨hs, ht⟩, hlt⟩
      rcases List.mem_cons.mp hs with hs | hs
      · rw [hs, List.idxOf_cons_self] at hlt
        exact absurd hlt (Nat.not_lt_zero _)
      · rcases List.mem_cons.mp ht with ht | ht
        · exact .inl ⟨ht, hs⟩
        · rw [hpos _ hs, hpos _ ht] at hlt
          exact .inr ⟨⟨hs, ht⟩, Nat.lt_of_succ_lt_succ hlt⟩
    · rintro (⟨ht, hs⟩ | ⟨⟨hs, ht⟩, hlt⟩)
      · change a.target e = x at ht
        change a.source e ∈ l at hs
        refine ⟨⟨List.mem_cons_of_mem _ hs, ht ▸ List.mem_cons_self⟩, ?_⟩
        rw [ht, List.idxOf_cons_self, hpos _ hs]
        exact Nat.succ_pos _
      · refine ⟨⟨List.mem_cons_of_mem _ hs, List.mem_cons_of_mem _ ht⟩, ?_⟩
        rw [hpos _ hs, hpos _ ht]
        exact Nat.succ_lt_succ hlt
  · rintro ⟨⟨heq, -⟩, ⟨-, hin⟩, -⟩
    exact hx (heq ▸ hin)

theorem backward_concat (hx : x ∉ l) :
    backward a (l ++ [x]) = outload a x l + backward a l := by
  have hpos : ∀ y ∈ l, (l ++ [x]).idxOf y = l.idxOf y := fun y hy => List.idxOf_append_of_mem hy
  have hlast : (l ++ [x]).idxOf x = l.length := by
    rw [List.idxOf_append_of_notMem hx, List.idxOf_cons_self, Nat.add_zero]
  refine load_split fun e _ => ⟨?_, ?_⟩
  · simp only [List.mem_append, List.mem_singleton]
    constructor
    · rintro ⟨⟨hs | hs, ht | ht⟩, hlt⟩
      · rw [hpos _ hs, hpos _ ht] at hlt
        exact .inr ⟨⟨hs, ht⟩, hlt⟩
      · rw [hpos _ hs, ht, hlast] at hlt
        exact absurd (List.idxOf_lt_length_of_mem hs) (not_lt_of_gt hlt)
      · exact .inl ⟨hs, ht⟩
      · rw [hs, ht] at hlt
        exact absurd hlt (lt_irrefl _)
    · rintro (⟨hs, ht⟩ | ⟨⟨hs, ht⟩, hlt⟩)
      · refine ⟨⟨.inr hs, .inl ht⟩, ?_⟩
        rw [hs, hlast, hpos _ ht]
        exact List.idxOf_lt_length_of_mem ht
      · refine ⟨⟨.inl hs, .inl ht⟩, ?_⟩
        rw [hpos _ hs, hpos _ ht]
        exact hlt
  · rintro ⟨⟨heq, -⟩, ⟨hin, -⟩, -⟩
    exact hx (heq ▸ hin)

theorem Peeled.two_mul_backward_le (h : Peeled a l R) (hR : R.Nodup) (hloop : a.Loopless) :
    2 * backward a l ≤ within a R := by
  induction h with
  | nil => simp [backward, load_none]
  | @head x l R hx hle hpeeled ih =>
      have hperm := hpeeled.perm
      have hnew : x ∉ l := fun hin => hR.not_mem_erase (hperm.mem_iff.mp hin)
      have hsame : ∀ y, y ≠ x → (y ∈ R ↔ y ∈ l) := fun y hy => by
        rw [hperm.mem_iff, List.mem_erase_of_ne hy]
      have hout := outload_congr hloop hsame
      have hin : inload a x R = inload a x l := outload_congr hloop.swap hsame
      have ih := ih (hR.erase x)
      have htotal := within_perm (a := a) (hpeeled.head hx hle).perm
      rw [within_cons hnew hloop, within_perm hperm] at htotal
      rw [backward_cons hnew]
      omega
  | @last x l R hx hnone hpeeled ih =>
      have hperm := hpeeled.perm
      have hnew : x ∉ l := fun hin => hR.not_mem_erase (hperm.mem_iff.mp hin)
      have hsame : ∀ y, y ≠ x → (y ∈ R ↔ y ∈ l) := fun y hy => by
        rw [hperm.mem_iff, List.mem_erase_of_ne hy]
      have hout := outload_congr hloop hsame
      have ih := ih (hR.erase x)
      have htotal := within_perm (a := a) ((hperm.cons x).trans (List.perm_cons_erase hx).symm)
      rw [within_cons hnew hloop, within_perm hperm] at htotal
      rw [backward_concat hnew]
      omega

end Orders

end Arcs

end Dagayn
