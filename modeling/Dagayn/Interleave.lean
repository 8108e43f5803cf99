import Mathlib

/-!
# Interleavings

`Interleaves l own` says that the list `l` is a shuffle of the lists `own t`, one
per owner `t`, each in its own order. A stack that several owners push to and pop
from is such a shuffle, as long as a pop removes the newest element of the owner
who pops; `Interleaves.pop` gives the two situations in which popping the end of
the shared stack amounts to that.
-/

namespace Dagayn

variable {τ α : Type} [DecidableEq τ]

/-- `l` is a shuffle of the lists `own t`. -/
def Interleaves (l : List α) (own : τ → List α) : Prop :=
  ∃ L : List (τ × α), L.map Prod.snd = l ∧
    ∀ t, (L.filter (fun e => e.1 = t)).map Prod.snd = own t

namespace Interleaves

variable {l : List α} {own own' : τ → List α}

theorem nil : Interleaves ([] : List α) (fun _ : τ => []) := ⟨[], rfl, fun _ => rfl⟩

theorem congr (h : Interleaves l own) (heq : ∀ t, own' t = own t) : Interleaves l own' := by
  obtain ⟨L, hl, hown⟩ := h
  exact ⟨L, hl, fun t => (hown t).trans (heq t).symm⟩

theorem mem_of_mem_own (h : Interleaves l own) {t : τ} {x : α} (hx : x ∈ own t) :
    x ∈ l := by
  obtain ⟨L, rfl, hown⟩ := h
  rw [← hown t, List.mem_map] at hx
  obtain ⟨e, he, rfl⟩ := hx
  exact List.mem_map_of_mem (List.mem_of_mem_filter he)

theorem exists_owner (h : Interleaves l own) {x : α} (hx : x ∈ l) : ∃ t, x ∈ own t := by
  obtain ⟨L, rfl, hown⟩ := h
  obtain ⟨e, he, rfl⟩ := List.mem_map.mp hx
  refine ⟨e.1, ?_⟩
  rw [← hown]
  exact List.mem_map_of_mem (List.mem_filter.mpr ⟨he, by simp⟩)

theorem own_eq_nil (h : Interleaves [] own) (t : τ) : own t = [] := by
  rw [List.eq_nil_iff_forall_not_mem]
  intro x hx
  exact absurd (h.mem_of_mem_own hx) (List.not_mem_nil)

theorem eq_own (h : Interleaves l own) {t : τ} (halone : ∀ u, u ≠ t → own u = []) :
    l = own t := by
  obtain ⟨L, rfl, hown⟩ := h
  rw [← hown t, List.filter_eq_self.mpr]
  intro e he
  by_contra hne
  have hnil := halone e.1 (by simpa using hne)
  rw [← hown, List.map_eq_nil_iff, List.filter_eq_nil_iff] at hnil
  exact hnil e he (by simp)

theorem push (h : Interleaves l own) (t : τ) (x : α) :
    Interleaves (l ++ [x]) (fun u => if u = t then own t ++ [x] else own u) := by
  obtain ⟨L, rfl, hown⟩ := h
  refine ⟨L ++ [(t, x)], by simp, fun u => ?_⟩
  by_cases hu : u = t
  · subst hu
    simp [← hown]
  · simp [hu, Ne.symm hu, ← hown]

theorem exists_split {t : τ} : ∀ {L : List (τ × α)} {r : List α} {x : α},
    (L.filter (fun e => e.1 = t)).map Prod.snd = r ++ [x] →
      ∃ A B, L = A ++ (t, x) :: B ∧ (∀ e ∈ B, e.1 ≠ t) ∧
        (A.filter (fun e => e.1 = t)).map Prod.snd = r
  | [], r, x, h => by simp at h
  | e :: L, r, x, h => by
      by_cases hrest : ∃ r' x', (L.filter (fun e => e.1 = t)).map Prod.snd = r' ++ [x']
      · obtain ⟨r', x', hr'⟩ := hrest
        obtain ⟨A, B, rfl, hB, hA⟩ := exists_split hr'
        by_cases he : e.1 = t
        · rw [List.filter_cons_of_pos (by simp [he]), List.map_cons, hr',
            ← List.cons_append] at h
          obtain ⟨h1, h2⟩ := List.append_inj' h rfl
          obtain rfl : x' = x := by simpa using h2
          exact ⟨e :: A, B, rfl, hB, by simp [he, hA, ← h1]⟩
        · rw [List.filter_cons_of_neg (by simp [he]), hr'] at h
          obtain ⟨h1, h2⟩ := List.append_inj' h rfl
          obtain rfl : x' = x := by simpa using h2
          exact ⟨e :: A, B, rfl, hB, by simp [he, hA, h1]⟩
      · have hnil : (L.filter (fun e => e.1 = t)).map Prod.snd = [] := by
          by_contra hne
          exact hrest ⟨_, _, (List.dropLast_append_getLast hne).symm⟩
        by_cases he : e.1 = t
        · rw [List.filter_cons_of_pos (by simp [he]), List.map_cons, hnil] at h
          obtain ⟨rfl, h2⟩ : r = [] ∧ e.2 = x := by
            cases r with
            | nil => simpa using h
            | cons y r => simp at h
          refine ⟨[], L, by rw [← he, ← h2]; rfl, fun e' he' => ?_, rfl⟩
          rw [List.map_eq_nil_iff, List.filter_eq_nil_iff] at hnil
          simpa using hnil e' he'
        · rw [List.filter_cons_of_neg (by simp [he]), hnil] at h
          simp at h

/-- Popping the end of the shuffle removes the newest element of `t`, if all
elements are alike or all belong to `t`. -/
theorem pop (h : Interleaves l own) {t : τ} {r : List α} {x : α} (ht : own t = r ++ [x])
    (hlike : (∀ y ∈ l, y = x) ∨ ∀ u, u ≠ t → own u = []) :
    Interleaves l.dropLast (fun u => if u = t then r else own u) := by
  obtain ⟨L, rfl, hown⟩ := h
  obtain ⟨A, B, rfl, hB, hA⟩ := exists_split ((hown t).trans ht)
  refine ⟨A ++ B, ?_, fun u => ?_⟩
  · rcases hlike with hall | halone
    · have hrep : (A ++ (t, x) :: B).map Prod.snd
          = List.replicate (A ++ (t, x) :: B).length x := by
        rw [List.eq_replicate_iff]
        exact ⟨by simp, hall⟩
      have hrep' : (A ++ B).map Prod.snd = List.replicate (A ++ B).length x := by
        rw [List.eq_replicate_iff]
        refine ⟨by simp, fun y hy => hall y ?_⟩
        simp only [List.map_append, List.mem_append, List.map_cons, List.mem_cons] at hy ⊢
        exact hy.imp_right .inr
      rw [hrep, hrep', List.dropLast_replicate]
      simp
    · have hnil : B = [] := by
        rw [List.eq_nil_iff_forall_not_mem]
        intro e he
        have hu := halone e.1 (hB e he)
        rw [← hown, List.map_eq_nil_iff, List.filter_eq_nil_iff] at hu
        exact hu e (by simp [he]) (by simp)
      simp [hnil]
  · by_cases hu : u = t
    · subst hu
      have hBnil : B.filter (fun e => e.1 = u) = [] := by
        rw [List.filter_eq_nil_iff]
        exact fun e he => by simpa using hB e he
      simp [hBnil, hA]
    · simp [hu, Ne.symm hu, ← hown]

end Interleaves

end Dagayn
