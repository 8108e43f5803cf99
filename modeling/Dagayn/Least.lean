import Mathlib

/-!
# Keeping the least

A loop that replaces what it holds by an element with a smaller key. Where the key tells
the elements apart, it ends with the same one in whatever order they come.
-/

namespace Dagayn

variable {α κ : Type} [LinearOrder κ]

def keepLess (key : α → κ) (held : Option α) (new : α) : Option α :=
  match held with
  | none => some new
  | some old => if key new < key old then some new else some old

variable {key : α → κ} {held : Option α} {l : List α}

theorem isSome_keepLess (key : α → κ) (held : Option α) (new : α) :
    (keepLess key held new).isSome := by
  cases held with
  | none => rfl
  | some old =>
      rw [keepLess]
      split <;> rfl

theorem keepLess_of_le {old new : α} (h : key old ≤ key new) :
    keepLess key (some old) new = some old := if_neg (not_lt_of_ge h)

/-- What the loop ends with was held or is smaller, and no element has a smaller key. -/
theorem foldl_keepLess_eq_some {a : α} (h : l.foldl (keepLess key) held = some a) :
    (held = some a ∨ a ∈ l ∧ ∀ old, held = some old → key a < key old) ∧
      ∀ b ∈ l, key a ≤ key b := by
  induction l generalizing held with
  | nil => exact ⟨.inl h, fun b hb => absurd hb List.not_mem_nil⟩
  | cons new l ih =>
      obtain ⟨hfrom, hle⟩ := ih h
      cases held with
      | none =>
          rcases hfrom with heq | ⟨hmem, hlt⟩
          · obtain rfl := Option.some.inj heq
            refine ⟨.inr ⟨List.mem_cons_self, fun _ h => nomatch h⟩, ?_⟩
            exact List.forall_mem_cons.mpr ⟨le_rfl, hle⟩
          · refine ⟨.inr ⟨List.mem_cons_of_mem _ hmem, fun _ h => nomatch h⟩, ?_⟩
            exact List.forall_mem_cons.mpr ⟨(hlt new rfl).le, hle⟩
      | some old =>
          by_cases hnew : key new < key old
          · have hheld : keepLess key (some old) new = some new := if_pos hnew
            rw [hheld] at hfrom
            rcases hfrom with heq | ⟨hmem, hlt⟩
            · obtain rfl := Option.some.inj heq
              refine ⟨.inr ⟨List.mem_cons_self, fun o ho => ?_⟩,
                List.forall_mem_cons.mpr ⟨le_rfl, hle⟩⟩
              exact Option.some.inj ho ▸ hnew
            · refine ⟨.inr ⟨List.mem_cons_of_mem _ hmem, fun o ho => ?_⟩,
                List.forall_mem_cons.mpr ⟨(hlt new rfl).le, hle⟩⟩
              exact Option.some.inj ho ▸ (hlt new rfl).trans hnew
          · rw [keepLess_of_le (not_lt.mp hnew)] at hfrom
            rcases hfrom with heq | ⟨hmem, hlt⟩
            · obtain rfl := Option.some.inj heq
              exact ⟨.inl rfl, List.forall_mem_cons.mpr ⟨not_lt.mp hnew, hle⟩⟩
            · refine ⟨.inr ⟨List.mem_cons_of_mem _ hmem, hlt⟩, List.forall_mem_cons.mpr ⟨?_, hle⟩⟩
              exact (hlt old rfl).le.trans (not_lt.mp hnew)

theorem isSome_foldl_keepLess :
    (l.foldl (keepLess key) held).isSome ↔ held.isSome ∨ l ≠ [] := by
  induction l generalizing held with
  | nil => simp
  | cons new l ih => simp [ih, isSome_keepLess]

theorem exists_foldl_keepLess (key : α → κ) (held : Option α) {a : α} (h : a ∈ l) :
    ∃ b, l.foldl (keepLess key) held = some b ∧ key b ≤ key a := by
  have hsome : (l.foldl (keepLess key) held).isSome :=
    isSome_foldl_keepLess.mpr (.inr (List.ne_nil_of_mem h))
  obtain ⟨b, hb⟩ := Option.isSome_iff_exists.mp hsome
  exact ⟨b, hb, (foldl_keepLess_eq_some hb).2 a h⟩

theorem exists_foldl_keepLess_of_held (key : α → κ) (old : α) (l : List α) :
    ∃ b, l.foldl (keepLess key) (some old) = some b ∧ key b ≤ key old := by
  have hsome : (l.foldl (keepLess key) (some old)).isSome := isSome_foldl_keepLess.mpr (.inl rfl)
  obtain ⟨b, hb⟩ := Option.isSome_iff_exists.mp hsome
  refine ⟨b, hb, ?_⟩
  rcases (foldl_keepLess_eq_some hb).1 with hsame | ⟨-, hlt⟩
  · exact Option.some.inj hsame ▸ le_rfl
  · exact (hlt old rfl).le

theorem foldl_keepLess_append_self {a b : α} (hb : b ∈ l) (h : key b ≤ key a) :
    (l ++ [a]).foldl (keepLess key) held = l.foldl (keepLess key) held := by
  rw [List.foldl_append, List.foldl_cons, List.foldl_nil]
  obtain ⟨c, hc, hle⟩ := exists_foldl_keepLess key held hb
  rw [hc]
  exact keepLess_of_le (hle.trans h)

theorem foldl_keepLess_of_le {old : α} (h : ∀ a ∈ l, key old ≤ key a) :
    l.foldl (keepLess key) (some old) = some old := by
  induction l with
  | nil => rfl
  | cons new l ih =>
      rw [List.foldl_cons, keepLess_of_le (h new List.mem_cons_self)]
      exact ih fun a ha => h a (List.mem_cons_of_mem _ ha)

theorem foldl_keepLess_congr {l' : List α} (hmem : ∀ a, a ∈ l ↔ a ∈ l')
    (hinj : ∀ a ∈ l, ∀ b ∈ l, key a = key b → a = b) :
    l.foldl (keepLess key) held = l'.foldl (keepLess key) held := by
  have hnil : l = [] ↔ l' = [] := by
    rw [List.eq_nil_iff_forall_not_mem, List.eq_nil_iff_forall_not_mem]
    exact forall_congr' fun a => not_congr (hmem a)
  have hsome : (l.foldl (keepLess key) held).isSome ↔ (l'.foldl (keepLess key) held).isSome := by
    rw [isSome_foldl_keepLess, isSome_foldl_keepLess, ne_eq, ne_eq, hnil]
  cases h : l.foldl (keepLess key) held with
  | none =>
      cases h' : l'.foldl (keepLess key) held with
      | none => rfl
      | some b => simp [h, h'] at hsome
  | some a =>
      cases h' : l'.foldl (keepLess key) held with
      | none => simp [h, h'] at hsome
      | some b =>
          obtain ⟨hfrom, hle⟩ := foldl_keepLess_eq_some h
          obtain ⟨hfrom', hle'⟩ := foldl_keepLess_eq_some h'
          rcases hfrom with hold | ⟨ha, hlt⟩
          · rcases hfrom' with hold' | ⟨hb, hlt'⟩
            · rw [← hold, ← hold']
            · exact absurd (hlt' a hold) (not_lt_of_ge (hle b ((hmem b).mpr hb)))
          · rcases hfrom' with hold' | ⟨hb, hlt'⟩
            · exact absurd (hlt b hold') (not_lt_of_ge (hle' a ((hmem a).mp ha)))
            · have hb' : b ∈ l := (hmem b).mpr hb
              rw [hinj a ha b hb' (le_antisymm (hle b hb') (hle' a ((hmem a).mp ha)))]

end Dagayn
