import Mathlib

/-!
# Lists of strongly connected classes

Some classes of mutual reachability of a relation, in a list. A class is in the list as a whole,
everything that can be reached from it is in the list too, and classes that it reaches stand in
front of it. `Listed.append` adds a class to such a list.
-/

namespace Dagayn

section Classes

variable {V : Type} {edge : V → V → Prop}

def Mutual (edge : V → V → Prop) (u v : V) : Prop :=
  Relation.ReflTransGen edge u v ∧ Relation.ReflTransGen edge v u

structure Listed (edge : V → V → Prop) (classes : List (List V)) : Prop where
  nodup : classes.flatten.Nodup
  nonempty : ∀ C ∈ classes, C ≠ []
  mutual_iff : ∀ C ∈ classes, ∀ u ∈ C, ∀ v, v ∈ C ↔ Mutual edge u v
  closed : ∀ u ∈ classes.flatten, ∀ v, edge u v → v ∈ classes.flatten
  earlier : classes.Pairwise fun C D => ∀ u ∈ C, ∀ v ∈ D, ¬Relation.ReflTransGen edge u v

theorem Listed.nil : Listed edge [] := by
  constructor <;> simp

variable {classes : List (List V)}

theorem Listed.reaches (h : Listed edge classes) {u v : V} (hu : u ∈ classes.flatten)
    (hv : Relation.ReflTransGen edge u v) : v ∈ classes.flatten := by
  induction hv with
  | refl => exact hu
  | tail _ hedge ih => exact h.closed _ ih _ hedge

theorem Listed.append (h : Listed edge classes) {C : List V} (hnodup : C.Nodup) (hne : C ≠ [])
    (hnew : ∀ u ∈ C, u ∉ classes.flatten) (hmutual : ∀ u ∈ C, ∀ v ∈ C, Mutual edge u v)
    (hout : ∀ u ∈ C, ∀ v, edge u v → v ∈ C ∨ v ∈ classes.flatten) :
    Listed edge (classes ++ [C]) := by
  have hmem : ∀ v, v ∈ (classes ++ [C]).flatten ↔ v ∈ classes.flatten ∨ v ∈ C := by simp
  have hstay : ∀ u ∈ C, ∀ v, Relation.ReflTransGen edge u v → v ∈ C ∨ v ∈ classes.flatten := by
    intro u hu v hv
    induction hv with
    | refl => exact .inl hu
    | tail _ hedge ih =>
        rcases ih with hin | hlisted
        · exact hout _ hin _ hedge
        · exact .inr (h.closed _ hlisted _ hedge)
  constructor
  · rw [List.flatten_append, List.flatten_singleton, List.nodup_append]
    exact ⟨h.nodup, hnodup, fun a ha b hb heq => hnew b hb (heq ▸ ha)⟩
  · intro D hD
    rcases List.mem_append.mp hD with hD | hD
    · exact h.nonempty D hD
    · exact List.mem_singleton.mp hD ▸ hne
  · intro D hD u hu v
    rcases List.mem_append.mp hD with hD | hD
    · exact h.mutual_iff D hD u hu v
    · obtain rfl := List.mem_singleton.mp hD
      refine ⟨fun hv => hmutual u hu v hv, fun hv => (hstay u hu v hv.1).resolve_right ?_⟩
      exact fun hlisted => hnew u hu (h.reaches hlisted hv.2)
  · intro u hu v hedge
    rw [hmem] at hu ⊢
    rcases hu with hu | hu
    · exact .inl (h.closed u hu v hedge)
    · exact (hout u hu v hedge).symm
  · rw [List.pairwise_append]
    refine ⟨h.earlier, List.pairwise_singleton _ _, fun D hD E hE u hu v hv hreach => ?_⟩
    obtain rfl := List.mem_singleton.mp hE
    exact hnew v hv (h.reaches (List.mem_flatten_of_mem hD hu) hreach)

theorem Listed.same_class_iff (h : Listed edge classes) {u v : V} (hu : u ∈ classes.flatten) :
    (∃ C ∈ classes, u ∈ C ∧ v ∈ C) ↔ Mutual edge u v := by
  constructor
  · rintro ⟨C, hC, huC, hvC⟩
    exact (h.mutual_iff C hC u huC v).mp hvC
  · intro hmutual
    obtain ⟨C, hC, huC⟩ := List.mem_flatten.mp hu
    exact ⟨C, hC, huC, (h.mutual_iff C hC u huC v).mpr hmutual⟩

end Classes

end Dagayn
