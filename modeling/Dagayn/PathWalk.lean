import Mathlib

/-!
# Walks down a tree of paths

A walk from a path to the names below it, with a stack of paths: `run` takes one from the stack,
and puts those that it leads to on it, the last on top. It keeps no set of what was visited. Below
a fixed depth nothing leads on, so the walk ends; it visits what the paths of the stack lead to
(`mem_run`), and nothing twice unless one path of the stack is above another (`nodup_run`).
-/

namespace Dagayn

/-- The names that a walk goes to from each path, none of them twice, and none below a depth. -/
structure PathWalk (ι : Type) where
  next : List ι → List ι
  nodup : ∀ p, (next p).Nodup
  depth : Nat
  next_deep : ∀ p, depth ≤ p.length → next p = []

namespace PathWalk

variable {ι : Type} (w : PathWalk ι)

def children (p : List ι) : List (List ι) := (w.next p).map fun x => p ++ [x]

theorem mem_children {p q : List ι} : q ∈ w.children p ↔ ∃ x ∈ w.next p, q = p ++ [x] := by
  rw [children, List.mem_map]
  exact exists_congr fun x => and_congr_right fun _ => eq_comm

/-! ## The size of what is below -/

def sizeWithin : Nat → List ι → Nat
  | 0, _ => 1
  | n + 1, p => 1 + ((w.children p).map (sizeWithin n)).sum

def size (p : List ι) : Nat := w.sizeWithin (w.depth - p.length) p

theorem size_eq (p : List ι) : w.size p = 1 + ((w.children p).map w.size).sum := by
  rw [size]
  cases h : w.depth - p.length with
  | zero =>
      rw [children, w.next_deep p (by omega)]
      rfl
  | succ n =>
      rw [sizeWithin]
      refine congrArg (fun l : List Nat => 1 + l.sum) (List.map_congr_left fun q hq => ?_)
      obtain ⟨x, -, rfl⟩ := w.mem_children.mp hq
      rw [size, List.length_append, List.length_singleton]
      congr 1
      omega

theorem sizes_lt (p : List ι) (stack : List (List ι)) :
    (((w.children p).reverse ++ stack).map w.size).sum < ((p :: stack).map w.size).sum := by
  rw [List.map_append, List.sum_append, List.map_reverse, List.sum_reverse, List.map_cons,
    List.sum_cons, w.size_eq p]
  omega

/-! ## The run -/

def run : List (List ι) → List (List ι)
  | [] => []
  | p :: stack => p :: run ((w.children p).reverse ++ stack)
termination_by stack => (stack.map w.size).sum
decreasing_by exact w.sizes_lt p stack

/-- A path leads to another by steps of the walk. -/
inductive Leads : List ι → List ι → Prop
  | refl (p : List ι) : Leads p p
  | step {p q : List ι} {x : ι} : x ∈ w.next p → Leads (p ++ [x]) q → Leads p q

variable {w}

theorem Leads.above {p q : List ι} (h : w.Leads p q) : p <+: q := by
  induction h with
  | refl p => exact List.prefix_refl p
  | step _ _ ih => exact (List.prefix_append _ _).trans ih

theorem Leads.snoc {p q : List ι} (h : w.Leads p q) {x : ι} (hx : x ∈ w.next q) :
    w.Leads p (q ++ [x]) := by
  induction h with
  | refl p => exact .step hx (.refl _)
  | step hy _ ih => exact .step hy (ih hx)

theorem leads_snoc {p q : List ι} {x : ι} :
    w.Leads p (q ++ [x]) ↔ p = q ++ [x] ∨ w.Leads p q ∧ x ∈ w.next q := by
  constructor
  · intro h
    generalize hr : q ++ [x] = r at h
    induction h with
    | refl p => exact .inl rfl
    | @step p r y hy hrest ih =>
        refine .inr ?_
        rcases ih hr with heq | ⟨hlead, hx⟩
        · obtain ⟨rfl, hxy⟩ := List.append_inj' (heq.trans hr.symm) rfl
          obtain rfl := List.singleton_inj.mp hxy
          exact ⟨.refl p, hy⟩
        · exact ⟨.step hy hlead, hx⟩
  · rintro (rfl | ⟨h, hx⟩)
    · exact .refl _
    · exact h.snoc hx

theorem mem_run {stack : List (List ι)} {q : List ι} :
    q ∈ w.run stack ↔ ∃ p ∈ stack, w.Leads p q := by
  fun_induction run w stack with
  | case1 => simp
  | case2 p stack ih =>
      rw [List.mem_cons, ih, List.exists_mem_cons_iff]
      constructor
      · rintro (rfl | ⟨r, hr, hlead⟩)
        · exact .inl (.refl _)
        · rcases List.mem_append.mp hr with hr | hr
          · obtain ⟨x, hx, rfl⟩ := w.mem_children.mp (List.mem_reverse.mp hr)
            exact .inl (.step hx hlead)
          · exact .inr ⟨r, hr, hlead⟩
      · rintro (hlead | ⟨r, hr, hlead⟩)
        · cases hlead with
          | refl => exact .inl rfl
          | step hx hlead =>
              exact .inr ⟨_, List.mem_append_left _
                (List.mem_reverse.mpr (w.mem_children.mpr ⟨_, hx, rfl⟩)), hlead⟩
        · exact .inr ⟨r, List.mem_append_right _ hr, hlead⟩

def Apart (p q : List ι) : Prop := ¬ p <+: q ∧ ¬ q <+: p

theorem Apart.symm {p q : List ι} (h : Apart p q) : Apart q p := ⟨h.2, h.1⟩

theorem apart_children (p : List ι) : (w.children p).Pairwise Apart := by
  have hne : ∀ {x y : ι}, x ≠ y → ¬ p ++ [x] <+: p ++ [y] := fun hxy h =>
    hxy (List.singleton_inj.mp ((List.prefix_append_right_inj p).mp h |>.eq_of_length rfl))
  exact List.pairwise_map.mpr ((w.nodup p).imp fun hxy => ⟨hne hxy, hne (Ne.symm hxy)⟩)

theorem Apart.child {p q : List ι} (h : Apart p q) (x : ι) : Apart (p ++ [x]) q := by
  refine ⟨fun hle => h.1 ((List.prefix_append _ _).trans hle), fun hle => ?_⟩
  rcases List.prefix_concat_iff.mp hle with rfl | hle
  · exact h.1 (List.prefix_append _ _)
  · exact h.2 hle

theorem nodup_run {stack : List (List ι)} (h : stack.Pairwise Apart) : (w.run stack).Nodup := by
  fun_induction run w stack with
  | case1 => exact List.nodup_nil
  | case2 p stack ih =>
      obtain ⟨hp, hstack⟩ := List.pairwise_cons.mp h
      have hnext : ((w.children p).reverse ++ stack).Pairwise Apart := by
        refine List.pairwise_append.mpr ⟨List.pairwise_reverse.mpr
          ((apart_children p).imp Apart.symm), hstack, fun q hq r hr => ?_⟩
        obtain ⟨x, -, rfl⟩ := w.mem_children.mp (List.mem_reverse.mp hq)
        exact (hp r hr).child x
      refine List.nodup_cons.mpr ⟨fun hmem => ?_, ih hnext⟩
      obtain ⟨q, hq, hlead⟩ := mem_run.mp hmem
      rcases List.mem_append.mp hq with hq | hq
      · obtain ⟨x, -, rfl⟩ := w.mem_children.mp (List.mem_reverse.mp hq)
        have hle := hlead.above.length_le
        rw [List.length_append, List.length_singleton] at hle
        omega
      · exact (hp q hq).2 hlead.above

end PathWalk

end Dagayn
