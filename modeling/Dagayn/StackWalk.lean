import Mathlib

/-!
# Walks with a stack

A walk over a finite graph that takes entries from a stack, visits the node of an entry unless
an earlier entry had it, and then puts what follows the entry on the stack, the last on top.
`run` lists the entries that visited a node. Facts about a run are invariants of its steps
(`run_induct`): each node is visited once, what follows a visited entry is visited, and an entry
that visits a node is the last of its parent's that could.
-/

namespace Dagayn

/-- A graph of entries, each with a node of finitely many. -/
structure StackWalk (ε ν : Type) where
  node : ε → ν
  next : ε → List ε
  bound : List ν
  node_mem : ∀ e, node e ∈ bound

namespace StackWalk

variable {ε ν : Type} {w : StackWalk ε ν}

/-! ## Nodes that are visited, and entries of one parent -/

def Due (w : StackWalk ε ν) (seen stack : List ε) (n : ν) : Prop :=
  n ∈ seen.map w.node ∨ n ∈ stack.map w.node

theorem Due.skip {seen stack : List ε} {e : ε} {n : ν} (he : w.node e ∈ seen.map w.node)
    (h : w.Due seen (e :: stack) n) : w.Due seen stack n := by
  rcases h with hseen | hstack
  · exact .inl hseen
  · rcases List.mem_cons.mp hstack with rfl | hstack
    · exact .inl he
    · exact .inr hstack

theorem Due.visit {seen stack : List ε} {e : ε} {n : ν} (h : w.Due seen (e :: stack) n)
    (more : List ε) : w.Due (seen ++ [e]) (more ++ stack) n := by
  rw [Due, List.map_append, List.map_append, List.mem_append, List.mem_append]
  rcases h with hseen | hstack
  · exact .inl (.inl hseen)
  · rcases List.mem_cons.mp hstack with rfl | hstack
    · exact .inl (.inr List.mem_cons_self)
    · exact .inr (.inr hstack)

theorem Due.done {seen : List ε} {n : ν} (h : w.Due seen [] n) : ∃ e ∈ seen, w.node e = n := by
  rcases h with h | h
  · exact List.mem_map.mp h
  · exact absurd h List.not_mem_nil

/-- An entry with what was put on the stack behind it. -/
def From (w : StackWalk ε ν) (seen : List ε) (e : ε) (after : List ε) : Prop :=
  ∃ g ∈ seen, ∃ before, w.next g = before ++ e :: after

theorem From.mono {seen : List ε} {e : ε} {after : List ε} (h : w.From seen e after) (a : ε) :
    w.From (seen ++ [a]) e after := by
  obtain ⟨g, hg, hnext⟩ := h
  exact ⟨g, List.mem_append_left _ hg, hnext⟩

/-- The stack with what follows an entry, the last on top. -/
def push (w : StackWalk ε ν) (e : ε) (stack : List ε) : List ε := (w.next e).reverse ++ stack

/-- Entries of one parent that come behind one on the stack are visited, or above it. -/
def Ordered (w : StackWalk ε ν) (root : ε) (seen stack : List ε) : Prop :=
  ∀ above e below, stack = above ++ e :: below →
    e = root ∨ ∃ after, w.From seen e after ∧ ∀ a ∈ after, w.Due seen above (w.node a)

theorem Ordered.skip {root : ε} {seen stack : List ε} {e : ε} (he : w.node e ∈ seen.map w.node)
    (h : w.Ordered root seen (e :: stack)) : w.Ordered root seen stack := by
  rintro above a below rfl
  rcases h (e :: above) a below rfl with hroot | ⟨after, hfrom, hafter⟩
  · exact .inl hroot
  · exact .inr ⟨after, hfrom, fun a' ha' => (hafter a' ha').skip he⟩

theorem Ordered.visit {root : ε} {seen stack : List ε} {e : ε}
    (h : w.Ordered root seen (e :: stack)) :
    w.Ordered root (seen ++ [e]) (w.push e stack) := by
  intro above a below hsplit
  rcases List.append_eq_append_iff.mp hsplit with ⟨front, rfl, hfront⟩ | ⟨back, hback, hbelow⟩
  · -- `a` was on the stack before
    rcases h (e :: front) a below (by rw [hfront, List.cons_append]) with
      hroot | ⟨after, hfrom, hafter⟩
    · exact .inl hroot
    · exact .inr ⟨after, hfrom.mono e, fun a' ha' => (hafter a' ha').visit _⟩
  · -- `a` is put on it, or is the one below
    cases back with
    | nil =>
        rw [List.append_nil] at hback
        rcases h [e] a below (by rw [List.nil_append] at hbelow; rw [← hbelow]; rfl) with
          hroot | ⟨after, hfrom, hafter⟩
        · exact .inl hroot
        · refine .inr ⟨after, hfrom.mono e, fun a' ha' => ?_⟩
          have hdue := (hafter a' ha').visit (w.next e).reverse
          rwa [List.append_nil, hback] at hdue
    | cons b back =>
        obtain ⟨rfl, -⟩ := List.cons.inj hbelow
        have hnext : w.next e = back.reverse ++ a :: above.reverse := by
          have hrev := congrArg List.reverse hback
          rw [List.reverse_reverse] at hrev
          rw [hrev]
          simp
        refine .inr ⟨above.reverse, ⟨e, by simp, back.reverse, hnext⟩, fun a' ha' => ?_⟩
        exact .inr (List.mem_map_of_mem (List.mem_reverse.mp ha'))

/-! ## The run -/

variable [DecidableEq ν] (w)

def unseen (seen : List ε) : List ν := w.bound.filter fun n => n ∉ seen.map w.node

theorem length_unseen_lt {seen : List ε} {e : ε} (h : w.node e ∉ seen.map w.node) :
    (w.unseen (seen ++ [e])).length < (w.unseen seen).length := by
  have hsub : w.unseen (seen ++ [e]) = (w.unseen seen).filter (· ≠ w.node e) := by
    rw [unseen, unseen, List.filter_filter]
    refine List.filter_congr fun n _ => ?_
    simp only [List.map_append, List.map_cons, List.map_nil, List.mem_append, List.mem_singleton,
      not_or, ne_eq, Bool.decide_and, Bool.and_comm]
  have hmem : w.node e ∈ w.unseen seen :=
    List.mem_filter.mpr ⟨w.node_mem e, decide_eq_true h⟩
  rw [hsub]
  exact List.length_filter_lt_length_iff_exists.mpr ⟨_, hmem, by simp⟩

def run (seen : List ε) : List ε → List ε
  | [] => seen
  | e :: stack =>
      if w.node e ∈ seen.map w.node then run seen stack else run (seen ++ [e]) (w.push e stack)
termination_by stack => ((w.unseen seen).length, stack.length)
decreasing_by
  · exact Prod.Lex.right _ (Nat.lt_succ_self _)
  · rename_i h
    exact Prod.Lex.left _ _ (w.length_unseen_lt h)

variable {w}

theorem run_induct {P : List ε → List ε → Prop} (seen stack : List ε)
    (hskip : ∀ seen e stack, w.node e ∈ seen.map w.node → P seen (e :: stack) → P seen stack)
    (hvisit : ∀ seen e stack, w.node e ∉ seen.map w.node → P seen (e :: stack) →
      P (seen ++ [e]) (w.push e stack))
    (h : P seen stack) : P (w.run seen stack) [] := by
  fun_induction run w seen stack with
  | case1 seen => exact h
  | case2 seen e stack hseen ih => exact ih (hskip seen e stack hseen h)
  | case3 seen e stack hseen ih => exact ih (hvisit seen e stack hseen h)

theorem nodup_run (root : ε) : ((w.run [] [root]).map w.node).Nodup := by
  refine run_induct (P := fun seen _ => (seen.map w.node).Nodup) _ _ (fun _ _ _ _ h => h) ?_
    List.nodup_nil
  intro seen e stack hseen h
  rw [List.map_append]
  exact List.nodup_append.mpr ⟨h, List.nodup_singleton _, by
    rintro n hn m hm rfl
    exact hseen (List.mem_singleton.mp hm ▸ hn)⟩

/-- What holds of the root and passes on to what follows holds of the visited entries. -/
theorem forall_run {p : ε → Prop} (hnext : ∀ e, p e → ∀ c ∈ w.next e, p c) {root : ε}
    (hroot : p root) : ∀ e ∈ w.run [] [root], p e := by
  have hall := run_induct (w := w)
    (P := fun seen stack => (∀ e ∈ seen, p e) ∧ ∀ e ∈ stack, p e) [] [root]
    (fun _ _ _ _ h => ⟨h.1, fun a ha => h.2 a (List.mem_cons_of_mem _ ha)⟩) ?_
    ⟨fun e he => absurd he List.not_mem_nil, fun e he => List.mem_singleton.mp he ▸ hroot⟩
  · exact hall.1
  · intro seen e stack _ h
    have he := h.2 e List.mem_cons_self
    refine ⟨fun a ha => ?_, fun a ha => ?_⟩
    · rcases List.mem_append.mp ha with ha | ha
      · exact h.1 a ha
      · exact List.mem_singleton.mp ha ▸ he
    · rcases List.mem_append.mp ha with ha | ha
      · exact hnext e he a (List.mem_reverse.mp ha)
      · exact h.2 a (List.mem_cons_of_mem _ ha)

theorem root_run (root : ε) : ∃ e ∈ w.run [] [root], w.node e = w.node root :=
  (run_induct (P := fun seen stack => w.Due seen stack (w.node root)) _ _
    (fun _ _ _ he h => h.skip he) (fun _ _ _ _ h => h.visit _)
    (.inr List.mem_cons_self)).done

theorem next_run (root : ε) : ∀ e ∈ w.run [] [root], ∀ c ∈ w.next e,
    ∃ e' ∈ w.run [] [root], w.node e' = w.node c := by
  have hall := run_induct (w := w)
    (P := fun seen stack => ∀ e ∈ seen, ∀ c ∈ w.next e, w.Due seen stack (w.node c)) [] [root]
    (fun _ _ _ he h a ha c hc => (h a ha c hc).skip he) ?_
    (fun e he => absurd he List.not_mem_nil)
  · exact fun e he c hc => (hall e he c hc).done
  · intro seen e stack _ h a ha c hc
    rcases List.mem_append.mp ha with ha | ha
    · exact (h a ha c hc).visit _
    · obtain rfl := List.mem_singleton.mp ha
      refine .inr (List.mem_map_of_mem (List.mem_append_left _ (List.mem_reverse.mpr hc)))

theorem last_run (root : ε) : ∀ e ∈ w.run [] [root], e = root ∨
    ∃ after, w.From (w.run [] [root]) e after ∧ ∀ a ∈ after, w.node a ≠ w.node e := by
  have hall := run_induct (w := w)
    (P := fun seen stack => w.Ordered root seen stack ∧ ∀ e ∈ seen, e = root ∨
      ∃ after, w.From seen e after ∧ ∀ a ∈ after, w.node a ≠ w.node e) [] [root]
    (fun _ _ _ he h => ⟨h.1.skip he, h.2⟩) ?_ ⟨?_, fun e he => absurd he List.not_mem_nil⟩
  · exact hall.2
  · intro seen e stack hseen ⟨hordered, hlast⟩
    refine ⟨hordered.visit, fun a ha => ?_⟩
    rcases List.mem_append.mp ha with ha | ha
    · exact (hlast a ha).imp_right fun ⟨after, hfrom, hafter⟩ => ⟨after, hfrom.mono e, hafter⟩
    · obtain rfl := List.mem_singleton.mp ha
      refine (hordered [] a stack rfl).imp_right fun ⟨after, hfrom, hafter⟩ =>
        ⟨after, hfrom.mono a, fun a' ha' heq => hseen ?_⟩
      rcases hafter a' ha' with hdue | hdue
      · exact heq ▸ hdue
      · exact absurd hdue List.not_mem_nil
  · intro above e below hsplit
    cases above with
    | nil => exact .inl (List.cons.inj hsplit).1.symm
    | cons b above =>
        have hnil := (List.cons.inj hsplit).2
        cases above <;> cases hnil

end StackWalk

end Dagayn
