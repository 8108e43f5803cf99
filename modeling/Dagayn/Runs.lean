import Mathlib

/-!
# Runs of a partial step function

A system is given by its start states and a step function that returns `none`
where an action is not enabled. `Reach start step ok s` says that some run whose
every step satisfies `ok` ends in `s`; with `ok` always true these are all the
runs, and a condition on the steps is a condition on the state before a step and
the action taken there. Nothing here names a particular system.

The two rules used throughout are `Reach.invariant` (what holds at the start and
survives one admissible step holds in every state reached) and `reach_runSteps`
(a list of actions that executes is a run), which turns a concrete schedule into
a reachable state by evaluation.
-/

namespace Dagayn

variable {σ α : Type}

/-- The states reached by runs from `start` all of whose steps satisfy `ok`. -/
inductive Reach (start : σ → Prop) (step : σ → α → Option σ) (ok : σ → α → Prop) :
    σ → Prop
  | start {s : σ} : start s → Reach start step ok s
  | next {s s' : σ} {a : α} :
      Reach start step ok s → ok s a → step s a = some s' → Reach start step ok s'

/-- The condition met by every step: no restriction on the runs. -/
def anyStep (_ : σ) (_ : α) : Prop := True

instance (s : σ) (a : α) : Decidable (anyStep s a) := inferInstanceAs (Decidable True)

variable {start : σ → Prop} {step : σ → α → Option σ} {ok : σ → α → Prop}

/-- The invariant rule. The step premise may use that the state it starts from is
itself reached. -/
theorem Reach.invariant {I : σ → Prop} (hstart : ∀ s, start s → I s)
    (hstep : ∀ s a s', Reach start step ok s → I s → ok s a →
      step s a = some s' → I s') {s : σ} (h : Reach start step ok s) : I s := by
  induction h with
  | start h0 => exact hstart _ h0
  | next hr hok hs ih => exact hstep _ _ _ hr ih hok hs

/-- Execute a list of actions, checking `ok` before each. -/
def runSteps (step : σ → α → Option σ) (ok : σ → α → Prop)
    [∀ s a, Decidable (ok s a)] : σ → List α → Option σ
  | s, [] => some s
  | s, a :: as =>
      if ok s a then
        match step s a with
        | some s' => runSteps step ok s' as
        | none => none
      else none

theorem runSteps_anyStep_cons (step : σ → α → Option σ) (s : σ) (a : α) (as : List α) :
    runSteps step anyStep s (a :: as)
      = (step s a).bind fun s => runSteps step anyStep s as := by
  rw [runSteps, if_pos (show anyStep s a from trivial)]
  cases step s a <;> rfl

theorem reach_runSteps [∀ s a, Decidable (ok s a)] :
    ∀ {as : List α} {s s' : σ}, Reach start step ok s →
      runSteps step ok s as = some s' → Reach start step ok s'
  | [], s, s', hr, h => by
      simp only [runSteps, Option.some.injEq] at h
      exact h ▸ hr
  | a :: as, s, s', hr, h => by
      simp only [runSteps] at h
      split at h
      · rename_i hok
        split at h
        · rename_i s₁ hs
          exact reach_runSteps (hr.next hok hs) h
        · cases h
      · cases h

theorem exists_reach_of_run (start : σ → Prop) (step : σ → α → Option σ)
    (ok : σ → α → Prop) [∀ s a, Decidable (ok s a)] (s : σ) (as : List α) (p : σ → Bool)
    (h0 : start s) (h : (runSteps step ok s as).any p = true) :
    ∃ s', Reach start step ok s' ∧ p s' = true := by
  rw [Option.any_eq_true] at h
  obtain ⟨s', hs', hp⟩ := h
  exact ⟨s', reach_runSteps (.start h0) hs', hp⟩

end Dagayn
