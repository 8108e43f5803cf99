import Dagayn.BackwardEdges
import Dagayn.Least
import Mathlib

/-!
# The imports to cut

`cycle_cut`: the modules of a component in an order, and the imports that point backwards in it.
`Peel` is what the loop works on, `sweep` one round of its inner loop and `place` the outer one.
Each removal is a `Step`, whatever loop makes it, and a run of steps is a `Peeled` order.
-/

namespace Dagayn

/-- `members` and `inner`: the modules of a component and the imports between them, by their ends,
each with its lines. No module imports itself. -/
structure ImportCycle (V : Type) [LinearOrder V] where
  members : List V
  imports : List ((V × V) × List Int)
  members_sorted : members.Pairwise (· < ·)
  imports_nodup : (imports.map Prod.fst).Nodup
  inside : ∀ e ∈ imports, e.1.1 ∈ members ∧ e.1.2 ∈ members
  no_self : ∀ e ∈ imports, e.1.1 ≠ e.1.2

namespace CycleCut

variable {V : Type} [LinearOrder V]

def weight (c : ImportCycle V) (source target : V) : Nat :=
  (c.imports.find? fun e => e.1.1 = source ∧ e.1.2 = target).elim 0 fun e => e.2.length

def degree (c : ImportCycle V) (node : V) (remaining : List V) (outgoing : Bool) : Nat :=
  (remaining.map fun other =>
    if outgoing then weight c node other else weight c other node).sum

structure Peel (V : Type) where
  remaining : List V
  head : List V := []
  tail : List V := []

/-- A module that imports nothing of the rest goes to the tail. -/
def takeSink (c : ImportCycle V) (s : Peel V) : Option (Peel V) :=
  (s.remaining.find? fun node => degree c node s.remaining true = 0).map fun sink =>
    { s with remaining := s.remaining.erase sink, tail := s.tail ++ [sink] }

/-- A module that nothing of the rest imports goes to the head. -/
def takeSource (c : ImportCycle V) (s : Peel V) : Option (Peel V) :=
  (s.remaining.find? fun node => degree c node s.remaining false = 0).map fun source =>
    { s with remaining := s.remaining.erase source, head := s.head ++ [source] }

/-- The body of `while changed`. -/
def sweep (c : ImportCycle V) (s : Peel V) : Peel V × Bool :=
  let (s, changed) :=
    match takeSink c s with
    | some s => (s, true)
    | none => (s, false)
  match takeSource c s with
  | some s => (s, true)
  | none => (s, changed)

def score (c : ImportCycle V) (remaining : List V) (node : V) : Int :=
  (degree c node remaining true : Int) - degree c node remaining false

/-- `max_by` of the score, and of names with one score the smallest. -/
def best (c : ImportCycle V) (remaining : List V) : Option V :=
  remaining.foldl (keepLess fun node => toLex (-score c remaining node, node)) none

def takeBest (c : ImportCycle V) (s : Peel V) : Peel V :=
  match best c s.remaining with
  | none => s
  | some node => { s with remaining := s.remaining.erase node, head := s.head ++ [node] }

/-! ## What a removal does -/

inductive Step (c : ImportCycle V) (s : Peel V) : Peel V → Prop
  | sink {x : V} : x ∈ s.remaining → degree c x s.remaining true = 0 →
      Step c s { s with remaining := s.remaining.erase x, tail := s.tail ++ [x] }
  | source {x : V} : x ∈ s.remaining →
      degree c x s.remaining false ≤ degree c x s.remaining true →
      Step c s { s with remaining := s.remaining.erase x, head := s.head ++ [x] }

abbrev Steps (c : ImportCycle V) : Peel V → Peel V → Prop := Relation.ReflTransGen (Step c)

variable {c : ImportCycle V} {s t : Peel V}

theorem Step.length_lt (h : Step c s t) : t.remaining.length < s.remaining.length := by
  cases h with
  | sink hx _ | source hx _ =>
      rw [List.length_erase_of_mem hx]
      exact Nat.sub_lt (List.length_pos_of_mem hx) Nat.one_pos

theorem Steps.length_le (h : Steps c s t) : t.remaining.length ≤ s.remaining.length := by
  induction h with
  | refl => exact le_rfl
  | tail _ hstep ih => exact hstep.length_lt.le.trans ih

theorem step_takeSink (h : takeSink c s = some t) : Step c s t := by
  obtain ⟨sink, hfind, rfl⟩ := Option.map_eq_some_iff.mp h
  exact .sink (List.mem_of_find?_eq_some hfind) (by simpa using List.find?_some hfind)

theorem step_takeSource (h : takeSource c s = some t) : Step c s t := by
  obtain ⟨source, hfind, rfl⟩ := Option.map_eq_some_iff.mp h
  have hnone : degree c source s.remaining false = 0 := by simpa using List.find?_some hfind
  exact .source (List.mem_of_find?_eq_some hfind) (hnone.trans_le (Nat.zero_le _))

/-- The round makes some steps, and at least one where it says that something changed. -/
theorem steps_sweep (c : ImportCycle V) (s : Peel V) : Steps c s (sweep c s).1 ∧
    ((sweep c s).2 = true → (sweep c s).1.remaining.length < s.remaining.length) := by
  cases hsink : takeSink c s with
  | none =>
      cases hsource : takeSource c s with
      | none => simp [sweep, hsink, hsource, Relation.ReflTransGen.refl]
      | some t =>
          have hstep := step_takeSource hsource
          simp only [sweep, hsink, hsource]
          exact ⟨.single hstep, fun _ => hstep.length_lt⟩
  | some t =>
      have hstep := step_takeSink hsink
      cases hsource : takeSource c t with
      | none =>
          simp only [sweep, hsink, hsource]
          exact ⟨.single hstep, fun _ => hstep.length_lt⟩
      | some u =>
          have hstep' := step_takeSource hsource
          simp only [sweep, hsink, hsource]
          exact ⟨.tail (.single hstep) hstep', fun _ => hstep'.length_lt.trans hstep.length_lt⟩

/-- `while changed`. -/
def peel (c : ImportCycle V) (s : Peel V) : Peel V :=
  if _ : (sweep c s).2 = true then peel c (sweep c s).1 else (sweep c s).1
termination_by s.remaining.length
decreasing_by exact (steps_sweep c s).2 ‹_›

theorem steps_peel (c : ImportCycle V) (s : Peel V) : Steps c s (peel c s) := by
  induction hn : s.remaining.length using Nat.strong_induction_on generalizing s with
  | _ n ih =>
      rw [peel]
      split
      · rename_i hchanged
        exact (steps_sweep c s).1.trans (ih _ (hn ▸ (steps_sweep c s).2 hchanged) _ rfl)
      · exact (steps_sweep c s).1

theorem best_isSome {remaining : List V} (hne : remaining ≠ []) :
    ∃ node, best c remaining = some node := by
  obtain ⟨x, hx⟩ := List.exists_mem_of_ne_nil _ hne
  obtain ⟨node, hnode, -⟩ := exists_foldl_keepLess
    (fun node => toLex (-score c remaining node, node)) none hx
  exact ⟨node, hnode⟩

theorem best_spec {remaining : List V} {node : V} (h : best c remaining = some node) :
    node ∈ remaining ∧ ∀ x ∈ remaining, score c remaining x ≤ score c remaining node := by
  obtain ⟨hfrom, hle⟩ := foldl_keepLess_eq_some h
  refine ⟨(hfrom.resolve_left fun hheld => nomatch hheld).1, fun x hx => ?_⟩
  have hscore := Prod.Lex.monotone_fst _ _ (hle x hx)
  exact neg_le_neg_iff.mp hscore

theorem takeBest_lt (hne : s.remaining ≠ []) :
    (takeBest c s).remaining.length < s.remaining.length := by
  obtain ⟨node, hbest⟩ := best_isSome (c := c) hne
  have hnode := (best_spec hbest).1
  simp only [takeBest, hbest]
  rw [List.length_erase_of_mem hnode]
  exact Nat.sub_lt (List.length_pos_of_mem hnode) Nat.one_pos

theorem place_lt (hne : s.remaining ≠ []) :
    (takeBest c (peel c s)).remaining.length < s.remaining.length := by
  by_cases hrest : (peel c s).remaining = []
  · have hnone : (takeBest c (peel c s)).remaining = [] := by
      simp [takeBest, best, hrest]
    rw [hnone]
    exact List.length_pos_of_ne_nil hne
  · exact (takeBest_lt hrest).trans_le (Steps.length_le (steps_peel c s))

/-- `while !remaining.is_empty()`. -/
def place (c : ImportCycle V) (s : Peel V) : Peel V :=
  if _ : s.remaining = [] then s else place c (takeBest c (peel c s))
termination_by s.remaining.length
decreasing_by exact place_lt ‹_›

/-- `head`, with the tail behind it. -/
def order (c : ImportCycle V) : List V :=
  let s := place c { remaining := c.members }
  s.head ++ s.tail.reverse

/-- `position`, of a name that stands once in the order. -/
def position (c : ImportCycle V) (node : V) : Nat := (order c).idxOf node

end CycleCut

open CycleCut in
def cycleCut {V : Type} [LinearOrder V] (c : ImportCycle V) : List (V × V × Int) :=
  c.imports.flatMap fun e =>
    if position c e.1.2 < position c e.1.1 then e.2.map fun line => (e.1.1, e.1.2, line) else []

namespace CycleCut

variable {V : Type} [LinearOrder V] {c : ImportCycle V} {s t : Peel V}

/-! ## The imports as weighted edges -/

def arcs (c : ImportCycle V) : Arcs V ((V × V) × List Int) where
  edges := c.imports
  source := fun e => e.1.1
  target := fun e => e.1.2
  weight := fun e => e.2.length

theorem loopless (c : ImportCycle V) : (arcs c).Loopless := c.no_self

theorem weight_eq_load (c : ImportCycle V) (x y : V) :
    weight c x y =
      Arcs.load (arcs c).weight (arcs c).edges fun e =>
        (arcs c).source e = x ∧ (arcs c).target e = y := by
  have hone : c.imports.Pairwise fun e e' =>
      ¬((e.1.1 = x ∧ e.1.2 = y) ∧ e'.1.1 = x ∧ e'.1.2 = y) := by
    refine (List.pairwise_map.mp c.imports_nodup).imp fun hne => ?_
    rintro ⟨⟨hsource, htarget⟩, hsource', htarget'⟩
    exact hne (Prod.ext (hsource.trans hsource'.symm) (htarget.trans htarget'.symm))
  exact Arcs.load_find? (arcs c).weight hone

theorem degree_out {remaining : List V} (hnodup : remaining.Nodup) (x : V) :
    degree c x remaining true = (arcs c).outload x remaining := by
  rw [Arcs.outload_eq_sum x hnodup]
  simp only [degree, weight_eq_load, if_true]

theorem degree_in {remaining : List V} (hnodup : remaining.Nodup) (x : V) :
    degree c x remaining false = (arcs c).inload x remaining := by
  rw [Arcs.inload, Arcs.outload_eq_sum x hnodup]
  have hswap : ∀ y, weight c y x = Arcs.load (arcs c).swap.weight (arcs c).swap.edges fun e =>
      (arcs c).swap.source e = x ∧ (arcs c).swap.target e = y := fun y =>
    (weight_eq_load c y x).trans (Arcs.load_congr fun e _ => and_comm)
  simp only [degree, hswap, Bool.false_eq_true, if_false]

/-! ## Whole runs -/

theorem step_takeBest (hnodup : s.remaining.Nodup) (hne : s.remaining ≠ []) :
    Step c s (takeBest c s) := by
  obtain ⟨node, hbest⟩ := best_isSome (c := c) hne
  obtain ⟨hnode, hmax⟩ := best_spec hbest
  obtain ⟨x, hx, hle⟩ := Arcs.exists_inload_le_outload (a := arcs c) hnodup hne
  have hscore := hmax x hx
  rw [← degree_in hnodup, ← degree_out hnodup] at hle
  simp only [takeBest, hbest]
  refine .source hnode ?_
  rw [score, score] at hscore
  omega

theorem Step.nodup (h : Step c s t) (hnodup : s.remaining.Nodup) : t.remaining.Nodup := by
  cases h <;> exact hnodup.erase _

theorem Steps.nodup (h : Steps c s t) (hnodup : s.remaining.Nodup) : t.remaining.Nodup := by
  induction h with
  | refl => exact hnodup
  | tail _ hstep ih => exact hstep.nodup ih

theorem steps_place (hnodup : s.remaining.Nodup) :
    Steps c s (place c s) ∧ (place c s).remaining = [] := by
  induction hn : s.remaining.length using Nat.strong_induction_on generalizing s with
  | _ n ih =>
      rw [place]
      split
      · rename_i hnone
        exact ⟨.refl, hnone⟩
      · rename_i hne
        have hpeel := steps_peel c s
        have hbest : Steps c (peel c s) (takeBest c (peel c s)) := by
          by_cases hrest : (peel c s).remaining = []
          · simp [takeBest, best, hrest, Relation.ReflTransGen.refl]
          · exact .single (step_takeBest (Steps.nodup hpeel hnodup) hrest)
        have hsteps := hpeel.trans hbest
        obtain ⟨hrun, hdone⟩ := ih _ (hn ▸ place_lt hne) (Steps.nodup hsteps hnodup) rfl
        exact ⟨hsteps.trans hrun, hdone⟩

/-- The modules that the steps place stand between those of the head and those of the tail. -/
theorem peeled_of_steps (h : Steps c s t) (hdone : t.remaining = []) (hnodup : s.remaining.Nodup) :
    ∃ mid, (arcs c).Peeled mid s.remaining ∧
      t.head ++ t.tail.reverse = s.head ++ mid ++ s.tail.reverse := by
  induction h using Relation.ReflTransGen.head_induction_on with
  | refl =>
      refine ⟨[], ?_, by simp⟩
      rw [hdone]
      exact .nil
  | head hstep _ ih =>
      obtain ⟨mid, hmid, horder⟩ := ih (hstep.nodup hnodup)
      cases hstep with
      | @sink x hx hzero =>
          rw [degree_out hnodup] at hzero
          refine ⟨mid ++ [x], .last hx hzero hmid, ?_⟩
          rw [horder]
          simp
      | @source x hx hle =>
          rw [degree_in hnodup, degree_out hnodup] at hle
          refine ⟨x :: mid, .head hx hle hmid, ?_⟩
          rw [horder]
          simp

theorem peeled_order (c : ImportCycle V) : (arcs c).Peeled (order c) c.members := by
  have hnodup : c.members.Nodup := c.members_sorted.imp ne_of_lt
  obtain ⟨hrun, hdone⟩ := steps_place (c := c) (s := { remaining := c.members }) hnodup
  obtain ⟨mid, hmid, horder⟩ := peeled_of_steps hrun hdone hnodup
  have heq : order c = mid := by
    rw [order, horder]
    simp
  rw [heq]
  exact hmid

/-! ## The cut -/

theorem mem_cycleCut {u v : V} {line : Int} :
    (u, v, line) ∈ cycleCut c ↔
      ∃ lines, ((u, v), lines) ∈ c.imports ∧ line ∈ lines ∧ position c v < position c u := by
  rw [cycleCut, List.mem_flatMap]
  constructor
  · rintro ⟨⟨⟨u', v'⟩, lines⟩, he, hin⟩
    split at hin
    · rename_i hlt
      obtain ⟨line', hline, heq⟩ := List.mem_map.mp hin
      obtain ⟨rfl, rfl, rfl⟩ : u' = u ∧ v' = v ∧ line' = line := by simpa using heq
      exact ⟨lines, he, hline, hlt⟩
    · cases hin
  · rintro ⟨lines, he, hline, hlt⟩
    refine ⟨((u, v), lines), he, ?_⟩
    rw [if_pos hlt]
    exact List.mem_map_of_mem hline

def Kept (c : ImportCycle V) (u v : V) : Prop :=
  ∃ lines, ((u, v), lines) ∈ c.imports ∧ ∃ line ∈ lines, (u, v, line) ∉ cycleCut c

theorem mem_order {v : V} : v ∈ order c ↔ v ∈ c.members := (peeled_order c).perm.mem_iff

theorem Kept.lt {u v : V} (h : Kept c u v) : position c u < position c v := by
  obtain ⟨lines, he, line, hline, hkept⟩ := h
  refine lt_of_le_of_ne (le_of_not_gt fun hlt => ?_) fun heq => ?_
  · exact hkept (mem_cycleCut.mpr ⟨lines, he, hline, hlt⟩)
  · exact c.no_self _ he ((List.idxOf_inj (mem_order.mpr (c.inside _ he).1)).mp heq)

theorem transGen_lt {u v : V} (h : Relation.TransGen (Kept c) u v) :
    position c u < position c v := by
  induction h with
  | single hkept => exact hkept.lt
  | tail _ hkept ih => exact ih.trans hkept.lt

theorem length_cycleCut (c : ImportCycle V) :
    (cycleCut c).length = (arcs c).backward (order c) := by
  have hall : (arcs c).backward (order c) =
      Arcs.load (arcs c).weight c.imports fun e => position c e.1.2 < position c e.1.1 := by
    refine Arcs.load_congr fun e he => and_iff_right ?_
    exact ⟨mem_order.mpr (c.inside e he).1, mem_order.mpr (c.inside e he).2⟩
  rw [hall, cycleCut, Arcs.load]
  generalize c.imports = imports
  induction imports with
  | nil => rfl
  | cons e imports ih =>
      rw [List.flatMap_cons, List.length_append, ih, List.filter_cons]
      by_cases hlt : position c e.1.2 < position c e.1.1
      · simp [hlt, arcs]
      · simp [hlt]

theorem within_members (c : ImportCycle V) :
    (arcs c).within c.members = (c.imports.map fun e => e.2.length).sum := by
  have hall : (arcs c).edges.filter (fun e =>
      decide ((arcs c).source e ∈ c.members ∧ (arcs c).target e ∈ c.members)) = c.imports :=
    List.filter_eq_self.mpr fun e he => decide_eq_true (c.inside e he)
  rw [Arcs.within, Arcs.load, hall]
  rfl

/-- The loop ends, with each module once in its order; the imports it lists are imports of the
component, at most half of them, and what stays has no cycle. -/
theorem cycleCut_breaks (c : ImportCycle V) :
    (order c).Perm c.members ∧
      (∀ u v line, (u, v, line) ∈ cycleCut c →
        ∃ lines, ((u, v), lines) ∈ c.imports ∧ line ∈ lines) ∧
      (∀ v, ¬Relation.TransGen (Kept c) v v) ∧
      2 * (cycleCut c).length ≤ (c.imports.map fun e => e.2.length).sum := by
  have hpeeled := peeled_order c
  refine ⟨hpeeled.perm, ?_, fun v hcycle => lt_irrefl _ (transGen_lt hcycle), ?_⟩
  · intro u v line hin
    obtain ⟨lines, he, hline, -⟩ := mem_cycleCut.mp hin
    exact ⟨lines, he, hline⟩
  · rw [length_cycleCut, ← within_members]
    exact hpeeled.two_mul_backward_le (c.members_sorted.imp ne_of_lt) (loopless c)

end CycleCut

end Dagayn
