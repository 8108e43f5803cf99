import Dagayn.Bridges
import Dagayn.OutputBudget
import Dagayn.SimpleCycles
import Dagayn.StronglyConnected
import Dagayn.TestWalk
import Mathlib

/-!
# Import cycles

`simple_cycles` searches each strongly connected group from each of its members through larger
ones. Its rounds are the steps of `SimpleCycles.explore`, which no path is too long for
(`walk_eq_takeSteps`); `takeSteps` is a run that looks at its two limits before each step.
`import_cycles` builds the groups from the resolved imports and cuts the reply to a budget.
-/

namespace Dagayn

namespace ImportCycles

open SimpleCycles StronglyConnected

/-- A `BTreeSet` of the elements. -/
def sortedSet {V : Type} [LinearOrder V] (l : List V) : List V :=
  l.dedup.insertionSort (· ≤ ·)

section Search

variable {V : Type} [LinearOrder V] (succ : V → List V) (start : V) (maxCycles : Nat)

/-- The loop over `work`, with the rounds still allowed; the last part says whether it was done.
The path and the work have their ends in front. -/
def walk : Nat → List V → List (List V) → List (List V) → Nat × List (List V) × Bool
  | remaining, _, [], cycles => (remaining, cycles, true)
  | 0, _, _ :: _, cycles => (0, cycles, false)
  | remaining + 1, path, pending :: work, cycles =>
      if maxCycles < cycles.length then (remaining, cycles, false)
      else
        match pending with
        | child :: pending =>
            if child = start then walk remaining path (pending :: work) (cycles ++ [path.reverse])
            else if child ∉ path then
              walk remaining (child :: path) (succ child :: pending :: work) cycles
            else walk remaining path (pending :: work) cycles
        | [] => walk remaining path.tail work cycles

/-- `next`: the members from the start on that a node leads to. -/
def next (g : Adjacency V) (members : List V) (start node : V) : List V :=
  (g.successors node).filter fun other => other ∈ members ∧ start ≤ other

def startsLoop (g : Adjacency V) : List (List V × V) → Nat → List (List V) → List (List V) × Bool
  | [], _, cycles => (cycles, true)
  | (members, start) :: starts, remaining, cycles =>
      match walk (next g members start) start maxCycles remaining [start]
          [next g members start start] cycles with
      | (remaining, cycles, true) => startsLoop g starts remaining cycles
      | (_, cycles, false) => (cycles, false)

def startsOf (groups : List (List V)) : List (List V × V) :=
  groups.flatMap fun group => (sortedSet group).map fun start => (sortedSet group, start)

/-- `simple_cycles`, with its limits. -/
def simpleCycles (g : Adjacency V) (maxSteps maxCycles : Nat) (groups : List (List V)) :
    List (List V) × Bool :=
  startsLoop maxCycles g (startsOf groups) maxSteps []

end Search

def maxCycles : Nat := 200

def maxSteps : Nat := 500000

/-- `strongly_connected(&adjacency)`, its groups of more than one. -/
def groupsOf {V : Type} [LinearOrder V] (g : Adjacency V) : List (List V) :=
  ((stronglyConnected g (g.keys.map (rounds g)).sum).getD []).filter fun group => 1 < group.length

/-! ## Rounds as steps -/

section Steps

variable {V : Type} (maxCycles : Nat)

/-- A run over steps, with its limits looked at before each of them. -/
def takeSteps : Nat → List (Step V) → List (List V) → Nat × List (List V) × Bool
  | remaining, [], cycles => (remaining, cycles, true)
  | 0, _ :: _, cycles => (0, cycles, false)
  | remaining + 1, step :: steps, cycles =>
      if maxCycles < cycles.length then (remaining, cycles, false)
      else
        match step with
        | .skip => takeSteps remaining steps cycles
        | .meet path => takeSteps remaining steps (cycles ++ [path.reverse])

variable {maxCycles}

/-- The run finds a first part of what is met, and all of it where it says that it was done. -/
theorem takeSteps_spec (remaining : Nat) (steps : List (Step V)) (cycles : List (List V)) :
    (takeSteps maxCycles remaining steps cycles).2.1 <+:
        cycles ++ (meets steps).map List.reverse ∧
      ((takeSteps maxCycles remaining steps cycles).2.2 = true →
        (takeSteps maxCycles remaining steps cycles).2.1 =
          cycles ++ (meets steps).map List.reverse) := by
  fun_induction takeSteps maxCycles remaining steps cycles with
  | case1 remaining cycles => simp [meets]
  | case2 step steps cycles => exact ⟨List.prefix_append _ _, nofun⟩
  | case3 remaining step steps cycles hfull => exact ⟨List.prefix_append _ _, nofun⟩
  | case4 remaining steps cycles hroom ih => exact ih
  | case5 remaining steps cycles hroom path ih =>
      have hsplit : cycles ++ (meets (.meet path :: steps)).map List.reverse =
          (cycles ++ [path.reverse]) ++ (meets steps).map List.reverse := by simp
      rw [hsplit]
      exact ih

theorem takeSteps_append (remaining : Nat) (xs ys : List (Step V)) (cycles : List (List V)) :
    takeSteps maxCycles remaining (xs ++ ys) cycles =
      match takeSteps maxCycles remaining xs cycles with
      | (remaining, cycles, true) => takeSteps maxCycles remaining ys cycles
      | (remaining, cycles, false) => (remaining, cycles, false) := by
  fun_induction takeSteps maxCycles remaining xs cycles with
  | case1 remaining cycles => rfl
  | case2 step steps cycles => rfl
  | case3 remaining step steps cycles hfull =>
      simp only [List.cons_append, takeSteps, if_pos hfull]
  | case4 remaining steps cycles hroom ih =>
      simp only [List.cons_append, takeSteps, if_neg hroom]
      exact ih
  | case5 remaining steps cycles hroom path ih =>
      simp only [List.cons_append, takeSteps, if_neg hroom]
      exact ih

variable [LinearOrder V] {succ : V → List V} {start : V} {members : List V}

/-- A round is a step: the members it goes through are larger than the start, and no path of
members without repetition is longer than all of them. -/
theorem walk_eq_takeSteps (hsucc : ∀ u, ∀ v ∈ succ u, v ∈ members ∧ start ≤ v)
    (remaining : Nat) {path : List V} {work : List (List V)} (cycles : List (List V))
    (hlen : path.length = work.length) (hnodup : path.Nodup) (hpath : ∀ v ∈ path, v ∈ members)
    (hwork : ∀ pending ∈ work, ∀ v ∈ pending, v ∈ members ∧ start ≤ v) :
    walk succ start maxCycles remaining path work cycles =
      takeSteps maxCycles remaining (restSteps succ start members.length path work) cycles := by
  induction remaining generalizing path work cycles with
  | zero =>
      rcases work with _ | ⟨pending, work⟩
      · obtain rfl := List.length_eq_zero_iff.mp hlen
        simp [walk, restSteps, takeSteps]
      · rcases path with _ | ⟨node, below⟩
        · simp at hlen
        · obtain ⟨step, steps, hsteps⟩ := exists_restSteps_cons succ start members.length node
            below pending work
          rw [walk, hsteps, takeSteps]
  | succ remaining ih =>
      rcases work with _ | ⟨pending, work⟩
      · obtain rfl := List.length_eq_zero_iff.mp hlen
        simp [walk, restSteps, takeSteps]
      · rcases path with _ | ⟨node, below⟩
        · simp at hlen
        · obtain ⟨hpending, hwork'⟩ := List.forall_mem_cons.mp hwork
          by_cases hfull : maxCycles < cycles.length
          · obtain ⟨step, steps, hsteps⟩ := exists_restSteps_cons succ start members.length node
              below pending work
            rw [hsteps]
            simp only [walk, takeSteps, if_pos hfull]
          cases pending with
          | nil =>
              rw [restSteps_nil]
              simp only [walk, takeSteps, if_neg hfull, List.tail_cons]
              exact ih cycles (Nat.succ.inj hlen) (List.nodup_cons.mp hnodup).2
                (List.forall_mem_cons.mp hpath).2 hwork'
          | cons child pending =>
              obtain ⟨⟨hmember, hge⟩, hpending⟩ := List.forall_mem_cons.mp hpending
              have hrest : ∀ p ∈ pending :: work, ∀ v ∈ p, v ∈ members ∧ start ≤ v :=
                List.forall_mem_cons.mpr ⟨hpending, hwork'⟩
              have hstay : ∀ cycles,
                  walk succ start maxCycles remaining (node :: below) (pending :: work) cycles =
                    takeSteps maxCycles remaining (restSteps succ start members.length
                      (node :: below) (pending :: work)) cycles :=
                fun cycles => ih cycles hlen hnodup hpath hrest
              simp only [walk, if_neg hfull]
              by_cases hstart : child = start
              · have hle : (node :: below).length ≤ members.length :=
                  (List.subperm_of_subset hnodup hpath).length_le
                rw [if_pos hstart, hstart, restSteps_start, if_pos hle]
                simp only [takeSteps, if_neg hfull]
                exact hstay _
              · rw [if_neg hstart]
                have hlt : start < child := lt_of_le_of_ne hge fun heq => hstart heq.symm
                by_cases hnew : child ∉ node :: below
                · have hnodup' : (child :: node :: below).Nodup :=
                    List.nodup_cons.mpr ⟨hnew, hnodup⟩
                  have hpath' : ∀ v ∈ child :: node :: below, v ∈ members :=
                    List.forall_mem_cons.mpr ⟨hmember, hpath⟩
                  rw [if_pos hnew,
                    restSteps_push hlt hnew (List.subperm_of_subset hnodup' hpath').length_le]
                  simp only [takeSteps, if_neg hfull]
                  exact ih cycles (congrArg (· + 1) hlen) hnodup' hpath'
                    (List.forall_mem_cons.mpr ⟨hsucc child, hrest⟩)
                · rw [if_neg hnew, restSteps_pass hstart fun h => hnew h.2.1]
                  simp only [takeSteps, if_neg hfull]
                  exact hstay _

def stepsOf (g : Adjacency V) (starts : List (List V × V)) : List (Step V) :=
  starts.flatMap fun (members, start) => startSteps (next g members start) start members.length

theorem mem_next {g : Adjacency V} {node v : V} :
    v ∈ next g members start node ↔ v ∈ g.successors node ∧ v ∈ members ∧ start ≤ v := by
  rw [next, List.mem_filter, decide_eq_true_eq]

theorem startsLoop_eq_takeSteps (g : Adjacency V) {starts : List (List V × V)}
    (hstarts : ∀ e ∈ starts, e.2 ∈ e.1) (remaining : Nat) (cycles : List (List V)) :
    startsLoop maxCycles g starts remaining cycles =
      (takeSteps maxCycles remaining (stepsOf g starts) cycles).2 := by
  induction starts generalizing remaining cycles with
  | nil => simp [startsLoop, stepsOf, takeSteps]
  | cons e starts ih =>
      obtain ⟨members, start⟩ := e
      have hmember : start ∈ members := hstarts _ List.mem_cons_self
      have hnext : ∀ u, ∀ v ∈ next g members start u, v ∈ members ∧ start ≤ v := fun u v hv =>
        (mem_next.mp hv).2
      have hwalk : walk (next g members start) start maxCycles remaining [start]
          [next g members start start] cycles =
          takeSteps maxCycles remaining (restSteps (next g members start) start members.length
            [start] [next g members start start]) cycles :=
        walk_eq_takeSteps hnext remaining cycles rfl (List.nodup_singleton start)
          (by simpa using hmember) (by simpa using hnext start)
      rw [startsLoop, hwalk, restSteps_singleton, stepsOf, List.flatMap_cons, takeSteps_append]
      rcases htaken : takeSteps maxCycles remaining
        (startSteps (next g members start) start members.length) cycles with ⟨left, kept, done⟩
      cases done with
      | false => rfl
      | true => exact ih (fun e he => hstarts e (List.mem_cons_of_mem _ he)) left kept

end Steps

/-! ## What the search lists -/

/-- The simple cycles of two vertices or more, each once and from its least vertex. -/
structure ListsCycles {V : Type} [LinearOrder V] (edge : V → V → Prop) (cycles : List (List V)) :
    Prop where
  nodup : cycles.Nodup
  mem_iff : ∀ c, c ∈ cycles ↔ SimpleCycle edge c ∧ StartsLeast (· < ·) c ∧ 2 ≤ c.length
  once : ∀ c, SimpleCycle edge c → 2 ≤ c.length → ∃! c', c' ∈ cycles ∧ c.IsRotated c'

section Cycles

variable {V : Type} {edge edge' : V → V → Prop}

theorem SimpleCycle.imp {c : List V} (h : SimpleCycle edge c)
    (hedge : ∀ u ∈ c, ∀ v ∈ c, edge u v → edge' u v) : SimpleCycle edge' c := by
  have hid := h.map (f := id) (fun _ _ _ _ heq => heq) hedge
  rwa [List.map_id] at hid

theorem SimpleCycle.reaches {c : List V} (h : SimpleCycle edge c) {u v : V} (hu : u ∈ c)
    (hv : v ∈ c) : Relation.ReflTransGen edge u v := by
  obtain ⟨front, back, rfl⟩ := List.append_of_mem hu
  have hrot : (front ++ u :: back).IsRotated (u :: (back ++ front)) := List.isRotated_append
  have hchain : (u :: (back ++ front)).IsChain (Relation.ReflTransGen edge) :=
    (h.of_isRotated hrot).chain.imp fun _ _ hedge => .single hedge
  rcases List.mem_cons.mp (hrot.mem_iff.mp hv) with rfl | hv
  · exact .refl
  · exact (List.pairwise_cons.mp hchain.pairwise).1 v hv

variable [LinearOrder V]

theorem listsCycles_of_mem {cycles : List (List V)} (hnodup : cycles.Nodup)
    (hmem : ∀ c, c ∈ cycles ↔ SimpleCycle edge c ∧ StartsLeast (· < ·) c ∧ 2 ≤ c.length) :
    ListsCycles edge cycles := by
  refine ⟨hnodup, hmem, fun c hcycle hlen => ?_⟩
  obtain ⟨c', hrot, hleast⟩ := exists_startsLeast hcycle.ne_nil hcycle.nodup
  have hcycle' := hcycle.of_isRotated hrot
  refine ⟨c', ⟨(hmem c').mpr ⟨hcycle', hleast, hrot.perm.length_eq ▸ hlen⟩, hrot⟩, ?_⟩
  rintro c'' ⟨hin, hrot'⟩
  obtain ⟨-, hleast', -⟩ := (hmem c'').mp hin
  exact (hleast.eq_of_isRotated (fun _ _ => lt_asymm) hleast' hcycle'.nodup
    (hrot.symm.trans hrot')).symm

theorem ListsCycles.perm {cycles cycles' : List (List V)} (h : ListsCycles edge cycles)
    (hperm : cycles.Perm cycles') : ListsCycles edge cycles' :=
  listsCycles_of_mem (hperm.nodup_iff.mp h.nodup) fun c => hperm.mem_iff.symm.trans (h.mem_iff c)

theorem ListsCycles.congr {cycles : List (List V)} (h : ListsCycles edge cycles)
    (hedge : ∀ u v, edge u v ↔ edge' u v) : ListsCycles edge' cycles := by
  have heq : edge = edge' := funext fun u => funext fun v => propext (hedge u v)
  exact heq ▸ h

variable {g : Adjacency V}

theorem mem_sortedSet {l : List V} {v : V} : v ∈ sortedSet l ↔ v ∈ l := by
  rw [sortedSet, List.mem_insertionSort, List.mem_dedup]

theorem nodup_sortedSet (l : List V) : (sortedSet l).Nodup :=
  (List.perm_insertionSort _ _).nodup_iff.mpr (List.nodup_dedup l)

theorem sorted_sortedSet (l : List V) : (sortedSet l).Pairwise (· < ·) :=
  ((List.pairwise_insertionSort (· ≤ ·) l.dedup).sortedLE.sortedLT_of_nodup
    (nodup_sortedSet l)).pairwise

theorem mem_startsOf {groups : List (List V)} {e : List V × V} :
    e ∈ startsOf groups ↔ ∃ group ∈ groups, e.2 ∈ group ∧ e.1 = sortedSet group := by
  simp only [startsOf, List.mem_flatMap, List.mem_map, mem_sortedSet]
  constructor
  · rintro ⟨group, hgroup, start, hstart, rfl⟩
    exact ⟨group, hgroup, hstart, rfl⟩
  · rintro ⟨group, hgroup, hstart, heq⟩
    exact ⟨group, hgroup, e.2, hstart, Prod.ext heq.symm rfl⟩

theorem mem_meets_stepsOf {starts : List (List V × V)} {p : List V} :
    p ∈ meets (stepsOf g starts) ↔
      ∃ e ∈ starts, p ∈ meets (startSteps (next g e.1 e.2) e.2 e.1.length) := by
  induction starts with
  | nil => simp [stepsOf, meets]
  | cons e starts ih =>
      rw [stepsOf, List.flatMap_cons, meets_append, List.mem_append, List.exists_mem_cons_iff]
      exact or_congr_right ih

theorem nodup_meets_stepsOf {starts : List (List V × V)} (hstarts : (starts.map Prod.snd).Nodup) :
    (meets (stepsOf g starts)).Nodup := by
  induction starts with
  | nil => exact List.nodup_nil
  | cons e starts ih =>
      obtain ⟨hnot, hrest⟩ := List.nodup_cons.mp hstarts
      rw [stepsOf, List.flatMap_cons, meets_append]
      refine List.nodup_append.mpr ⟨?_, ih hrest, fun p hp q hq hpq => ?_⟩
      · have hnext : ∀ v, (next g e.1 e.2 v).Nodup := fun v =>
          ((g.successors_sorted v).imp ne_of_lt).filter _
        exact nodup_meets_explore hnext _ _ _ (by rw [List.length_singleton]) (hnext e.2)
      · -- the start is the last vertex of the path
        subst hpq
        obtain ⟨other, hother, hq⟩ := mem_meets_stepsOf.mp hq
        obtain ⟨r, hr, -⟩ := mem_meets_startSteps.mp hp
        obtain ⟨r', hr', -⟩ := mem_meets_startSteps.mp hq
        rw [hr] at hr'
        exact hnot ((List.cons.inj hr').1 ▸ List.mem_map_of_mem hother)

/-- From the members of the groups of more than one, the steps meet the simple cycles. -/
theorem mem_meets_groups {components : List (List V)}
    (hlisted : Listed (StronglyConnected.Edge g) components)
    (hkeys : ∀ v, v ∈ components.flatten ↔ v ∈ g.keys) (hself : ∀ u, u ∉ g.successors u)
    (c : List V) :
    c.reverse ∈ meets (stepsOf g (startsOf (components.filter fun group => 1 < group.length))) ↔
      SimpleCycle (StronglyConnected.Edge g) c ∧ StartsLeast (· < ·) c ∧ 2 ≤ c.length := by
  rw [mem_meets_stepsOf]
  simp only [mem_meets_startSteps, List.reverse_reverse]
  constructor
  · rintro ⟨e, -, r, rfl, hcycle, hless, -⟩
    have hcycle' : SimpleCycle (StronglyConnected.Edge g) (e.2 :: r) :=
      SimpleCycle.imp hcycle fun u _ v _ hedge => (mem_next.mp hedge).1
    refine ⟨hcycle', ⟨e.2, r, rfl, hless⟩, ?_⟩
    cases r with
    | nil => exact absurd hcycle'.closes (hself e.2)
    | cons v r => simp
  · rintro ⟨hcycle, ⟨start, r, rfl, hless⟩, hlen⟩
    obtain ⟨v, -, hedge⟩ := hcycle.exists_edge List.mem_cons_self
    have hstart := (hkeys start).mpr (mem_keys_of_edge hedge).1
    obtain ⟨group, hgroup, hin⟩ := List.mem_flatten.mp hstart
    have hsub : ∀ w ∈ start :: r, w ∈ group := fun w hw =>
      (hlisted.mutual_iff group hgroup start hin w).mpr
        ⟨SimpleCycle.reaches hcycle List.mem_cons_self hw,
          SimpleCycle.reaches hcycle hw List.mem_cons_self⟩
    have hlong := (List.subperm_of_subset hcycle.nodup hsub).length_le
    have hsub' : ∀ w ∈ start :: r, w ∈ sortedSet group := fun w hw => mem_sortedSet.mpr (hsub w hw)
    refine ⟨(sortedSet group, start), ?_, r, rfl, ?_, hless,
      (List.subperm_of_subset hcycle.nodup hsub').length_le⟩
    · refine mem_startsOf.mpr ⟨group, List.mem_filter.mpr ⟨hgroup, ?_⟩, hin, rfl⟩
      exact decide_eq_true (lt_of_lt_of_le hlen hlong)
    · refine SimpleCycle.imp hcycle fun u _ v hv hedge => mem_next.mpr ⟨hedge, hsub' v hv, ?_⟩
      rcases List.mem_cons.mp hv with rfl | hv
      · exact le_rfl
      · exact (hless v hv).le

theorem nodup_startsOf {groups : List (List V)} (h : groups.flatten.Nodup) :
    ((startsOf groups).map Prod.snd).Nodup := by
  have hsnd : (startsOf groups).map Prod.snd = groups.flatMap sortedSet := by
    simp [startsOf, List.map_flatMap, Function.comp_def]
  obtain ⟨-, hdisjoint⟩ := List.nodup_flatten.mp h
  rw [hsnd, List.nodup_flatMap]
  refine ⟨fun group _ => nodup_sortedSet group, hdisjoint.imp fun hd v hv hv' => ?_⟩
  exact hd (mem_sortedSet.mp hv) (mem_sortedSet.mp hv')

theorem listsCycles_of_done (hself : ∀ u, u ∉ g.successors u) {cycles : List (List V)}
    {maxSteps maxCycles : Nat}
    (h : simpleCycles g maxSteps maxCycles (groupsOf g) = (cycles, true)) :
    ListsCycles (StronglyConnected.Edge g) cycles := by
  obtain ⟨components, hrun, hperm, -, hlisted⟩ := exists_components g
  have hgroups : groupsOf g = components.filter fun group => 1 < group.length := by
    rw [groupsOf, hrun _ le_rfl, Option.getD_some]
  have hstarts : ∀ e ∈ startsOf (groupsOf g), e.2 ∈ e.1 := by
    intro e he
    obtain ⟨group, -, hin, heq⟩ := mem_startsOf.mp he
    exact heq ▸ mem_sortedSet.mpr hin
  rw [simpleCycles, startsLoop_eq_takeSteps g hstarts] at h
  have hall : (takeSteps maxCycles maxSteps (stepsOf g (startsOf (groupsOf g))) []).2.1 =
      [] ++ (meets (stepsOf g (startsOf (groupsOf g)))).map List.reverse :=
    (takeSteps_spec maxSteps _ _).2 (by rw [h])
  rw [h, List.nil_append] at hall
  dsimp only at hall
  have hflat : (components.filter fun group => 1 < group.length).flatten.Nodup :=
    hlisted.nodup.sublist List.filter_sublist.flatten
  refine listsCycles_of_mem ?_ fun c => ?_
  · rw [hall, hgroups]
    exact (nodup_meets_stepsOf (nodup_startsOf hflat)).map List.reverse_injective
  · rw [hall, hgroups, ← mem_meets_groups hlisted (fun v => hperm.mem_iff) hself]
    constructor
    · intro hc
      obtain ⟨p, hp, rfl⟩ := List.mem_map.mp hc
      rwa [List.reverse_reverse]
    · exact fun hc => List.mem_map.mpr ⟨c.reverse, hc, List.reverse_reverse c⟩

end Cycles

/-! ## The reply -/

open Bridges (GraphEdge)

/-- One import behind a hop between two scopes. -/
structure Example where
  source : String
  target : String
  line : Int
  kind : Option String

/-- `CycleRequest`, with the view of files that it asks for: their scopes, and which of them belong
to the artifact. -/
structure CycleRequest where
  scopeKind : String
  unitFilter : Option (List String)
  importKind : Option String
  artifactScope : String
  detailLevel : String
  scopeOf : String → String
  includes : NodeRow → Bool

structure Snapshot where
  allNodes : List NodeRow
  edges : List GraphEdge

def edgeImportKind (edge : GraphEdge) : Option String :=
  match edge.extra.getStr "markdown_import_kind" with
  | some kind => some kind
  | none =>
      if edge.extra.get "path_use" == some (.bool true) then some "path"
      else if edge.extra.get "lazy_export" == some (.bool true) then some "lazy_export"
      else none

def importKindMatches (edge : GraphEdge) : Option String → Bool
  | none => true
  | some "statement" => (edgeImportKind edge).isNone
  | some kind => edgeImportKind edge = some kind

abbrev Hops := Dict (String × String) (List Example)

section Reply

variable (request : CycleRequest) (snapshot : Snapshot)

def files : Dict String NodeRow :=
  (snapshot.allNodes.filter fun node => node.input.kind = "File").foldl
    (fun d node => AList.insert node.input.filePath node d) ∅

def fileOf : Dict String String :=
  snapshot.allNodes.foldl (fun d node => AList.insert node.qualifiedName node.input.filePath d) ∅

def kept (scope : String) : Bool :=
  match request.unitFilter with
  | none => true
  | some prefixes => prefixes.any fun p => p.toList.isPrefixOf scope.toList

def inArtifact (file : String) : Bool :=
  match (files snapshot).lookup file with
  | some node => request.includes node
  | none => false

def importedFile (target : String) : Option String :=
  match (fileOf snapshot).lookup target with
  | some file => some file
  | none =>
      let file :=
        match splitOnce "::" target with
        | some (file, _) => file
        | none => target
      if file ∈ files snapshot then some file else none

def hopOf (edge : GraphEdge) : Option ((String × String) × Example) :=
  if edge.kind ≠ "IMPORTS_FROM" ∨ importKindMatches edge request.importKind = false then none
  else
    match importedFile snapshot edge.targetQualified with
    | none => none
    | some target =>
        let source := edge.filePath
        if source = target ∨ inArtifact request snapshot source = false ∨
            inArtifact request snapshot target = false then none
        else if request.scopeKind ≠ "file" ∧ TestWalk.isTestPath source then none
        else
          let scopes := (request.scopeOf source, request.scopeOf target)
          if scopes.1 = scopes.2 ∨ kept request scopes.1 = false ∨
              kept request scopes.2 = false then none
          else some (scopes, { source, target, line := edge.line, kind := edgeImportKind edge })

/-- `hops.entry(key).or_default().push(example)`. -/
def pushHop (hops : Hops) (hop : (String × String) × Example) : Hops :=
  AList.insert hop.1 (Dict.getD hops hop.1 [] ++ [hop.2]) hops

def collectHops : Hops :=
  snapshot.edges.foldl (fun hops edge => (hopOf request snapshot edge).elim hops (pushHop hops)) ∅

def exampleLe (a b : Example) : Bool :=
  toLex (a.source, toLex (a.line, a.target)) ≤ toLex (b.source, toLex (b.line, b.target))

def examplesOf (hops : Hops) (hop : String × String) : List Example :=
  (Dict.getD hops hop []).insertionSort fun a b => exampleLe a b

/-- `adjacency`. -/
def adjacencyOf (hops : Hops) : Adjacency String where
  keys := sortedSet (hops.keys.flatMap fun hop => [hop.1, hop.2])
  successors := fun u => sortedSet ((hops.keys.filter fun hop => hop.1 = u).map Prod.snd)
  keys_sorted := sorted_sortedSet _
  successors_sorted := fun _ => sorted_sortedSet _
  outside := by
    intro u hu
    rw [mem_sortedSet, List.mem_flatMap] at hu
    have hnone : (hops.keys.filter fun hop => hop.1 = u) = [] := by
      refine List.filter_eq_nil_iff.mpr fun hop hhop heq => hu ⟨hop, hhop, ?_⟩
      simp [of_decide_eq_true heq]
    rw [hnone]
    rfl
  closed := by
    intro u v hv
    obtain ⟨hop, hhop, rfl⟩ := List.mem_map.mp (mem_sortedSet.mp hv)
    rw [mem_sortedSet, List.mem_flatMap]
    exact ⟨hop, List.mem_of_mem_filter hhop, by simp⟩

/-- The first import of a hop and their number. -/
def hopRow (hops : Hops) (hop : String × String) : Json :=
  let examples := examplesOf hops hop
  match examples with
  | [] => .null
  | first :: _ =>
      let row := [("from", .str first.source), ("to", .str first.target), ("line", .int first.line),
        ("imports", .int examples.length)]
      match first.kind with
      | some kind => .obj (row ++ [("import_kind", .str kind)])
      | none => .obj row

def cycleRow (hops : Hops) (cycle : List String) : Json :=
  let scopes := Json.arr (cycle.map .str)
  if request.detailLevel = "minimal" then scopes
  else
    .obj [("scopes", scopes),
      ("imports", .arr ((cycle.zip (cycle.rotate 1)).map fun hop => hopRow hops hop))]

end Reply

open OutputBudget Ordered

def minimalBudget : Nat := 1750

def standardBudget : Nat := 7750

section Reply

variable (floatLen : Float → Nat) (request : CycleRequest) (hops : Hops)

/-- The reply's fields in front of the budget. -/
def startReply (cycles : List (List String)) (groups : List (List String)) : Ordered :=
  let out := (⟨[("status", .str "ok")], by simp⟩ : Ordered)
    |>.put "summary" (.str "")
    |>.put "cycles" (.arr (cycles.map (cycleRow request hops)))
    |>.put "groups" (.arr (groups.map fun group => .arr (group.map .str)))
    |>.put "scope_kind" (.str request.scopeKind)
    |>.put "artifact_scope" (.str request.artifactScope)
  let out :=
    match request.importKind with
    | some kind => out.put "import_kind" (.str kind)
    | none => out
  match request.unitFilter with
  | some prefixes => out.put "unit_filter" (.arr (prefixes.map .str))
  | none => out

/-- `summary`. -/
def summaryOf (groups : List (List String)) (found shown : Nat) (truncated complete : Bool) :
    String :=
  let filter :=
    match request.importKind with
    | some kind => ", import_kind=" ++ kind
    | none => ""
  let count := if truncated then "More than " ++ toString maxCycles else toString found
  let scopes := (groups.map List.length).sum
  let summary := count ++ " import cycle(s) among " ++ toString scopes ++ " " ++
    request.scopeKind ++ "(s) in " ++
      toString groups.length ++ " strongly connected group(s) (scope_kind=" ++
    request.scopeKind ++ ", artifact_scope=" ++ request.artifactScope ++ filter ++ ")."
  if complete then
    summary ++ " This is every simple cycle the graph's resolved imports form; an import that " ++
      "resolves to no indexed file (standard library, third-party, compiled extension) is not " ++
      "an edge."
  else
    summary ++ " Showing " ++ toString shown ++
      "; narrow it with unit_filter (a scope prefix from groups)."

/-- `import_cycles`, from the hops on. -/
def replyOf : Ordered :=
  let g := adjacencyOf hops
  let groups := groupsOf g
  let (cycles, complete) := simpleCycles g maxSteps maxCycles groups
  let cycles := cycles.insertionSort (· ≤ ·)
  let found := cycles.length
  let truncated := !complete || decide (maxCycles < found)
  let out := startReply request hops (cycles.take maxCycles) groups
  let budget := if request.detailLevel = "minimal" then minimalBudget else standardBudget
  let out := applyOutputBudget floatLen budget out ["groups", "cycles"]
  let shown := (out.listAt "cycles").elim 0 List.length
  let complete := !truncated && decide (shown = found)
  let summary := summaryOf request groups found shown truncated complete
  let out := if truncated then out else out.put "cycle_count" (.int found)
  (out.set "summary" (.str summary)).put "results_complete" (.bool complete)

end Reply

def importCycles (floatLen : Float → Nat) (request : CycleRequest) (snapshot : Snapshot) :
    Ordered :=
  replyOf floatLen request (collectHops request snapshot)

/-! ## What the reply says -/

section Spec

variable {request : CycleRequest} {snapshot : Snapshot}

/-- A resolved import from one scope to another. -/
def Import (request : CycleRequest) (snapshot : Snapshot) (u v : String) : Prop :=
  ∃ edge ∈ snapshot.edges, ∃ ex, hopOf request snapshot edge = some ((u, v), ex)

theorem hopOf_ne {edge : GraphEdge} {hop : String × String} {ex : Example}
    (h : hopOf request snapshot edge = some (hop, ex)) : hop.1 ≠ hop.2 := by
  rw [hopOf] at h
  split_ifs at h
  split at h
  · cases h
  · dsimp only at h
    split_ifs at h with hfiles htest hscopes
    obtain ⟨rfl, -⟩ := Prod.mk.inj (Option.some.inj h)
    exact fun heq => hscopes (.inl heq)

theorem mem_foldl_pushHop (edges : List GraphEdge) (hops : Hops) (hop : String × String) :
    hop ∈ edges.foldl
        (fun hops edge => (hopOf request snapshot edge).elim hops (pushHop hops)) hops ↔
      hop ∈ hops ∨ ∃ edge ∈ edges, ∃ ex, hopOf request snapshot edge = some (hop, ex) := by
  induction edges generalizing hops with
  | nil => simp
  | cons edge edges ih =>
      rw [List.foldl_cons, ih, List.exists_mem_cons_iff, ← or_assoc]
      refine or_congr_left ?_
      cases hedge : hopOf request snapshot edge with
      | none => simp
      | some e =>
          rw [Option.elim_some, pushHop, AList.mem_insert, or_comm]
          refine or_congr_right ⟨?_, ?_⟩
          · rintro rfl
            exact ⟨e.2, rfl⟩
          · rintro ⟨ex, heq⟩
            rw [Option.some.inj heq]

theorem mem_collectHops {u v : String} :
    (u, v) ∈ collectHops request snapshot ↔ Import request snapshot u v := by
  rw [collectHops, mem_foldl_pushHop]
  exact or_iff_right (AList.notMem_empty _)

theorem edge_adjacencyOf {hops : Hops} {u v : String} :
    StronglyConnected.Edge (adjacencyOf hops) u v ↔ (u, v) ∈ hops := by
  change v ∈ sortedSet ((hops.keys.filter fun hop => hop.1 = u).map Prod.snd) ↔ _
  rw [mem_sortedSet, List.mem_map]
  constructor
  · rintro ⟨⟨u', v'⟩, hin, rfl⟩
    obtain ⟨hkey, heq⟩ := List.mem_filter.mp hin
    obtain rfl : u' = u := of_decide_eq_true heq
    exact AList.mem_keys.mp hkey
  · exact fun hin => ⟨(u, v), List.mem_filter.mpr ⟨AList.mem_keys.mpr hin, by simp⟩, rfl⟩

theorem not_self (u : String) :
    u ∉ (adjacencyOf (collectHops request snapshot)).successors u := by
  intro hin
  obtain ⟨edge, -, ex, heq⟩ := mem_collectHops.mp (edge_adjacencyOf.mp hin)
  exact hopOf_ne heq rfl

theorem fieldPath_cycles : fieldPath "cycles" = ["cycles"] := by decide +kernel

theorem listAt_cycles (o : Ordered) : o.listAt "cycles" = (o.get "cycles").bind Json.asList := by
  rw [Ordered.listAt, fieldPath_cycles, Json.listAt, Json.valueAt, Option.bind_assoc]
  rfl

theorem get_put_of_ne {key key' : String} (h : key' ≠ key) (o : Ordered) (v : Json) :
    (o.put key v).get key' = o.get key' := by
  rw [Ordered.put, get_set, if_neg h]

theorem get_startReply (hops : Hops) (cycles groups : List (List String)) :
    (startReply request hops cycles groups).get "cycles" =
      some (.arr (cycles.map (cycleRow request hops))) := by
  have hbefore : ∀ o : Ordered, (((((o.put "cycles" (.arr (cycles.map (cycleRow request hops)))).put
      "groups" (.arr (groups.map fun group => .arr (group.map .str)))).put "scope_kind"
        (.str request.scopeKind)).put "artifact_scope" (.str request.artifactScope)).get "cycles") =
      some (.arr (cycles.map (cycleRow request hops))) := fun o => by
    rw [get_put_of_ne (by decide), get_put_of_ne (by decide), get_put_of_ne (by decide),
      Ordered.put, get_set, if_pos rfl]
  unfold startReply
  cases request.importKind <;> cases request.unitFilter <;> dsimp only
  · exact hbefore _
  · rw [get_put_of_ne (by decide)]
    exact hbefore _
  · rw [get_put_of_ne (by decide)]
    exact hbefore _
  · rw [get_put_of_ne (by decide), get_put_of_ne (by decide)]
    exact hbefore _

/-- What the budget leaves of the cycles: all of them, where it leaves as many as there were. -/
theorem get_budget_cycles {floatLen : Float → Nat} {budget : Nat} {o : Ordered} {rows : List Json}
    (hrows : o.get "cycles" = some (.arr rows)) {priorities : List String}
    (hlen : ((applyOutputBudget floatLen budget o priorities).listAt "cycles").elim 0 List.length =
      rows.length) :
    (applyOutputBudget floatLen budget o priorities).listAt "cycles" = some rows := by
  have hplain : Plain "cycles" := by decide +kernel
  have hedits : Edits priorities o (applyOutputBudget floatLen budget o priorities) :=
    edits_apply o priorities
  obtain ⟨count, -, heq⟩ := hedits.listAt_eq hplain
  have hbefore : o.listAt "cycles" = some rows := by
    rw [listAt_cycles, hrows]
    rfl
  rw [heq, hbefore] at hlen ⊢
  have htake : (rows.take count).length = rows.length := hlen
  rw [Option.map_some, List.take_of_length_le]
  rw [List.length_take] at htake
  omega

theorem replyOf_spec (floatLen : Float → Nat) (request : CycleRequest) (hops : Hops)
    {cycles : List (List String)} {complete : Bool}
    (hrun : simpleCycles (adjacencyOf hops) maxSteps maxCycles (groupsOf (adjacencyOf hops)) =
      (cycles, complete)) :
    ∃ done, (replyOf floatLen request hops).get "results_complete" = some (.bool done) ∧
      (done = true → complete = true ∧ (replyOf floatLen request hops).get "cycles" =
        some (.arr ((cycles.insertionSort (· ≤ ·)).map (cycleRow request hops)))) := by
  simp only [replyOf, hrun]
  generalize hsorted : cycles.insertionSort (· ≤ ·) = sorted
  generalize hbudget : (if request.detailLevel = "minimal" then minimalBudget else standardBudget) =
    budget
  generalize hout : applyOutputBudget floatLen budget (startReply request hops
    (sorted.take maxCycles) (groupsOf (adjacencyOf hops))) ["groups", "cycles"] = out
  refine ⟨_, by rw [Ordered.put, get_set, if_pos rfl], fun hdone => ?_⟩
  rw [Bool.and_eq_true, Bool.not_eq_true', Bool.or_eq_false_iff, Bool.not_eq_false',
    decide_eq_false_iff_not, decide_eq_true_eq, not_lt] at hdone
  obtain ⟨⟨hcomplete, hfound⟩, hshown⟩ := hdone
  refine ⟨hcomplete, ?_⟩
  have hall : sorted.take maxCycles = sorted := List.take_of_length_le hfound
  have hrows : (startReply request hops sorted (groupsOf (adjacencyOf hops))).get "cycles" =
      some (.arr (sorted.map (cycleRow request hops))) := get_startReply hops sorted _
  rw [hall] at hout
  have hlist : out.listAt "cycles" = some (sorted.map (cycleRow request hops)) := by
    rw [← hout] at hshown ⊢
    exact get_budget_cycles hrows (by rw [hshown, List.length_map])
  have hget : out.get "cycles" = some (.arr (sorted.map (cycleRow request hops))) := by
    rw [listAt_cycles] at hlist
    obtain ⟨v, hv, hitems⟩ := Option.bind_eq_some_iff.mp hlist
    cases v with
    | arr items =>
        obtain rfl := Option.some.inj hitems
        exact hv
    | _ => cases hitems
  rw [get_put_of_ne (by decide), get_set, if_neg (by decide)]
  split_ifs
  · exact hget
  · rw [get_put_of_ne (by decide)]
    exact hget

/-- A scope that leads to itself, in a group of two. -/
def selfLoop : Adjacency Nat where
  keys := [0, 1]
  successors := fun u => if u = 0 then [0, 1] else if u = 1 then [0] else []
  keys_sorted := by decide
  successors_sorted := by
    intro u
    split_ifs <;> simp
  outside := by
    intro u hu
    simp only [List.mem_cons, List.not_mem_nil, or_false, not_or] at hu
    rw [if_neg hu.1, if_neg hu.2]
  closed := by
    intro u v hv
    split_ifs at hv <;> simp_all

/-- The search says that it was done, and lists the loop as a cycle of one. -/
theorem not_listsCycles_selfLoop :
    simpleCycles selfLoop maxSteps maxCycles (groupsOf selfLoop) = ([[0], [0, 1]], true) ∧
      ¬ListsCycles (StronglyConnected.Edge selfLoop) [[0], [0, 1]] := by
  refine ⟨by decide +kernel, fun h => ?_⟩
  have hlen := ((h.mem_iff [0]).mp List.mem_cons_self).2.2
  exact absurd hlen (by decide)

/-- A cycle search that says it was done has listed every simple cycle of two scopes or more, each
once and from its smallest scope. So has a reply that says its results are complete, for the
resolved imports; and one whose search stopped at a limit does not say so. -/
theorem importCycles_lists :
    (∀ {V : Type} [LinearOrder V] (g : Adjacency V), (∀ u, u ∉ g.successors u) →
      ∀ cycles, simpleCycles g maxSteps maxCycles (groupsOf g) = (cycles, true) →
        ListsCycles (StronglyConnected.Edge g) cycles) ∧
      ∀ (floatLen : Float → Nat) (request : CycleRequest) (snapshot : Snapshot),
        let hops := collectHops request snapshot
        let reply := importCycles floatLen request snapshot
        (reply.get "results_complete" = some (.bool true) →
          ∃ cycles, ListsCycles (Import request snapshot) cycles ∧
            reply.get "cycles" = some (.arr (cycles.map (cycleRow request hops)))) ∧
        ((simpleCycles (adjacencyOf hops) maxSteps maxCycles
            (groupsOf (adjacencyOf hops))).2 = false →
          reply.get "results_complete" = some (.bool false)) := by
  refine ⟨fun g hself cycles hrun => listsCycles_of_done hself hrun, ?_⟩
  intro floatLen request snapshot
  rcases hrun : simpleCycles (adjacencyOf (collectHops request snapshot)) maxSteps maxCycles
    (groupsOf (adjacencyOf (collectHops request snapshot))) with ⟨cycles, complete⟩
  obtain ⟨done, hcomplete, hdone⟩ :=
    replyOf_spec floatLen request (collectHops request snapshot) hrun
  constructor
  · intro hsays
    obtain rfl : done = true := by
      rw [importCycles, hcomplete] at hsays
      exact Json.bool.inj (Option.some.inj hsays)
    obtain ⟨rfl, hrows⟩ := hdone rfl
    refine ⟨_, ?_, hrows⟩
    have hlists := listsCycles_of_done not_self hrun
    refine (hlists.congr fun u v => ?_).perm (List.perm_insertionSort _ _).symm
    exact edge_adjacencyOf.trans mem_collectHops
  · intro hstopped
    rw [hrun] at hstopped
    cases done with
    | false => exact hcomplete
    | true => exact absurd (hdone rfl).1 (by simpa using hstopped)

end Spec

end ImportCycles

end Dagayn
