import Dagayn.SimpleCycles
import Dagayn.Sorted
import Mathlib

/-!
# Cycles between modules

`bounded_simple_cycles` ranks the nodes by name and searches from each rank through larger
ones, with the path and a cursor into each successor list on two stacks. The search takes
the steps of `SimpleCycles.explore` one by one (`walk_eq_consume`), so it is known what
it finds; which node has which rank is a matter of names alone, so the order the caller
gives them in has no effect.
-/

namespace Dagayn

namespace Cycles

open SimpleCycles

abbrev BoundedCycles := Found (List Nat)

section Model

variable {ν : Type} [LinearOrder ν] (names : List ν) (edges : List (Nat × Nat))

def nameLe (left right : Nat) : Bool :=
  match names[left]?, names[right]? with
  | some x, some y => x ≤ y
  | _, _ => true

def byName : List Nat := (List.range names.length).insertionSort fun l r => nameLe names l r

def rank (node : Nat) : Nat := (byName names).idxOf node

/-- `by_name[*ranked]`. -/
def nodeAt (ranked : Nat) : Nat := (byName names).getD ranked 0

def successors (r : Nat) : List Nat :=
  let count := names.length
  let list := edges.filterMap fun e =>
    if e.1 < count ∧ e.2 < count ∧ rank names e.1 = r then some (rank names e.2) else none
  dedupAdjacent (list.insertionSort (· ≤ ·))

end Model

section Walk

variable (succ : Nat → List Nat) (out : List Nat → List Nat)
  (start minSize maxLength maxCycles : Nat)

/-- The inner loop, with the steps still allowed. The path and the cursors have their ends
in front. -/
def walk : Nat → List Nat → List Nat → (Nat → Bool) → BoundedCycles → Nat × BoundedCycles
  | remaining, _, [], _, found => (remaining, found)
  | 0, _, _ :: _, _, found => (0, { found with truncated := true })
  | remaining + 1, [], _ :: _, _, found => (remaining, found)
  | remaining + 1, node :: below, cursor :: cursors, onPath, found =>
      match (succ node)[cursor]? with
      | none => walk remaining below cursors (Function.update onPath node false) found
      | some next =>
          let path := node :: below
          let cursors := (cursor + 1) :: cursors
          if next = start then
            if maxLength < path.length then walk remaining path cursors onPath found
            else
              let found := { found with examined := found.examined + 1 }
              if maxCycles ≤ found.cycles.length then (remaining, { found with truncated := true })
              else
                walk remaining path cursors onPath
                  (if minSize ≤ path.length then { found with cycles := found.cycles ++ [out path] }
                    else found)
          else if start < next ∧ onPath next = false ∧ path.length < maxLength then
            walk remaining (next :: path) (0 :: cursors) (Function.update onPath next true) found
          else walk remaining path cursors onPath found

end Walk

def startsLoop (succ : Nat → List Nat) (out : List Nat → List Nat)
    (minSize maxLength maxCycles : Nat) : List Nat → Nat → BoundedCycles → BoundedCycles
  | [], _, found => found
  | start :: starts, remaining, found =>
      let onPath := Function.update (fun _ => false) start true
      let (remaining, found) :=
        walk succ out start minSize maxLength maxCycles remaining [start] [0] onPath found
      if found.truncated then found
      else startsLoop succ out minSize maxLength maxCycles starts remaining found

def toNodes {ν : Type} [LinearOrder ν] (names : List ν) (path : List Nat) : List Nat :=
  path.reverse.map (nodeAt names)

def boundedSimpleCycles {ν : Type} [LinearOrder ν] (names : List ν) (edges : List (Nat × Nat))
    (minSize maxLength maxCycles maxSteps : Nat) : BoundedCycles :=
  startsLoop (successors names edges) (toNodes names) minSize maxLength maxCycles
    (List.range names.length) maxSteps { cycles := [], examined := 0, truncated := false }

/-! ## The walk takes the steps of the search -/

section Steps

variable {succ : Nat → List Nat} {out : List Nat → List Nat}
  {start minSize maxLength maxCycles : Nat}

/-- What the cursors leave to be tried. -/
def pendings (succ : Nat → List Nat) (path cursors : List Nat) : List (List Nat) :=
  List.zipWith (fun node cursor => (succ node).drop cursor) path cursors

theorem pendings_cons (node cursor : Nat) (below cursors : List Nat) :
    pendings succ (node :: below) (cursor :: cursors) =
      (succ node).drop cursor :: pendings succ below cursors := rfl

theorem onPath_pop {node : Nat} {below : List Nat} {onPath : Nat → Bool}
    (hon : ∀ v, onPath v = decide (v ∈ node :: below)) (hnode : node ∉ below) (v : Nat) :
    Function.update onPath node false v = decide (v ∈ below) := by
  by_cases hv : v = node
  · rw [hv, Function.update_self]
    simp [hnode]
  · rw [Function.update_of_ne hv, hon]
    simp [hv]

theorem onPath_push {path : List Nat} {onPath : Nat → Bool}
    (hon : ∀ v, onPath v = decide (v ∈ path)) (next v : Nat) :
    Function.update onPath next true v = decide (v ∈ next :: path) := by
  by_cases hv : v = next
  · rw [hv, Function.update_self]
    simp
  · rw [Function.update_of_ne hv, hon]
    simp [hv]

variable (succ out start minSize maxLength maxCycles) in
theorem walk_eq_consume (remaining : Nat) (path cursors : List Nat) (onPath : Nat → Bool)
    (found : BoundedCycles) (hlen : path.length = cursors.length)
    (hon : ∀ v, onPath v = decide (v ∈ path)) (hnodup : path.Nodup) :
    walk succ out start minSize maxLength maxCycles remaining path cursors onPath found =
      consume out minSize maxCycles remaining
        (restSteps succ start maxLength path (pendings succ path cursors)) found := by
  induction remaining generalizing path cursors onPath found with
  | zero =>
      rcases cursors with _ | ⟨cursor, cursors⟩
      · obtain rfl := List.length_eq_zero_iff.mp hlen
        simp [walk, restSteps, consume]
      · rcases path with _ | ⟨node, below⟩
        · simp at hlen
        · obtain ⟨step, steps, hsteps⟩ := exists_restSteps_cons succ start maxLength node below
            ((succ node).drop cursor) (pendings succ below cursors)
          rw [walk, pendings_cons, hsteps, consume]
  | succ remaining ih =>
      rcases cursors with _ | ⟨cursor, cursors⟩
      · obtain rfl := List.length_eq_zero_iff.mp hlen
        simp [walk, restSteps, consume]
      · rcases path with _ | ⟨node, below⟩
        · simp at hlen
        · obtain ⟨hnode, hbelow⟩ := List.nodup_cons.mp hnodup
          rw [walk, pendings_cons]
          cases hnext : (succ node)[cursor]? with
          | none =>
              rw [List.drop_eq_nil_of_le (List.getElem?_eq_none_iff.mp hnext), restSteps_nil,
                consume]
              exact ih below cursors _ found (Nat.succ.inj hlen) (onPath_pop hon hnode) hbelow
          | some next =>
              obtain ⟨hlt, hget⟩ := List.getElem?_eq_some_iff.mp hnext
              have hstay : ∀ found, walk succ out start minSize maxLength maxCycles remaining
                  (node :: below) ((cursor + 1) :: cursors) onPath found =
                  consume out minSize maxCycles remaining (restSteps succ start maxLength
                    (node :: below) ((succ node).drop (cursor + 1) :: pendings succ below cursors))
                    found :=
                fun found => ih (node :: below) ((cursor + 1) :: cursors) onPath found hlen hon
                  hnodup
              rw [List.drop_eq_getElem_cons hlt, hget]
              simp only
              by_cases hstart : next = start
              · rw [if_pos hstart, hstart, restSteps_start]
                by_cases hlong : maxLength < (node :: below).length
                · rw [if_pos hlong, if_neg (Nat.not_le.mpr hlong), consume]
                  exact hstay found
                · rw [if_neg hlong, if_pos (Nat.not_lt.mp hlong), consume]
                  by_cases hfull : maxCycles ≤ found.cycles.length
                  · rw [if_pos hfull, if_pos hfull]
                  · rw [if_neg hfull, if_neg hfull]
                    exact hstay _
              · rw [if_neg hstart]
                have hon' : onPath next = false ↔ next ∉ node :: below := by
                  rw [hon]
                  simp
                by_cases hgo : start < next ∧ next ∉ node :: below ∧
                    (node :: below).length < maxLength
                · obtain ⟨hless, hnew, hroom⟩ := hgo
                  rw [if_pos ⟨hless, hon'.mpr hnew, hroom⟩, restSteps_push hless hnew hroom,
                    consume]
                  exact ih (next :: node :: below) (0 :: (cursor + 1) :: cursors) _ found
                    (congrArg (· + 1) hlen) (onPath_push hon next)
                    (List.nodup_cons.mpr ⟨hnew, hnodup⟩)
                · rw [if_neg fun h => hgo ⟨h.1, hon'.mp h.2.1, h.2.2⟩, restSteps_pass hstart hgo,
                    consume]
                  exact hstay found

theorem startsLoop_eq_consume (starts : List Nat) (remaining : Nat) (found : BoundedCycles)
    (h : found.truncated = false) :
    startsLoop succ out minSize maxLength maxCycles starts remaining found =
      (consume out minSize maxCycles remaining (allSteps succ maxLength starts) found).2 := by
  induction starts generalizing remaining found with
  | nil => simp [startsLoop, allSteps, consume]
  | cons start starts ih =>
      have hwalk := walk_eq_consume succ out start minSize maxLength maxCycles remaining [start] [0]
        (Function.update (fun _ => false) start true) found rfl
        (onPath_push (by simp) start) (List.nodup_singleton start)
      have hrest : restSteps succ start maxLength [start] (pendings succ [start] [0]) =
          startSteps succ start maxLength := restSteps_singleton
      rw [startsLoop, hwalk, hrest, allSteps, List.flatMap_cons, consume_append _ _ _ _ h]
      by_cases htrunc : (consume out minSize maxCycles remaining
          (startSteps succ start maxLength) found).2.truncated = true
      · simp only [htrunc, if_true]
      · simp only [htrunc]
        exact ih _ _ (by simpa using htrunc)

end Steps

section Whole

variable {ν : Type} [LinearOrder ν] (names : List ν) (edges : List (Nat × Nat))
  (minSize maxLength maxCycles maxSteps : Nat)

def steps : List (Step Nat) :=
  allSteps (successors names edges) maxLength (List.range names.length)

theorem boundedSimpleCycles_eq :
    boundedSimpleCycles names edges minSize maxLength maxCycles maxSteps =
      (consume (toNodes names) minSize maxCycles maxSteps (steps names edges maxLength)
        { cycles := [], examined := 0, truncated := false }).2 :=
  startsLoop_eq_consume _ _ _ rfl

end Whole

/-! ## Ranks and names -/

section Ranks

variable {ν : Type} [LinearOrder ν] {names : List ν} {edges : List (Nat × Nat)}

theorem byName_perm (names : List ν) : (byName names).Perm (List.range names.length) :=
  List.perm_insertionSort _ _

theorem length_byName (names : List ν) : (byName names).length = names.length := by
  rw [(byName_perm names).length_eq, List.length_range]

theorem mem_byName {node : Nat} : node ∈ byName names ↔ node < names.length := by
  rw [(byName_perm names).mem_iff, List.mem_range]

theorem nodup_byName (names : List ν) : (byName names).Nodup :=
  (byName_perm names).nodup_iff.mpr List.nodup_range

theorem nodeAt_eq {r : Nat} (hr : r < names.length) :
    (byName names)[r]? = some (nodeAt names r) := by
  have hr' : r < (byName names).length := by rwa [length_byName]
  rw [nodeAt, List.getD_eq_getElem _ _ hr', List.getElem?_eq_getElem hr']

theorem rank_lt {v : Nat} (hv : v < names.length) : rank names v < names.length := by
  have h := List.idxOf_lt_length_of_mem (mem_byName.mpr hv)
  rwa [length_byName] at h

theorem rank_nodeAt {r : Nat} (hr : r < names.length) : rank names (nodeAt names r) = r := by
  obtain ⟨hlt, hget⟩ := List.getElem?_eq_some_iff.mp (nodeAt_eq hr)
  rw [rank, ← hget]
  exact (nodup_byName names).idxOf_getElem r hlt

theorem nodeAt_rank {v : Nat} (hv : v < names.length) : nodeAt names (rank names v) = v := by
  have hlt := List.idxOf_lt_length_of_mem (mem_byName.mpr hv)
  rw [nodeAt, rank, List.getD_eq_getElem _ _ hlt]
  exact List.getElem_idxOf hlt

def sortedNames (names : List ν) : List ν := names.insertionSort (· ≤ ·)

theorem sortedNames_perm (names : List ν) : (sortedNames names).Perm names :=
  List.perm_insertionSort _ _

theorem sortedNames_pairwise (names : List ν) : (sortedNames names).Pairwise (· ≤ ·) :=
  List.pairwise_insertionSort (· ≤ ·) names

theorem sortedNames_strict (hnames : names.Nodup) : (sortedNames names).Pairwise (· < ·) :=
  ((sortedNames_pairwise names).and ((sortedNames_perm names).nodup_iff.mpr hnames)).imp
    fun h => lt_of_le_of_ne h.1 h.2

theorem sortedNames_congr {names' : List ν} (h : names.Perm names') :
    sortedNames names = sortedNames names' := by
  refine List.Perm.eq_of_pairwise (fun a b _ _ => le_antisymm) (sortedNames_pairwise names)
    (sortedNames_pairwise names') ?_
  exact (sortedNames_perm names).trans (h.trans (sortedNames_perm names').symm)

/-- The order of `nameLe`, on names. -/
def someLe : Option ν → Option ν → Bool
  | some x, some y => x ≤ y
  | _, _ => true

theorem map_byName (names : List ν) :
    (byName names).map (names[·]?) = (sortedNames names).map some := by
  have hrange : (List.range names.length).map (names[·]?) = names.map some := by
    refine List.ext_getElem (by simp) fun i hi hi' => ?_
    have hlt : i < names.length := by simpa using hi'
    simp [hlt]
  have hby : (byName names).map (names[·]?) =
      ((List.range names.length).map (names[·]?)).insertionSort fun x y => someLe x y :=
    List.map_insertionSort _ _ _ _ fun l _ r _ => Iff.rfl
  have hsorted : (sortedNames names).map some =
      (names.map some).insertionSort fun x y => someLe x y :=
    List.map_insertionSort _ _ _ _ fun x _ y _ => by simp [someLe]
  rw [hby, hrange, hsorted]

theorem getElem?_nodeAt {r : Nat} (hr : r < names.length) :
    names[nodeAt names r]? = (sortedNames names)[r]? := by
  have hlt : r < (sortedNames names).length := by rwa [(sortedNames_perm names).length_eq]
  have h := congrArg (·[r]?) (map_byName names)
  simp only [List.getElem?_map, nodeAt_eq hr, Option.map_some] at h
  rw [List.getElem?_eq_getElem hlt] at h ⊢
  exact Option.some.inj h

def NameLt (names : List ν) (u v : Nat) : Prop :=
  ∃ x y, names[u]? = some x ∧ names[v]? = some y ∧ x < y

theorem NameLt.asymm {u v : Nat} (h : NameLt names u v) : ¬ NameLt names v u := by
  rintro ⟨y, x, hy, hx, hlt⟩
  obtain ⟨x', y', hx', hy', hlt'⟩ := h
  rw [hx, Option.some.injEq] at hx'
  rw [hy, Option.some.injEq] at hy'
  subst hx' hy'
  exact lt_asymm hlt hlt'

theorem nameLt_nodeAt (hnames : names.Nodup) {r r' : Nat} (hr : r < names.length)
    (hr' : r' < names.length) : NameLt names (nodeAt names r) (nodeAt names r') ↔ r < r' := by
  have hlen := (sortedNames_perm names).length_eq
  have hstrict := List.pairwise_iff_getElem.mp (sortedNames_strict hnames)
  rw [NameLt, getElem?_nodeAt hr, getElem?_nodeAt hr',
    List.getElem?_eq_getElem (hlen ▸ hr), List.getElem?_eq_getElem (hlen ▸ hr')]
  constructor
  · rintro ⟨x, y, hx, hy, hlt⟩
    rw [Option.some.injEq] at hx hy
    subst hx hy
    rcases Nat.lt_trichotomy r r' with h | h | h
    · exact h
    · subst h
      exact absurd hlt (lt_irrefl _)
    · exact absurd hlt (lt_asymm (hstrict r' r (hlen ▸ hr') (hlen ▸ hr) h))
  · exact fun h => ⟨_, _, rfl, rfl, hstrict r r' (hlen ▸ hr) (hlen ▸ hr') h⟩

def EdgeOf (names : List ν) (edges : List (Nat × Nat)) (u v : Nat) : Prop :=
  (u, v) ∈ edges ∧ u < names.length ∧ v < names.length

theorem mem_successors {r r' : Nat} :
    r' ∈ successors names edges r ↔
      ∃ u v, EdgeOf names edges u v ∧ rank names u = r ∧ rank names v = r' := by
  rw [successors, mem_dedupAdjacent, List.mem_insertionSort, List.mem_filterMap]
  constructor
  · rintro ⟨⟨u, v⟩, hmem, h⟩
    split at h
    · rename_i hin
      exact ⟨u, v, ⟨hmem, hin.1, hin.2.1⟩, hin.2.2, by simpa using h⟩
    · cases h
  · rintro ⟨u, v, ⟨hmem, hu, hv⟩, hr, hr'⟩
    exact ⟨(u, v), hmem, by rw [if_pos ⟨hu, hv, hr⟩, hr']⟩

theorem successors_pairwise (r : Nat) : (successors names edges r).Pairwise (· < ·) :=
  dedupAdjacent_pairwise (List.pairwise_insertionSort _ _)

theorem edge_successors_iff {r r' : Nat} :
    Edge (successors names edges) r r' ↔
      r < names.length ∧ r' < names.length ∧
        EdgeOf names edges (nodeAt names r) (nodeAt names r') := by
  rw [Edge, mem_successors]
  constructor
  · rintro ⟨u, v, hedge, rfl, rfl⟩
    rw [nodeAt_rank hedge.2.1, nodeAt_rank hedge.2.2]
    exact ⟨rank_lt hedge.2.1, rank_lt hedge.2.2, hedge⟩
  · rintro ⟨hr, hr', hedge⟩
    exact ⟨_, _, hedge, rank_nodeAt hr, rank_nodeAt hr'⟩

end Ranks

/-! ## What the enumeration finds -/

section Spec

variable {ν : Type} [LinearOrder ν] {names : List ν} {edges : List (Nat × Nat)}
  {minSize maxLength : Nat}

theorem mem_meets_steps {p : List Nat} :
    p ∈ meets (steps names edges maxLength) ↔
      SimpleCycle (Edge (successors names edges)) p.reverse ∧ StartsLeast (· < ·) p.reverse ∧
        p.length ≤ maxLength := by
  refine mem_meets_iff fun r hr => ?_
  obtain ⟨r', hr'⟩ := List.exists_mem_of_ne_nil _ hr
  exact List.mem_range.mpr (edge_successors_iff.mp hr').1

theorem lt_of_cycle {p : List Nat} (h : SimpleCycle (Edge (successors names edges)) p) {r : Nat}
    (hr : r ∈ p) : r < names.length := by
  obtain ⟨r', -, hedge⟩ := h.exists_edge hr
  exact (edge_successors_iff.mp hedge).1

theorem mem_keptOf (hnames : names.Nodup) (c : List Nat) :
    c ∈ keptOf (toNodes names) minSize (steps names edges maxLength) ↔
      SimpleCycle (EdgeOf names edges) c ∧ StartsLeast (NameLt names) c ∧
        minSize ≤ c.length ∧ c.length ≤ maxLength := by
  have hmem : c ∈ keptOf (toNodes names) minSize (steps names edges maxLength) ↔
      ∃ p ∈ meets (steps names edges maxLength), minSize ≤ p.length ∧ toNodes names p = c := by
    simp only [keptOf, List.mem_map, List.mem_filter, decide_eq_true_eq, and_assoc]
  rw [hmem]
  constructor
  · rintro ⟨p, hp, hsize, rfl⟩
    obtain ⟨hcycle, ⟨start, rest, hp, hless⟩, hlen⟩ := mem_meets_steps.mp hp
    have hlt : ∀ r ∈ p.reverse, r < names.length := fun r hr => lt_of_cycle hcycle hr
    refine ⟨hcycle.map (fun u hu v hv huv => ?_) (fun u _ v _ hedge => ?_), ?_, ?_⟩
    · rw [← rank_nodeAt (hlt u hu), huv, rank_nodeAt (hlt v hv)]
    · exact (edge_successors_iff.mp hedge).2.2
    · rw [hp] at hlt
      refine ⟨nodeAt names start, rest.map (nodeAt names), by rw [toNodes, hp, List.map_cons], ?_⟩
      intro v hv
      obtain ⟨r, hr, rfl⟩ := List.mem_map.mp hv
      exact (nameLt_nodeAt hnames (hlt start List.mem_cons_self)
        (hlt r (List.mem_cons_of_mem _ hr))).mpr (hless r hr)
    · rw [toNodes, List.length_map, List.length_reverse]
      exact ⟨hsize, hlen⟩
  · rintro ⟨hcycle, ⟨start, rest, rfl, hless⟩, hsize, hlen⟩
    have hlt : ∀ v ∈ start :: rest, v < names.length := by
      intro v hv
      obtain ⟨w, -, hedge⟩ := hcycle.exists_edge hv
      exact hedge.2.1
    have hback : ((start :: rest).map (rank names)).map (nodeAt names) = start :: rest := by
      rw [List.map_map]
      exact (List.map_congr_left fun v hv => nodeAt_rank (hlt v hv)).trans (List.map_id _)
    refine ⟨((start :: rest).map (rank names)).reverse, mem_meets_steps.mpr ⟨?_, ?_, ?_⟩, ?_, ?_⟩
    · rw [List.reverse_reverse]
      refine hcycle.map (fun u hu v hv huv => ?_) (fun u hu v hv hedge => ?_)
      · rw [← nodeAt_rank (hlt u hu), huv, nodeAt_rank (hlt v hv)]
      · refine edge_successors_iff.mpr ⟨rank_lt (hlt u hu), rank_lt (hlt v hv), ?_⟩
        rwa [nodeAt_rank (hlt u hu), nodeAt_rank (hlt v hv)]
    · refine ⟨rank names start, rest.map (rank names), by rw [List.reverse_reverse, List.map_cons],
        fun r hr => ?_⟩
      obtain ⟨v, hv, rfl⟩ := List.mem_map.mp hr
      have hstart := hlt start List.mem_cons_self
      have hv' := hlt v (List.mem_cons_of_mem _ hv)
      rw [← nameLt_nodeAt hnames (rank_lt hstart) (rank_lt hv'), nodeAt_rank hstart,
        nodeAt_rank hv']
      exact hless v hv
    · rwa [List.length_reverse, List.length_map]
    · rwa [List.length_reverse, List.length_map]
    · rw [toNodes, List.reverse_reverse, hback]

theorem nodup_keptOf (names : List ν) (edges : List (Nat × Nat)) (minSize maxLength : Nat) :
    (keptOf (toNodes names) minSize (steps names edges maxLength)).Nodup := by
  have hsucc : ∀ r, (successors names edges r).Nodup := fun r =>
    (successors_pairwise r).imp ne_of_lt
  have hback : ∀ p ∈ meets (steps names edges maxLength),
      (toNodes names p).map (rank names) = p.reverse := by
    intro p hp
    rw [toNodes, List.map_map]
    exact (List.map_congr_left fun r hr =>
      rank_nodeAt (lt_of_cycle (mem_meets_steps.mp hp).1 hr)).trans (List.map_id _)
  refine ((meets_nodup hsucc List.nodup_range).filter _).map_on fun p hp q hq hpq => ?_
  rw [← List.reverse_inj, ← hback p (List.mem_of_mem_filter hp),
    ← hback q (List.mem_of_mem_filter hq), hpq]

/-- The list of the simple cycles within the bounds: each once, from its smallest name. -/
structure ListsCycles (names : List ν) (edges : List (Nat × Nat)) (minSize maxLength : Nat)
    (cycles : List (List Nat)) : Prop where
  nodup : cycles.Nodup
  mem_iff : ∀ c, c ∈ cycles ↔ SimpleCycle (EdgeOf names edges) c ∧
    StartsLeast (NameLt names) c ∧ minSize ≤ c.length ∧ c.length ≤ maxLength
  once : ∀ c, SimpleCycle (EdgeOf names edges) c → minSize ≤ c.length → c.length ≤ maxLength →
    ∃! c', c' ∈ cycles ∧ c.IsRotated c'

theorem exists_startsLeast_name (hnames : names.Nodup) {c : List Nat}
    (h : SimpleCycle (EdgeOf names edges) c) :
    ∃ c', c.IsRotated c' ∧ StartsLeast (NameLt names) c' := by
  have hlt : ∀ v ∈ c, v < names.length := by
    intro v hv
    obtain ⟨w, -, hedge⟩ := h.exists_edge hv
    exact hedge.2.1
  have hback : (c.map (rank names)).map (nodeAt names) = c := by
    rw [List.map_map]
    exact (List.map_congr_left fun v hv => nodeAt_rank (hlt v hv)).trans (List.map_id _)
  have hnodup : (c.map (rank names)).Nodup := by
    refine h.nodup.map_on fun u hu v hv huv => ?_
    rw [← nodeAt_rank (hlt u hu), huv, nodeAt_rank (hlt v hv)]
  obtain ⟨ranks, hrot, start, rest, rfl, hless⟩ :=
    exists_startsLeast (by simpa using h.ne_nil) hnodup
  have hranks : ∀ r ∈ start :: rest, r < names.length := by
    intro r hr
    obtain ⟨v, hv, rfl⟩ := List.mem_map.mp (hrot.mem_iff.mpr hr)
    exact rank_lt (hlt v hv)
  refine ⟨(start :: rest).map (nodeAt names), ?_, nodeAt names start, rest.map (nodeAt names), rfl,
    fun v hv => ?_⟩
  · have h := hrot.map (nodeAt names)
    rwa [hback] at h
  · obtain ⟨r, hr, rfl⟩ := List.mem_map.mp hv
    exact (nameLt_nodeAt hnames (hranks start List.mem_cons_self)
      (hranks r (List.mem_cons_of_mem _ hr))).mpr (hless r hr)

theorem listsCycles_keptOf (hnames : names.Nodup) :
    ListsCycles names edges minSize maxLength
      (keptOf (toNodes names) minSize (steps names edges maxLength)) where
  nodup := nodup_keptOf names edges minSize maxLength
  mem_iff := mem_keptOf hnames
  once c hcycle hsize hlen := by
    obtain ⟨c', hrot, hleast⟩ := exists_startsLeast_name hnames hcycle
    have hcycle' := hcycle.of_isRotated hrot
    have hlength := hrot.perm.length_eq
    refine ⟨c', ⟨(mem_keptOf hnames c').mpr ⟨hcycle', hleast, hlength ▸ hsize, hlength ▸ hlen⟩,
      hrot⟩, ?_⟩
    rintro c'' ⟨hmem, hrot''⟩
    obtain ⟨hcycle'', hleast'', -⟩ := (mem_keptOf hnames c'').mp hmem
    exact hleast''.eq_of_isRotated (fun u v => NameLt.asymm) hleast hcycle''.nodup
      (hrot''.symm.trans hrot)

end Spec

/-! ## The order of names and edges -/

section Order

variable {ν : Type} [LinearOrder ν] {names names' : List ν} {edges edges' : List (Nat × Nat)}

def named (names : List ν) (edges : List (Nat × Nat)) : List (Option ν × Option ν) :=
  edges.map fun e => (names[e.1]?, names[e.2]?)

theorem mem_successors_names (hnames : names.Nodup) {r r' : Nat} :
    r' ∈ successors names edges r ↔
      ∃ x y, (sortedNames names)[r]? = some x ∧ (sortedNames names)[r']? = some y ∧
        (some x, some y) ∈ named names edges := by
  have hrank : ∀ {u : Nat}, u < names.length →
      (sortedNames names)[rank names u]? = names[u]? := by
    intro u hu
    rw [← getElem?_nodeAt (rank_lt hu), nodeAt_rank hu]
  have hinj : ∀ {q q' : Nat} {x : ν}, (sortedNames names)[q]? = some x →
      (sortedNames names)[q']? = some x → q = q' := by
    intro q q' x hq hq'
    have hnodup := (sortedNames_perm names).nodup_iff.mpr hnames
    obtain ⟨hlt, hget⟩ := List.getElem?_eq_some_iff.mp hq
    obtain ⟨hlt', hget'⟩ := List.getElem?_eq_some_iff.mp hq'
    exact hnodup.getElem_inj_iff.mp (hget.trans hget'.symm)
  rw [mem_successors]
  constructor
  · rintro ⟨u, v, ⟨hmem, hu, hv⟩, rfl, rfl⟩
    refine ⟨names[u], names[v], ?_, ?_, List.mem_map.mpr ⟨(u, v), hmem, ?_⟩⟩
    · rw [hrank hu, List.getElem?_eq_getElem hu]
    · rw [hrank hv, List.getElem?_eq_getElem hv]
    · rw [List.getElem?_eq_getElem hu, List.getElem?_eq_getElem hv]
  · rintro ⟨x, y, hx, hy, hmem⟩
    obtain ⟨⟨u, v⟩, hmem, hnamed⟩ := List.mem_map.mp hmem
    obtain ⟨hu, hv⟩ := Prod.mk.inj hnamed
    obtain ⟨hult, -⟩ := List.getElem?_eq_some_iff.mp hu
    obtain ⟨hvlt, -⟩ := List.getElem?_eq_some_iff.mp hv
    exact ⟨u, v, ⟨hmem, hult, hvlt⟩, hinj ((hrank hult).trans hu) hx,
      hinj ((hrank hvlt).trans hv) hy⟩

theorem successors_congr (hnames : names.Nodup) (hperm : names.Perm names')
    (hedges : (named names edges).Perm (named names' edges')) :
    successors names edges = successors names' edges' := by
  funext r
  refine (successors_pairwise r).eq_of_mem_iff (successors_pairwise r) fun r' => ?_
  rw [mem_successors_names hnames, mem_successors_names (hperm.nodup_iff.mp hnames),
    sortedNames_congr hperm]
  simp only [hedges.mem_iff]

theorem boundedSimpleCycles_names (names : List ν) (edges : List (Nat × Nat))
    (minSize maxLength maxCycles maxSteps : Nat) :
    (boundedSimpleCycles names edges minSize maxLength maxCycles maxSteps).map
        (List.map (names[·]?)) =
      (consume (fun p => p.reverse.map ((sortedNames names)[·]?)) minSize maxCycles maxSteps
        (steps names edges maxLength) { cycles := [], examined := 0, truncated := false }).2 := by
  have hmap := consume_map (toNodes names) minSize maxCycles
    (List.map (names[·]?)) maxSteps (steps names edges maxLength)
    { cycles := [], examined := 0, truncated := false }
  rw [boundedSimpleCycles_eq]
  refine (congrArg Prod.snd hmap).symm.trans
    (congrArg Prod.snd (consume_congr _ _ _ fun p hp => ?_))
  rw [Function.comp_apply, toNodes, List.map_map]
  refine List.map_congr_left fun r hr => ?_
  exact getElem?_nodeAt (lt_of_cycle (mem_meets_steps.mp hp).1 hr)

theorem boundedSimpleCycles_order (hnames : names.Nodup) (hperm : names.Perm names')
    (hedges : (named names edges).Perm (named names' edges'))
    (minSize maxLength maxCycles maxSteps : Nat) :
    (boundedSimpleCycles names edges minSize maxLength maxCycles maxSteps).map
        (List.map (names[·]?)) =
      (boundedSimpleCycles names' edges' minSize maxLength maxCycles maxSteps).map
        (List.map (names'[·]?)) := by
  rw [boundedSimpleCycles_names, boundedSimpleCycles_names, steps, steps, sortedNames_congr hperm,
    successors_congr hnames hperm hedges, hperm.length_eq]

end Order

/-- There is one list of the simple cycles within the bounds that a run finds if its limits
allow, and a run with other limits finds a first part of it. The order of the names and the
edges has no effect on what a run finds. -/
theorem boundedSimpleCycles_spec {ν : Type} [LinearOrder ν] (names : List ν)
    (hnames : names.Nodup) (edges : List (Nat × Nat)) (minSize maxLength : Nat) :
    (∃ all, ListsCycles names edges minSize maxLength all ∧
      (∃ maxCycles maxSteps,
        (boundedSimpleCycles names edges minSize maxLength maxCycles maxSteps).truncated = false ∧
          (boundedSimpleCycles names edges minSize maxLength maxCycles maxSteps).cycles = all) ∧
      ∀ maxCycles maxSteps,
        (boundedSimpleCycles names edges minSize maxLength maxCycles maxSteps).cycles <+: all ∧
          ((boundedSimpleCycles names edges minSize maxLength maxCycles maxSteps).truncated =
              false →
            (boundedSimpleCycles names edges minSize maxLength maxCycles maxSteps).cycles = all)) ∧
      ∀ names' edges', names.Perm names' → (named names edges).Perm (named names' edges') →
        ∀ maxCycles maxSteps,
          (boundedSimpleCycles names edges minSize maxLength maxCycles maxSteps).map
              (List.map (names[·]?)) =
            (boundedSimpleCycles names' edges' minSize maxLength maxCycles maxSteps).map
              (List.map (names'[·]?)) := by
  have hrun := fun maxCycles maxSteps => consume_spec (toNodes names) minSize
    maxCycles maxSteps (steps names edges maxLength)
    { cycles := [], examined := 0, truncated := false } rfl
  simp only [← boundedSimpleCycles_eq, List.nil_append] at hrun
  refine ⟨⟨_, listsCycles_keptOf hnames, ?_, hrun⟩, fun names' edges' hperm hedges =>
    boundedSimpleCycles_order hnames hperm hedges minSize maxLength⟩
  have hdone := consume_complete (toNodes names) minSize
    (meets (steps names edges maxLength)).length
    (steps names edges maxLength).length (steps names edges maxLength)
    { cycles := [], examined := 0, truncated := false } rfl (Nat.le_refl _) (by simp)
  rw [← boundedSimpleCycles_eq] at hdone
  exact ⟨_, _, hdone, (hrun _ _).2 hdone⟩

/-- The nodes are `c`, `a`, `b`, with the cycles `a b` and `a b c`. -/
theorem boundedSimpleCycles_spec_three :
    (boundedSimpleCycles [3, 1, 2] [(1, 2), (2, 0), (0, 1), (2, 1)] 2 10 100 30).cycles =
        [[1, 2], [1, 2, 0]] ∧
      ListsCycles [3, 1, 2] [(1, 2), (2, 0), (0, 1), (2, 1)] 2 10 [[1, 2], [1, 2, 0]] := by
  have hcycles :
      boundedSimpleCycles [3, 1, 2] [(1, 2), (2, 0), (0, 1), (2, 1)] 2 10 100 30 =
        { cycles := [[1, 2], [1, 2, 0]], examined := 2, truncated := false } := by
    decide +kernel
  obtain ⟨⟨all, hlist, -, hrun⟩, -⟩ :=
    boundedSimpleCycles_spec [3, 1, 2] (by decide) [(1, 2), (2, 0), (0, 1), (2, 1)] 2 10
  have hall := (hrun 100 30).2 (by rw [hcycles])
  rw [hcycles] at hall ⊢
  subst hall
  exact ⟨rfl, hlist⟩

end Cycles

end Dagayn
