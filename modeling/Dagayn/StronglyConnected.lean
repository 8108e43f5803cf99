import Dagayn.Condensation
import Dagayn.Dict
import Mathlib

/-!
# Strongly connected components

`strongly_connected`: Tarjan's algorithm with a stack of open nodes in place of the recursion.
`Search` is what its loop works on, `step` one round of it. A node stays on `stack` until the
round that finds it to be the lowest of its class; `Inv` says what the indices and the low links
mean meanwhile. `stronglyConnected_listed` is the result: the classes of mutual reachability, one
behind those it reaches.
-/

namespace Dagayn

/-- `BTreeMap<&str, BTreeSet<&str>>` in which every successor is a key, as the callers build it. -/
structure Adjacency (V : Type) [LinearOrder V] where
  keys : List V
  successors : V → List V
  keys_sorted : keys.Pairwise (· < ·)
  successors_sorted : ∀ u, (successors u).Pairwise (· < ·)
  outside : ∀ u, u ∉ keys → successors u = []
  closed : ∀ u, ∀ v ∈ successors u, v ∈ keys

namespace StronglyConnected

variable {V : Type} [LinearOrder V]

scoped instance lawful : LawfulBEq V := inferInstance

/-- What the loop works on. The head of a stack is its top; `work` has the open nodes, each with
the successors that are still to be looked at. -/
structure Search (V : Type) [LinearOrder V] where
  index : Dict V Nat := ∅
  low : Dict V Nat := ∅
  onStack : List V := []
  stack : List V := []
  components : List (List V) := []
  next : Nat := 0
  work : List (V × List V) := []

namespace Search

/-- `index[v]`, of a node that has one. -/
def idx (s : Search V) (v : V) : Nat := Dict.getD s.index v 0

/-- `low[v]`, of a node that has one. -/
def lo (s : Search V) (v : V) : Nat := Dict.getD s.low v 0

def enter (g : Adjacency V) (s : Search V) (node : V) : Search V :=
  { s with
    index := AList.insert node s.next s.index
    low := AList.insert node s.next s.low
    onStack := s.onStack.insert node
    stack := node :: s.stack
    next := s.next + 1
    work := (node, g.successors node) :: s.work }

/-- `low.insert(node, low[node].min(value))`. -/
def lower (s : Search V) (node : V) (value : Nat) : Search V :=
  { s with low := AList.insert node (min (s.lo node) value) s.low }

def popUntil (node : V) : List V → List V × List V
  | [] => ([], [])
  | member :: stack =>
      if member = node then ([member], stack)
      else
        let (component, rest) := popUntil node stack
        (member :: component, rest)

/-- The class of a node that is its own lowest. -/
def close (s : Search V) (node : V) : Search V :=
  let (component, stack) := popUntil node s.stack
  { s with
    onStack := s.onStack.filter (· ∉ component)
    stack
    components := s.components ++ [component.insertionSort (· ≤ ·)] }

def look (g : Adjacency V) (s : Search V) (node child : V) : Search V :=
  if child ∉ s.index then s.enter g child
  else if child ∈ s.onStack then s.lower node (s.idx child)
  else s

def finish (s : Search V) (node : V) (work : List (V × List V)) : Search V :=
  let s := { s with work }
  let s :=
    match work with
    | [] => s
    | (parent, _) :: _ => s.lower parent (s.lo node)
  if s.lo node = s.idx node then s.close node else s

end Search

/-- The body of `while let Some((node, pending)) = work.last_mut()`. -/
def step (g : Adjacency V) (s : Search V) : Search V :=
  match s.work with
  | [] => s
  | (node, child :: pending) :: work =>
      { s with work := (node, pending) :: work }.look g node child
  | (node, []) :: work => s.finish node work

/-- The loop over `work`, in at most `fuel` rounds. -/
def drain (g : Adjacency V) : Nat → Search V → Option (Search V)
  | 0, s => if s.work.isEmpty then some s else none
  | fuel + 1, s => if s.work.isEmpty then some s else drain g fuel (step g s)

def visit (g : Adjacency V) (fuel : Nat) (s : Search V) (start : V) : Option (Search V) :=
  if start ∈ s.index then some s else drain g fuel (s.enter g start)

def stronglyConnected (g : Adjacency V) (fuel : Nat) : Option (List (List V)) :=
  (g.keys.foldlM (visit g fuel) {}).map Search.components

/-! ## The invariant -/

def Edge (g : Adjacency V) (u v : V) : Prop := v ∈ g.successors u

abbrev Reaches (g : Adjacency V) : V → V → Prop := Relation.ReflTransGen (Edge g)

variable {g : Adjacency V}

theorem mem_keys_of_edge {u v : V} (h : Edge g u v) : u ∈ g.keys ∧ v ∈ g.keys := by
  refine ⟨by_contra fun hu => ?_, g.closed u v h⟩
  rw [Edge, g.outside u hu] at h
  cases h

/-- An open node: one that the loop is not done with. -/
def Open (s : Search V) (v : V) : Prop := ∃ pending, (v, pending) ∈ s.work

/-- `hole` are the edges that the round in progress has taken off the work and not dealt with. -/
structure Inv (g : Adjacency V) (hole : V → V → Prop) (s : Search V) : Prop where
  stack_desc : s.stack.Pairwise fun u v => s.idx v < s.idx u
  idx_lt : ∀ v ∈ s.stack, s.idx v < s.next
  onStack_iff : ∀ v, v ∈ s.onStack ↔ v ∈ s.stack
  met_iff : ∀ v, v ∈ s.index ↔ v ∈ s.stack ∨ v ∈ s.components.flatten
  mem_keys : ∀ v ∈ s.index, v ∈ g.keys
  listed : Listed (Edge g) s.components
  apart : ∀ v ∈ s.stack, v ∉ s.components.flatten
  sorted : ∀ C ∈ s.components, C.Pairwise (· < ·)
  open_stack : ∀ v, Open s v → v ∈ s.stack
  work_desc : s.work.Pairwise fun a b => s.idx b.1 < s.idx a.1
  pending : ∀ e ∈ s.work, ∀ w ∈ e.2, Edge g e.1 w
  /-- Below every node of the stack there is an open one. -/
  covered : ∀ v ∈ s.stack, ∃ u, Open s u ∧ s.idx u ≤ s.idx v
  reaches : ∀ u, Open s u → ∀ v ∈ s.stack, s.idx u ≤ s.idx v → Reaches g u v
  /-- A low link is the index of a node of the stack that is reached. -/
  low_spec : ∀ v ∈ s.stack, ∃ u ∈ s.stack, Reaches g v u ∧ s.idx u = s.lo v ∧ s.idx u ≤ s.idx v
  low_lt : ∀ v ∈ s.stack, ¬Open s v → s.lo v < s.idx v
  /-- The next open node below has seen the low link of a finished one. -/
  low_above : ∀ v ∈ s.stack, ¬Open s v → ∀ u, Open s u → s.idx u ≤ s.idx v →
    (∀ u', Open s u' → s.idx u' ≤ s.idx v → s.idx u' ≤ s.idx u) → s.lo u ≤ s.lo v
  looked : ∀ v ∈ s.stack, ∀ w, Edge g v w → hole v w ∨ (∃ pending, (v, pending) ∈ s.work ∧
    w ∈ pending) ∨ (w ∈ s.index ∧ (w ∈ s.stack → s.lo v ≤ s.idx w))

def Sound (g : Adjacency V) (s : Search V) : Prop := Inv g (fun _ _ => False) s

theorem sound_start : Sound g ({} : Search V) := by
  constructor <;> simp [Open, Listed.nil]

variable {s : Search V} {hole : V → V → Prop} {node : V}

theorem mem_openNodes {v : V} : Open s v ↔ v ∈ s.work.map Prod.fst := by simp [Open]

theorem Inv.idx_inj (h : Inv g hole s) {u v : V} (hu : u ∈ s.stack) (hv : v ∈ s.stack)
    (heq : s.idx u = s.idx v) : u = v := by
  have hnodup : (s.stack.map s.idx).Nodup := by
    rw [List.Nodup, List.pairwise_map]
    exact h.stack_desc.imp fun hlt => (Nat.ne_of_lt hlt).symm
  exact List.inj_on_of_nodup_map hnodup hu hv heq

/-! ## A new node -/

theorem idx_enter (v : V) : (s.enter g node).idx v = if v = node then s.next else s.idx v :=
  Dict.getD_insert ..

theorem lo_enter (v : V) : (s.enter g node).lo v = if v = node then s.next else s.lo v :=
  Dict.getD_insert ..

theorem mem_index_enter {v : V} : v ∈ (s.enter g node).index ↔ v = node ∨ v ∈ s.index :=
  AList.mem_insert ..

theorem open_enter {v : V} : Open (s.enter g node) v ↔ v = node ∨ Open s v := by
  simp only [Open, Search.enter, List.mem_cons, Prod.mk.injEq]
  constructor
  · rintro ⟨pending, ⟨rfl, -⟩ | hin⟩
    · exact .inl rfl
    · exact .inr ⟨pending, hin⟩
  · rintro (rfl | ⟨pending, hin⟩)
    · exact ⟨_, .inl ⟨rfl, rfl⟩⟩
    · exact ⟨pending, .inr hin⟩

theorem idx_enter_self : (s.enter g node).idx node = s.next := (idx_enter node).trans (if_pos rfl)

theorem lo_enter_self : (s.enter g node).lo node = s.next := (lo_enter node).trans (if_pos rfl)

theorem mem_stack_enter {v : V} : v ∈ (s.enter g node).stack ↔ v = node ∨ v ∈ s.stack :=
  List.mem_cons

section Enter

variable (h : Inv g hole s) (hnew : node ∉ s.index)

include h hnew

theorem Inv.ne_of_mem {v : V} (hv : v ∈ s.stack) : v ≠ node := fun heq =>
  hnew (heq ▸ (h.met_iff v).mpr (.inl hv))

theorem Inv.idx_stays {v : V} (hv : v ∈ s.stack) : (s.enter g node).idx v = s.idx v := by
  rw [idx_enter, if_neg (h.ne_of_mem hnew hv)]

theorem Inv.lo_stays {v : V} (hv : v ∈ s.stack) : (s.enter g node).lo v = s.lo v := by
  rw [lo_enter, if_neg (h.ne_of_mem hnew hv)]

theorem Inv.enter_reaches (hopen : ∀ u, Open s u → Reaches g u node) :
    ∀ u, Open (s.enter g node) u → ∀ v ∈ (s.enter g node).stack,
      (s.enter g node).idx u ≤ (s.enter g node).idx v → Reaches g u v := by
  intro u hu' v hv' hle
  rcases open_enter.mp hu' with rfl | hu
  · rcases mem_stack_enter.mp hv' with rfl | hv
    · exact .refl
    · rw [idx_enter_self, h.idx_stays hnew hv] at hle
      exact absurd (h.idx_lt v hv) (not_lt_of_ge hle)
  · rcases mem_stack_enter.mp hv' with rfl | hv
    · exact hopen u hu
    · rw [h.idx_stays hnew hv, h.idx_stays hnew (h.open_stack u hu)] at hle
      exact h.reaches u hu v hv hle

theorem Inv.enter_low_spec : ∀ v ∈ (s.enter g node).stack, ∃ u ∈ (s.enter g node).stack,
    Reaches g v u ∧ (s.enter g node).idx u = (s.enter g node).lo v ∧
      (s.enter g node).idx u ≤ (s.enter g node).idx v := by
  intro v hv
  rcases mem_stack_enter.mp hv with rfl | hv
  · exact ⟨v, List.mem_cons_self, .refl, idx_enter_self.trans lo_enter_self.symm, le_rfl⟩
  · obtain ⟨u, hu, hreach, heq, hle⟩ := h.low_spec v hv
    refine ⟨u, List.mem_cons_of_mem _ hu, hreach, ?_, ?_⟩
    · rw [h.idx_stays hnew hu, h.lo_stays hnew hv]
      exact heq
    · rw [h.idx_stays hnew hu, h.idx_stays hnew hv]
      exact hle

theorem Inv.enter_low_above : ∀ v ∈ (s.enter g node).stack, ¬Open (s.enter g node) v →
    ∀ u, Open (s.enter g node) u → (s.enter g node).idx u ≤ (s.enter g node).idx v →
      (∀ u', Open (s.enter g node) u' → (s.enter g node).idx u' ≤ (s.enter g node).idx v →
        (s.enter g node).idx u' ≤ (s.enter g node).idx u) →
      (s.enter g node).lo u ≤ (s.enter g node).lo v := by
  intro v hv' hclosed u hu' hle hnext
  rcases mem_stack_enter.mp hv' with rfl | hv
  · exact absurd (open_enter.mpr (.inl rfl)) hclosed
  rcases open_enter.mp hu' with rfl | hu
  · rw [idx_enter_self, h.idx_stays hnew hv] at hle
    exact absurd (h.idx_lt v hv) (not_lt_of_ge hle)
  have hustack := h.open_stack u hu
  rw [h.lo_stays hnew hv, h.lo_stays hnew hustack]
  rw [h.idx_stays hnew hv, h.idx_stays hnew hustack] at hle
  refine h.low_above v hv (fun hin => hclosed (open_enter.mpr (.inr hin))) u hu hle ?_
  intro u' hopen' hle'
  have hlast := hnext u' (open_enter.mpr (.inr hopen'))
  rw [h.idx_stays hnew hv, h.idx_stays hnew hustack,
    h.idx_stays hnew (h.open_stack u' hopen')] at hlast
  exact hlast hle'

theorem Inv.enter_looked (hhole : ∀ v w, hole v w → w = node) :
    ∀ v ∈ (s.enter g node).stack, ∀ w, Edge g v w →
      (∃ pending, (v, pending) ∈ (s.enter g node).work ∧ w ∈ pending) ∨
        (w ∈ (s.enter g node).index ∧
          (w ∈ (s.enter g node).stack → (s.enter g node).lo v ≤ (s.enter g node).idx w)) := by
  intro v hv' w hedge
  rcases mem_stack_enter.mp hv' with rfl | hv
  · exact .inl ⟨_, List.mem_cons_self, hedge⟩
  rcases h.looked v hv w hedge with hin | ⟨pending, hin, hw⟩ | ⟨hmet, hlow⟩
  · obtain rfl := hhole v w hin
    obtain ⟨u, hu, -, heq, -⟩ := h.low_spec v hv
    refine .inr ⟨mem_index_enter.mpr (.inl rfl), fun _ => ?_⟩
    rw [idx_enter_self, h.lo_stays hnew hv, ← heq]
    exact (h.idx_lt u hu).le
  · exact .inl ⟨pending, List.mem_cons_of_mem _ hin, hw⟩
  · refine .inr ⟨mem_index_enter.mpr (.inr hmet), fun hin => ?_⟩
    have hw : w ∈ s.stack := (mem_stack_enter.mp hin).resolve_left fun heq => hnew (heq ▸ hmet)
    rw [h.lo_stays hnew hv, h.idx_stays hnew hw]
    exact hlow hw

end Enter

theorem Inv.enter (h : Inv g hole s) (hnew : node ∉ s.index) (hkey : node ∈ g.keys)
    (hopen : ∀ u, Open s u → Reaches g u node) (hhole : ∀ v w, hole v w → w = node) :
    Sound g (s.enter g node) := by
  constructor
  · refine List.pairwise_cons.mpr ⟨fun v hv => ?_, ?_⟩
    · rw [h.idx_stays hnew hv, idx_enter_self]
      exact h.idx_lt v hv
    · refine h.stack_desc.imp_of_mem fun hu hv hlt => ?_
      rw [h.idx_stays hnew hu, h.idx_stays hnew hv]
      exact hlt
  · intro v hv
    rcases mem_stack_enter.mp hv with rfl | hv
    · rw [idx_enter_self]
      exact Nat.lt_succ_self _
    · rw [h.idx_stays hnew hv]
      exact Nat.lt_succ_of_lt (h.idx_lt v hv)
  · intro v
    rw [mem_stack_enter, ← h.onStack_iff]
    exact List.mem_insert_iff
  · intro v
    rw [mem_index_enter, mem_stack_enter, h.met_iff, or_assoc]
    rfl
  · intro v hv
    rcases mem_index_enter.mp hv with rfl | hv
    · exact hkey
    · exact h.mem_keys v hv
  · exact h.listed
  · intro v hv
    rcases mem_stack_enter.mp hv with rfl | hv
    · exact fun hin => hnew ((h.met_iff _).mpr (.inr hin))
    · exact h.apart v hv
  · exact h.sorted
  · intro v hv
    rcases open_enter.mp hv with rfl | hv
    · exact List.mem_cons_self
    · exact List.mem_cons_of_mem _ (h.open_stack v hv)
  · refine List.pairwise_cons.mpr ⟨fun e he => ?_, ?_⟩
    · have hin := h.open_stack e.1 ⟨e.2, he⟩
      rw [h.idx_stays hnew hin, idx_enter_self]
      exact h.idx_lt _ hin
    · refine h.work_desc.imp_of_mem fun ha hb hlt => ?_
      rw [h.idx_stays hnew (h.open_stack _ ⟨_, ha⟩), h.idx_stays hnew (h.open_stack _ ⟨_, hb⟩)]
      exact hlt
  · intro e he w hw
    rcases List.mem_cons.mp he with rfl | he
    · exact hw
    · exact h.pending e he w hw
  · intro v hv
    rcases mem_stack_enter.mp hv with rfl | hv
    · exact ⟨v, open_enter.mpr (.inl rfl), le_rfl⟩
    · obtain ⟨u, hu, hle⟩ := h.covered v hv
      refine ⟨u, open_enter.mpr (.inr hu), ?_⟩
      rw [h.idx_stays hnew hv, h.idx_stays hnew (h.open_stack u hu)]
      exact hle
  · exact h.enter_reaches hnew hopen
  · exact h.enter_low_spec hnew
  · intro v hv hclosed
    rcases mem_stack_enter.mp hv with rfl | hv
    · exact absurd (open_enter.mpr (.inl rfl)) hclosed
    · rw [h.lo_stays hnew hv, h.idx_stays hnew hv]
      exact h.low_lt v hv fun hin => hclosed (open_enter.mpr (.inr hin))
  · exact h.enter_low_above hnew
  · exact fun v hv w hedge => .inr (h.enter_looked hnew hhole v hv w hedge)

/-! ## A lower link -/

theorem lo_lower (value : Nat) (v : V) :
    (s.lower node value).lo v = if v = node then min (s.lo node) value else s.lo v :=
  Dict.getD_insert ..

theorem lo_lower_le (value : Nat) (v : V) : (s.lower node value).lo v ≤ s.lo v := by
  rw [lo_lower]
  split
  · rename_i heq
    rw [heq]
    exact min_le_left _ _
  · exact le_rfl

theorem Inv.lower (h : Inv g hole s) {value : Nat} (hopen : Open s node)
    (hvalue : ∃ u ∈ s.stack, Reaches g node u ∧ s.idx u = value) :
    Inv g hole (s.lower node value) := by
  have hkeep : ∀ v, ¬Open s v → (s.lower node value).lo v = s.lo v := fun v hv => by
    rw [lo_lower, if_neg]
    rintro rfl
    exact hv hopen
  refine { h with low_spec := ?_, low_lt := ?_, low_above := ?_, looked := ?_ }
  · intro v hv
    rw [lo_lower]
    split
    · rename_i heq
      subst heq
      obtain ⟨u, hu, hreach, hidx, hle⟩ := h.low_spec v hv
      rcases le_total (s.lo v) value with hmin | hmin
      · rw [min_eq_left hmin]
        exact ⟨u, hu, hreach, hidx, hle⟩
      · obtain ⟨u', hu', hreach', hidx'⟩ := hvalue
        rw [min_eq_right hmin]
        refine ⟨u', hu', hreach', hidx', ?_⟩
        exact (hidx'.trans_le hmin).trans (hidx ▸ hle)
    · exact h.low_spec v hv
  · intro v hv hclosed
    rw [hkeep v hclosed]
    exact h.low_lt v hv hclosed
  · intro v hv hclosed u hu hle hnext
    rw [hkeep v hclosed]
    exact (lo_lower_le value u).trans (h.low_above v hv hclosed u hu hle hnext)
  · intro v hv w hedge
    refine (h.looked v hv w hedge).imp_right (Or.imp_right fun hmet => ?_)
    exact ⟨hmet.1, fun hw => (lo_lower_le value v).trans (hmet.2 hw)⟩

theorem Inv.fill (h : Inv g hole s)
    (hhole : ∀ v w, hole v w → w ∈ s.index ∧ (w ∈ s.stack → s.lo v ≤ s.idx w)) : Sound g s := by
  refine { h with looked := fun v hv w hedge => .inr ?_ }
  rcases h.looked v hv w hedge with hin | hrest
  · exact .inr (hhole v w hin)
  · exact hrest

/-! ## The next successor -/

theorem Sound.pop (h : Sound g s) {child : V} {pending : List V} {work : List (V × List V)}
    (hwork : s.work = (node, child :: pending) :: work) :
    Inv g (fun v w => v = node ∧ w = child) { s with work := (node, pending) :: work } := by
  have hopen : ∀ v, Open { s with work := (node, pending) :: work } v ↔ Open s v := fun v => by
    simp only [mem_openNodes, hwork, List.map_cons]
  have hdesc := hwork ▸ h.work_desc
  refine { h with
    open_stack := ?_, work_desc := ?_, pending := ?_, covered := ?_, reaches := ?_, low_lt := ?_,
    low_above := ?_, looked := ?_ }
  · exact fun v hv => h.open_stack v ((hopen v).mp hv)
  · exact List.pairwise_cons.mpr (List.pairwise_cons.mp hdesc)
  · intro e he w hw
    rcases List.mem_cons.mp he with rfl | he
    · exact h.pending (node, child :: pending) (hwork ▸ List.mem_cons_self) w
        (List.mem_cons_of_mem _ hw)
    · exact h.pending e (hwork ▸ List.mem_cons_of_mem _ he) w hw
  · intro v hv
    obtain ⟨u, hu, hle⟩ := h.covered v hv
    exact ⟨u, (hopen u).mpr hu, hle⟩
  · exact fun u hu v hv hle => h.reaches u ((hopen u).mp hu) v hv hle
  · exact fun v hv hclosed => h.low_lt v hv fun hin => hclosed ((hopen v).mpr hin)
  · intro v hv hclosed u hu hle hnext
    exact h.low_above v hv (fun hin => hclosed ((hopen v).mpr hin)) u ((hopen u).mp hu) hle
      fun u' hu' => hnext u' ((hopen u').mpr hu')
  · intro v hv w hedge
    rcases h.looked v hv w hedge with hin | ⟨rest, hin, hw⟩ | hmet
    · exact hin.elim
    · rw [hwork] at hin
      rcases List.mem_cons.mp hin with heq | hin
      · obtain ⟨rfl, rfl⟩ := Prod.mk.inj heq
        rcases List.mem_cons.mp hw with rfl | hw
        · exact .inl ⟨rfl, rfl⟩
        · exact .inr (.inl ⟨pending, List.mem_cons_self, hw⟩)
      · exact .inr (.inl ⟨rest, List.mem_cons_of_mem _ hin, hw⟩)
    · exact .inr (.inr hmet)

/-! ## A node without successors left -/

section Finish

variable {work : List (V × List V)}

theorem open_rest (hwork : s.work = (node, []) :: work) (v : V) :
    Open s v ↔ v = node ∨ Open { s with work } v := by
  simp only [mem_openNodes, hwork, List.map_cons, List.mem_cons]

theorem Sound.idx_lt_node (h : Sound g s) (hwork : s.work = (node, []) :: work) {u : V}
    (hu : Open { s with work } u) : s.idx u < s.idx node := by
  obtain ⟨pending, hin⟩ := hu
  have hdesc := hwork ▸ h.work_desc
  exact (List.pairwise_cons.mp hdesc).1 _ hin

theorem Sound.idx_le_node (h : Sound g s) (hwork : s.work = (node, []) :: work) {u : V}
    (hu : Open s u) : s.idx u ≤ s.idx node := by
  rcases (open_rest hwork u).mp hu with rfl | hu
  · exact le_rfl
  · exact (h.idx_lt_node hwork hu).le

theorem node_open (hwork : s.work = (node, []) :: work) : Open s node :=
  ⟨[], hwork ▸ List.mem_cons_self⟩

/-- What is above the node in the stack has a low link that is not below the node's. -/
theorem Sound.low_above_node (h : Sound g s) (hwork : s.work = (node, []) :: work) {v : V}
    (hv : v ∈ s.stack) (hle : s.idx node ≤ s.idx v) : s.lo node ≤ s.lo v := by
  by_cases hopen : Open s v
  · have heq := le_antisymm (h.idx_le_node hwork hopen) hle
    rw [h.idx_inj hv (h.open_stack node (node_open hwork)) heq]
  · exact h.low_above v hv hopen node (node_open hwork) hle
      fun u hu _ => h.idx_le_node hwork hu

theorem Sound.looked_rest (h : Sound g s) (hwork : s.work = (node, []) :: work) {v w : V}
    (hv : v ∈ s.stack) (hedge : Edge g v w) :
    (∃ pending, (v, pending) ∈ work ∧ w ∈ pending) ∨
      (w ∈ s.index ∧ (w ∈ s.stack → s.lo v ≤ s.idx w)) := by
  rcases h.looked v hv w hedge with hin | ⟨pending, hin, hw⟩ | hmet
  · exact hin.elim
  · rcases List.mem_cons.mp (hwork ▸ hin) with heq | hin
    · obtain ⟨-, rfl⟩ := Prod.mk.inj heq
      cases hw
    · exact .inl ⟨pending, hin, hw⟩
  · exact .inr hmet

theorem Sound.stay (h : Sound g s) (hwork : s.work = (node, []) :: work)
    (hlow : s.lo node ≠ s.idx node) (hparent : ∀ e ∈ work.head?, s.lo e.1 ≤ s.lo node) :
    Sound g { s with work } := by
  have hstack := h.open_stack node (node_open hwork)
  have hlt : s.lo node < s.idx node := by
    obtain ⟨u, -, -, heq, hle⟩ := h.low_spec node hstack
    exact lt_of_le_of_ne (heq ▸ hle) hlow
  have hopen := open_rest hwork
  have hsub : ∀ e ∈ work, e ∈ s.work := fun e he => hwork ▸ List.mem_cons_of_mem _ he
  have hdesc := (List.pairwise_cons.mp (hwork ▸ h.work_desc)).2
  refine { h with
    open_stack := ?_, work_desc := hdesc, pending := ?_, covered := ?_, reaches := ?_,
    low_lt := ?_, low_above := ?_, looked := ?_ }
  · exact fun v hv => h.open_stack v ((hopen v).mpr (.inr hv))
  · exact fun e he => h.pending e (hsub e he)
  · intro v hv
    obtain ⟨u, hu, hle⟩ := h.covered v hv
    rcases (hopen u).mp hu with rfl | hu
    · -- its low link is the index of a node below it, and that one is covered
      obtain ⟨w, hw, -, heq, -⟩ := h.low_spec u hstack
      obtain ⟨u', hu', hle'⟩ := h.covered w hw
      have hlt' : s.idx u' < s.idx u := hle'.trans_lt (heq ▸ hlt)
      refine ⟨u', ((hopen u').mp hu').resolve_left ?_, hlt'.le.trans hle⟩
      rintro rfl
      exact lt_irrefl _ hlt'
    · exact ⟨u, hu, hle⟩
  · exact fun u hu v hv hle => h.reaches u ((hopen u).mpr (.inr hu)) v hv hle
  · intro v hv hclosed
    by_cases hv' : v = node
    · exact hv' ▸ hlt
    · exact h.low_lt v hv fun hin => hclosed (((hopen v).mp hin).resolve_left hv')
  · intro v hv hclosed u hu hle hnext
    change s.lo u ≤ s.lo v
    rcases le_or_gt (s.idx node) (s.idx v) with habove | hbelow
    · -- then the highest open node is the parent
      refine le_trans ?_ (h.low_above_node hwork hv habove)
      obtain ⟨pending, hin⟩ := hu
      cases work with
      | nil => cases hin
      | cons parent rest =>
          have hopen' : Open { s with work := parent :: rest } parent.1 :=
            ⟨parent.2, List.mem_cons_self⟩
          have hup := hnext parent.1 hopen' ((h.idx_lt_node hwork hopen').le.trans habove)
          rcases List.mem_cons.mp hin with rfl | hin
          · exact hparent _ rfl
          · exact absurd ((List.pairwise_cons.mp hdesc).1 _ hin) (not_lt_of_ge hup)
    · refine h.low_above v hv (fun hin => ?_) u ((hopen u).mpr (.inr hu)) hle fun u' hu' hle' => ?_
      · rcases (hopen v).mp hin with rfl | hin
        · exact lt_irrefl _ hbelow
        · exact hclosed hin
      · rcases (hopen u').mp hu' with rfl | hu'
        · exact absurd hle' (not_le_of_gt hbelow)
        · exact hnext u' hu' hle'
  · exact fun v hv w hedge => .inr (h.looked_rest hwork hv hedge)

theorem popUntil_append (node : V) (stack : List V) :
    (Search.popUntil node stack).1 ++ (Search.popUntil node stack).2 = stack := by
  induction stack with
  | nil => rfl
  | cons member stack ih =>
      rw [Search.popUntil]
      split
      · rfl
      · simp [ih]

theorem popUntil_last {stack : List V} (h : node ∈ stack) :
    ∃ above, (Search.popUntil node stack).1 = above ++ [node] := by
  induction stack with
  | nil => cases h
  | cons member stack ih =>
      rw [Search.popUntil]
      split
      · rename_i heq
        exact ⟨[], by rw [heq]; rfl⟩
      · rename_i hne
        obtain ⟨above, habove⟩ := ih ((List.mem_cons.mp h).resolve_left fun heq => hne heq.symm)
        exact ⟨member :: above, by simp [habove]⟩

theorem mem_popUntil (h : Inv g hole s) (hnode : node ∈ s.stack) (v : V) :
    (v ∈ (Search.popUntil node s.stack).1 ↔ v ∈ s.stack ∧ s.idx node ≤ s.idx v) ∧
      (v ∈ (Search.popUntil node s.stack).2 ↔ v ∈ s.stack ∧ s.idx v < s.idx node) := by
  have hsplit := popUntil_append node s.stack
  obtain ⟨above, habove⟩ := popUntil_last hnode
  set component := (Search.popUntil node s.stack).1
  set rest := (Search.popUntil node s.stack).2
  have hdesc := hsplit ▸ h.stack_desc
  obtain ⟨hcomponent, -, hrest⟩ := List.pairwise_append.mp hdesc
  have hup : ∀ v ∈ component, s.idx node ≤ s.idx v := by
    intro v hv
    rw [habove] at hv hcomponent
    rcases List.mem_append.mp hv with hv | hv
    · exact ((List.pairwise_append.mp hcomponent).2.2 v hv node List.mem_cons_self).le
    · exact List.mem_singleton.mp hv ▸ le_rfl
  have hdown : ∀ v ∈ rest, s.idx v < s.idx node := fun v hv =>
    hrest node (habove ▸ List.mem_append_right _ List.mem_cons_self) v hv
  have hmem : v ∈ s.stack ↔ v ∈ component ∨ v ∈ rest := by rw [← hsplit, List.mem_append]
  rw [hmem]
  constructor
  · refine ⟨fun hv => ⟨.inl hv, hup v hv⟩, fun hv => hv.1.resolve_right fun hin => ?_⟩
    exact absurd (hdown v hin) (not_lt_of_ge hv.2)
  · refine ⟨fun hv => ⟨.inr hv, hdown v hv⟩, fun hv => hv.1.resolve_left fun hin => ?_⟩
    exact absurd hv.2 (not_lt_of_ge (hup v hin))

theorem Sound.reaches_node (h : Sound g s) (hwork : s.work = (node, []) :: work)
    (hlow : s.lo node = s.idx node) {v : V} (hv : v ∈ s.stack) (hle : s.idx node ≤ s.idx v) :
    Reaches g v node := by
  induction hn : s.idx v using Nat.strong_induction_on generalizing v with
  | _ n ih =>
      by_cases hopen : Open s v
      · have heq := le_antisymm (h.idx_le_node hwork hopen) hle
        rw [h.idx_inj hv (h.open_stack node (node_open hwork)) heq]
      · obtain ⟨u, hu, hreach, heq, -⟩ := h.low_spec v hv
        have hlt : s.idx u < n := by
          rw [heq, ← hn]
          exact h.low_lt v hv hopen
        have hup : s.idx node ≤ s.idx u := by
          rw [heq, ← hlow]
          exact h.low_above_node hwork hv hle
        exact hreach.trans (ih _ hlt hu hup rfl)

theorem Sound.nodup_popped (h : Sound g s) (node : V) :
    ((Search.popUntil node s.stack).1.insertionSort (· ≤ ·)).Nodup := by
  have hdesc := popUntil_append node s.stack ▸ h.stack_desc
  rw [(List.perm_insertionSort (· ≤ ·) _).nodup_iff]
  refine (List.pairwise_append.mp hdesc).1.imp fun hlt => ?_
  rintro rfl
  exact lt_irrefl _ hlt

theorem Sound.listed_close (h : Sound g s) (hwork : s.work = (node, []) :: work)
    (hlow : s.lo node = s.idx node) :
    Listed (Edge g) ({ s with work }.close node).components := by
  have hnode := h.open_stack node (node_open hwork)
  have hpop := fun v => (mem_popUntil h hnode v).1
  have hmem : ∀ v, v ∈ (Search.popUntil node s.stack).1.insertionSort (· ≤ ·) ↔
      v ∈ s.stack ∧ s.idx node ≤ s.idx v := fun v => by rw [List.mem_insertionSort, hpop]
  refine h.listed.append (h.nodup_popped node) ?_ ?_ ?_ ?_
  · exact List.ne_nil_of_mem ((hmem node).mpr ⟨hnode, le_rfl⟩)
  · exact fun u hu => h.apart u ((hmem u).mp hu).1
  · intro u hu v hv
    rw [hmem] at hu hv
    have hup := fun w => h.reaches node (node_open hwork) w
    have hdown := fun w => h.reaches_node (v := w) hwork hlow
    exact ⟨(hdown u hu.1 hu.2).trans (hup v hv.1 hv.2), (hdown v hv.1 hv.2).trans (hup u hu.1 hu.2)⟩
  · intro u hu v hedge
    rw [hmem] at hu ⊢
    have habove := h.low_above_node hwork hu.1 hu.2
    rcases h.looked_rest hwork hu.1 hedge with ⟨pending, hin, hv⟩ | ⟨hmet, hle⟩
    · exact absurd (h.idx_lt_node hwork ⟨pending, hin⟩) (not_lt_of_ge hu.2)
    · rcases (h.met_iff v).mp hmet with hv | hv
      · exact .inl ⟨hv, hlow ▸ habove.trans (hle hv)⟩
      · exact .inr hv

theorem Sound.mem_stack_close (h : Sound g s) (hwork : s.work = (node, []) :: work) {v : V} :
    v ∈ ({ s with work }.close node).stack ↔ v ∈ s.stack ∧ s.idx v < s.idx node :=
  (mem_popUntil h (h.open_stack node (node_open hwork)) v).2

theorem Sound.mem_components_close (h : Sound g s) (hwork : s.work = (node, []) :: work) {v : V} :
    v ∈ ({ s with work }.close node).components.flatten ↔
      v ∈ s.components.flatten ∨ (v ∈ s.stack ∧ s.idx node ≤ s.idx v) := by
  rw [← (mem_popUntil h (h.open_stack node (node_open hwork)) v).1]
  simp [Search.close]

theorem Sound.met_close (h : Sound g s) (hwork : s.work = (node, []) :: work) (v : V) :
    v ∈ ({ s with work }.close node).index ↔ v ∈ ({ s with work }.close node).stack ∨
      v ∈ ({ s with work }.close node).components.flatten := by
  refine (h.met_iff v).trans ?_
  rw [h.mem_stack_close hwork, h.mem_components_close hwork]
  constructor
  · rintro (hv | hv)
    · rcases lt_or_ge (s.idx v) (s.idx node) with hlt | hle
      · exact .inl ⟨hv, hlt⟩
      · exact .inr (.inr ⟨hv, hle⟩)
    · exact .inr (.inl hv)
  · rintro (hv | hv | hv)
    · exact .inl hv.1
    · exact .inr hv
    · exact .inl hv.1

theorem Sound.sorted_close (h : Sound g s) :
    ∀ C ∈ ({ s with work }.close node).components, C.Pairwise (· < ·) := by
  intro C hC
  rcases List.mem_append.mp hC with hC | hC
  · exact h.sorted C hC
  · obtain rfl := List.mem_singleton.mp hC
    have hle := (List.pairwise_insertionSort (· ≤ ·) (Search.popUntil node s.stack).1).sortedLE
    exact (hle.sortedLT_of_nodup (h.nodup_popped node)).pairwise

theorem Sound.close (h : Sound g s) (hwork : s.work = (node, []) :: work)
    (hlow : s.lo node = s.idx node) : Sound g ({ s with work }.close node) := by
  have hnode := h.open_stack node (node_open hwork)
  have hpop := mem_popUntil h hnode
  have hopen := open_rest hwork
  have hdesc := popUntil_append node s.stack ▸ h.stack_desc
  -- an open node other than the closed one is below it
  have hkeep : ∀ v, Open s v → s.idx v < s.idx node → Open { s with work } v := by
    intro v hv hlt
    refine ((hopen v).mp hv).resolve_left ?_
    rintro rfl
    exact lt_irrefl _ hlt
  constructor
  · exact (List.pairwise_append.mp hdesc).2.1
  · exact fun v hv => h.idx_lt v ((h.mem_stack_close hwork).mp hv).1
  · intro v
    rw [h.mem_stack_close hwork]
    simp only [Search.close, List.mem_filter, decide_eq_true_eq, (hpop v).1, h.onStack_iff]
    constructor
    · exact fun hv => ⟨hv.1, lt_of_not_ge fun hle => hv.2 ⟨hv.1, hle⟩⟩
    · exact fun hv => ⟨hv.1, fun hin => absurd hv.2 (not_lt_of_ge hin.2)⟩
  · exact h.met_close hwork
  · exact h.mem_keys
  · exact h.listed_close hwork hlow
  · intro v hv hin
    obtain ⟨hv, hlt⟩ := (h.mem_stack_close hwork).mp hv
    rcases (h.mem_components_close hwork).mp hin with hin | hin
    · exact h.apart v hv hin
    · exact absurd hlt (not_lt_of_ge hin.2)
  · exact h.sorted_close
  · intro v hv
    exact (h.mem_stack_close hwork).mpr
      ⟨h.open_stack v ((hopen v).mpr (.inr hv)), h.idx_lt_node hwork hv⟩
  · exact (List.pairwise_cons.mp (hwork ▸ h.work_desc)).2
  · exact fun e he => h.pending e (hwork ▸ List.mem_cons_of_mem _ he)
  · intro v hv
    obtain ⟨hv, hlt⟩ := (h.mem_stack_close hwork).mp hv
    obtain ⟨u, hu, hle⟩ := h.covered v hv
    exact ⟨u, hkeep u hu (hle.trans_lt hlt), hle⟩
  · intro u hu v hv hle
    exact h.reaches u ((hopen u).mpr (.inr hu)) v ((h.mem_stack_close hwork).mp hv).1 hle
  · intro v hv
    obtain ⟨hv, hlt⟩ := (h.mem_stack_close hwork).mp hv
    obtain ⟨u, hu, hreach, heq, hle⟩ := h.low_spec v hv
    exact ⟨u, (h.mem_stack_close hwork).mpr ⟨hu, hle.trans_lt hlt⟩, hreach, heq, hle⟩
  · intro v hv hclosed
    obtain ⟨hv, hlt⟩ := (h.mem_stack_close hwork).mp hv
    exact h.low_lt v hv fun hin => hclosed (hkeep v hin hlt)
  · intro v hv hclosed u hu hle hnext
    obtain ⟨hv, hlt⟩ := (h.mem_stack_close hwork).mp hv
    refine h.low_above v hv (fun hin => hclosed (hkeep v hin hlt)) u ((hopen u).mpr (.inr hu)) hle
      ?_
    exact fun u' hu' hle' => hnext u' (hkeep u' hu' (hle'.trans_lt hlt)) hle'
  · intro v hv w hedge
    refine .inr ((h.looked_rest hwork ((h.mem_stack_close hwork).mp hv).1 hedge).imp_right
      fun hmet => ?_)
    exact ⟨hmet.1, fun hw => hmet.2 ((h.mem_stack_close hwork).mp hw).1⟩

end Finish

/-! ## A round -/

theorem Sound.finish (h : Sound g s) {work : List (V × List V)}
    (hwork : s.work = (node, []) :: work) : Sound g (s.finish node work) := by
  have hdone : ∀ t : Search V, Sound g t → t.work = (node, []) :: work →
      (∀ e ∈ work.head?, t.lo e.1 ≤ t.lo node) →
      Sound g (if t.lo node = t.idx node then { t with work }.close node else { t with work }) := by
    intro t ht hwork' hparent
    split
    · rename_i hlow
      exact ht.close hwork' hlow
    · rename_i hlow
      exact ht.stay hwork' hlow hparent
  cases work with
  | nil => exact hdone s h hwork (by simp)
  | cons parent rest =>
      -- the parent takes the low link before the node leaves the work
      have hparent : Open { s with work := parent :: rest } parent.1 :=
        ⟨parent.2, List.mem_cons_self⟩
      have hopen := (open_rest hwork parent.1).mpr (.inr hparent)
      have hnode := h.open_stack node (node_open hwork)
      have hlt := h.idx_lt_node hwork hparent
      obtain ⟨u, hu, hreach, heq, -⟩ := h.low_spec node hnode
      have hlower : Sound g (s.lower parent.1 (s.lo node)) := Inv.lower h hopen
        ⟨u, hu, (h.reaches parent.1 hopen node hnode hlt.le).trans hreach, heq⟩
      refine hdone (s.lower parent.1 (s.lo node)) hlower hwork fun e he => ?_
      have he : parent = e := Option.some.inj he
      subst he
      have hne : node ≠ parent.1 := fun heq => lt_irrefl _ (heq ▸ hlt)
      rw [lo_lower, lo_lower, if_pos rfl, if_neg hne]
      exact min_le_right _ _

/-- A successor is entered, or it lowers the link of the node, or its class is listed. -/
theorem Inv.look {child : V} (h : Inv g (fun v w => v = node ∧ w = child) s)
    (hnode : Open s node) (hedge : Edge g node child)
    (hreach : ∀ u, Open s u → Reaches g u child) : Sound g (s.look g node child) := by
  rw [Search.look]
  by_cases hmet : child ∈ s.index
  · rw [if_neg (not_not.mpr hmet)]
    by_cases hon : child ∈ s.onStack
    · rw [if_pos hon]
      have hchild := (h.onStack_iff child).mp hon
      refine (h.lower hnode ⟨child, hchild, hreach node hnode, rfl⟩).fill ?_
      rintro v w ⟨rfl, rfl⟩
      refine ⟨hmet, fun _ => ?_⟩
      rw [lo_lower, if_pos rfl]
      exact min_le_right _ _
    · rw [if_neg hon]
      refine h.fill ?_
      rintro v w ⟨rfl, rfl⟩
      exact ⟨hmet, fun hin => absurd ((h.onStack_iff w).mpr hin) hon⟩
  · rw [if_pos hmet]
    exact h.enter hmet (mem_keys_of_edge hedge).2 hreach fun v w hin => hin.2

theorem Sound.step (h : Sound g s) : Sound g (step g s) := by
  rw [StronglyConnected.step]
  split
  · exact h
  · rename_i node child pending work hwork
    have hpop := h.pop hwork
    have hnode : Open { s with work := (node, pending) :: work } node :=
      ⟨pending, List.mem_cons_self⟩
    have hedge : Edge g node child :=
      h.pending (node, child :: pending) (hwork ▸ List.mem_cons_self) child List.mem_cons_self
    refine hpop.look hnode hedge ?_
    rintro u ⟨rest, hin⟩
    refine (hpop.reaches u ⟨rest, hin⟩ node (hpop.open_stack node hnode) ?_).tail hedge
    rcases List.mem_cons.mp hin with heq | hin
    · rw [(Prod.mk.inj heq).1]
    · exact ((List.pairwise_cons.mp hpop.work_desc).1 _ hin).le
  · rename_i node work hwork
    exact h.finish hwork

/-! ## The rounds that are left -/

/-- The rounds a node takes from its first to its last. -/
def rounds (g : Adjacency V) (v : V) : Nat := (g.successors v).length + 1

def weight (g : Adjacency V) (s : Search V) : Nat :=
  (s.work.map fun e => e.2.length + 1).sum +
    ((g.keys.filter (· ∉ s.index)).map (rounds g)).sum

theorem filter_enter {keys : List V} (hnodup : keys.Nodup) (hnew : node ∉ s.index)
    (hkey : node ∈ keys) :
    (keys.filter (· ∉ s.index)).Perm (node :: keys.filter (· ∉ (s.enter g node).index)) := by
  have hin : node ∈ keys.filter (· ∉ s.index) := List.mem_filter.mpr ⟨hkey, decide_eq_true hnew⟩
  refine (List.perm_cons_erase hin).trans (.of_eq ?_)
  rw [(hnodup.filter _).erase_eq_filter, List.filter_filter]
  congr 1
  refine List.filter_congr fun v _ => ?_
  by_cases hv : v = node <;> simp [mem_index_enter, hv]

theorem weight_enter (hnew : node ∉ s.index) (hkey : node ∈ g.keys) :
    weight g (s.enter g node) = weight g s := by
  have hnodup : g.keys.Nodup := g.keys_sorted.imp ne_of_lt
  have hsum := ((filter_enter (g := g) hnodup hnew hkey).map (rounds g)).sum_nat
  rw [weight, weight, hsum]
  simp only [Search.enter, List.map_cons, List.sum_cons, rounds]
  omega

theorem weight_look {child : V} (hkey : child ∈ g.keys) :
    weight g (s.look g node child) = weight g s := by
  rw [Search.look]
  by_cases hmet : child ∈ s.index
  · rw [if_neg (not_not.mpr hmet)]
    split <;> rfl
  · rw [if_pos hmet]
    exact weight_enter hmet hkey

theorem weight_finish (work : List (V × List V)) :
    weight g (s.finish node work) = weight g { s with work } := by
  unfold Search.finish
  cases work <;> dsimp only <;> split <;> rfl

theorem weight_step (h : Sound g s) (hwork : s.work ≠ []) :
    weight g (step g s) + 1 = weight g s := by
  rw [StronglyConnected.step]
  split
  · rename_i hnil
    exact absurd hnil hwork
  · rename_i node child pending work heq
    have hedge : Edge g node child :=
      h.pending (node, child :: pending) (heq ▸ List.mem_cons_self) child List.mem_cons_self
    rw [weight_look (mem_keys_of_edge hedge).2]
    simp only [weight, heq, List.map_cons, List.sum_cons, List.length_cons]
    omega
  · rename_i node work heq
    rw [weight_finish]
    simp only [weight, heq, List.map_cons, List.sum_cons, List.length_nil]
    omega

/-! ## Whole runs -/

theorem index_look {child v : V} (hv : v ∈ s.index) : v ∈ (s.look g node child).index := by
  rw [Search.look]
  split
  · exact mem_index_enter.mpr (.inr hv)
  · split <;> exact hv

theorem index_finish {work : List (V × List V)} : (s.finish node work).index = s.index := by
  unfold Search.finish
  cases work <;> dsimp only <;> split <;> rfl

theorem index_step {v : V} (hv : v ∈ s.index) : v ∈ (step g s).index := by
  rw [StronglyConnected.step]
  split
  · exact hv
  · exact index_look hv
  · rw [index_finish]
    exact hv

theorem drain_spec (h : Sound g s) :
    ∃ t, (∀ fuel, weight g s ≤ fuel → drain g fuel s = some t) ∧ Sound g t ∧ t.work = [] ∧
      weight g t ≤ weight g s ∧ ∀ v ∈ s.index, v ∈ t.index := by
  induction hn : weight g s generalizing s with
  | zero =>
      have hwork : s.work = [] := by
        by_contra hne
        exact absurd (weight_step h hne) (by omega)
      refine ⟨s, fun fuel _ => ?_, h, hwork, hn.le, fun v hv => hv⟩
      cases fuel <;> simp [drain, hwork]
  | succ n ih =>
      by_cases hwork : s.work = []
      · refine ⟨s, fun fuel _ => ?_, h, hwork, hn.le, fun v hv => hv⟩
        cases fuel <;> simp [drain, hwork]
      · have hweight := weight_step h hwork
        obtain ⟨t, hrun, ht, hdone, hle, hgrow⟩ := ih h.step (by omega)
        refine ⟨t, fun fuel hfuel => ?_, ht, hdone, by omega, fun v hv => hgrow v (index_step hv)⟩
        obtain ⟨fuel, rfl⟩ : ∃ k, fuel = k + 1 := ⟨fuel - 1, by omega⟩
        rw [drain, if_neg (by simpa using hwork)]
        exact hrun fuel (by omega)

theorem visit_spec (h : Sound g s) (hwork : s.work = []) {start : V} (hkey : start ∈ g.keys) :
    ∃ t, (∀ fuel, weight g s ≤ fuel → visit g fuel s start = some t) ∧ Sound g t ∧ t.work = [] ∧
      weight g t ≤ weight g s ∧ start ∈ t.index ∧ ∀ v ∈ s.index, v ∈ t.index := by
  by_cases hmet : start ∈ s.index
  · refine ⟨s, fun fuel _ => ?_, h, hwork, le_rfl, hmet, fun v hv => hv⟩
    rw [visit, if_pos hmet]
  · have hnone : ∀ u, Open s u → Reaches g u start := by
      rintro u ⟨pending, hin⟩
      rw [hwork] at hin
      cases hin
    have henter := h.enter hmet hkey hnone fun v w hin => hin.elim
    obtain ⟨t, hrun, ht, hdone, hle, hgrow⟩ := drain_spec henter
    rw [weight_enter hmet hkey] at hrun hle
    refine ⟨t, fun fuel hfuel => ?_, ht, hdone, hle, hgrow _ (mem_index_enter.mpr (.inl rfl)),
      fun v hv => hgrow v (mem_index_enter.mpr (.inr hv))⟩
    rw [visit, if_neg hmet]
    exact hrun fuel hfuel

theorem foldlM_visit {keys : List V} (hkeys : ∀ v ∈ keys, v ∈ g.keys) (h : Sound g s)
    (hwork : s.work = []) :
    ∃ t, (∀ fuel, weight g s ≤ fuel → keys.foldlM (visit g fuel) s = some t) ∧ Sound g t ∧
      t.work = [] ∧ (∀ v ∈ keys, v ∈ t.index) ∧ ∀ v ∈ s.index, v ∈ t.index := by
  induction keys generalizing s with
  | nil => exact ⟨s, fun _ _ => rfl, h, hwork, by simp, fun v hv => hv⟩
  | cons start keys ih =>
      obtain ⟨t, hrun, ht, hdone, hle, hstart, hgrow⟩ := visit_spec h hwork (hkeys start (by simp))
      obtain ⟨t', hrun', ht', hdone', hall, hgrow'⟩ :=
        ih (fun v hv => hkeys v (List.mem_cons_of_mem _ hv)) ht hdone
      refine ⟨t', fun fuel hfuel => ?_, ht', hdone', ?_, fun v hv => hgrow' v (hgrow v hv)⟩
      · rw [List.foldlM_cons, hrun fuel hfuel]
        exact hrun' fuel (hle.trans hfuel)
      · intro v hv
        rcases List.mem_cons.mp hv with rfl | hv
        · exact hgrow' v hstart
        · exact hall v hv

theorem Sound.index_iff (h : Sound g s) (hwork : s.work = []) (v : V) :
    v ∈ s.index ↔ v ∈ s.components.flatten := by
  refine (h.met_iff v).trans (or_iff_right fun hv => ?_)
  obtain ⟨u, ⟨pending, hin⟩, -⟩ := h.covered v hv
  rw [hwork] at hin
  cases hin

/-- What the loop over the keys ends with, whatever the number of rounds allowed beyond those it
needs. -/
theorem exists_components (g : Adjacency V) :
    ∃ components,
      (∀ fuel, (g.keys.map (rounds g)).sum ≤ fuel → stronglyConnected g fuel = some components) ∧
      components.flatten.Perm g.keys ∧ (∀ C ∈ components, C.Pairwise (· < ·)) ∧
      Listed (Edge g) components := by
  obtain ⟨t, hrun, ht, hdone, hall, -⟩ :=
    foldlM_visit (fun v hv => hv) (sound_start (g := g)) rfl
  have hstart : weight g {} = (g.keys.map (rounds g)).sum := by
    simp [weight]
  have hkeys : ∀ v, v ∈ t.components.flatten ↔ v ∈ g.keys := fun v => by
    rw [← ht.index_iff hdone]
    exact ⟨ht.mem_keys v, hall v⟩
  refine ⟨t.components, fun fuel hfuel => ?_, ?_, ht.sorted, ht.listed⟩
  · rw [stronglyConnected, hrun fuel (hstart.trans_le hfuel), Option.map_some]
  · exact (List.perm_ext_iff_of_nodup ht.listed.nodup (g.keys_sorted.imp ne_of_lt)).mpr hkeys

/-- The loop ends, and its components are the classes of mutual reachability, sorted, each behind
those it reaches. -/
theorem stronglyConnected_listed (g : Adjacency V) :
    ∃ components,
      (∀ fuel, (g.keys.map (rounds g)).sum ≤ fuel → stronglyConnected g fuel = some components) ∧
      components.flatten.Perm g.keys ∧
      (∀ C ∈ components, C ≠ [] ∧ C.Pairwise (· < ·)) ∧
      (∀ u ∈ g.keys, ∀ v, (∃ C ∈ components, u ∈ C ∧ v ∈ C) ↔ Mutual (Edge g) u v) ∧
      components.Pairwise fun C D => ∀ u ∈ C, ∀ v ∈ D, ¬Reaches g u v := by
  obtain ⟨components, hrun, hperm, hsorted, hlisted⟩ := exists_components g
  refine ⟨components, hrun, hperm, fun C hC => ⟨hlisted.nonempty C hC, hsorted C hC⟩, ?_,
    hlisted.earlier⟩
  exact fun u hu v => hlisted.same_class_iff (hperm.mem_iff.mpr hu)

end StronglyConnected

end Dagayn
