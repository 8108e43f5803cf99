import Dagayn.CallerWalk

/-!
# Distances and hops

A walk that is not cut lists what it meets hop by hop: `runPattern_rows` says which rows these
are. The hops are those of a search with two kinds of edges; where no value use comes before
its time, the hop of a name is its distance (`exact_of_quiet`), and where every caller is a
node no weaker condition is enough (`exact_iff_quiet`).
-/

namespace Dagayn

namespace CallerWalk

open Bridges HopSearch Levels
open TestInference (sanitize)

namespace Ask

variable (a : Ask)

/-! ## What the walk is for -/

def Leads (edge : GraphEdge) (name : String) : Prop :=
  edge ∈ a.reads.edges ∧ edge.targetQualified ∈ a.reads.keys.qualifiedKeyCandidates name

/-- `v` calls, or imports, `u`. -/
def Calls (u v : String) : Prop :=
  ∃ edge, a.Leads edge u ∧ a.follows false edge = true ∧ a.nextKey edge = v

def firstEdges : List GraphEdge :=
  if a.importers then a.firstImports else a.directCalls ++ a.fallbackCalls

/-- The shortest path from the name to the target has `k` edges. -/
def Hops (name : String) (k : Nat) : Prop :=
  ∃ j, k = j + 1 ∧ AtDistance a.Calls (fun v => ∃ edge ∈ a.firstEdges, a.nextKey edge = v) j name

/-- The name has a row when it is met: a caller needs a node. -/
def Listed (name : String) : Prop := a.importers = true ∨ (a.reads.namedNode name).isSome = true

def rowName (row : Row) : String := a.nextKey row.edge

/-- The rows list every name up to the depth, those past the first hop once, with the distance
as their depth; and a reply that is closed leaves no name out. -/
structure Exact (found : Found) : Prop where
  first : ∀ {n}, n ≠ a.qualified → a.Listed n → a.Hops n 1 → ∃ row ∈ found.rows, a.rowName row = n
  once : ∀ {n k}, n ≠ a.qualified → a.Listed n → a.Hops n k → 2 ≤ k → k ≤ a.depth →
    (found.rows.map a.rowName).count n = 1
  depth : ∀ {n k row}, n ≠ a.qualified → a.Listed n → a.Hops n k → k ≤ a.depth →
    row ∈ found.rows → a.rowName row = n → row.depth = some k
  closed : found.closed = true → ∀ {n k}, n ≠ a.qualified → a.Listed n → a.Hops n k → k ≤ a.depth

/-- Direct callers and users are nodes under names that a row prints as they are; the name asked
for is one of the files whose importers are listed, or no file that imports. -/
structure Plain : Prop where
  callers : a.importers = false → ∀ edge ∈ a.firstEdges,
    ∃ node, a.reads.namedNode edge.sourceQualified = some node ∧
      sanitize node.qualifiedName = edge.sourceQualified
  users : a.importers = false → ∀ edge ∈ a.firstReferences, ∀ node,
    a.reads.namedNode edge.sourceQualified = some node →
      sanitize node.qualifiedName = edge.sourceQualified
  file : a.importers = true → a.qualified ∈ a.files ∨
    ∀ edge ∈ a.reads.edges, a.follows false edge = true → edge.filePath ≠ a.qualified

/-- The edge leads into the target or a name more than one hop nearer than `k`. -/
def Early (edge : GraphEdge) (k : Nat) : Prop :=
  a.Leads edge a.qualified ∨ ∃ y j, y ≠ a.qualified ∧ a.Hops y j ∧ j + 1 < k ∧ a.Leads edge y

/-- No name past the first hop uses as a value the target or a name more than one hop nearer. -/
def Quiet : Prop :=
  a.valueUses = true → ∀ edge ∈ a.reads.edges, a.follows true edge = true →
    ∀ k, a.nextKey edge ≠ a.qualified → a.Hops (a.nextKey edge) k → 2 ≤ k → k ≤ a.depth →
      ¬ a.Early edge k

def Stored : Prop :=
  a.importers = true ∨ ∀ edge ∈ a.reads.edges, a.follows false edge = true →
    (a.reads.namedNode edge.sourceQualified).isSome = true

variable {a}

/-! ## The two passes -/

theorem exists_filedUnder {g : GraphReads} {names : List String} {key : String} :
    (∃ name ∈ names, g.filedUnder names key name = true) ↔
      ∃ name ∈ names, key ∈ g.keys.qualifiedKeyCandidates name := by
  have hcandidates : ∀ name, key ∈ g.keys.qualifiedKeyCandidates name ↔
      key = name ∨ key = g.keys.normalizeQualifiedKey name := by
    intro name
    unfold PathKeys.qualifiedKeyCandidates
    dsimp only
    split
    · rename_i heq
      simp [heq]
    · simp
  simp only [hcandidates, GraphReads.filedUnder]
  by_cases hany : names.any (g.keys.normalizeQualifiedKey · = key) = true
  · obtain ⟨named, hmem, hkey⟩ := List.any_eq_true.mp hany
    have heq : g.keys.normalizeQualifiedKey named = key := of_decide_eq_true hkey
    simp only [hany, if_true, decide_eq_true_eq]
    constructor
    · rintro ⟨name, hname, h⟩
      exact ⟨name, hname, .inr h.symm⟩
    · exact fun _ => ⟨named, hmem, heq⟩
  · simp only [hany, Bool.false_eq_true, if_false, decide_eq_true_eq]
    refine exists_congr fun name => and_congr_right fun hname => ?_
    constructor
    · exact fun h => .inl h.symm
    · rintro (h | h)
      · exact h.symm
      · exact absurd (List.any_eq_true.mpr ⟨name, hname, decide_eq_true h.symm⟩) hany

theorem mem_passEdges {valuePass : Bool} {frontier : List String} {edge : GraphEdge} :
    edge ∈ a.passEdges valuePass frontier ↔
      ∃ name ∈ frontier, a.Leads edge name ∧ a.follows valuePass edge = true := by
  rw [passEdges, List.mem_flatMap]
  constructor
  · rintro ⟨name, hname, hmem⟩
    obtain ⟨hin, hfollows⟩ := List.mem_filter.mp hmem
    obtain ⟨hedge, hfiled⟩ := (GraphReads.mem_incoming hname).mp hin
    obtain ⟨name', hname', hkey⟩ := exists_filedUnder.mp ⟨name, hname, hfiled⟩
    exact ⟨name', hname', ⟨hedge, hkey⟩, hfollows⟩
  · rintro ⟨name, hname, ⟨hedge, hkey⟩, hfollows⟩
    obtain ⟨name', hname', hfiled⟩ := exists_filedUnder.mpr ⟨name, hname, hkey⟩
    exact ⟨name', hname', List.mem_filter.mpr
      ⟨(GraphReads.mem_incoming hname').mpr ⟨hedge, hfiled⟩, hfollows⟩⟩

theorem mem_intoName {name : String} {edge : GraphEdge} :
    edge ∈ a.intoName name ↔ a.Leads edge name := by
  have hinj : ∀ e ∈ a.reads.edges, ∀ e' ∈ a.reads.edges, e.id = e'.id → e = e' :=
    fun e he e' he' => List.inj_on_of_nodup_map a.reads.edge_ids_nodup he he'
  have hmem : ∀ e, e ∈ ((a.reads.keys.qualifiedKeyCandidates name).flatMap fun key =>
      a.reads.edges.filter (GraphEdge.targetQualified · = key)) ↔ a.Leads e name := by
    intro e
    simp [Leads]
    tauto
  rw [intoName, GraphReads.getEdgesByEndpoint, mem_keepFirst_of_inj fun e he e' he' =>
    hinj e ((hmem e).mp he).1 e' ((hmem e').mp he').1, hmem]

variable (a)

/-- The walk as a search: it goes on behind calls and imports, not behind value uses. -/
def kinds : TwoKinds String GraphEdge where
  key := a.nextKey
  past := a.passEdges false
  aside := a.valueEdges
  Past edge name := a.Leads edge name ∧ a.follows false edge = true
  Aside edge name := a.valueUses = true ∧ a.Leads edge name ∧ a.follows true edge = true
  mem_past := mem_passEdges
  mem_aside {frontier edge} := by
    rw [valueEdges]
    split
    · rename_i huses
      simp only [huses, true_and]
      exact mem_passEdges
    · rename_i huses
      simp [huses]

theorem adj_kinds : a.kinds.Adj = a.Calls := by
  funext u v
  simp only [TwoKinds.Adj, Calls, kinds, and_assoc]

def first : Front String := a.firstFront a.firstHop.rows

def layer (i : Nat) : List GraphEdge := a.kinds.layer (a.kinds.front a.first i)

def hopRows (i : Nat) : List Row := (a.layerRows (a.layer i)).map (a.finishRow (a.layer i) (i + 2))

def firstRows : List Row := a.firstHop.rows.map fun row => { row with depth := some 1 }

variable {a}

theorem frontier_kept (front : Front String) :
    ((a.kinds.layer front).filter (·.kind = a.kind)).map a.nextKey =
      (a.kinds.next front).frontier := by
  have hpast : ∀ edge ∈ freshOf a.nextKey front.seen (a.passEdges false front.frontier),
      decide (edge.kind = a.kind) = true := by
    intro edge hedge
    rw [freshOf_eq_filter] at hedge
    obtain ⟨-, -, -, hfollows⟩ :=
      mem_passEdges.mp (mem_of_mem_keepFirst (List.mem_filter.mp hedge).1)
    simp only [follows, Bool.false_eq_true, if_false, Bool.and_eq_true] at hfollows
    exact hfollows.1
  have haside : ∀ edge ∈ freshOf a.nextKey (seenAfter a.nextKey front.seen
      (a.passEdges false front.frontier)) (a.valueEdges front.frontier),
      ¬ decide (edge.kind = a.kind) = true := by
    intro edge hedge
    rw [freshOf_eq_filter] at hedge
    have hmem := mem_of_mem_keepFirst (List.mem_filter.mp hedge).1
    obtain ⟨-, -, huses, -, hfollows⟩ := a.kinds.mem_aside.mp hmem
    simp only [follows, if_true, Bool.and_eq_true, decide_eq_true_eq] at hfollows
    simp only [valueUses, Bool.and_eq_true, Bool.not_eq_true'] at huses
    simp [kind, huses.1, hfollows.1.1]
  have hlayer : a.kinds.layer front =
      freshOf a.nextKey front.seen (a.passEdges false front.frontier) ++
        freshOf a.nextKey (seenAfter a.nextKey front.seen (a.passEdges false front.frontier))
          (a.valueEdges front.frontier) := freshOf_append _ _ _ _
  rw [hlayer, List.filter_append, List.filter_eq_self.mpr hpast,
    List.filter_eq_nil_iff.mpr haside, List.append_nil]
  rfl

/-! ## The run of a walk -/

def walkAt (a : Ask) (w : Walk) : Nat → Walk
  | 0 => w
  | i + 1 => a.walkHop (walkAt a w i)

theorem exists_walkAt (w : Walk) : ∀ n i, ∃ m, i ≤ m ∧
    a.walkFrom n (a.walkAt w i) = a.walkAt w m ∧
      (∀ j, i ≤ j → j < m → a.goesOn (a.walkAt w j) = true) ∧
        (m = i + n ∨ a.goesOn (a.walkAt w m) = false)
  | 0, i => ⟨i, Nat.le_refl i, rfl, fun j hj hlt => absurd hj (by omega), .inl rfl⟩
  | n + 1, i => by
      cases hgoes : a.goesOn (a.walkAt w i) with
      | false =>
          refine ⟨i, Nat.le_refl i, ?_, fun j hj hlt => absurd hj (by omega), .inr hgoes⟩
          rw [walkFrom, hgoes]
          rfl
      | true =>
          obtain ⟨m, him, hwalk, hbefore, hend⟩ := exists_walkAt w n (i + 1)
          refine ⟨m, by omega, ?_, fun j hj hlt => ?_, ?_⟩
          · rw [walkFrom, hgoes]
            exact hwalk
          · rcases Nat.eq_or_lt_of_le hj with rfl | hj
            · exact hgoes
            · exact hbefore j hj hlt
          · rcases hend with rfl | hend
            · exact .inl (by omega)
            · exact .inr hend

/-- What `i` hops that cut nothing have made of the first one. -/
structure Uncut (a : Ask) (i : Nat) (w : Walk) : Prop where
  hop : w.hop = i + 2
  front : w.front = a.kinds.front a.first i
  rows : w.found.rows = a.firstRows ++ (List.range i).flatMap a.hopRows

theorem Uncut.step {i : Nat} {w : Walk} (h : Uncut a i w)
    (hwhole : (a.walkHop w).truncated = false) : Uncut a (i + 1) (a.walkHop w) := by
  have hcut : ¬ w.added + (a.hopEdges w.front).length > transitiveRowLimit :=
    of_decide_eq_false hwhole
  have hlayer : a.hopEdges w.front = a.layer i := by
    rw [layer, ← h.front]
    rfl
  rw [hlayer] at hcut
  constructor
  · exact congrArg (· + 1) h.hop
  · simp only [walkHop, hlayer, hcut, decide_false, Bool.false_eq_true, if_false]
    rw [layer, frontier_kept, TwoKinds.front, ← h.front]
    rfl
  · simp only [walkHop, hlayer, hcut, decide_false, Bool.false_eq_true, if_false]
    rw [h.rows, h.hop, List.range_succ, List.flatMap_append, List.append_assoc]
    simp [hopRows]

theorem uncut_walkAt {m : Nat}
    (hwhole : ∀ j ≤ m, (a.walkAt (a.firstWalk a.firstHop) j).truncated = false) :
    Uncut a m (a.walkAt (a.firstWalk a.firstHop) m) := by
  induction m with
  | zero => exact ⟨rfl, rfl, by simp [walkAt, firstWalk, firstRows]⟩
  | succ m ih =>
      exact (ih fun j hj => hwhole j (by omega)).step (hwhole (m + 1) (Nat.le_refl _))

theorem runPattern_rows (hdepth : 1 < a.depth) (hwhole : a.runPattern.walkCut = false) :
    ∃ m, m < a.depth ∧ a.runPattern.rows = a.firstRows ++ (List.range m).flatMap a.hopRows ∧
      (m + 1 = a.depth ∨ (a.kinds.front a.first m).frontier = []) ∧
        (a.runPattern.closed = true → (a.kinds.front a.first m).frontier = []) := by
  obtain ⟨m, -, hwalk, hbefore, hend⟩ := exists_walkAt (a.firstWalk a.firstHop) a.depth 0
  rw [walkAt] at hwalk
  rw [runPattern, if_pos hdepth, expandTransitive, hwalk] at hwhole ⊢
  have hall : ∀ j ≤ m, (a.walkAt (a.firstWalk a.firstHop) j).truncated = false := by
    intro j hj
    rcases Nat.lt_or_eq_of_le hj with hlt | rfl
    · have hgoes := hbefore j (Nat.zero_le j) hlt
      simp only [goesOn, Bool.and_eq_true, Bool.not_eq_true'] at hgoes
      exact hgoes.2
    · exact hwhole
  have hat := uncut_walkAt hall
  have hlt : m < a.depth := by
    by_contra hge
    have hgoes := hbefore (a.depth - 1) (Nat.zero_le _) (by omega)
    have hhop := (uncut_walkAt fun j (hj : j ≤ a.depth - 1) => hall j (by omega)).hop
    simp only [goesOn, hhop, Bool.and_eq_true, decide_eq_true_eq] at hgoes
    omega
  have hstop : m + 1 = a.depth ∨ (a.kinds.front a.first m).frontier = [] := by
    have hends := hend.resolve_left (by omega)
    simp only [goesOn, hall m (Nat.le_refl m), hat.hop, hat.front, Bool.not_false, Bool.and_true,
      Bool.and_eq_false_iff, Bool.not_eq_false', List.isEmpty_iff, decide_eq_false_iff_not]
      at hends
    rcases hends with hnil | hover
    · exact .inr hnil
    · exact .inl (by omega)
  refine ⟨m, hlt, hat.rows, hstop, fun hclosed => ?_⟩
  simp only [Found.closed, hall m (Nat.le_refl m), hat.front, Bool.not_false, Bool.and_true,
    Bool.true_and, Bool.and_eq_true, Bool.not_not, List.isEmpty_iff] at hclosed
  exact hclosed.2

/-! ## The rows of a hop -/

theorem rowName_finishRow (layer : List GraphEdge) (hop : Nat) (row : Row) :
    a.rowName (a.finishRow layer hop row) = a.rowName row := rfl

theorem depth_of_mem_hopRows {i : Nat} {row : Row} (h : row ∈ a.hopRows i) :
    row.depth = some (i + 2) := by
  obtain ⟨row, -, rfl⟩ := List.mem_map.mp h
  rfl

theorem mem_edgeRows {g : GraphReads} {edges : List GraphEdge} {row : Row} :
    row ∈ edgeRows g edges ↔ ∃ edge ∈ edges, ∃ node,
      g.namedNode edge.sourceQualified = some node ∧ { edge := edge, node := some node } = row := by
  simp only [edgeRows, List.mem_filterMap, Option.map_eq_some_iff]

theorem names_edgeRows (h : a.importers = false) (edges : List GraphEdge) :
    (edgeRows a.reads edges).map a.rowName =
      (edges.map a.nextKey).filter fun n => (a.reads.namedNode n).isSome := by
  have hkey : a.nextKey = GraphEdge.sourceQualified := by
    funext edge
    rw [nextKey, h]
    rfl
  have hname : a.rowName = fun row => row.edge.sourceQualified := by
    funext row
    rw [rowName, hkey]
  rw [hkey, hname]
  induction edges with
  | nil => rfl
  | cons edge edges ih =>
      cases hnode : a.reads.namedNode edge.sourceQualified with
      | none => simpa [edgeRows, hnode] using ih
      | some node => simpa [edgeRows, hnode] using ih

theorem names_hopRows (i : Nat) :
    (a.hopRows i).map a.rowName = ((a.layer i).map a.nextKey).filter fun n =>
      a.importers || (a.reads.namedNode n).isSome := by
  have hfinish : (a.hopRows i).map a.rowName = (a.layerRows (a.layer i)).map a.rowName := by
    rw [hopRows, List.map_map]
    exact List.map_congr_left fun row _ => rowName_finishRow _ _ row
  rw [hfinish, layerRows]
  cases himp : a.importers with
  | false =>
      simp only [Bool.false_eq_true, if_false, Bool.false_or]
      exact names_edgeRows himp _
  | true => simp [importerRow, rowName]

theorem count_hopRows {n : String} {i : Nat} (hn : a.Listed n) :
    ((a.hopRows i).map a.rowName).count n =
      if n ∈ (a.layer i).map a.nextKey then 1 else 0 := by
  rw [names_hopRows, List.count_filter (by simpa [Listed] using hn)]
  split
  · rename_i hmem
    exact List.count_eq_one_of_mem (TwoKinds.keys_layer_nodup (s := a.kinds) _) hmem
  · rename_i hmem
    exact List.count_eq_zero_of_not_mem hmem

theorem count_allRows {n : String} {k : Nat} (hn : a.Listed n) {m : Nat}
    (hmet : ∀ i < m, n ∈ (a.layer i).map a.nextKey ↔ k = i) :
    (((List.range m).flatMap a.hopRows).map a.rowName).count n = if k < m then 1 else 0 := by
  induction m with
  | zero => rfl
  | succ m ih =>
      rw [List.range_succ, List.flatMap_append, List.map_append, List.count_append,
        ih fun i hi => hmet i (by omega), List.flatMap_singleton, count_hopRows hn]
      simp only [hmet m (Nat.lt_succ_self m)]
      split <;> split <;> split <;> omega

theorem mem_of_hopRows {i : Nat} {row : Row} (h : row ∈ a.hopRows i) :
    a.rowName row ∈ (a.layer i).map a.nextKey := by
  have hmem := List.mem_map_of_mem (f := a.rowName) h
  rw [names_hopRows] at hmem
  exact (List.mem_filter.mp hmem).1

theorem exists_of_layer {n : String} {i : Nat} (hn : a.Listed n)
    (h : n ∈ (a.layer i).map a.nextKey) : ∃ row ∈ a.hopRows i, a.rowName row = n := by
  have hmem : n ∈ (a.hopRows i).map a.rowName := by
    rw [names_hopRows]
    exact List.mem_filter.mpr ⟨h, by simpa [Listed] using hn⟩
  exact List.mem_map.mp hmem

/-! ## The first hop -/

theorem firstHop_rows_callers (h : a.importers = false) :
    a.firstHop.rows = edgeRows a.reads a.firstEdges ++
      (edgeRows a.reads a.firstReferences).map fun row =>
        { row with relation := some valueReference } := by
  have hrows : a.firstHop = a.callersFirst := by
    rw [firstHop, h]
    rfl
  have hedges : a.firstEdges = a.directCalls ++ a.fallbackCalls := by
    rw [firstEdges, h]
    rfl
  rw [hrows, hedges]
  simp [callersFirst, edgeRows, Found.unresolve]

theorem firstHop_rows_importers (h : a.importers = true) :
    a.firstHop.rows = a.firstEdges.map importerRow := by
  rw [firstHop, firstEdges, if_pos h, if_pos h]
  rfl

/-- A row of the first hop is about an edge into the target or about a value use of it, and its
key is the name behind that edge. -/
theorem Plain.firstHop_cases (hplain : a.Plain) {row : Row} (h : row ∈ a.firstHop.rows) :
    (row.edge ∈ a.firstEdges ∧ a.firstKey row = (a.nextKey row.edge, false)) ∨
      (a.importers = false ∧ row.edge ∈ a.firstReferences ∧
        a.firstKey row = (a.nextKey row.edge, true)) := by
  cases himp : a.importers with
  | true =>
      rw [firstHop_rows_importers himp] at h
      obtain ⟨edge, hedge, rfl⟩ := List.mem_map.mp h
      exact .inl ⟨hedge, by simp [firstKey, nextKey, himp, importerRow, Row.file]⟩
  | false =>
      rw [firstHop_rows_callers himp, List.mem_append, List.mem_map] at h
      rcases h with h | ⟨row', h, rfl⟩
      · obtain ⟨edge, hedge, node, hnode, rfl⟩ := mem_edgeRows.mp h
        obtain ⟨node', hnode', hname⟩ := hplain.callers himp edge hedge
        obtain rfl : node = node' := Option.some.inj (hnode.symm.trans hnode')
        exact .inl ⟨hedge, by simp [firstKey, nextKey, himp, Row.qualifiedName, hname]⟩
      · obtain ⟨edge, hedge, node, hnode, rfl⟩ := mem_edgeRows.mp h
        have hname := hplain.users himp edge hedge node hnode
        refine .inr ⟨rfl, hedge, ?_⟩
        simp [firstKey, nextKey, himp, Row.qualifiedName, hname]

theorem Plain.exists_firstRow (hplain : a.Plain) {edge : GraphEdge} (h : edge ∈ a.firstEdges) :
    ∃ row ∈ a.firstHop.rows, row.edge = edge ∧ a.firstKey row = (a.nextKey edge, false) := by
  cases himp : a.importers with
  | true =>
      refine ⟨importerRow edge, ?_, rfl, ?_⟩
      · rw [firstHop_rows_importers himp]
        exact List.mem_map_of_mem h
      · simp [firstKey, nextKey, himp, importerRow, Row.file]
  | false =>
      obtain ⟨node, hnode, hname⟩ := hplain.callers himp edge h
      refine ⟨{ edge := edge, node := some node }, ?_, rfl, ?_⟩
      · rw [firstHop_rows_callers himp]
        exact List.mem_append_left _ (mem_edgeRows.mpr ⟨edge, h, node, hnode, rfl⟩)
      · simp [firstKey, nextKey, himp, Row.qualifiedName, hname]

theorem Plain.mem_frontier (hplain : a.Plain) {v : String} :
    v ∈ a.first.frontier ↔ ∃ edge ∈ a.firstEdges, a.nextKey edge = v := by
  have hkeep : ∀ l : List String, v ∈ keepFirst id l ↔ v ∈ l := fun l =>
    mem_keepFirst_of_inj fun _ _ _ _ heq => heq
  rw [first, firstFront, hkeep, List.mem_map]
  constructor
  · rintro ⟨key, hkey, rfl⟩
    obtain ⟨hmem, hcall⟩ := List.mem_filter.mp hkey
    obtain ⟨row, hrow, rfl⟩ := List.mem_map.mp hmem
    rcases hplain.firstHop_cases hrow with ⟨hedge, heq⟩ | ⟨-, -, heq⟩
    · exact ⟨row.edge, hedge, by rw [heq]⟩
    · rw [heq] at hcall
      cases hcall
  · rintro ⟨edge, hedge, rfl⟩
    obtain ⟨row, hrow, -, heq⟩ := hplain.exists_firstRow hedge
    refine ⟨a.firstKey row, List.mem_filter.mpr ⟨List.mem_map_of_mem hrow, ?_⟩, ?_⟩
    · rw [heq]
      rfl
    · rw [heq]

theorem mem_seen_first {v : String} :
    v ∈ a.first.seen ↔ v = a.qualified ∨ ∃ row ∈ a.firstHop.rows, (a.firstKey row).1 = v := by
  rw [first, firstFront, List.mem_dedup, List.mem_cons, List.map_map, List.mem_map]
  rfl

theorem mem_firstEdges_of_callers (himp : a.importers = false) {edge : GraphEdge}
    (hleads : a.Leads edge a.qualified) (hfollows : a.follows false edge = true) :
    edge ∈ a.firstEdges := by
  have hkind : edge.kind = "CALLS" := by simpa [follows, kind, himp] using hfollows
  rw [firstEdges, himp]
  exact List.mem_append_left _
    (List.mem_filter.mpr ⟨mem_intoName.mpr hleads, decide_eq_true hkind⟩)

theorem mem_firstEdges_of_importers (himp : a.importers = true) {edge : GraphEdge} :
    edge ∈ a.firstEdges ↔ ∃ file ∈ a.files, a.Leads edge file ∧ a.follows false edge = true := by
  have hfollows : a.follows false edge = true ↔
      (edge.kind = "IMPORTS_FROM" && ImportCycles.importKindMatches edge a.importKind) = true := by
    simp [follows, kind, himp]
  rw [firstEdges, if_pos himp, firstImports, List.mem_flatMap, hfollows]
  simp only [List.mem_filter, mem_intoName]

theorem exists_edge_of_walk (himp : a.importers = true) {n : Nat} {v : String}
    (h : Levels.Walk a.Calls (· ∈ a.first.frontier) n v) (hplain : a.Plain) :
    ∃ edge ∈ a.reads.edges, a.follows false edge = true ∧ edge.filePath = v := by
  have hkey : ∀ edge, a.nextKey edge = edge.filePath := fun edge => if_pos himp
  cases h with
  | seed hmem =>
      obtain ⟨edge, hedge, rfl⟩ := hplain.mem_frontier.mp hmem
      obtain ⟨file, -, hleads, hfollows⟩ := (mem_firstEdges_of_importers himp).mp hedge
      exact ⟨edge, hleads.1, hfollows, (hkey edge).symm⟩
  | step _ hadj =>
      obtain ⟨edge, hleads, hfollows, rfl⟩ := hadj
      exact ⟨edge, hleads.1, hfollows, (hkey edge).symm⟩

theorem Plain.begins (hplain : a.Plain) : Begins a.kinds a.first a.qualified where
  start_mem := mem_seen_first.mpr (.inl rfl)
  frontier_sub v hv := by
    obtain ⟨edge, hedge, rfl⟩ := hplain.mem_frontier.mp hv
    obtain ⟨row, hrow, -, heq⟩ := hplain.exists_firstRow hedge
    exact mem_seen_first.mpr (.inr ⟨row, hrow, by rw [heq]⟩)
  behind {n v} hwalk hadj := by
    rw [adj_kinds] at hwalk hadj
    obtain ⟨edge, hleads, hfollows, rfl⟩ := hadj
    refine hplain.mem_frontier.mpr ⟨edge, ?_, rfl⟩
    cases himp : a.importers with
    | false => exact mem_firstEdges_of_callers himp hleads hfollows
    | true =>
        rcases hplain.file himp with hfile | hnone
        · exact (mem_firstEdges_of_importers himp).mpr ⟨a.qualified, hfile, hleads, hfollows⟩
        · obtain ⟨edge', hedge', hfollows', hstart⟩ := exists_edge_of_walk himp hwalk hplain
          exact absurd hstart (hnone edge' hedge' hfollows')

/-! ## Distances -/

theorem Plain.hops_iff (hplain : a.Plain) {n : String} {k : Nat} :
    a.Hops n (k + 1) ↔ At a.kinds a.first k n := by
  have hseed : (fun v => ∃ edge ∈ a.firstEdges, a.nextKey edge = v) =
      (· ∈ a.first.frontier) := by
    funext v
    exact propext hplain.mem_frontier.symm
  rw [Hops, hseed, At, adj_kinds]
  constructor
  · rintro ⟨j, hj, hat⟩
    obtain rfl : k = j := by omega
    exact hat
  · exact fun hat => ⟨k, rfl, hat⟩

theorem uses_kinds {u v : String} : a.kinds.Uses u v ↔ a.valueUses = true ∧
    ∃ edge, a.Leads edge u ∧ a.follows true edge = true ∧ a.nextKey edge = v := by
  simp only [TwoKinds.Uses, kinds, and_assoc, exists_and_left]

theorem mem_firstReferences {edge : GraphEdge} (himp : a.importers = false) :
    edge ∈ a.firstReferences ↔
      a.valueUses = true ∧ a.Leads edge a.qualified ∧ a.follows true edge = true := by
  rw [firstReferences]
  cases hgo : a.go with
  | false => simp [valueUses, hgo]
  | true =>
      have hfollows : a.follows true edge = true ↔
          (edge.kind = "REFERENCES" && isValueReference edge) = true := by
        simp [follows, himp]
      rw [if_pos rfl, List.mem_filter, mem_intoName, hfollows]
      simp [valueUses, himp, hgo]

theorem Plain.seen_cases (hplain : a.Plain) {v : String} (hv : v ≠ a.qualified)
    (h : v ∈ a.first.seen) : v ∈ a.first.frontier ∨ (a.importers = false ∧
      ∃ row ∈ a.firstHop.rows, a.rowName row = v ∧ row.edge ∈ a.firstReferences) := by
  obtain ⟨row, hrow, rfl⟩ := (mem_seen_first.mp h).resolve_left hv
  rcases hplain.firstHop_cases hrow with ⟨hedge, heq⟩ | ⟨himp, hedge, heq⟩
  · exact .inl (hplain.mem_frontier.mpr ⟨row.edge, hedge, by rw [heq]⟩)
  · exact .inr ⟨himp, row, hrow, by rw [heq]; rfl, hedge⟩

theorem Plain.seen_of_row (hplain : a.Plain) {row : Row} (h : row ∈ a.firstHop.rows) :
    a.rowName row ∈ a.first.seen := by
  refine mem_seen_first.mpr (.inr ⟨row, h, ?_⟩)
  rcases hplain.firstHop_cases h with ⟨-, heq⟩ | ⟨-, -, heq⟩
  · rw [heq]
    rfl
  · rw [heq]
    rfl

theorem Plain.search_quiet (hplain : a.Plain) (hquiet : a.Quiet) :
    HopSearch.Quiet a.kinds a.first a.qualified (a.depth - 1) where
  seen {v k} hv hat hk hmem := by
    rcases hplain.seen_cases hv hmem with hfront | ⟨himp, row, -, rfl, href⟩
    · exact hat.unique (atDistance_zero.mpr hfront)
    · by_contra hpos
      obtain ⟨huses, hleads, hfollows⟩ := (mem_firstReferences himp).mp href
      exact hquiet huses row.edge hleads.1 hfollows (k + 1) hv (hplain.hops_iff.mpr hat)
        (by omega) (by omega) (.inl hleads)
  uses {v k u i} hv hat hk hatu hi _ huse := by
    obtain ⟨huses, edge, hleads, hfollows, rfl⟩ := uses_kinds.mp huse
    refine hquiet huses edge hleads.1 hfollows (k + 1) hv (hplain.hops_iff.mpr hat)
      (by omega) (by omega) ?_
    by_cases hu : u = a.qualified
    · exact .inl (hu ▸ hleads)
    · exact .inr ⟨u, i + 1, hu, hplain.hops_iff.mpr hatu, by omega, hleads⟩

theorem Plain.listed_of_hops (hplain : a.Plain) (hstored : a.Stored) {n : String} {k : Nat}
    (h : a.Hops n k) : a.Listed n := by
  cases himp : a.importers with
  | true => exact .inl himp
  | false =>
      have hkey : ∀ edge, a.nextKey edge = edge.sourceQualified := fun edge => by
        simp [nextKey, himp]
      obtain ⟨j, -, hat⟩ := h
      right
      cases hat.1 with
      | seed hmem =>
          obtain ⟨edge, hedge, rfl⟩ := hmem
          obtain ⟨node, hnode, -⟩ := hplain.callers himp edge hedge
          rw [hkey, hnode]
          rfl
      | step _ hadj =>
          obtain ⟨edge, hleads, hfollows, rfl⟩ := hadj
          rw [hkey]
          exact hstored.resolve_left (by simp [himp]) edge hleads.1 hfollows

theorem Plain.seen_of_reference (hplain : a.Plain) (himp : a.importers = false)
    {edge : GraphEdge} (h : edge ∈ a.firstReferences) (hn : a.Listed (a.nextKey edge)) :
    a.nextKey edge ∈ a.first.seen := by
  have hkey : a.nextKey edge = edge.sourceQualified := by simp [nextKey, himp]
  have hsome := hn.resolve_left (by simp [himp])
  rw [hkey] at hsome
  obtain ⟨node, hnode⟩ := Option.isSome_iff_exists.mp hsome
  have hrow : ({ edge := edge, node := some node, relation := some valueReference } : Row) ∈
      a.firstHop.rows := by
    rw [firstHop_rows_callers himp]
    exact List.mem_append_right _ (List.mem_map.mpr
      ⟨_, mem_edgeRows.mpr ⟨edge, h, node, hnode, rfl⟩, rfl⟩)
  exact hplain.seen_of_row hrow

theorem Plain.quiet_of_search (hplain : a.Plain) (hstored : a.Stored)
    (hq : HopSearch.Quiet a.kinds a.first a.qualified (a.depth - 1)) : a.Quiet := by
  intro huses edge hedge hfollows k hne hhops h2 hk hearly
  obtain ⟨k, rfl⟩ : ∃ j, k = j + 1 := ⟨k - 1, by omega⟩
  have hat := hplain.hops_iff.mp hhops
  have himp : a.importers = false := by
    simp only [valueUses, Bool.and_eq_true, Bool.not_eq_true'] at huses
    exact huses.1
  rcases hearly with hleads | ⟨y, j, hy, hhopsy, hj, hleads⟩
  · have hmem := hplain.seen_of_reference himp
      ((mem_firstReferences himp).mpr ⟨huses, hleads, hfollows⟩)
      (hplain.listed_of_hops hstored hhops)
    have := hq.seen hne hat (by omega) hmem
    omega
  · obtain ⟨i, rfl, -⟩ := id hhopsy
    exact hq.uses hne hat (by omega) (hplain.hops_iff.mp hhopsy) (by omega) (.inl hy)
      (uses_kinds.mpr ⟨huses, edge, hleads, hfollows, rfl⟩)

/-! ## The walk is exact -/

theorem mem_runRows {m : Nat} {row : Row}
    (h : row ∈ a.firstRows ++ (List.range m).flatMap a.hopRows) :
    (row.depth = some 1 ∧ ∃ row' ∈ a.firstHop.rows, a.rowName row' = a.rowName row) ∨
      ∃ i < m, row ∈ a.hopRows i := by
  rcases List.mem_append.mp h with h | h
  · obtain ⟨row', hrow', rfl⟩ := List.mem_map.mp h
    exact .inl ⟨rfl, row', hrow', rfl⟩
  · obtain ⟨i, hi, hrow⟩ := List.mem_flatMap.mp h
    exact .inr ⟨i, List.mem_range.mp hi, hrow⟩

theorem exact_of_quiet (hdepth : 1 < a.depth) (hwhole : a.runPattern.walkCut = false)
    (hplain : a.Plain) (hquiet : a.Quiet) : a.Exact a.runPattern := by
  obtain ⟨m, hm, hrows, hend, hclosed⟩ := runPattern_rows hdepth hwhole
  have hq := hplain.search_quiet hquiet
  have hb := hplain.begins
  have hmet : ∀ {n k i}, n ≠ a.qualified → At a.kinds a.first k n → k ≤ a.depth - 1 →
      i < m → (n ∈ (a.layer i).map a.nextKey ↔ k = i + 1) :=
    fun hn hat hk hi => hq.met_iff hb hn hat hk (by omega)
  have hseen : ∀ {n k}, n ≠ a.qualified → At a.kinds a.first k n → k ≤ a.depth - 1 →
      (∃ row ∈ a.firstHop.rows, a.rowName row = n) → k = 0 := by
    rintro n k hn hat hk ⟨row, hrow, rfl⟩
    exact hq.seen hn hat hk (hplain.seen_of_row hrow)
  have hreach : ∀ {n k}, n ≠ a.qualified → At a.kinds a.first k n →
      (a.kinds.front a.first m).frontier = [] → k < m := by
    intro n k hn hat hnil
    by_contra hge
    exact hn ((hq.level hb (by omega)).eq_start_of_nil hb hnil (by omega) hat)
  constructor
  · intro n hn hlisted hhops
    have hat := hplain.hops_iff.mp hhops
    obtain ⟨edge, hedge, rfl⟩ := hplain.mem_frontier.mp (atDistance_zero.mp hat)
    obtain ⟨row, hrow, rfl, -⟩ := hplain.exists_firstRow hedge
    refine ⟨{ row with depth := some 1 }, ?_, rfl⟩
    rw [hrows]
    exact List.mem_append_left _ (List.mem_map_of_mem hrow)
  · intro n k hn hlisted hhops h2 hk
    obtain ⟨k, rfl⟩ : ∃ j, k = j + 2 := ⟨k - 2, by omega⟩
    have hat := hplain.hops_iff.mp hhops
    have hnone : (a.firstRows.map a.rowName).count n = 0 := by
      refine List.count_eq_zero_of_not_mem fun hmem => ?_
      rw [firstRows, List.map_map] at hmem
      obtain ⟨row, hrow, hname⟩ := List.mem_map.mp hmem
      have := hseen hn hat (by omega) ⟨row, hrow, hname⟩
      omega
    have hin : k < m := by
      rcases hend with hend | hnil
      · omega
      · have := hreach hn hat hnil
        omega
    rw [hrows, List.map_append, List.count_append, hnone, count_allRows (k := k) hlisted,
      if_pos hin]
    intro i hi
    rw [hmet hn hat (by omega) hi]
    omega
  · intro n k row hn hlisted hhops hk hrow hname
    obtain ⟨k, rfl⟩ : ∃ j, k = j + 1 := ⟨k - 1, by obtain ⟨j, hj, -⟩ := hhops; omega⟩
    have hat := hplain.hops_iff.mp hhops
    rw [hrows] at hrow
    rcases mem_runRows hrow with ⟨hrowDepth, hfirst⟩ | ⟨i, hi, hrow⟩
    · rw [hrowDepth, hseen hn hat (by omega) (hname ▸ hfirst)]
    · have hmem := mem_of_hopRows hrow
      rw [hname, hmet hn hat (by omega) hi] at hmem
      rw [depth_of_mem_hopRows hrow, hmem]
  · intro hcl n k hn hlisted hhops
    obtain ⟨k, rfl⟩ : ∃ j, k = j + 1 := ⟨k - 1, by obtain ⟨j, hj, -⟩ := hhops; omega⟩
    have := hreach hn (hplain.hops_iff.mp hhops) (hclosed hcl)
    omega

theorem Exact.onTime (h : a.Exact a.runPattern) (hdepth : 1 < a.depth)
    (hwhole : a.runPattern.walkCut = false) (hplain : a.Plain) (hstored : a.Stored) :
    OnTime a.kinds a.first a.qualified (a.depth - 1) := by
  obtain ⟨m, hm, hrows, hend, -⟩ := runPattern_rows hdepth hwhole
  constructor
  · intro v k hv hat hk hmem
    rcases hplain.seen_cases hv hmem with hfront | ⟨-, row, hrow, rfl, -⟩
    · exact hat.unique (atDistance_zero.mpr hfront)
    · have hhops := hplain.hops_iff.mpr hat
      have hin : { row with depth := some 1 } ∈ a.runPattern.rows := by
        rw [hrows]
        exact List.mem_append_left _ (List.mem_map_of_mem hrow)
      have hone := h.depth hv (hplain.listed_of_hops hstored hhops) hhops (by omega) hin rfl
      have := Option.some.inj hone
      omega
  · intro v k i hv hat hk hi hmem
    have hhops := hplain.hops_iff.mpr hat
    have hlisted := hplain.listed_of_hops hstored hhops
    rcases Nat.lt_or_ge i m with him | him
    · obtain ⟨row, hrow, hname⟩ := exists_of_layer hlisted hmem
      have hin : row ∈ a.runPattern.rows := by
        rw [hrows]
        exact List.mem_append_right _ (List.mem_flatMap.mpr ⟨i, List.mem_range.mpr him, hrow⟩)
      have hrowDepth := h.depth hv hlisted hhops (by omega) hin hname
      rw [depth_of_mem_hopRows hrow] at hrowDepth
      have := Option.some.inj hrowDepth
      omega
    · have hnil := hend.resolve_left (by omega)
      rw [TwoKinds.layer_of_nil (TwoKinds.frontier_of_nil hnil him)] at hmem
      exact absurd hmem List.not_mem_nil

/-- Of a walk that is not cut, over direct callers that are nodes, the rows are exact if no value
use comes early; and where every caller is a node, only then. -/
theorem exact_iff_quiet (a : Ask) (hdepth : 1 < a.depth) (hwhole : a.runPattern.walkCut = false)
    (hplain : a.Plain) :
    (a.Quiet → a.Exact a.runPattern) ∧ (a.Stored → (a.Exact a.runPattern ↔ a.Quiet)) := by
  have hexact : a.Quiet → a.Exact a.runPattern := exact_of_quiet hdepth hwhole hplain
  refine ⟨hexact, fun hstored => ⟨fun h => ?_, hexact⟩⟩
  exact hplain.quiet_of_search hstored ((h.onTime hdepth hwhole hplain hstored).quiet hplain.begins)

theorem calls_iff_mem {u v : String} :
    a.Calls u v ↔ v ∈ (a.passEdges false [u]).map a.nextKey := by
  simp only [Calls, List.mem_map, mem_passEdges, List.mem_singleton, exists_eq_left, and_assoc]

end Ask

/-! ## A graph -/

def goNode (id : Nat) (name : String) : NodeRow where
  id := id
  qualifiedName := "a.go::" ++ name
  input := { kind := "Function", name := name, filePath := "a.go", language := "go" }
  fileHash := ""
  mtimeNs := 0

def goEdge (id : Nat) (kind source target : String) : GraphEdge where
  id := id
  kind := kind
  sourceQualified := "a.go::" ++ source
  targetQualified := "a.go::" ++ target
  filePath := "a.go"
  line := id
  extra := if kind = "REFERENCES" then .obj [("value_reference", .bool true)] else .obj []
  confidence := 1.0
  confidenceTier := .extracted

def goNodes : List NodeRow :=
  [goNode 1 "target", goNode 2 "direct", goNode 3 "both", goNode 4 "far"]

def goReads (edges : List GraphEdge) (h : (edges.map GraphEdge.id).Nodup) : GraphReads where
  keys := .rootless
  nodes :=
    { rows := goNodes
      seq := 4
      ids_nodup := by decide
      names_nodup := by decide
      ids_le := by decide }
  edges := edges
  scanned := goNodes
  edge_ids_nodup := h
  scanned_perm := .refl _

def goAsk (edges : List GraphEdge) (h : (edges.map GraphEdge.id).Nodup) : Ask where
  reads := goReads edges h
  bareNameEdges _ _ := []
  filesInDirectory _ := []
  importers := false
  target := "a.go::target"
  node := some (goNode 1 "target")
  depth := 5
  importKind := none

/-- A caller of the target, a caller of it, and one more. -/
def chainEdges : List GraphEdge :=
  [goEdge 1 "CALLS" "direct" "target", goEdge 2 "CALLS" "both" "direct",
    goEdge 3 "CALLS" "far" "both"]

/-- The one in the middle also stores the target as a value. -/
def storedEdges : List GraphEdge := chainEdges ++ [goEdge 4 "REFERENCES" "both" "target"]

def chainAsk : Ask := goAsk chainEdges (by decide)

def storedAsk : Ask := goAsk storedEdges (by decide)

theorem plain_of_maps {a : Ask} (himp : a.importers = false)
    (hcalls : ∀ edge ∈ a.firstEdges, (a.reads.namedNode edge.sourceQualified).map
      (fun node => sanitize node.qualifiedName) = some edge.sourceQualified)
    (huses : ∀ edge ∈ a.firstReferences, (a.reads.namedNode edge.sourceQualified).map
      (fun node => sanitize node.qualifiedName) = some edge.sourceQualified) : a.Plain where
  callers _ edge hedge := Option.map_eq_some_iff.mp (hcalls edge hedge)
  users _ edge hedge node hnode := by
    have hmap := huses edge hedge
    rw [hnode] at hmap
    exact Option.some.inj hmap
  file htrue := by rw [himp] at htrue; cases htrue

theorem chainAsk_quiet : chainAsk.Quiet := by
  intro _ edge hedge hfollows
  have hnone : ∀ edge ∈ chainAsk.reads.edges, chainAsk.follows true edge = false := by
    decide +kernel
  rw [hnone edge hedge] at hfollows
  cases hfollows

theorem exact_iff_quiet_chain : chainAsk.Quiet ∧ chainAsk.Exact chainAsk.runPattern :=
  ⟨chainAsk_quiet, (Ask.exact_iff_quiet chainAsk (by decide) (by decide +kernel)
    (plain_of_maps rfl (by decide +kernel) (by decide +kernel))).1 chainAsk_quiet⟩

theorem storedAsk_hops : storedAsk.Hops "a.go::far" 3 := by
  have hseed : ∀ v, (∃ edge ∈ storedAsk.firstEdges, storedAsk.nextKey edge = v) ↔
      v = "a.go::direct" := by
    intro v
    have hkeys : storedAsk.firstEdges.map storedAsk.nextKey = ["a.go::direct"] := by
      decide +kernel
    rw [← List.mem_map, hkeys, List.mem_singleton]
  have hcalls : storedAsk.Calls "a.go::direct" "a.go::both" ∧
      storedAsk.Calls "a.go::both" "a.go::far" ∧ ¬ storedAsk.Calls "a.go::direct" "a.go::far" := by
    simp only [Ask.calls_iff_mem]
    decide +kernel
  refine ⟨2, rfl, .step (.step (.seed ((hseed _).mpr rfl)) hcalls.1) hcalls.2.1,
    fun m hm hwalk => ?_⟩
  cases hwalk with
  | seed hmem => exact absurd ((hseed _).mp hmem) (by decide)
  | step hu hadj =>
      cases hu with
      | seed hmem => exact hcalls.2.2 ((hseed _).mp hmem ▸ hadj)
      | step _ _ => omega

/-- A caller that also stores the target hides its own callers, and the reply is closed. -/
theorem not_exact_storedAsk : 1 < storedAsk.depth ∧ storedAsk.runPattern.walkCut = false ∧
    storedAsk.runPattern.closed = true ∧ storedAsk.Hops "a.go::far" 3 ∧
      "a.go::far" ∉ storedAsk.runPattern.rows.map storedAsk.rowName ∧
        ¬ storedAsk.Exact storedAsk.runPattern := by
  have hnames : storedAsk.runPattern.rows.map storedAsk.rowName =
      ["a.go::direct", "a.go::both"] := by decide +kernel
  refine ⟨by decide, by decide +kernel, by decide +kernel, storedAsk_hops, ?_, fun hexact => ?_⟩
  · rw [hnames]
    decide
  · have hlisted : storedAsk.Listed "a.go::far" := .inr (by decide +kernel)
    have honce := hexact.once (by decide) hlisted storedAsk_hops (by decide) (by decide)
    rw [hnames] at honce
    revert honce
    decide

end CallerWalk

end Dagayn
