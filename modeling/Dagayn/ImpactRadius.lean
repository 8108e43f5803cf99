import Dagayn.Bridges
import Dagayn.Distinct
import Dagayn.Levels
import Dagayn.Sorted
import Mathlib

/-!
# The impact radius

`get_impact_radius`: from the nodes of the changed files a walk over the edges, both ways
and level by level, into the table `_impact_visited`; of its rows one page is looked up in
`nodes`, and the bridges at the seeds that the walk may not follow are reported as caveats.
The table is exact (`expandImpactLevels_exact`) by `Levels.expandLevels_exact`.
-/

namespace Dagayn

namespace Impact

open Bridges Levels

/-- The tables that the radius is computed from. -/
structure GraphRows where
  nodes : NodeTable
  edges : List StoredEdge

structure ImpactRadius where
  changedNodes : List NodeRow := []
  impactedNodes : List NodeRow := []
  impactedFiles : List String := []
  edges : List GraphEdge := []
  bridgeTransitions : List Json := []
  lowConfidenceBridges : List Json := []
  truncated : Bool := false
  totalImpacted : Nat := 0

/-! ## The temporary tables -/

/-- `INSERT OR IGNORE INTO _impact_seeds`. -/
def insertSeedRows : List String → List String → List String
  | seeds, [] => seeds
  | seeds, qn :: qns =>
      if qn ∈ seeds then insertSeedRows seeds qns else insertSeedRows (seeds ++ [qn]) qns

def insertImpactSeeds (seeds qns : List String) : List String :=
  (chunksOf 450 qns).foldl insertSeedRows seeds

/-- The rows that a level of `_impact_visited` leads to: targets of the edges from there, and
sources of the edges to there. -/
def levelRows (edges : List StoredEdge) (visited : List (String × Nat)) (depth : Nat) :
    List String :=
  let level := visited.filter (·.2 = depth)
  let followed := edges.filter reportableBridgeSql
  (level.flatMap fun v => (followed.filter (·.source = v.1)).map StoredEdge.target) ++
    level.flatMap fun v => (followed.filter (·.target = v.1)).map StoredEdge.source

def expandImpactLevels (edges : List StoredEdge) (seeds : List String) (maxDepth : Int) :
    List (String × Nat) :=
  expandLevels (levelRows edges) maxDepth.toNat 0 (seeds.map fun qn => (qn, 0))

/-! ## The page and its nodes -/

/-- `LIMIT ?`, where a negative number is no limit. -/
def limitRows {α : Type} (count : Int) (rows : List α) : List α :=
  if count < 0 then rows else rows.take count.toNat

/-- `ORDER BY depth, qn`. -/
def depthKey (row : String × Nat) : Nat ×ₗ String := toLex (row.2, row.1)

def batchGetNodes (nodes : NodeTable) (qualifiedNames : List String) : List NodeRow :=
  (chunksOf 450 qualifiedNames).flatMap fun chunk =>
    nodes.rows.filter (·.qualifiedName ∈ chunk)

/-- The key of `impacted_nodes.sort_by`. -/
def nodeKey (depthByQn : List (String × Nat)) (node : NodeRow) : Nat ×ₗ String :=
  toLex ((depthByQn.lookup node.qualifiedName).getD 0, node.qualifiedName)

def lowConfidenceBridgesNearSeeds (edges : List StoredEdge) (seeds : List String) : List Json :=
  let rows := (chunksOf 450 seeds).flatMap fun chunk =>
    edges.filter fun e => e.kind = "CROSS_ARTIFACT" ∧ (e.source ∈ chunk ∨ e.target ∈ chunk)
  (keepFirst (fun edge : GraphEdge => (edge.sourceQualified, edge.targetQualified))
    ((rows.map edgeFromRow).filter isLowConfidenceBridge)).map lowConfidenceBridgeMissingness

def impactOf (rows : GraphRows) (seedList : List String) (maxDepth maxNodes : Int) :
    ImpactRadius :=
  let seeds := insertImpactSeeds [] seedList
  let visited := expandImpactLevels rows.edges seeds maxDepth
  let reached := visited.filter (0 < ·.2)
  let totalImpacted := reached.length
  let depthByQn := limitRows maxNodes (sortBy depthKey reached)
  let impactedNodes := sortBy (nodeKey depthByQn)
    (batchGetNodes rows.nodes (depthByQn.map Prod.fst))
  let seeds := insertImpactSeeds seeds (impactedNodes.map NodeRow.qualifiedName)
  let edges := (rows.edges.filter fun e => e.source ∈ seeds ∧ e.target ∈ seeds).map edgeFromRow
  { changedNodes := batchGetNodes rows.nodes seedList
    impactedNodes := impactedNodes
    impactedFiles := keepFirst id (impactedNodes.map (·.input.filePath))
    edges := edges
    bridgeTransitions := (collectBridgeTransitions edges).1
    lowConfidenceBridges := lowConfidenceBridgesNearSeeds rows.edges seedList
    truncated := maxNodes < totalImpacted
    totalImpacted := totalImpacted }

/-! ## The walk -/

/-- Joined by an edge that the walk follows, in either direction. -/
def Linked (edges : List StoredEdge) (u v : String) : Prop :=
  ∃ e ∈ edges, reportableBridgeSql e = true ∧
    ((e.source = u ∧ e.target = v) ∨ (e.target = u ∧ e.source = v))

theorem mem_insertSeedRows {seeds qns : List String} {qn : String} :
    qn ∈ insertSeedRows seeds qns ↔ qn ∈ seeds ∨ qn ∈ qns := by
  induction qns generalizing seeds with
  | nil => simp [insertSeedRows]
  | cons w qns ih =>
      rw [insertSeedRows, List.mem_cons]
      by_cases hw : w ∈ seeds
      · rw [if_pos hw, ih]
        constructor
        · exact fun h => h.imp_right .inr
        · rintro (h | rfl | h)
          · exact .inl h
          · exact .inl hw
          · exact .inr h
      · rw [if_neg hw, ih, List.mem_append, List.mem_singleton, or_assoc]

theorem nodup_insertSeedRows {seeds qns : List String} (h : seeds.Nodup) :
    (insertSeedRows seeds qns).Nodup := by
  induction qns generalizing seeds with
  | nil => exact h
  | cons w qns ih =>
      rw [insertSeedRows]
      by_cases hw : w ∈ seeds
      · rw [if_pos hw]
        exact ih h
      · rw [if_neg hw]
        refine ih ?_
        rw [List.nodup_append_comm]
        exact List.nodup_cons.mpr ⟨hw, h⟩

theorem mem_insertImpactSeeds {seeds qns : List String} {qn : String} :
    qn ∈ insertImpactSeeds seeds qns ↔ qn ∈ seeds ∨ qn ∈ qns := by
  have hfold : ∀ (chunks : List (List String)) (seeds : List String),
      qn ∈ chunks.foldl insertSeedRows seeds ↔ qn ∈ seeds ∨ qn ∈ chunks.flatten := by
    intro chunks
    induction chunks with
    | nil => simp
    | cons chunk chunks ih =>
        intro seeds
        rw [List.foldl_cons, ih, mem_insertSeedRows, List.flatten_cons, List.mem_append, or_assoc]
  rw [insertImpactSeeds, hfold, flatten_chunksOf (by omega)]

theorem nodup_insertImpactSeeds {seeds qns : List String} (h : seeds.Nodup) :
    (insertImpactSeeds seeds qns).Nodup := by
  rw [insertImpactSeeds]
  generalize chunksOf 450 qns = chunks
  induction chunks generalizing seeds with
  | nil => exact h
  | cons chunk chunks ih => exact ih (nodup_insertSeedRows h)

theorem mem_levelRows {edges : List StoredEdge} {visited : List (String × Nat)} {depth : Nat}
    {v : String} :
    v ∈ levelRows edges visited depth ↔ ∃ u, (u, depth) ∈ visited ∧ Linked edges u v := by
  simp only [levelRows, List.mem_append, List.mem_flatMap, List.mem_filter, List.mem_map,
    decide_eq_true_eq]
  constructor
  · rintro (⟨⟨u, _⟩, ⟨hu, rfl⟩, e, ⟨⟨he, hfollow⟩, rfl⟩, rfl⟩ |
      ⟨⟨u, _⟩, ⟨hu, rfl⟩, e, ⟨⟨he, hfollow⟩, rfl⟩, rfl⟩)
    · exact ⟨e.source, hu, e, he, hfollow, .inl ⟨rfl, rfl⟩⟩
    · exact ⟨e.target, hu, e, he, hfollow, .inr ⟨rfl, rfl⟩⟩
  · rintro ⟨u, hu, e, he, hfollow, ⟨rfl, rfl⟩ | ⟨rfl, rfl⟩⟩
    · exact .inl ⟨(e.source, depth), ⟨hu, rfl⟩, e, ⟨⟨he, hfollow⟩, rfl⟩, rfl⟩
    · exact .inr ⟨(e.target, depth), ⟨hu, rfl⟩, e, ⟨⟨he, hfollow⟩, rfl⟩, rfl⟩

theorem expandImpactLevels_exact (edges : List StoredEdge) {seeds : List String}
    (hseeds : seeds.Nodup) (maxDepth : Int) :
    Exact (Linked edges) (· ∈ seeds) maxDepth.toNat (expandImpactLevels edges seeds maxDepth) := by
  have hstart : Exact (Linked edges) (· ∈ seeds) 0 (seeds.map fun qn => (qn, 0)) := by
    refine ⟨?_, fun v k => ?_⟩
    · rw [List.map_map]
      exact (List.map_id seeds).symm ▸ hseeds
    · rw [List.mem_map]
      constructor
      · rintro ⟨qn, hqn, heq⟩
        obtain ⟨rfl, rfl⟩ := Prod.mk.inj heq
        exact ⟨Nat.le_refl 0, atDistance_zero.mpr hqn⟩
      · rintro ⟨hk, hat⟩
        obtain rfl := Nat.le_zero.mp hk
        exact ⟨v, atDistance_zero.mp hat, rfl⟩
  have hnext : ∀ table k v, v ∈ levelRows edges table k ↔
      ∃ u, (u, k) ∈ table ∧ Linked edges u v := fun _ _ _ => mem_levelRows
  have h := expandLevels_exact hnext
    maxDepth.toNat 0 _ hstart
  rwa [Nat.zero_add] at h

/-! ## The nodes of a page -/

section Pages

variable {nodes : NodeTable} {qns : List String} {page : List (String × Nat)}

theorem mem_batchGetNodes {node : NodeRow} :
    node ∈ batchGetNodes nodes qns ↔ node ∈ nodes.rows ∧ node.qualifiedName ∈ qns := by
  have hchunk : node.qualifiedName ∈ qns ↔ ∃ chunk ∈ chunksOf 450 qns,
      node.qualifiedName ∈ chunk := (mem_chunksOf (by omega)).symm
  rw [hchunk, batchGetNodes]
  simp only [List.mem_flatMap, List.mem_filter, decide_eq_true_eq]
  constructor
  · rintro ⟨chunk, hc, hnode, hname⟩
    exact ⟨hnode, chunk, hc, hname⟩
  · rintro ⟨hnode, chunk, hc, hname⟩
    exact ⟨chunk, hc, hnode, hname⟩

theorem nodup_batchGetNodes (h : qns.Nodup) : (batchGetNodes nodes qns).Nodup := by
  have hrows : nodes.rows.Nodup := List.Nodup.of_map _ nodes.names_nodup
  rw [← flatten_chunksOf (n := 450) (by omega) qns, List.nodup_flatten] at h
  rw [batchGetNodes, List.nodup_flatMap]
  refine ⟨fun chunk _ => hrows.filter _, h.2.imp fun hdisjoint node hleft hright => ?_⟩
  simp only [List.mem_filter, decide_eq_true_eq] at hleft hright
  exact hdisjoint hleft.2 hright.2

theorem find_eq_some {qn : String} {node : NodeRow} :
    nodes.find qn = some node ↔ node ∈ nodes.rows ∧ node.qualifiedName = qn := by
  constructor
  · intro h
    exact ⟨List.mem_of_find?_eq_some h, by simpa using List.find?_some h⟩
  · rintro ⟨hnode, rfl⟩
    have hsome : (nodes.find node.qualifiedName).isSome = true :=
      List.find?_isSome.mpr ⟨node, hnode, by simp⟩
    obtain ⟨other, hother⟩ := Option.isSome_iff_exists.mp hsome
    have hmem := List.mem_of_find?_eq_some hother
    have hname : other.qualifiedName = node.qualifiedName := by
      simpa using List.find?_some hother
    rw [hother, List.inj_on_of_nodup_map nodes.names_nodup hmem hnode hname]

theorem lookup_of_mem (h : (page.map Prod.fst).Nodup) {qn : String} {depth : Nat}
    (hmem : (qn, depth) ∈ page) : page.lookup qn = some depth := by
  induction page with
  | nil => cases hmem
  | cons row page ih =>
      obtain ⟨hnot, hrest⟩ := List.nodup_cons.mp h
      rcases List.mem_cons.mp hmem with rfl | hmem
      · simp
      · have hne : qn ≠ row.1 := by
          rintro rfl
          exact hnot (List.mem_map.mpr ⟨_, hmem, rfl⟩)
        rw [List.lookup_cons, beq_false_of_ne hne]
        exact ih hrest hmem

def nodesOf (nodes : NodeTable) (page : List (String × Nat)) : List NodeRow :=
  page.filterMap fun row => nodes.find row.1

theorem mem_nodesOf {node : NodeRow} :
    node ∈ nodesOf nodes page ↔ node ∈ nodes.rows ∧ node.qualifiedName ∈ page.map Prod.fst := by
  simp only [nodesOf, List.mem_filterMap, find_eq_some, List.mem_map]
  constructor
  · rintro ⟨row, hrow, hnode, hname⟩
    exact ⟨hnode, row, hrow, hname.symm⟩
  · rintro ⟨hnode, row, hrow, hname⟩
    exact ⟨row, hrow, hnode, hname.symm⟩

variable (nodes) in
theorem nodesOf_pairwise (hnames : (page.map Prod.fst).Nodup)
    (hsorted : page.Pairwise fun a b => depthKey a < depthKey b) :
    (nodesOf nodes page).Pairwise fun a b => nodeKey page a < nodeKey page b := by
  have hkey : ∀ row ∈ page, ∀ node, nodes.find row.1 = some node →
      nodeKey page node = depthKey row := by
    intro row hrow node hnode
    rw [nodeKey, (find_eq_some.mp hnode).2, lookup_of_mem hnames hrow]
    rfl
  rw [nodesOf, List.pairwise_filterMap]
  refine hsorted.imp_of_mem fun {a b} ha hb hlt node hnode node' hnode' => ?_
  rw [hkey a ha node hnode, hkey b hb node' hnode']
  exact hlt

theorem sortBy_batchGetNodes (hnames : (page.map Prod.fst).Nodup)
    (hsorted : page.Pairwise fun a b => depthKey a < depthKey b) :
    sortBy (nodeKey page) (batchGetNodes nodes (page.map Prod.fst)) = nodesOf nodes page :=
  sortBy_eq (nodup_batchGetNodes hnames) (nodesOf_pairwise nodes hnames hsorted) fun node => by
    rw [mem_batchGetNodes, mem_nodesOf]

theorem limitRows_initial {α : Type} (count : Int) (rows : List α) :
    limitRows count rows <+: rows := by
  rw [limitRows]
  split
  · exact List.prefix_rfl
  · exact List.take_prefix _ _

theorem limitRows_eq {α : Type} {count : Int} {rows : List α} (h : (rows.length : Int) ≤ count) :
    limitRows count rows = rows := by
  rw [limitRows]
  split
  · rfl
  · exact List.take_of_length_le (by omega)

end Pages

/-! ## What is reported of the walk -/

section Spec

variable {rows : GraphRows} {seedList : List String} {maxDepth maxNodes : Int}

/-- A name that is no seed and within the depth. -/
def Reached (rows : GraphRows) (seedList : List String) (maxDepth : Int) (qn : String) : Prop :=
  qn ∉ seedList ∧ ∃ k ≤ maxDepth.toNat, AtDistance (Linked rows.edges) (· ∈ seedList) k qn

def reachedRows (rows : GraphRows) (seedList : List String) (maxDepth : Int) :
    List (String × Nat) :=
  sortBy depthKey ((expandImpactLevels rows.edges (insertImpactSeeds [] seedList) maxDepth).filter
    (0 < ·.2))

theorem visited_exact (rows : GraphRows) (seedList : List String) (maxDepth : Int) :
    Exact (Linked rows.edges) (· ∈ seedList) maxDepth.toNat
      (expandImpactLevels rows.edges (insertImpactSeeds [] seedList) maxDepth) := by
  have hseedsNodup : (insertImpactSeeds [] seedList).Nodup :=
    nodup_insertImpactSeeds List.nodup_nil
  have h := expandImpactLevels_exact rows.edges hseedsNodup maxDepth
  have hseeds : (· ∈ insertImpactSeeds [] seedList) = (· ∈ seedList) := by
    funext qn
    simp [mem_insertImpactSeeds]
  rwa [hseeds] at h

theorem mem_reachedRows {qn : String} {k : Nat} :
    (qn, k) ∈ reachedRows rows seedList maxDepth ↔
      0 < k ∧ k ≤ maxDepth.toNat ∧ AtDistance (Linked rows.edges) (· ∈ seedList) k qn := by
  rw [reachedRows, (sortBy_perm _ _).mem_iff, List.mem_filter,
    (visited_exact rows seedList maxDepth).mem_iff, decide_eq_true_eq, and_comm]

theorem nodup_reachedRows (rows : GraphRows) (seedList : List String) (maxDepth : Int) :
    ((reachedRows rows seedList maxDepth).map Prod.fst).Nodup := by
  rw [reachedRows, ((sortBy_perm _ _).map Prod.fst).nodup_iff]
  exact (visited_exact rows seedList maxDepth).nodup.sublist (List.filter_sublist.map _)

theorem mem_map_reachedRows {qn : String} :
    qn ∈ (reachedRows rows seedList maxDepth).map Prod.fst ↔ Reached rows seedList maxDepth qn := by
  rw [List.mem_map]
  constructor
  · rintro ⟨⟨_, k⟩, hmem, rfl⟩
    obtain ⟨hpos, hk, hat⟩ := mem_reachedRows.mp hmem
    refine ⟨fun hseed => ?_, k, hk, hat⟩
    have := hat.unique (atDistance_zero.mpr hseed)
    omega
  · rintro ⟨hnot, k, hk, hat⟩
    refine ⟨(qn, k), mem_reachedRows.mpr ⟨?_, hk, hat⟩, rfl⟩
    rcases Nat.eq_zero_or_pos k with rfl | hpos
    · exact absurd (atDistance_zero.mp hat) hnot
    · exact hpos

theorem reachedRows_pairwise (rows : GraphRows) (seedList : List String) (maxDepth : Int) :
    (reachedRows rows seedList maxDepth).Pairwise fun a b => depthKey a < depthKey b := by
  refine sortBy_strict ?_
  have hnodup := (visited_exact rows seedList maxDepth).nodup.sublist
    (List.filter_sublist (p := fun row : String × Nat => decide (0 < row.2)).map Prod.fst)
  refine List.Nodup.of_map (fun key : Nat ×ₗ String => (ofLex key).2) ?_
  rw [List.map_map]
  exact hnodup

theorem impactOf_impactedNodes :
    (impactOf rows seedList maxDepth maxNodes).impactedNodes =
      nodesOf rows.nodes (limitRows maxNodes (reachedRows rows seedList maxDepth)) := by
  have hsub := (limitRows_initial maxNodes (reachedRows rows seedList maxDepth)).sublist
  exact sortBy_batchGetNodes ((nodup_reachedRows rows seedList maxDepth).sublist (hsub.map _))
    ((reachedRows_pairwise rows seedList maxDepth).sublist hsub)

variable (maxNodes) in
theorem impactOf_totalImpacted :
    (impactOf rows seedList maxDepth maxNodes).totalImpacted =
      (reachedRows rows seedList maxDepth).length :=
  (sortBy_perm _ _).length_eq.symm

/-- The nodes of all names within the depth. -/
structure Lists (rows : GraphRows) (seedList : List String) (maxDepth : Int)
    (full : List NodeRow) : Prop where
  nodup : full.Nodup
  mem_iff : ∀ node, node ∈ full ↔
    node ∈ rows.nodes.rows ∧ Reached rows seedList maxDepth node.qualifiedName
  ordered : full.Pairwise fun a b => ∃ i j,
    AtDistance (Linked rows.edges) (· ∈ seedList) i a.qualifiedName ∧
      AtDistance (Linked rows.edges) (· ∈ seedList) j b.qualifiedName ∧
      (i < j ∨ (i = j ∧ a.qualifiedName < b.qualifiedName))

theorem lists_reached (rows : GraphRows) (seedList : List String) (maxDepth : Int) :
    Lists rows seedList maxDepth (nodesOf rows.nodes (reachedRows rows seedList maxDepth)) := by
  have hsorted := nodesOf_pairwise rows.nodes (nodup_reachedRows rows seedList maxDepth)
    (reachedRows_pairwise rows seedList maxDepth)
  refine ⟨hsorted.imp fun h => ?_, fun node => ?_, hsorted.imp_of_mem fun {a b} ha hb hlt => ?_⟩
  · rintro rfl
    exact lt_irrefl _ h
  · rw [mem_nodesOf, mem_map_reachedRows]
  · have hdepth : ∀ node ∈ nodesOf rows.nodes (reachedRows rows seedList maxDepth), ∃ k,
        AtDistance (Linked rows.edges) (· ∈ seedList) k node.qualifiedName ∧
          nodeKey (reachedRows rows seedList maxDepth) node = toLex (k, node.qualifiedName) := by
      intro node hnode
      obtain ⟨⟨_, k⟩, hrow, hname⟩ := List.mem_map.mp (mem_nodesOf.mp hnode).2
      obtain rfl := hname
      refine ⟨k, (mem_reachedRows.mp hrow).2.2, ?_⟩
      rw [nodeKey, lookup_of_mem (nodup_reachedRows rows seedList maxDepth) hrow]
      rfl
    obtain ⟨i, hi, hkey⟩ := hdepth a ha
    obtain ⟨j, hj, hkey'⟩ := hdepth b hb
    rw [hkey, hkey', Prod.Lex.toLex_lt_toLex] at hlt
    exact ⟨i, j, hi, hj, hlt⟩

/-- The table is exact, the nodes reported are a first part of those of all names within the
depth, all of them if nothing is truncated; what is counted are the names. -/
theorem impactOf_spec (rows : GraphRows) (seedList : List String) (maxDepth maxNodes : Int) :
    Exact (Linked rows.edges) (· ∈ seedList) maxDepth.toNat
        (expandImpactLevels rows.edges (insertImpactSeeds [] seedList) maxDepth) ∧
      ∃ (full : List NodeRow) (names : List String), Lists rows seedList maxDepth full ∧
        (impactOf rows seedList maxDepth maxNodes).impactedNodes <+: full ∧
        ((impactOf rows seedList maxDepth maxNodes).truncated = false →
          (impactOf rows seedList maxDepth maxNodes).impactedNodes = full) ∧
        (names.Nodup ∧ ∀ qn, qn ∈ names ↔ Reached rows seedList maxDepth qn) ∧
        (impactOf rows seedList maxDepth maxNodes).totalImpacted = names.length ∧
        ((impactOf rows seedList maxDepth maxNodes).totalImpacted = full.length ↔
          ∀ qn, Reached rows seedList maxDepth qn →
            ∃ node ∈ rows.nodes.rows, node.qualifiedName = qn) := by
  have hlists := lists_reached rows seedList maxDepth
  refine ⟨visited_exact rows seedList maxDepth, _,
    (reachedRows rows seedList maxDepth).map Prod.fst,
    hlists, ?_, fun htrunc => ?_, ⟨nodup_reachedRows rows seedList maxDepth,
      fun qn => mem_map_reachedRows⟩, ?_, ?_⟩
  · rw [impactOf_impactedNodes]
    exact (limitRows_initial _ _).filterMap _
  · have hle : ¬ maxNodes < ((reachedRows rows seedList maxDepth).length : Int) := by
      rw [← impactOf_totalImpacted maxNodes]
      exact of_decide_eq_false htrunc
    rw [impactOf_impactedNodes, limitRows_eq (Int.not_lt.mp hle)]
  · rw [impactOf_totalImpacted, List.length_map]
  · rw [impactOf_totalImpacted, eq_comm, nodesOf, List.filterMap_length_eq_length]
    constructor
    · intro hall qn hqn
      obtain ⟨row, hrow, rfl⟩ := List.mem_map.mp (mem_map_reachedRows.mpr hqn)
      obtain ⟨node, hnode⟩ := Option.isSome_iff_exists.mp (hall row hrow)
      exact ⟨node, find_eq_some.mp hnode⟩
    · intro hall row hrow
      obtain ⟨node, hnode⟩ :=
        hall row.1 (mem_map_reachedRows.mp (List.mem_map.mpr ⟨row, hrow, rfl⟩))
      exact Option.isSome_iff_exists.mpr ⟨node, find_eq_some.mpr hnode⟩

end Spec

/-- One function that calls a name without a node. -/
def callOutside : GraphRows where
  nodes :=
    { rows := [{ id := 1, qualifiedName := "a.py::f", fileHash := "", mtimeNs := 0,
                 input := { kind := "Function", name := "f", filePath := "a.py" } }]
      seq := 1
      ids_nodup := List.nodup_singleton _
      names_nodup := List.nodup_singleton _
      ids_le := by simp }
  edges := [{ id := 1, kind := "CALLS", source := "a.py::f", target := "getcwd", filePath := "a.py",
              line := 1, extra := none, confidence := none, tier := none }]

/-- The name is counted, though no node is impacted. -/
theorem totalImpacted_counts_names :
    ∃ full, Lists callOutside ["a.py::f"] 2 full ∧
      (impactOf callOutside ["a.py::f"] 2 50).totalImpacted ≠ full.length := by
  have htotal : (impactOf callOutside ["a.py::f"] 2 50).totalImpacted = 1 := by decide +kernel
  refine ⟨[], ⟨List.nodup_nil, fun node => ?_, List.Pairwise.nil⟩, by rw [htotal]; decide⟩
  constructor
  · exact fun h => absurd h List.not_mem_nil
  · rintro ⟨hnode, hnot, -⟩
    obtain rfl := List.mem_singleton.mp hnode
    exact absurd List.mem_cons_self hnot

/-! ## Bridges at the seeds -/

section Caveats

variable {rows : GraphRows} {seedList : List String} {maxDepth maxNodes : Int}

def caveatPair (caveat : Json) : Option (String × String) :=
  match caveat.get "bridge" with
  | none => none
  | some bridge =>
      match bridge.getStr "source", bridge.getStr "target" with
      | some source, some target => some (source, target)
      | _, _ => none

theorem caveatPair_missingness (edge : GraphEdge) :
    caveatPair (lowConfidenceBridgeMissingness edge) =
      some (edge.sourceQualified, edge.targetQualified) := rfl

/-- The walk goes to `other`, or a caveat tells of the edge. -/
def Covered (rows : GraphRows) (seedList : List String) (maxDepth maxNodes : Int)
    (e : StoredEdge) (other : String) : Prop :=
  other ∈ (expandImpactLevels rows.edges (insertImpactSeeds [] seedList) maxDepth).map Prod.fst ∨
    ∃ caveat ∈ (impactOf rows seedList maxDepth maxNodes).lowConfidenceBridges,
      caveatPair caveat = some (e.source, e.target)

def AllCovered (rows : GraphRows) (seedList : List String) (maxDepth maxNodes : Int) : Prop :=
  ∀ e ∈ rows.edges, e.kind = "CROSS_ARTIFACT" →
    (e.source ∈ seedList → Covered rows seedList maxDepth maxNodes e e.target) ∧
      (e.target ∈ seedList → Covered rows seedList maxDepth maxNodes e e.source)

theorem mem_visited_of_linked {seed other : String} (hseed : seed ∈ seedList)
    (hlink : Linked rows.edges seed other) (hdepth : 1 ≤ maxDepth) :
    other ∈ (expandImpactLevels rows.edges (insertImpactSeeds [] seedList) maxDepth).map
      Prod.fst := by
  have hwalk : Walk (Linked rows.edges) (· ∈ seedList) 1 other := .step (.seed hseed) hlink
  obtain ⟨k, hk, hat⟩ := hwalk.exists_atDistance
  refine List.mem_map.mpr ⟨(other, k), ?_, rfl⟩
  exact ((visited_exact rows seedList maxDepth).mem_iff other k).mpr ⟨by omega, hat⟩

theorem exists_caveat {e : StoredEdge} (he : e ∈ rows.edges) (hkind : e.kind = "CROSS_ARTIFACT")
    (hseed : e.source ∈ seedList ∨ e.target ∈ seedList)
    (hlow : isLowConfidenceBridge (edgeFromRow e) = true) :
    ∃ caveat ∈ (impactOf rows seedList maxDepth maxNodes).lowConfidenceBridges,
      caveatPair caveat = some (e.source, e.target) := by
  obtain ⟨chunk, hchunk, hend⟩ : ∃ chunk ∈ chunksOf 450 seedList,
      e.source ∈ chunk ∨ e.target ∈ chunk := by
    rcases hseed with h | h
    · obtain ⟨chunk, hchunk, hmem⟩ := (mem_chunksOf (n := 450) (by omega)).mpr h
      exact ⟨chunk, hchunk, .inl hmem⟩
    · obtain ⟨chunk, hchunk, hmem⟩ := (mem_chunksOf (n := 450) (by omega)).mpr h
      exact ⟨chunk, hchunk, .inr hmem⟩
  have hrow : e ∈ (chunksOf 450 seedList).flatMap fun chunk => rows.edges.filter fun e =>
      e.kind = "CROSS_ARTIFACT" ∧ (e.source ∈ chunk ∨ e.target ∈ chunk) :=
    List.mem_flatMap.mpr ⟨chunk, hchunk, List.mem_filter.mpr ⟨he, by simp [hkind, hend]⟩⟩
  -- of the edges between two names the first one is reported
  let ends := fun edge : GraphEdge => (edge.sourceQualified, edge.targetQualified)
  obtain ⟨edge, hedge, hsame⟩ : ∃ b ∈ keepFirst ends _, ends b = ends (edgeFromRow e) :=
    exists_mem_keepFirst (List.mem_filter.mpr ⟨List.mem_map_of_mem hrow, hlow⟩)
  refine ⟨_, List.mem_map_of_mem hedge, ?_⟩
  rw [caveatPair_missingness]
  exact congrArg some hsame

theorem allCovered_of_agree (hdepth : 1 ≤ maxDepth)
    (hagree : ∀ e ∈ rows.edges, e.kind = "CROSS_ARTIFACT" → Agree e) :
    AllCovered rows seedList maxDepth maxNodes := by
  intro e he hkind
  have hcross : isCrossArtifact (edgeFromRow e) = true := by
    rw [isCrossArtifact, edgeFromRow, hkind]
    rfl
  have hsql := (hagree e he hkind).1
  cases hreport : reportableBridgeSql e with
  | true =>
      exact ⟨fun h => .inl (mem_visited_of_linked h ⟨e, he, hreport, .inl ⟨rfl, rfl⟩⟩ hdepth),
        fun h => .inl (mem_visited_of_linked h ⟨e, he, hreport, .inr ⟨rfl, rfl⟩⟩ hdepth)⟩
  | false =>
      have hlow : isLowConfidenceBridge (edgeFromRow e) = true := by
        rw [isLowConfidenceBridge_eq_not hcross, ← hsql, hreport]
        rfl
      exact ⟨fun h => .inr (exists_caveat he hkind (.inl h) hlow),
        fun h => .inr (exists_caveat he hkind (.inr h) hlow)⟩

/-- No bridge at a seed disappears and the predicates agree on all bridges exactly when each
stored bridge is consistent. On an edge that is no bridge they are not meant to agree. -/
theorem bridges_consistent_iff (rows : GraphRows) (seedList : List String)
    (maxDepth maxNodes : Int) (hdepth : 1 ≤ maxDepth) :
    ((AllCovered rows seedList maxDepth maxNodes ∧
        ∀ e ∈ rows.edges, e.kind = "CROSS_ARTIFACT" → Agree e) ↔
      ∀ e ∈ rows.edges, e.kind = "CROSS_ARTIFACT" → Consistent e) ∧
    ((AllCovered rows seedList maxDepth maxNodes ∧ ∀ e ∈ rows.edges, Agree e) ↔
      ∀ e ∈ rows.edges, e.kind = "CROSS_ARTIFACT" ∧ Consistent e) := by
  have hcovered : (∀ e ∈ rows.edges, e.kind = "CROSS_ARTIFACT" → Consistent e) →
      AllCovered rows seedList maxDepth maxNodes := fun hall =>
    allCovered_of_agree hdepth fun e he hkind => (agree_iff hkind).mpr (hall e he hkind)
  constructor
  · constructor
    · rintro ⟨-, hagree⟩ e he hkind
      exact (agree_iff hkind).mp (hagree e he hkind)
    · exact fun hall =>
        ⟨hcovered hall, fun e he hkind => (agree_iff hkind).mpr (hall e he hkind)⟩
  · constructor
    · rintro ⟨-, hagree⟩ e he
      have hkind : e.kind = "CROSS_ARTIFACT" := by
        by_contra hother
        exact not_agree_of_kind hother (hagree e he)
      exact ⟨hkind, (agree_iff hkind).mp (hagree e he)⟩
    · exact fun hall => ⟨hcovered fun e he _ => (hall e he).2, fun e he =>
        (agree_iff (hall e he).1).mpr (hall e he).2⟩

/-- A reportable bridge between two names that are resolved. -/
theorem bridges_consistent_readme :
    AllCovered
      { nodes := callOutside.nodes
        edges := [{ id := 1, kind := "CROSS_ARTIFACT", source := "README.md",
                    target := "a.py::f", filePath := "README.md", line := 3, extra := none,
                    confidence := none, tier := some "HIGH" }] } ["a.py::f"] 1 50 :=
  ((bridges_consistent_iff _ _ _ _ (by decide)).1.mpr (by decide +kernel)).1

/-- The edge of an entry point that is not resolved, as the store writes it: its tier is
kept. -/
def unresolvedSource : EdgeInput where
  kind := "CROSS_ARTIFACT"
  source := "<unresolved:cli>"
  target := "a.py::f"
  filePath := "a.py"
  extra := .obj [("confidence_tier", .str "HIGH")]

/-- The walk does not follow the edge, and no caveat tells of it. -/
theorem unresolvedSource_lost :
    ¬ AllCovered
      { nodes := callOutside.nodes
        edges := [columns (unresolvedSource.row unresolvedSource.extra)] } ["a.py::f"] 1 50 := by
  intro h
  rcases (h _ List.mem_cons_self rfl).2 List.mem_cons_self with hvisited | ⟨caveat, hmem, -⟩
  · revert hvisited
    decide +kernel
  · have hnone : (impactOf { nodes := callOutside.nodes, edges :=
        [columns (unresolvedSource.row unresolvedSource.extra)] } ["a.py::f"] 1
        50).lowConfidenceBridges.length = 0 := by
      decide +kernel
    rw [List.length_eq_zero_iff.mp hnone] at hmem
    cases hmem

end Caveats

end Impact

end Dagayn
