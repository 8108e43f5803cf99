import Dagayn.CommunityNames
import Dagayn.Distinct
import Dagayn.Grouping
import Mathlib

/-!
# Detecting communities

`detect_communities_from`: Leiden clusters, or directories where Leiden finds none; the
communities that hold more than a quarter of the nodes are clustered again among themselves.
Leiden is a parameter, from a graph to a community number for each vertex. The parts of a
cluster go through hash sets and hash maps, whose orders are a parameter too.
-/

namespace Dagayn

namespace Communities

open Grouping

structure DetectedCommunity where
  name : String
  level : Int
  size : Int
  cohesion : Float
  dominantLanguage : String
  description : String
  members : List String

/-! ## Cohesion -/

/-- `qn_to_idx` of `compute_cohesion_batch`. -/
def setIndex (o : HashOrders) (place : List Nat) (sets : List (List String)) : Dict String Nat :=
  sets.zipIdx.foldl (fun index set =>
    (o.order (set.2 :: place) set.1).foldl (fun index qn => index.insert qn set.2) index) ∅

/-- The counters of the sets; an edge counts for the set it is within, or for the one or two it
leaves. -/
def countEdge (index : Dict String Nat) (counts : (Nat → Nat) × (Nat → Nat)) (e : EdgeRow) :
    (Nat → Nat) × (Nat → Nat) :=
  let bump (f : Nat → Nat) (i : Nat) : Nat → Nat := Function.update f i (f i + 1)
  if e.kind = "CALLS" && !hasScope e.target then counts
  else
    match index.lookup e.source, index.lookup e.target with
    | some left, some right =>
        if left = right then (bump counts.1 left, counts.2)
        else (counts.1, bump (bump counts.2 left) right)
    | some left, none => (counts.1, bump counts.2 left)
    | none, some right => (counts.1, bump counts.2 right)
    | none, none => counts

def cohesionRatio (inside outside : Nat) : Float :=
  let total := inside + outside
  if 0 < total then Float.ofNat inside / Float.ofNat total else 0.0

def computeCohesionBatch (o : HashOrders) (place : List Nat) (sets : List (List String))
    (edges : List EdgeRow) : List Float :=
  let counts := edges.foldl (countEdge (setIndex o place sets)) (fun _ => 0, fun _ => 0)
  (List.range sets.length).map fun i => cohesionRatio (counts.1 i) (counts.2 i)

def roundCohesion (value : Float) : Float := (value * 10000.0).round / 10000.0

/-! ## Groups of nodes -/

def nameSet (group : List NodeRow) : List String := (group.map NodeRow.qualifiedName).dedup

/-- The communities of some groups of nodes: `pending`, with the cohesions. -/
def communitiesOf (o : HashOrders) (place : List Nat) (edges : List EdgeRow)
    (pending : List (String × List NodeRow)) : List DetectedCommunity :=
  let cohesions := computeCohesionBatch o (0 :: place) (pending.map fun p => nameSet p.2) edges
  ((pending.zip cohesions).zipIdx).map fun p =>
    { name := generateCommunityName o (p.2 :: 1 :: place) p.1.1.2
      level := 0
      size := p.1.1.2.length
      cohesion := roundCohesion p.1.2
      dominantLanguage := dominantLanguage o (p.2 :: 2 :: place) p.1.1.2
      description := p.1.1.1
      members := o.order (p.2 :: 3 :: place) (nameSet p.1.1.2) }

/-! ## By directory -/

def dirParts (n : NodeRow) : List String :=
  ((pathSegments n.input.filePath).filter (· ≠ "")).dropLast

/-- `prefix_len`: how many directories all files share. -/
def sharedDirs (dirs : List (List String)) : Nat :=
  match dirs with
  | [] => 0
  | first :: _ =>
      let shortest := ((dirs.map List.length).min?).getD 0
      ((List.range shortest).takeWhile fun i => dirs.all fun parts => parts[i]? = first[i]?).length

def groupKey (shared depth : Nat) (n : NodeRow) : String :=
  match (dirParts n).drop shared with
  | [] => ((stemOf ((pathSegments n.input.filePath).getLastD "")).getD "root")
  | remainder => "/".intercalate (remainder.take depth)

def groupAtDepth (nodes : List NodeRow) (shared depth : Nat) : Dict String (List NodeRow) :=
  multimap (nodes.map fun n => (groupKey shared depth n, n))

/-- The loop over the depths: the first with ten groups of the size, or else the last. -/
def bestGroups (group : Nat → Dict String (List NodeRow)) (minSize : Nat) :
    List Nat → Dict String (List NodeRow) → Dict String (List NodeRow)
  | [], best => best
  | depth :: depths, _ =>
      let groups := group depth
      if 10 ≤ groups.keys.countP (fun key => minSize ≤ (groups.getD key []).length) then groups
      else bestGroups group minSize depths groups

/-- `best_groups`. -/
def fileGroups (nodes : List NodeRow) (minSize : Nat) : Dict String (List NodeRow) :=
  let dirs := nodes.map dirParts
  let shared := sharedDirs dirs
  let maxDepth := ((dirs.map fun parts => parts.length - shared).max?).getD 0
  bestGroups (groupAtDepth nodes shared) minSize ((List.range (max maxDepth 1)).map (· + 1))
    (groupAtDepth nodes shared 1)

/-- `pending` of `detect_file_based`. -/
def filePending (o : HashOrders) (place : List Nat) (nodes : List NodeRow) (minSize : Nat) :
    List (String × List NodeRow) :=
  let groups := fileGroups nodes minSize
  ((o.order place groups.keys).map fun key =>
    ("Directory-based community: " ++ key, groups.getD key [])).filter fun p => minSize ≤ p.2.length

def detectFileBased (o : HashOrders) (place : List Nat) (nodes : List NodeRow)
    (edges : List EdgeRow) (minSize : Nat) : List DetectedCommunity :=
  communitiesOf o place edges (filePending o place nodes minSize)

/-! ## Leiden -/

structure LeidenRun where
  vertices : Nat
  edges : List (Nat × Nat × Float)
  resolution : Float
  maxIterations : Option Nat

/-- `from_petgraph` and `Leiden::run`: the community of each vertex, or an error. -/
abbrev LeidenLibrary := LeidenRun → Option (Nat → Nat)

def leidenResolution (nodeCount : Nat) : Float :=
  let nNodes := Float.ofNat (max nodeCount 1)
  max (1.0 / (max nNodes 10.0).log10) 0.05

def edgeWeights : List (String × Float) :=
  [("CALLS", 1.0), ("IMPORTS_FROM", 0.5), ("INHERITS", 0.8), ("IMPLEMENTS", 0.7),
    ("CONTAINS", 0.3), ("TESTED_BY", 0.4), ("DEPENDS_ON", 0.6), ("CROSS_ARTIFACT", 0.6)]

def edgeWeight (e : EdgeRow) : Float := (edgeWeights.lookup e.kind).getD 0.5

/-- `qn_to_idx`: the last node of a name counts. -/
def nodeIndex (nodes : List NodeRow) : Dict String Nat :=
  nodes.zipIdx.foldl (fun index n => index.insert n.1.qualifiedName n.2) ∅

/-- The two vertices of an edge that is no loop. -/
def edgeEnds (index : Dict String Nat) (e : EdgeRow) : Option (Nat × Nat) :=
  match index.lookup e.source, index.lookup e.target with
  | some source, some target => if source = target then none else some (source, target)
  | _, _ => none

/-- The edges of the graph of `detect_leiden`: one for each pair, with the first one's weight. -/
def graphEdges (index : Dict String Nat) (edges : List EdgeRow) : List (Nat × Nat × Float) :=
  (keepFirst (fun e => (e.1, e.2.1)) (edges.filterMap fun e =>
    (edgeEnds index e).map fun ends =>
      (min ends.1 ends.2, max ends.1 ends.2, edgeWeight e)))

/-- Those of `detect_leiden_subgraph`: one for each edge. -/
def subgraphEdges (index : Dict String Nat) (edges : List EdgeRow) : List (Nat × Nat × Float) :=
  edges.filterMap fun e => (edgeEnds index e).map fun ends => (ends.1, ends.2, edgeWeight e)

/-- `clusters.into_values()`, in the order of the community numbers. -/
def clustersOf (communityOf : Nat → Nat) (count : Nat) : List (List Nat) :=
  let clusters := multimap ((List.range count).map fun idx => (communityOf idx, idx))
  (clusters.keys.insertionSort (· ≤ ·)).map fun id => clusters.getD id []

def clusterMembers (nodes : List NodeRow) (cluster : List Nat) : List NodeRow :=
  cluster.filterMap fun idx => nodes[idx]?

/-- The clusters of `detect_leiden` before those too small are left out, if Leiden is run and
returns. -/
def leidenClusters (leiden : LeidenLibrary) (nodes : List NodeRow) (edges : List EdgeRow) :
    Option (List (List NodeRow)) :=
  let graph := graphEdges (nodeIndex nodes) edges
  if graph.isEmpty then none
  else
    (leiden { vertices := nodes.length, edges := graph, resolution := leidenResolution nodes.length,
              maxIterations := some 2 }).map fun communityOf =>
      (clustersOf communityOf nodes.length).map (clusterMembers nodes)

/-- `pending` of `detect_leiden`. -/
def leidenPending (clusters : List (List NodeRow)) (minSize : Nat) : List (String × List NodeRow) :=
  (clusters.filter fun members => minSize ≤ members.length).map fun members =>
    ("Community of " ++ toString members.length ++ " nodes", members)

def detectLeiden (o : HashOrders) (place : List Nat) (leiden : LeidenLibrary)
    (nodes : List NodeRow) (edges : List EdgeRow) (minSize : Nat) : List DetectedCommunity :=
  if nodes.isEmpty then []
  else
    match leidenClusters leiden nodes edges with
    | some clusters => communitiesOf o (0 :: place) edges (leidenPending clusters minSize)
    | none => detectFileBased o (1 :: place) nodes edges minSize

/-! ## Splitting -/

def detectLeidenSubgraph (o : HashOrders) (place : List Nat) (leiden : LeidenLibrary)
    (nodes : List NodeRow) (edges : List EdgeRow) (resolution : Float) : List DetectedCommunity :=
  let graph := subgraphEdges (nodeIndex nodes) edges
  if nodes.isEmpty || graph.isEmpty then []
  else
    match leiden { vertices := nodes.length, edges := graph, resolution := resolution,
                   maxIterations := none } with
    | none => []
    | some communityOf =>
        ((((clustersOf communityOf nodes.length).map (clusterMembers nodes)).filter
          fun members => !members.isEmpty).zipIdx).map fun p =>
            { name := generateCommunityName o (p.2 :: 0 :: place) p.1
              level := 0
              size := p.1.length
              cohesion := 0.0
              dominantLanguage := dominantLanguage o (p.2 :: 1 :: place) p.1
              description := "Split from " ++ generateCommunityName o (p.2 :: 2 :: place) p.1
              members := p.1.map NodeRow.qualifiedName }

/-- `as i64` of a double. -/
def truncated (x : Float) : Int := x.toInt64.toInt

/-- `threshold`: the size above which a community is split. -/
def splitThreshold (communities : List DetectedCommunity) (thresholdPct : Float)
    (minSplitSize : Nat) : Int :=
  let total := (communities.map DetectedCommunity.size).sum
  max (truncated (Float.ofInt total * thresholdPct)) minSplitSize

/-- `qn_to_oversized`: the oversized community a name is a member of. -/
def oversizedIndex (communities : List DetectedCommunity) (threshold : Int) : Dict String Nat :=
  communities.zipIdx.foldl (fun index c =>
    if threshold < c.1.size then c.1.members.foldl (fun index qn => index.insert qn c.2) index
    else index) ∅

def edgesByCommunity (oversized : Dict String Nat) (edges : List EdgeRow) :
    Dict Nat (List EdgeRow) :=
  multimap (edges.filterMap fun e =>
    match oversized.lookup e.source, oversized.lookup e.target with
    | some source, some target => if source = target then some (source, e) else none
    | _, _ => none)

def nodesByQn (nodes : List NodeRow) : Dict String NodeRow :=
  nodes.foldl (fun byQn n => byQn.insert n.qualifiedName n) ∅

def memberNodes (byQn : Dict String NodeRow) (members : List String) : List NodeRow :=
  (keepFirst id members).filterMap byQn.lookup

/-- The parts of a community, numbered from `nextId`. -/
def numberParts (community : DetectedCommunity) (nextId : Nat) (parts : List DetectedCommunity) :
    List DetectedCommunity :=
  (parts.zipIdx nextId).map fun p =>
    { p.1 with level := community.level + 1, name := community.name ++ "-sub" ++ toString p.2 }

/-- What becomes of one community: itself, or its parts. -/
def splitCommunity (o : HashOrders) (place : List Nat) (leiden : LeidenLibrary)
    (byQn : Dict String NodeRow) (byCommunity : Dict Nat (List EdgeRow)) (threshold : Int)
    (minSplitSize nextId : Nat) (community : DetectedCommunity) (idx : Nat) :
    List DetectedCommunity × Nat :=
  if community.size ≤ threshold then ([community], nextId)
  else
    let members := memberNodes byQn community.members
    if members.length < minSplitSize then ([community], nextId)
    else
      let parts := detectLeidenSubgraph o (idx :: place) leiden members
        (byCommunity.getD idx []) 0.5
      if parts.length ≤ 1 then ([community], nextId)
      else (numberParts community nextId parts, nextId + parts.length)

def backfillSplitCohesion (o : HashOrders) (place : List Nat) (communities : List DetectedCommunity)
    (edges : List EdgeRow) : List DetectedCommunity :=
  (communities.zip (computeCohesionBatch o place (communities.map fun c => c.members.dedup)
    edges)).map fun p =>
      if p.1.cohesion == 0.0 then { p.1 with cohesion := roundCohesion p.2 } else p.1

/-- The loop of `split_oversized`, with the number of the next part. -/
def splitLoop (split : Nat → DetectedCommunity → Nat → List DetectedCommunity × Nat)
    (acc : List DetectedCommunity × Nat) (c : DetectedCommunity × Nat) :
    List DetectedCommunity × Nat :=
  let parts := split acc.2 c.1 c.2
  (acc.1 ++ parts.1, parts.2)

def splitOversized (o : HashOrders) (place : List Nat) (leiden : LeidenLibrary)
    (communities : List DetectedCommunity) (nodes : List NodeRow) (edges : List EdgeRow)
    (thresholdPct : Float) (minSplitSize : Nat) : List DetectedCommunity :=
  if (communities.map DetectedCommunity.size).sum = 0 then communities
  else
    let threshold := splitThreshold communities thresholdPct minSplitSize
    let byCommunity := edgesByCommunity (oversizedIndex communities threshold) edges
    let split := splitCommunity o (0 :: place) leiden (nodesByQn nodes) byCommunity threshold
      minSplitSize
    backfillSplitCohesion o (1 :: place) (communities.zipIdx.foldl (splitLoop split) ([], 1)).1
      edges

/-! ## The whole -/

def sortMembers (c : DetectedCommunity) : DetectedCommunity :=
  { c with members := c.members.insertionSort (· ≤ ·) }

def firstMember (c : DetectedCommunity) : WithBot String := c.members.head?

def sortCommunities (communities : List DetectedCommunity) : List DetectedCommunity :=
  sortBy firstMember (communities.map sortMembers)

/-- What `detect_communities_from` splits: the clusters, or the directories. -/
def detectUnsplit (o : HashOrders) (leiden : LeidenLibrary) (nodes : List NodeRow)
    (edges : List EdgeRow) (minSize : Nat) : List DetectedCommunity :=
  let results := detectLeiden o [0] leiden nodes edges minSize
  sortCommunities (if results.isEmpty then detectFileBased o [1] nodes edges minSize else results)

def detectCommunitiesFrom (o : HashOrders) (leiden : LeidenLibrary) (nodes : List NodeRow)
    (edges : List EdgeRow) (minSize : Int) : List DetectedCommunity :=
  let minSize := (max minSize 1).toNat
  sortCommunities
    (splitOversized o [2] leiden (detectUnsplit o leiden nodes edges minSize) nodes edges 0.25 10)

end Communities

end Dagayn
