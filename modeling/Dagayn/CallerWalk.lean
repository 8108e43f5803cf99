import Dagayn.GraphReads
import Dagayn.HopSearch
import Dagayn.ImportCycles
import Dagayn.TestInference

/-!
# The callers and importers of a target

`run_pattern` for `callers_of` and `importers_of`, with the walk of `expand_transitive` behind
the first hop. The callers of a Go function include the places that use it as a value; these
are listed, and not walked past. One set of names keeps a walk from listing a name twice,
whichever kind of edge met it first.
-/

namespace Dagayn

namespace CallerWalk

open Bridges HopSearch Levels
open TestInference (sanitize)

/-! ## Rows -/

/-- A row of the reply. `node_row` and `importer_row` print its columns from the edge and, for
`callers_of`, the node behind it. -/
structure Row where
  edge : GraphEdge
  node : Option NodeRow
  relation : Option String := none
  depth : Option Nat := none
  via : Option String := none

def Row.qualifiedName (row : Row) : Option String :=
  row.node.map fun node => sanitize node.qualifiedName

def Row.file (row : Row) : Option String :=
  if row.node.isNone then some row.edge.filePath else none

def valueReference : String := "references"

def isValueReference (edge : GraphEdge) : Bool :=
  match edge.extra.get "value_reference" with
  | some (.bool true) => true
  | _ => false

structure EdgeDict where
  edge : GraphEdge
  bareName : Bool

def edgeDict (edge : GraphEdge) : EdgeDict := ⟨edge, false⟩

/-- `annotate_bare_name_edges`. -/
def annotateBare (edges : List EdgeDict) : List EdgeDict :=
  edges.map fun dict =>
    if hasScope (sanitize dict.edge.targetQualified) then dict else { dict with bareName := true }

structure Reachability where
  truncated : Bool
  maxDepth : Nat
  nodesVisited : Nat
  depthLimitReached : Bool

structure Found where
  rows : List Row := []
  edges : List EdgeDict := []
  unresolved : List String := []
  reachability : Option Reachability := none

namespace Found

def closed (found : Found) : Bool :=
  !found.rows.isEmpty && found.unresolved.isEmpty &&
    match found.reachability with
    | none => true
    | some reach => !reach.truncated && !reach.depthLimitReached

def walkCut (found : Found) : Bool :=
  match found.reachability with
  | none => false
  | some reach => reach.truncated

def unresolve (found : Found) (names : List String) : Found :=
  { found with unresolved := names.foldl (fun known name =>
      if name ∈ known then known else known ++ [name]) found.unresolved }

end Found

/-- `_edge_rows`, on the sources: the rows of the edges that lead from a node. -/
def edgeRows (g : GraphReads) (edges : List GraphEdge) : List Row :=
  edges.filterMap fun edge =>
    (g.namedNode edge.sourceQualified).map fun node => { edge := edge, node := some node }

/-- The names that `_edge_rows` finds no node for. -/
def edgeNames (g : GraphReads) (edges : List GraphEdge) : List String :=
  (edges.filter fun edge => (g.namedNode edge.sourceQualified).isNone).map
    GraphEdge.sourceQualified

def importerRow (edge : GraphEdge) : Row where
  edge := edge
  node := none

/-! ## The question -/

/-- The arguments of `run_pattern` for the two patterns, and what it reads. The edges that name
a target by its bare name and the files of a directory are whatever the store gives. -/
structure Ask where
  reads : GraphReads
  bareNameEdges : NodeRow → String → List GraphEdge
  filesInDirectory : String → List String
  importers : Bool
  target : String
  node : Option NodeRow
  depth : Nat
  importKind : Option String

namespace Ask

variable (a : Ask)

def qualified : String := (a.node.map NodeRow.qualifiedName).getD a.target

def kind : String := if a.importers then "IMPORTS_FROM" else "CALLS"

def nextKey (edge : GraphEdge) : String :=
  if a.importers then edge.filePath else edge.sourceQualified

def go : Bool := a.node.any fun node => node.input.language = "go"

def valueUses : Bool := !a.importers && a.go

def follows (valuePass : Bool) (edge : GraphEdge) : Bool :=
  (if valuePass then edge.kind = "REFERENCES" && isValueReference edge else edge.kind = a.kind) &&
    (!a.importers || ImportCycles.importKindMatches edge a.importKind)

/-- `get_edges_by_target`. -/
def intoName (name : String) : List GraphEdge :=
  a.reads.getEdgesByEndpoint GraphEdge.targetQualified name

/-! ## The first hop -/

/-- The files whose importers are listed: a directory is imported through its files. -/
def files : List String :=
  match a.node with
  | some node => [node.input.filePath]
  | none => a.filesInDirectory a.target

def directCalls : List GraphEdge := (a.intoName a.qualified).filter (·.kind = "CALLS")

def fallbackCalls : List GraphEdge :=
  match (edgeRows a.reads a.directCalls).isEmpty, a.node with
  | true, some node => a.bareNameEdges node "CALLS"
  | _, _ => []

def firstReferences : List GraphEdge :=
  if a.go then
    (a.intoName a.qualified).filter fun edge => edge.kind = "REFERENCES" && isValueReference edge
  else []

def callersFirst : Found :=
  let direct : Found :=
    { Found.unresolve {} (edgeNames a.reads a.directCalls) with
      rows := edgeRows a.reads a.directCalls
      edges := a.directCalls.map edgeDict }
  let called : Found :=
    { direct.unresolve (edgeNames a.reads a.fallbackCalls) with
      rows := direct.rows ++ edgeRows a.reads a.fallbackCalls
      edges :=
        if direct.rows.isEmpty && a.node.isSome then
          annotateBare (direct.edges ++ a.fallbackCalls.map edgeDict)
        else direct.edges }
  { called.unresolve (edgeNames a.reads a.firstReferences) with
    rows := called.rows ++ (edgeRows a.reads a.firstReferences).map fun row =>
      { row with relation := some valueReference }
    edges := called.edges ++ a.firstReferences.map edgeDict }

def firstImports : List GraphEdge := a.files.flatMap fun file =>
  (a.intoName file).filter fun edge =>
    edge.kind = "IMPORTS_FROM" && ImportCycles.importKindMatches edge a.importKind

def importersFirst : Found where
  rows := a.firstImports.map importerRow
  edges := a.firstImports.map edgeDict

/-! ## The walk -/

def transitiveRowLimit : Nat := 500

structure Walk where
  front : Front String
  hop : Nat
  added : Nat
  truncated : Bool
  found : Found

def passEdges (valuePass : Bool) (frontier : List String) : List GraphEdge :=
  frontier.flatMap fun via => (a.reads.incoming frontier via).filter (a.follows valuePass)

def valueEdges (frontier : List String) : List GraphEdge :=
  if a.valueUses then a.passEdges true frontier else []

/-- Calls first, so a node that both calls and uses one as a value is walked past. -/
def hopEdges (front : Front String) : List GraphEdge :=
  freshOf a.nextKey front.seen (a.passEdges false front.frontier ++ a.valueEdges front.frontier)

/-- The key by which a row is found again among the edges of its hop. -/
def rowKey (row : Row) : String :=
  ((row.qualifiedName.filter (· ≠ "")).or row.file).getD ""

def finishRow (layer : List GraphEdge) (hop : Nat) (row : Row) : Row :=
  let key := rowKey row
  { row with
    relation :=
      if key ∈ (layer.filter (·.kind ≠ a.kind)).map a.nextKey then some valueReference
      else row.relation
    depth := some hop
    via := some <| ((layer.reverse.find? (a.nextKey · = key)).map
      GraphEdge.targetQualified).getD "" }

def layerRows (layer : List GraphEdge) : List Row :=
  if a.importers then layer.map importerRow else edgeRows a.reads layer

def layerNames (layer : List GraphEdge) : List String :=
  if a.importers then [] else edgeNames a.reads layer

def walkHop (w : Walk) : Walk :=
  let met := a.hopEdges w.front
  let cut : Bool := w.added + met.length > transitiveRowLimit
  let layer := if cut then met.take (transitiveRowLimit - w.added) else met
  { front :=
      { seen := seenAfter a.nextKey w.front.seen
          (a.passEdges false w.front.frontier ++ a.valueEdges w.front.frontier)
        frontier := (layer.filter (·.kind = a.kind)).map a.nextKey }
    hop := w.hop + 1
    added := w.added + layer.length
    truncated := cut
    found :=
      { w.found.unresolve (a.layerNames layer) with
        rows := w.found.rows ++ (a.layerRows layer).map (a.finishRow layer w.hop)
        edges := w.found.edges ++ layer.map edgeDict } }

def goesOn (w : Walk) : Bool := !w.front.frontier.isEmpty && w.hop ≤ a.depth && !w.truncated

/-- The loop; `depth` hops are enough, as it begins at hop 2. -/
def walkFrom : Nat → Walk → Walk
  | 0, w => w
  | n + 1, w => if a.goesOn w then walkFrom n (a.walkHop w) else w

def firstKey (row : Row) : String × Bool :=
  ((if a.importers then row.file else row.qualifiedName).getD "",
    row.relation = some valueReference)

def firstFront (rows : List Row) : Front String where
  seen := (a.qualified :: (rows.map a.firstKey).map Prod.fst).dedup
  frontier := keepFirst id (((rows.map a.firstKey).filter fun key => !key.2).map Prod.fst)

def firstWalk (found : Found) : Walk where
  front := a.firstFront found.rows
  hop := 2
  added := 0
  truncated := false
  found := { found with rows := found.rows.map fun row => { row with depth := some 1 } }

def expandTransitive (found : Found) : Found :=
  let w := a.walkFrom a.depth (a.firstWalk found)
  { w.found with
    reachability := some
      { truncated := w.truncated
        maxDepth := a.depth
        nodesVisited := w.front.seen.length - 1
        depthLimitReached := !w.front.frontier.isEmpty && !w.truncated } }

def firstHop : Found := if a.importers then a.importersFirst else a.callersFirst

/-- `run_pattern`, for `callers_of` and `importers_of`. -/
def runPattern : Found :=
  if 1 < a.depth then a.expandTransitive a.firstHop else a.firstHop

end Ask

end CallerWalk

end Dagayn
