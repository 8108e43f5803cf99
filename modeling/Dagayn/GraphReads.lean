import Dagayn.Bridges
import Dagayn.Distinct
import Dagayn.PathKeys
import Dagayn.Sorted
import Mathlib

/-!
# Reading the graph

The queries of the graph store that look nodes and edges up by name. A name is looked up as
it is written and by its normalised key. `get_edges_by_endpoints` asks in chunks of sorted
keys and files each edge under every name that means its target: `mem_incoming` says which
edges those are, without the chunks.
-/

namespace Dagayn

open Bridges

/-- The tables, in the orders in which SQL returns their rows; a scan over several kinds of
nodes has an order of its own. -/
structure GraphReads where
  keys : PathKeys
  nodes : NodeTable
  edges : List GraphEdge
  scanned : List NodeRow
  edge_ids_nodup : (edges.map GraphEdge.id).Nodup
  scanned_perm : scanned.Perm nodes.rows

namespace GraphReads

variable (g : GraphReads)

def getNode (qualifiedName : String) : Option NodeRow :=
  (g.keys.qualifiedKeyCandidates qualifiedName).findSome? g.nodes.find

/-- What `get_nodes_by_qualified_names` files under one of the names. -/
def namedNode (qualifiedName : String) : Option NodeRow :=
  (g.nodes.find qualifiedName).or (g.nodes.find (g.keys.normalizeQualifiedKey qualifiedName))

/-- `get_nodes_by_kind` without a file pattern. -/
def getNodesByKind (kinds : List String) : List NodeRow :=
  g.scanned.filter (·.input.kind ∈ kinds)

def getEdgesByKind (kind : String) : List GraphEdge := g.edges.filter (·.kind = kind)

/-- `get_edges_by_endpoint` on one of the two columns. -/
def getEdgesByEndpoint (column : GraphEdge → String) (qualifiedName : String) : List GraphEdge :=
  keepFirst GraphEdge.id <| (g.keys.qualifiedKeyCandidates qualifiedName).flatMap fun key =>
    g.edges.filter (column · = key)

def getEdgesBySource : String → List GraphEdge := g.getEdgesByEndpoint GraphEdge.sourceQualified

/-- The rows `get_edges_by_endpoints` goes through, chunk by chunk. -/
def endpointRows (qualifiedNames : List String) : List GraphEdge :=
  let keys := sortBy id
    (qualifiedNames.flatMap fun qn => [qn, g.keys.normalizeQualifiedKey qn]).dedup
  (chunksOf 225 keys).flatMap fun chunk =>
    g.edges.filter fun e => e.sourceQualified ∈ chunk || e.targetQualified ∈ chunk

/-- An edge with the end `key` is filed under `qn`: where the key is a normalised name, under
the names it is the key of, and under its own name otherwise. -/
def filedUnder (qualifiedNames : List String) (key qn : String) : Bool :=
  if qualifiedNames.any (g.keys.normalizeQualifiedKey · = key) then
    g.keys.normalizeQualifiedKey qn = key
  else qn = key

/-- The second map of `get_edges_by_endpoints`, at one of the names. -/
def incoming (qualifiedNames : List String) (qn : String) : List GraphEdge :=
  keepFirst GraphEdge.id
    ((g.endpointRows qualifiedNames).filter fun e =>
      g.filedUnder qualifiedNames e.targetQualified qn)

variable {g} {qualifiedNames : List String} {qn : String} {e : GraphEdge}

theorem mem_endpointRows (h : e.targetQualified ∈ qualifiedNames ∨
    ∃ name ∈ qualifiedNames, g.keys.normalizeQualifiedKey name = e.targetQualified)
    (he : e ∈ g.edges) : e ∈ g.endpointRows qualifiedNames := by
  have hkey : e.targetQualified ∈ sortBy id
      (qualifiedNames.flatMap fun qn => [qn, g.keys.normalizeQualifiedKey qn]).dedup := by
    rw [(sortBy_perm _ _).mem_iff, List.mem_dedup, List.mem_flatMap]
    rcases h with h | ⟨name, hname, heq⟩
    · exact ⟨_, h, List.mem_cons_self⟩
    · exact ⟨name, hname, by rw [heq]; simp⟩
  obtain ⟨chunk, hchunk, hmem⟩ := (mem_chunksOf (n := 225) (by omega)).mpr hkey
  refine List.mem_flatMap.mpr ⟨chunk, hchunk, List.mem_filter.mpr ⟨he, ?_⟩⟩
  simp [hmem]

theorem mem_incoming (hqn : qn ∈ qualifiedNames) :
    e ∈ g.incoming qualifiedNames qn ↔
      e ∈ g.edges ∧ g.filedUnder qualifiedNames e.targetQualified qn = true := by
  have hinj : ∀ a ∈ g.edges, ∀ b ∈ g.edges, a.id = b.id → a = b := fun a ha b hb =>
    List.inj_on_of_nodup_map g.edge_ids_nodup ha hb
  have hrows : ∀ a ∈ g.endpointRows qualifiedNames, a ∈ g.edges := by
    intro a ha
    obtain ⟨chunk, -, hmem⟩ := List.mem_flatMap.mp ha
    exact (List.mem_filter.mp hmem).1
  rw [incoming, mem_keepFirst_of_inj fun a ha b hb =>
    hinj a (hrows a (List.mem_filter.mp ha).1) b (hrows b (List.mem_filter.mp hb).1),
    List.mem_filter]
  constructor
  · rintro ⟨hrow, hfiled⟩
    exact ⟨hrows e hrow, hfiled⟩
  · rintro ⟨he, hfiled⟩
    refine ⟨mem_endpointRows ?_ he, hfiled⟩
    rw [filedUnder] at hfiled
    split at hfiled
    · exact .inr ⟨qn, hqn, of_decide_eq_true hfiled⟩
    · exact .inl (of_decide_eq_true hfiled ▸ hqn)

theorem namedNode_eq (qualifiedName : String) :
    g.namedNode qualifiedName = g.getNode qualifiedName := by
  unfold namedNode getNode PathKeys.qualifiedKeyCandidates
  dsimp only
  split
  · rename_i heq
    rw [heq]
    cases h : g.nodes.find qualifiedName <;> simp [List.findSome?, h]
  · cases h : g.nodes.find qualifiedName <;>
      cases h' : g.nodes.find (g.keys.normalizeQualifiedKey qualifiedName) <;>
        simp [List.findSome?, h, h']

theorem mem_of_getNode {n : NodeRow} (h : g.getNode qn = some n) : n ∈ g.nodes.rows := by
  obtain ⟨key, -, hkey⟩ := List.exists_of_findSome?_eq_some h
  exact List.mem_of_find?_eq_some hkey

theorem find_of_getNode {n : NodeRow} (h : g.getNode qn = some n) :
    g.nodes.find n.qualifiedName = some n := by
  obtain ⟨key, -, hkey⟩ := List.exists_of_findSome?_eq_some h
  have hname : n.qualifiedName = key := by simpa using List.find?_some hkey
  rw [hname]
  exact hkey

theorem incoming_congr {qualifiedNames' : List String}
    (h : ∀ name, name ∈ qualifiedNames ↔ name ∈ qualifiedNames') :
    g.incoming qualifiedNames = g.incoming qualifiedNames' := by
  have hrows : g.endpointRows qualifiedNames = g.endpointRows qualifiedNames' := by
    have hkeys : sortBy id
        (qualifiedNames.flatMap fun qn => [qn, g.keys.normalizeQualifiedKey qn]).dedup =
          sortBy id
            (qualifiedNames'.flatMap fun qn => [qn, g.keys.normalizeQualifiedKey qn]).dedup := by
      refine sortBy_of_perm ?_ fun a _ b _ hab => hab
      refine (List.perm_ext_iff_of_nodup (List.nodup_dedup _)
        (List.nodup_dedup _)).mpr fun key => ?_
      rw [List.mem_dedup, List.mem_dedup, List.mem_flatMap, List.mem_flatMap]
      exact exists_congr fun name => and_congr_left fun _ => h name
    unfold endpointRows
    rw [hkeys]
  have hfiled : g.filedUnder qualifiedNames = g.filedUnder qualifiedNames' := by
    funext key qn
    have hany : (qualifiedNames.any (g.keys.normalizeQualifiedKey · = key)) =
        qualifiedNames'.any (g.keys.normalizeQualifiedKey · = key) := by
      rw [Bool.eq_iff_iff, List.any_eq_true, List.any_eq_true]
      exact exists_congr fun name => and_congr_left fun _ => h name
    unfold filedUnder
    rw [hany]
  funext qn
  rw [incoming, incoming, hrows, hfiled]

end GraphReads

end Dagayn
