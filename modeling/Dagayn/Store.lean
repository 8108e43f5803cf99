import Dagayn.Json
import Dagayn.Text
import Mathlib

/-!
# The graph store

The `nodes` and `edges` tables of `dagayn-graph` and the rowids of `nodes_fts`,
with the operations that write them: batch stores, file removal, single upserts,
manifest bridges and the search-index refreshes. Every public operation is one
transaction; an operation that fails (`none`) rolls back and leaves the store as
it was.

`nodes.id` is `AUTOINCREMENT` (`seq` is the last id ever given out) and
`qualified_name` is `UNIQUE`. `NodeTable` carries both as fields, so a table that
breaks them cannot be built. The watermark rows in `metadata`, the flow and risk
tables keyed on node ids, timestamps and the text of a search row are not modelled.
-/

namespace Dagayn

/-! ## Rows -/

structure NodeInput where
  kind : String
  name : String
  filePath : String
  lineStart : Int := 0
  lineEnd : Int := 0
  language : String := ""
  parentName : Option String := none
  params : Option String := none
  returnType : Option String := none
  modifiers : Option String := none
  isTest : Bool := false
  extra : Json := .null

def makeQualifiedParts (kind name filePath : String) (parentName : Option String) : String :=
  if kind = "File" then filePath
  else
    match parentName with
    | some parent => filePath ++ "::" ++ parent ++ "." ++ name
    | none => filePath ++ "::" ++ name

def NodeInput.qualified (n : NodeInput) : String :=
  makeQualifiedParts n.kind n.name n.filePath n.parentName

/-- A row of `nodes`. -/
structure NodeRow where
  id : Nat
  qualifiedName : String
  input : NodeInput
  fileHash : String
  mtimeNs : Int

inductive ConfidenceTier where
  | exact
  | extracted
  | high
  | medium
  | low
  | unknown
deriving DecidableEq, Repr

def ConfidenceTier.fromRaw (value : Option String) : ConfidenceTier :=
  let raw := String.ofList ((value.getD "EXTRACTED").toList.map Char.toUpper)
  if raw = "EXACT" then .exact
  else if raw = "HIGH" then .high
  else if raw = "MEDIUM" then .medium
  else if raw = "LOW" then .low
  else if raw = "UNKNOWN" then .unknown
  else .extracted

def ConfidenceTier.asStr : ConfidenceTier → String
  | .exact => "EXACT"
  | .extracted => "EXTRACTED"
  | .high => "HIGH"
  | .medium => "MEDIUM"
  | .low => "LOW"
  | .unknown => "UNKNOWN"

structure EdgeInput where
  kind : String
  source : String
  target : String
  filePath : String
  line : Int := 0
  extra : Json := .null

/-- A row of `edges`. -/
structure EdgeRow where
  id : Nat
  kind : String
  source : String
  target : String
  targetName : String
  filePath : String
  line : Int
  extra : Json
  confidence : Float
  tier : ConfidenceTier

/-- `edge_target_name`: what follows the last `::`. -/
def edgeTargetName (target : String) : String :=
  match afterLast [':', ':'] target.toList with
  | some name => String.ofList name
  | none => target

/-- `starts_with("<unresolved:")`. -/
def isUnresolved (name : String) : Bool := "<unresolved:".toList.isPrefixOf name.toList

def normalizeEdgeConfidence (source target : String) (confidence : Float)
    (tier : ConfidenceTier) : Float × ConfidenceTier :=
  if (isUnresolved source || isUnresolved target) && (tier = .extracted || tier = .unknown) then
    (min confidence 0.2, .low)
  else (confidence, tier)

/-- `edge_metadata_from_raw_extra`, and the same reading of a typed `extra`. -/
def edgeMetadata (extra : Json) : Float × ConfidenceTier :=
  (((extra.get "confidence").bind Json.asFloat).getD 1.0,
    .fromRaw (extra.getStr "confidence_tier"))

/-- `extra_json`: an absent or empty `extra` is stored as the empty object. -/
def extraJson : Json → Json
  | .null => .obj []
  | v => v

/-- The row an edge is stored as; the table gives the id. -/
def EdgeInput.row (e : EdgeInput) (extra : Json) : EdgeRow :=
  let m := edgeMetadata e.extra
  let c := normalizeEdgeConfidence e.source e.target m.1 m.2
  { id := 0, kind := e.kind, source := e.source, target := e.target
    targetName := edgeTargetName e.target, filePath := e.filePath, line := e.line
    extra := extra, confidence := c.1, tier := c.2 }

def EdgeInput.sameEdge (e : EdgeInput) (r : EdgeRow) : Bool :=
  r.kind = e.kind && r.source = e.source && r.target = e.target &&
    r.filePath = e.filePath && r.line = e.line

/-! ## The node table -/

/-- `nodes`: ids are given out once, qualified names are unique. -/
structure NodeTable where
  rows : List NodeRow
  seq : Nat
  ids_nodup : (rows.map NodeRow.id).Nodup
  names_nodup : (rows.map NodeRow.qualifiedName).Nodup
  ids_le : ∀ r ∈ rows, r.id ≤ seq

namespace NodeTable

def empty : NodeTable where
  rows := []
  seq := 0
  ids_nodup := List.nodup_nil
  names_nodup := List.nodup_nil
  ids_le _ hr := absurd hr List.not_mem_nil

instance : Inhabited NodeTable := ⟨empty⟩

def ids (t : NodeTable) : List Nat := t.rows.map NodeRow.id

def names (t : NodeTable) : List String := t.rows.map NodeRow.qualifiedName

def find (t : NodeTable) (qualified : String) : Option NodeRow :=
  t.rows.find? (·.qualifiedName = qualified)

/-- `DELETE FROM nodes WHERE …`. -/
def deleteWhere (t : NodeTable) (p : NodeRow → Bool) : NodeTable where
  rows := t.rows.filter (!p ·)
  seq := t.seq
  ids_nodup := t.ids_nodup.sublist (List.filter_sublist.map _)
  names_nodup := t.names_nodup.sublist (List.filter_sublist.map _)
  ids_le r hr := t.ids_le r (List.mem_of_mem_filter hr)

/-- `ON CONFLICT(qualified_name) DO UPDATE`: the row keeps its id. -/
def update (t : NodeTable) (qualified : String) (f : NodeRow → NodeRow)
    (hf : ∀ r, (f r).id = r.id ∧ (f r).qualifiedName = r.qualifiedName) : NodeTable where
  rows := t.rows.map fun r => if r.qualifiedName = qualified then f r else r
  seq := t.seq
  ids_nodup := by
    have h : (t.rows.map fun r => if r.qualifiedName = qualified then f r else r).map NodeRow.id
        = t.rows.map NodeRow.id := by
      rw [List.map_map]
      refine List.map_congr_left fun r _ => ?_
      simp only [Function.comp]
      split
      · exact (hf r).1
      · rfl
    rw [h]
    exact t.ids_nodup
  names_nodup := by
    have h : (t.rows.map fun r => if r.qualifiedName = qualified then f r else r).map
        NodeRow.qualifiedName = t.rows.map NodeRow.qualifiedName := by
      rw [List.map_map]
      refine List.map_congr_left fun r _ => ?_
      simp only [Function.comp]
      split
      · exact (hf r).2
      · rfl
    rw [h]
    exact t.names_nodup
  ids_le r hr := by
    obtain ⟨r', hr', rfl⟩ := List.mem_map.mp hr
    have hle := t.ids_le r' hr'
    split
    · rw [(hf r').1]; exact hle
    · exact hle

/-- `INSERT` of a qualified name the table does not have. -/
def insert (t : NodeTable) (qualified : String) (input : NodeInput) (hash : String)
    (mtime : Int) (h : qualified ∉ t.names) : NodeTable where
  rows := t.rows ++ [⟨t.seq + 1, qualified, input, hash, mtime⟩]
  seq := t.seq + 1
  ids_nodup := by
    rw [List.map_append, List.nodup_append]
    refine ⟨t.ids_nodup, by simp, ?_⟩
    intro a ha b hb
    obtain ⟨r, hr, rfl⟩ := List.mem_map.mp ha
    obtain rfl : b = t.seq + 1 := by simpa using hb
    exact Nat.ne_of_lt (Nat.lt_succ_of_le (t.ids_le r hr))
  names_nodup := by
    rw [List.map_append, List.nodup_append]
    refine ⟨t.names_nodup, by simp, ?_⟩
    intro a ha b hb
    obtain rfl : b = qualified := by simpa using hb
    exact fun hab => h (hab ▸ ha)
  ids_le r hr := by
    rcases List.mem_append.mp hr with hr | hr
    · exact Nat.le_succ_of_le (t.ids_le r hr)
    · obtain rfl := List.mem_singleton.mp hr
      exact Nat.le_refl _

/-- `INSERT … ON CONFLICT(qualified_name) DO UPDATE`. The manifest bridges leave
`file_hash` and `mtime_ns` of an existing row alone (`keepHash`). SQLite's sequence also moves on
where a row is updated; ids are compared here, and never counted. -/
def upsert (t : NodeTable) (input : NodeInput) (hash : String) (mtime : Int)
    (keepHash : Bool) : NodeTable :=
  if h : input.qualified ∈ t.names then
    t.update input.qualified
      (fun r => { r with
        input := input
        fileHash := if keepHash then r.fileHash else hash
        mtimeNs := if keepHash then r.mtimeNs else mtime })
      (fun _ => ⟨rfl, rfl⟩)
  else t.insert input.qualified input hash mtime h

end NodeTable

/-! ## The edge table -/

/-- `edges`: ids are given out once. -/
structure EdgeTable where
  rows : List EdgeRow
  seq : Nat
  ids_nodup : (rows.map EdgeRow.id).Nodup
  ids_le : ∀ r ∈ rows, r.id ≤ seq

namespace EdgeTable

def empty : EdgeTable where
  rows := []
  seq := 0
  ids_nodup := List.nodup_nil
  ids_le _ hr := absurd hr List.not_mem_nil

instance : Inhabited EdgeTable := ⟨empty⟩

/-- `DELETE FROM edges WHERE …`. -/
def deleteWhere (t : EdgeTable) (p : EdgeRow → Bool) : EdgeTable where
  rows := t.rows.filter (!p ·)
  seq := t.seq
  ids_nodup := t.ids_nodup.sublist (List.filter_sublist.map _)
  ids_le r hr := t.ids_le r (List.mem_of_mem_filter hr)

/-- `UPDATE edges SET … WHERE …`; no statement of the repository sets the id. -/
def updateWhere (t : EdgeTable) (p : EdgeRow → Bool) (f : EdgeRow → EdgeRow) : EdgeTable where
  rows := t.rows.map fun r => if p r then { f r with id := r.id } else r
  seq := t.seq
  ids_nodup := by
    have h : (t.rows.map fun r => if p r then { f r with id := r.id } else r).map EdgeRow.id
        = t.rows.map EdgeRow.id := by
      rw [List.map_map]
      refine List.map_congr_left fun r _ => ?_
      simp only [Function.comp]
      split <;> rfl
    rw [h]
    exact t.ids_nodup
  ids_le r hr := by
    obtain ⟨r', hr', rfl⟩ := List.mem_map.mp hr
    have hle := t.ids_le r' hr'
    split <;> exact hle

/-- `INSERT INTO edges`. -/
def insert (t : EdgeTable) (row : EdgeRow) : EdgeTable where
  rows := t.rows ++ [{ row with id := t.seq + 1 }]
  seq := t.seq + 1
  ids_nodup := by
    rw [List.map_append, List.nodup_append]
    refine ⟨t.ids_nodup, by simp, ?_⟩
    intro a ha b hb
    obtain ⟨r, hr, rfl⟩ := List.mem_map.mp ha
    obtain rfl : b = t.seq + 1 := by simpa using hb
    exact Nat.ne_of_lt (Nat.lt_succ_of_le (t.ids_le r hr))
  ids_le r hr := by
    rcases List.mem_append.mp hr with hr | hr
    · exact Nat.le_succ_of_le (t.ids_le r hr)
    · obtain rfl := List.mem_singleton.mp hr
      exact Nat.le_refl _

end EdgeTable

/-! ## The store -/

structure Store where
  nodes : NodeTable := .empty
  edges : EdgeTable := .empty
  /-- The rowids of `nodes_fts`; `none` while the table does not exist. -/
  fts : Option (List Nat) := none

namespace Store

/-- `file_paths.chunks(450)`. -/
def chunks (paths : List String) : List (List String) :=
  (List.range ((paths.length + 449) / 450)).map fun i => (paths.drop (450 * i)).take 450

/-! ### The search index -/

/-- `delete_fts_for_file_paths_tx`, one chunk: the rowids come from a join with
`nodes`, so only rows whose node still exists are found. -/
def deleteFtsChunk (s : Store) (chunk : List String) : Store :=
  let ids := (s.nodes.rows.filter fun r => r.input.filePath ∈ chunk).map NodeRow.id
  { s with fts := s.fts.map fun fts => fts.filter fun i => i ∉ ids }

def deleteFtsForFilePaths (s : Store) (paths : List String) : Store :=
  (chunks paths).foldl deleteFtsChunk s

/-- `INSERT INTO nodes_fts(rowid, …)` row by row; a rowid that is there already is
a constraint error. -/
def insertFtsRows : List Nat → List Nat → Option (List Nat)
  | [], fts => some fts
  | i :: ids, fts => if i ∈ fts then none else insertFtsRows ids (fts ++ [i])

/-- One chunk of `insert_fts_for_file_paths_tx`. -/
def insertFtsChunk (nodes : NodeTable) (fts : Option (List Nat)) (chunk : List String) :
    Option (List Nat) :=
  fts.bind fun fts =>
    insertFtsRows ((nodes.rows.filter fun r => r.input.filePath ∈ chunk).map NodeRow.id) fts

/-- `insert_fts_for_file_paths_tx`. -/
def insertFtsForFilePaths (s : Store) (paths : List String) : Option Store :=
  if paths = [] then some s
  else
    ((chunks paths).foldl (insertFtsChunk s.nodes) (some (s.fts.getD []))).map fun fts =>
      { s with fts := some fts }

def syncFtsForFilePathsTx (s : Store) (paths : List String) : Option Store :=
  if paths = [] then some s
  else (s.deleteFtsForFilePaths paths).insertFtsForFilePaths paths

def rebuildFtsIndex (s : Store) : Option Store :=
  (insertFtsRows s.nodes.ids []).map fun fts => { s with fts := some fts }

def syncFtsForFilePaths (s : Store) (paths : List String) : Option Store :=
  if paths = [] then some s
  else if s.fts = none then s.rebuildFtsIndex
  else s.syncFtsForFilePathsTx paths

/-- `upsert_fts_for_node_ids_tx` for one id. -/
def upsertFtsForNodeId (s : Store) (id : Nat) : Option Store :=
  if id ∈ s.nodes.ids then
    (insertFtsRows [id] ((s.fts.getD []).filter (· ≠ id))).map fun fts =>
      { s with fts := some fts }
  else some { s with fts := some (s.fts.getD []) }

/-! ### Files -/

/-- One chunk of `remove_files_rows_tx`. -/
def removeRowsChunk (s : Store) (chunk : List String) : Store :=
  { s with
    edges := s.edges.deleteWhere fun e => e.filePath ∈ chunk
    nodes := s.nodes.deleteWhere fun r => r.input.filePath ∈ chunk }

/-- `remove_files_rows_tx`. -/
def removeFilesRows (s : Store) (paths : List String) : Store :=
  (chunks paths).foldl removeRowsChunk (s.deleteFtsForFilePaths paths)

def removeFilesData (s : Store) (paths : List String) : Store := s.removeFilesRows paths

def removeFileData (s : Store) (path : String) : Store :=
  (s.deleteFtsForFilePaths [path]).removeRowsChunk [path]

/-- One file of a batch. -/
structure FileBatchItem where
  filePath : String
  nodes : List NodeInput
  edges : List EdgeInput
  fileHash : String
  mtimeNs : Int

def batchNodes (batch : List FileBatchItem) : List (NodeInput × String × Int) :=
  batch.flatMap fun f => f.nodes.map fun n => (n, f.fileHash, f.mtimeNs)

def upsertNodes (nodes : NodeTable) (inputs : List (NodeInput × String × Int)) : NodeTable :=
  inputs.foldl (fun t n => t.upsert n.1 n.2.1 n.2.2 false) nodes

/-- `seen_edges`: the first edge of each identity. -/
def firstEdges (edges : List EdgeInput) : List EdgeInput :=
  edges.foldl (fun seen e =>
    if seen.any (fun e' => e'.kind = e.kind && e'.source = e.source && e'.target = e.target &&
      e'.filePath = e.filePath && e'.line = e.line) then seen else seen ++ [e]) []

def insertEdge (extraOf : Json → Json) (s : Store) (e : EdgeInput) : Store :=
  { s with edges := s.edges.insert (e.row (extraOf e.extra)) }

/-- The body shared by the two batch stores; `extraOf` is how `extra` is stored. -/
def storeBatch (extraOf : Json → Json) (s : Store) (batch : List FileBatchItem) :
    Option Store :=
  let paths := batch.map FileBatchItem.filePath
  let s := s.removeFilesRows paths
  let inputs := (batchNodes batch).map fun n =>
    ({ n.1 with extra := extraOf n.1.extra }, n.2)
  let s := { s with nodes := upsertNodes s.nodes inputs }
  let s := (firstEdges (batch.flatMap FileBatchItem.edges)).foldl (insertEdge extraOf) s
  s.insertFtsForFilePaths paths

def storeFileBatch : Store → List FileBatchItem → Option Store := storeBatch extraJson

/-- `store_file_batch_json`: `extra` is kept as the text it came in. -/
def storeFileBatchJson : Store → List FileBatchItem → Option Store := storeBatch id

/-! ### Single rows -/

def upsertNode (s : Store) (node : NodeInput) (hash : String) (mtime : Int) : Option Store :=
  let nodes := s.nodes.upsert { node with extra := extraJson node.extra } hash mtime false
  match nodes.find node.qualified with
  | some r => { s with nodes := nodes }.upsertFtsForNodeId r.id
  | none => none

/-- `UPDATE edges SET target_name=?, extra=?, confidence=?, confidence_tier=? WHERE …`,
else `INSERT`: shared by `upsert_edge` and the manifest bridges. -/
def upsertEdge (s : Store) (e : EdgeInput) : Store :=
  if s.edges.rows.any e.sameEdge then
    { s with edges := s.edges.updateWhere e.sameEdge fun r =>
        let row := e.row (extraJson e.extra)
        { r with
          targetName := row.targetName, extra := row.extra
          confidence := row.confidence, tier := row.tier } }
  else s.insertEdge extraJson e

/-! ### Manifest bridges -/

/-- `json_extract(extra, '$.extractor') = ?`. -/
def ofExtractor (extractorId : String) (extra : Json) : Bool :=
  extra.getStr "extractor" = some extractorId

/-- One node of `replace_manifest_bridges`: a `File` node that exists stays. The
second component collects `touched_files`. -/
def bridgeNode (acc : NodeTable × List String) (node : NodeInput) : NodeTable × List String :=
  if node.kind = "File" && (acc.1.find node.qualified).isSome then acc
  else
    (acc.1.upsert { node with extra := extraJson node.extra } "" 0 true,
      if node.filePath ∈ acc.2 then acc.2 else acc.2 ++ [node.filePath])

def replaceManifestBridges (s : Store) (extractorId : String) (nodes : List NodeInput)
    (edges : List EdgeInput) : Option Store :=
  let kept := s.edges.deleteWhere fun e =>
    e.kind = "CROSS_ARTIFACT" && ofExtractor extractorId e.extra
  let left := s.nodes.deleteWhere fun r =>
    r.input.kind = "File" && ofExtractor extractorId r.input.extra
  let r := nodes.foldl bridgeNode (left, [])
  let s := edges.foldl upsertEdge { s with nodes := r.1, edges := kept }
  s.syncFtsForFilePathsTx r.2

end Store

end Dagayn
