import Dagayn.Distinct
import Dagayn.KeyTable
import Dagayn.Store

/-!
# Batch stores, statement by statement

`store_file_batch` and `store_file_batch_json` as they reach SQLite: columns are
pushed to two row buffers, a full buffer becomes one multi-row `INSERT`, and what is
left is inserted at the end. Both functions are the same loop over different inputs,
so there is one loop over a `BatchFormat`, which says how an input becomes columns.

Every statement may fail; `fails` says which of the statements of a connection do.
The flush sizes are parameters, so that what is proved does not depend on them.
`storeRows` is the net effect, without buffers, statements or indexes; the columns
of `Store` are related to it at the end. `updated_at` and the rows of the search
index are not columns here, and `serde_json` is a parameter: `render` writes a value
and `parse` reads a text.
-/

namespace Dagayn

/-- The columns of `nodes`, in the order they are bound. -/
structure NodeColumns where
  kind : String
  name : String
  qualifiedName : String
  filePath : String
  lineStart : Int
  lineEnd : Int
  language : String
  parentName : Option String
  params : Option String
  returnType : Option String
  modifiers : Option String
  isTest : Bool
  fileHash : String
  mtimeNs : Int
  extra : String
deriving DecidableEq, Repr

/-- The columns of `edges`, in the order they are bound. -/
structure EdgeColumns where
  kind : String
  source : String
  target : String
  targetName : String
  filePath : String
  line : Int
  extra : String
  confidence : Float
  tier : ConfidenceTier

/-- The key of `seen_edges`. -/
structure EdgeKey where
  kind : String
  source : String
  target : String
  filePath : String
  line : Int
deriving DecidableEq, Repr

/-- The two tables; `edges` has no unique column. -/
structure GraphRows where
  nodes : KeyTable NodeColumns.qualifiedName
  edges : List (Nat × EdgeColumns)
  edgeSeq : Nat

namespace GraphRows

def insertEdge (g : GraphRows) (e : EdgeColumns) : GraphRows :=
  { g with edges := g.edges ++ [(g.edgeSeq + 1, e)], edgeSeq := g.edgeSeq + 1 }

/-- The rows of one `INSERT INTO nodes … ON CONFLICT DO UPDATE`. -/
def insertNodes (g : GraphRows) (rows : List NodeColumns) : GraphRows :=
  { g with nodes := g.nodes.upsertAll rows }

/-- The rows of one `INSERT INTO edges`. -/
def insertEdges (g : GraphRows) (rows : List EdgeColumns) : GraphRows :=
  rows.foldl insertEdge g

def deleteEdges (g : GraphRows) (paths : List String) : GraphRows :=
  { g with edges := g.edges.filter fun e => e.2.filePath ∉ paths }

def deleteNodes (g : GraphRows) (paths : List String) : GraphRows :=
  { g with nodes := g.nodes.deleteWhere fun n => n.filePath ∈ paths }

end GraphRows

/-- A connection inside a write transaction: the rows as it sees them, whether the
write indexes exist, and the number of statements executed so far. -/
structure Conn where
  rows : GraphRows
  indexed : Bool := true
  statements : Nat := 0

/-! ## Statements -/

section Statements

variable (fails : Nat → Bool)

def Conn.exec (c : Conn) (f : GraphRows → GraphRows) : Option Conn :=
  if fails c.statements then none
  else some { c with rows := f c.rows, statements := c.statements + 1 }

/-- `drop_graph_write_indexes` or `create_graph_write_indexes`, where the indexes are
to be suspended. -/
def Conn.setIndexes (c : Conn) (suspend indexed : Bool) : Option Conn :=
  if !suspend then some c
  else if fails c.statements then none
  else some { c with indexed := indexed, statements := c.statements + 1 }

def insertCompactNodeRows (c : Conn) (rows : List NodeColumns) : Option Conn :=
  c.exec fails fun g => g.insertNodes rows

def insertCompactEdgeRows (c : Conn) (rows : List EdgeColumns) : Option Conn :=
  c.exec fails fun g => g.insertEdges rows

/-- One chunk of `remove_files_rows_tx`. -/
def removeChunk (c : Conn) (chunk : List String) : Option Conn :=
  if chunk = [] then some c
  else do
    let c ← c.exec fails fun g => g.deleteEdges chunk
    c.exec fails fun g => g.deleteNodes chunk

/-- `remove_files_rows_tx`; the first statement stands for those on the search index. -/
def removeFilesRowsTx (c : Conn) (paths : List String) : Option Conn := do
  let c ← c.exec fails id
  (chunksOf 450 paths).foldlM (removeChunk fails) c

/-! ## The loop -/

/-- How the items of a batch become columns. Reading an edge's `extra` may fail. -/
structure BatchFormat (ι ν ε : Type) where
  filePath : ι → String
  nodes : ι → List ν
  edges : ι → List ε
  node : ι → ν → NodeColumns
  edgeKey : ε → EdgeKey
  edge : ε → Option EdgeColumns

/-- The locals of the loop. -/
structure Writer where
  conn : Conn
  nodeRows : List NodeColumns := []
  edgeRows : List EdgeColumns := []
  seenEdges : List EdgeKey := []

variable (nodeInsertRows edgeInsertRows : Nat)

def pushNode (w : Writer) (n : NodeColumns) : Option Writer :=
  let rows := w.nodeRows ++ [n]
  if rows.length = nodeInsertRows then
    (insertCompactNodeRows fails w.conn rows).map fun conn => { w with conn, nodeRows := [] }
  else some { w with nodeRows := rows }

variable {ι ν ε : Type} (fmt : BatchFormat ι ν ε)

def pushEdge (w : Writer) (e : ε) : Option Writer :=
  if fmt.edgeKey e ∈ w.seenEdges then some w
  else do
    let seenEdges := fmt.edgeKey e :: w.seenEdges
    let row ← fmt.edge e
    let rows := w.edgeRows ++ [row]
    if rows.length = edgeInsertRows then
      (insertCompactEdgeRows fails w.conn rows).map fun conn =>
        { w with conn, edgeRows := [], seenEdges }
    else some { w with edgeRows := rows, seenEdges }

def pushFile (w : Writer) (item : ι) : Option Writer := do
  let w ← ((fmt.nodes item).map (fmt.node item)).foldlM (pushNode fails nodeInsertRows) w
  (fmt.edges item).foldlM (pushEdge fails edgeInsertRows fmt) w

def flushNodes (w : Writer) : Option Conn :=
  if 0 < w.nodeRows.length then insertCompactNodeRows fails w.conn w.nodeRows else some w.conn

def flushEdges (w : Writer) (c : Conn) : Option Conn :=
  if 0 < w.edgeRows.length then insertCompactEdgeRows fails c w.edgeRows else some c

def shouldSuspendWriteIndexes (g : GraphRows) (fileCount : Nat) : Bool :=
  !(fileCount < 64) && g.nodes.rows.isEmpty && g.edges.isEmpty

/-- The body shared by `store_file_batch_tx` and `store_raw_compact_file_batch_tx`;
the last statement stands for those on the search index. -/
def storeBatchTx (suspendIndexes : Bool) (c : Conn) (batch : List ι) : Option Conn := do
  let suspend := suspendIndexes && shouldSuspendWriteIndexes c.rows batch.length
  let c ← c.setIndexes fails suspend false
  let c ← removeFilesRowsTx fails c (batch.map fmt.filePath)
  let w ← batch.foldlM (pushFile fails nodeInsertRows edgeInsertRows fmt) { conn := c }
  let c ← flushNodes fails w
  let c ← flushEdges fails w c
  let c ← c.setIndexes fails suspend true
  c.exec fails id

/-- `write_tx`, the body, `commit`: an error before the commit has been done drops
the transaction. The second component tells whether the call returned `Ok`. -/
def inTransaction (body : Conn → Option Conn) (c : Conn) : Conn × Bool :=
  match body c with
  | some c' => if fails c'.statements then (c, false) else (c', true)
  | none => (c, false)

end Statements

/-! ## The two formats -/

section Formats

variable (render : Json → String) (parse : String → Option Json)

def emptyObject : String := "\x7b\x7d"

/-- `extra_json`. -/
def extraText (extra : Json) : String :=
  match extra with
  | .null => emptyObject
  | .obj [] => emptyObject
  | v => render v

/-- The columns of an edge, given its `extra` as a value and as a text. -/
def edgeColumns (key : EdgeKey) (value : Json) (text : String) : EdgeColumns :=
  let m := edgeMetadata value
  let c := normalizeEdgeConfidence key.source key.target m.1 m.2
  { kind := key.kind, source := key.source, target := key.target
    targetName := edgeTargetName key.target, filePath := key.filePath, line := key.line
    extra := text, confidence := c.1, tier := c.2 }

def EdgeInput.key (e : EdgeInput) : EdgeKey := ⟨e.kind, e.source, e.target, e.filePath, e.line⟩

/-- The columns of a node, given its `extra` as a text. -/
def NodeInput.columns (n : NodeInput) (fileHash : String) (mtimeNs : Int) (text : String) :
    NodeColumns :=
  { kind := n.kind, name := n.name, qualifiedName := n.qualified, filePath := n.filePath
    lineStart := n.lineStart, lineEnd := n.lineEnd, language := n.language
    parentName := n.parentName, params := n.params, returnType := n.returnType
    modifiers := n.modifiers, isTest := n.isTest, fileHash := fileHash, mtimeNs := mtimeNs
    extra := text }

/-- The typed inputs of `store_file_batch_tx`. -/
def typedFormat : BatchFormat Store.FileBatchItem NodeInput EdgeInput where
  filePath := Store.FileBatchItem.filePath
  nodes := Store.FileBatchItem.nodes
  edges := Store.FileBatchItem.edges
  node item n := n.columns item.fileHash item.mtimeNs (extraText render n.extra)
  edgeKey := EdgeInput.key
  edge e := some (edgeColumns e.key e.extra (extraText render e.extra))

/-- `RawCompactNodeInput`: an array of twelve, the last kept as the text it came in. -/
structure RawCompactNodeInput where
  kind : String
  name : String
  filePath : String
  lineStart : Int
  lineEnd : Int
  language : String
  parentName : Option String
  params : Option String
  returnType : Option String
  modifiers : Option String
  isTest : Bool
  extra : String

structure RawCompactEdgeInput where
  kind : String
  source : String
  target : String
  filePath : String
  line : Int
  extra : String

structure RawCompactFileBatchItem where
  filePath : String
  nodes : List RawCompactNodeInput
  edges : List RawCompactEdgeInput
  fileHash : String
  mtimeNs : Int

def RawCompactNodeInput.columns (n : RawCompactNodeInput) (fileHash : String)
    (mtimeNs : Int) : NodeColumns :=
  { kind := n.kind, name := n.name
    qualifiedName := makeQualifiedParts n.kind n.name n.filePath n.parentName
    filePath := n.filePath, lineStart := n.lineStart, lineEnd := n.lineEnd
    language := n.language, parentName := n.parentName, params := n.params
    returnType := n.returnType, modifiers := n.modifiers, isTest := n.isTest
    fileHash := fileHash, mtimeNs := mtimeNs, extra := n.extra }

def RawCompactEdgeInput.key (e : RawCompactEdgeInput) : EdgeKey :=
  ⟨e.kind, e.source, e.target, e.filePath, e.line⟩

/-- `edge_metadata_from_raw_extra`: the value whose fields are read. -/
def rawExtraValue (raw : String) : Option Json :=
  if raw = emptyObject then some (.obj []) else parse raw

/-- The raw inputs of `store_raw_compact_file_batch_tx`. -/
def rawFormat : BatchFormat RawCompactFileBatchItem RawCompactNodeInput RawCompactEdgeInput where
  filePath := RawCompactFileBatchItem.filePath
  nodes := RawCompactFileBatchItem.nodes
  edges := RawCompactFileBatchItem.edges
  node item n := n.columns item.fileHash item.mtimeNs
  edgeKey := RawCompactEdgeInput.key
  edge e := (rawExtraValue parse e.extra).map fun v => edgeColumns e.key v e.extra

end Formats

section Operations

variable (render : Json → String) (parse : String → Option Json) (fails : Nat → Bool)
  (nodeInsertRows edgeInsertRows : Nat)

/-- `store_file_batch`; `bulk` is `bulk_load_indexes_suspended`. -/
def storeFileBatch (bulk : Bool) (c : Conn) (batch : List Store.FileBatchItem) : Conn × Bool :=
  inTransaction fails
    (fun c => storeBatchTx fails nodeInsertRows edgeInsertRows (typedFormat render) (!bulk) c batch)
    c

/-- `store_file_batch_json`, after its argument has been read. -/
def storeFileBatchJson (bulk : Bool) (c : Conn) (batch : List RawCompactFileBatchItem) :
    Conn × Bool :=
  inTransaction fails
    (fun c => storeBatchTx fails nodeInsertRows edgeInsertRows (rawFormat parse) (!bulk) c batch)
    c

end Operations

/-! ## The net effect -/

section Effect

variable {ι ν ε : Type} (fmt : BatchFormat ι ν ε)

def BatchFormat.nodeColumns (batch : List ι) : List NodeColumns :=
  batch.flatMap fun item => (fmt.nodes item).map (fmt.node item)

def BatchFormat.firstEdges (batch : List ι) : List ε :=
  keepFirst fmt.edgeKey (batch.flatMap fmt.edges)

def BatchFormat.edgeColumns (batch : List ι) : List EdgeColumns :=
  (fmt.firstEdges batch).filterMap fmt.edge

def storeRows (g : GraphRows) (batch : List ι) : GraphRows :=
  let paths := batch.map fmt.filePath
  (((g.deleteEdges paths).deleteNodes paths).insertNodes (fmt.nodeColumns batch)).insertEdges
    (fmt.edgeColumns batch)

end Effect

/-! ## The loop computes the net effect -/

namespace GraphRows

theorem insertNodes_append (g : GraphRows) (ns ns' : List NodeColumns) :
    g.insertNodes (ns ++ ns') = (g.insertNodes ns).insertNodes ns' := by
  unfold insertNodes
  rw [KeyTable.upsertAll_append]

theorem insertEdges_append (g : GraphRows) (es es' : List EdgeColumns) :
    g.insertEdges (es ++ es') = (g.insertEdges es).insertEdges es' := List.foldl_append

theorem insertEdges_insertNodes (ns : List NodeColumns) : ∀ (es : List EdgeColumns)
    (g : GraphRows), (g.insertEdges es).insertNodes ns = (g.insertNodes ns).insertEdges es
  | [], _ => rfl
  | e :: es, g => insertEdges_insertNodes ns es (g.insertEdge e)

end GraphRows

section Loop

variable {fails : Nat → Bool}

theorem exec_rows {c c' : Conn} {f : GraphRows → GraphRows} (h : c.exec fails f = some c') :
    c'.rows = f c.rows := by
  unfold Conn.exec at h
  split at h
  · cases h
  · cases h
    rfl

theorem setIndexes_rows {c c' : Conn} {suspend indexed : Bool}
    (h : c.setIndexes fails suspend indexed = some c') : c'.rows = c.rows := by
  unfold Conn.setIndexes at h
  split at h
  · cases h
    rfl
  · split at h
    · cases h
    · cases h
      rfl

theorem removeChunk_rows {c c' : Conn} {chunk : List String}
    (h : removeChunk fails c chunk = some c') :
    c'.rows = (c.rows.deleteEdges chunk).deleteNodes chunk := by
  unfold removeChunk at h
  split at h
  · rename_i hnil
    cases h
    subst hnil
    simp [GraphRows.deleteEdges, GraphRows.deleteNodes, KeyTable.deleteWhere]
  · obtain ⟨c₁, h₁, h₂⟩ := Option.bind_eq_some_iff.mp h
    rw [exec_rows h₂, exec_rows h₁]

theorem removeChunks_rows : ∀ {cs : List (List String)} {c c' : Conn},
    cs.foldlM (removeChunk fails) c = some c' →
      c'.rows = (c.rows.deleteEdges cs.flatten).deleteNodes cs.flatten
  | [], c, c', h => by
      cases h
      simp [GraphRows.deleteEdges, GraphRows.deleteNodes, KeyTable.deleteWhere]
  | chunk :: cs, c, c', h => by
      rw [List.foldlM_cons] at h
      obtain ⟨c₁, h₁, h₂⟩ := Option.bind_eq_some_iff.mp h
      rw [removeChunks_rows h₂, removeChunk_rows h₁]
      simp only [GraphRows.deleteEdges, GraphRows.deleteNodes, KeyTable.deleteWhere,
        List.filter_filter, GraphRows.mk.injEq, KeyTable.mk.injEq, and_true]
      refine ⟨?_, ?_⟩
      · refine List.filter_congr fun r _ => ?_
        simp only [List.flatten_cons, List.mem_append]
        grind
      · refine List.filter_congr fun r _ => ?_
        simp only [List.flatten_cons, List.mem_append]
        grind

theorem removeFilesRowsTx_rows {c c' : Conn} {paths : List String}
    (h : removeFilesRowsTx fails c paths = some c') :
    c'.rows = (c.rows.deleteEdges paths).deleteNodes paths := by
  obtain ⟨c₁, h₁, h₂⟩ := Option.bind_eq_some_iff.mp h
  rw [removeChunks_rows h₂, exec_rows h₁]
  have hmem : ∀ x, x ∈ (chunksOf 450 paths).flatten ↔ x ∈ paths := by
    intro x
    rw [List.mem_flatten]
    exact mem_chunksOf (by decide)
  simp only [GraphRows.deleteEdges, GraphRows.deleteNodes, KeyTable.deleteWhere, hmem, id]

def Writer.rows (w : Writer) : GraphRows :=
  (w.conn.rows.insertNodes w.nodeRows).insertEdges w.edgeRows

variable {nodeInsertRows edgeInsertRows : Nat}

theorem pushNode_rows {w w' : Writer} {n : NodeColumns}
    (h : pushNode fails nodeInsertRows w n = some w') :
    w'.rows = w.rows.insertNodes [n] ∧ w'.seenEdges = w.seenEdges := by
  unfold Writer.rows
  rw [GraphRows.insertEdges_insertNodes, ← GraphRows.insertNodes_append]
  unfold pushNode at h
  dsimp only at h
  split at h
  · obtain ⟨c, hc, rfl⟩ := Option.map_eq_some_iff.mp h
    refine ⟨?_, rfl⟩
    change (c.rows.insertNodes []).insertEdges w.edgeRows = _
    rw [exec_rows hc]
    rfl
  · cases h
    exact ⟨rfl, rfl⟩

theorem pushNodes_rows : ∀ {ns : List NodeColumns} {w w' : Writer},
    ns.foldlM (pushNode fails nodeInsertRows) w = some w' →
      w'.rows = w.rows.insertNodes ns ∧ w'.seenEdges = w.seenEdges
  | [], w, w', h => by
      cases h
      exact ⟨rfl, rfl⟩
  | n :: ns, w, w', h => by
      rw [List.foldlM_cons] at h
      obtain ⟨w₁, h₁, h₂⟩ := Option.bind_eq_some_iff.mp h
      obtain ⟨hr₁, hs₁⟩ := pushNode_rows h₁
      obtain ⟨hr₂, hs₂⟩ := pushNodes_rows h₂
      refine ⟨?_, hs₂.trans hs₁⟩
      rw [hr₂, hr₁, ← GraphRows.insertNodes_append]
      rfl

variable {ι ν ε : Type} {fmt : BatchFormat ι ν ε}

theorem pushEdge_rows {w w' : Writer} {e : ε}
    (h : pushEdge fails edgeInsertRows fmt w e = some w') (hseen : fmt.edgeKey e ∉ w.seenEdges) :
    ∃ row, fmt.edge e = some row ∧ w'.rows = w.rows.insertEdges [row] ∧
      w'.seenEdges = fmt.edgeKey e :: w.seenEdges := by
  unfold pushEdge at h
  rw [if_neg hseen] at h
  obtain ⟨row, hrow, h⟩ := Option.bind_eq_some_iff.mp h
  refine ⟨row, hrow, ?_⟩
  unfold Writer.rows
  rw [← GraphRows.insertEdges_append]
  dsimp only at h
  split at h
  · obtain ⟨c, hc, rfl⟩ := Option.map_eq_some_iff.mp h
    refine ⟨?_, rfl⟩
    change (c.rows.insertNodes w.nodeRows).insertEdges [] = _
    rw [exec_rows hc, GraphRows.insertEdges_insertNodes]
    rfl
  · cases h
    exact ⟨rfl, rfl⟩

theorem pushEdges_rows : ∀ {es : List ε} {w w' : Writer},
    es.foldlM (pushEdge fails edgeInsertRows fmt) w = some w' →
      w'.rows = w.rows.insertEdges ((freshOf fmt.edgeKey w.seenEdges es).filterMap fmt.edge) ∧
      w'.seenEdges = seenAfter fmt.edgeKey w.seenEdges es
  | [], w, w', h => by
      cases h
      exact ⟨rfl, rfl⟩
  | e :: es, w, w', h => by
      rw [List.foldlM_cons] at h
      obtain ⟨w₁, h₁, h₂⟩ := Option.bind_eq_some_iff.mp h
      obtain ⟨hr₂, hs₂⟩ := pushEdges_rows h₂
      simp only [freshOf, seenAfter]
      split
      · rename_i hseen
        unfold pushEdge at h₁
        rw [if_pos hseen] at h₁
        cases h₁
        exact ⟨hr₂, hs₂⟩
      · rename_i hseen
        obtain ⟨row, hrow, hr₁, hs₁⟩ := pushEdge_rows h₁ hseen
        rw [← hs₁]
        refine ⟨?_, hs₂⟩
        rw [hr₂, hr₁, ← GraphRows.insertEdges_append, List.filterMap_cons, hrow]
        rfl

theorem pushFile_rows {w w' : Writer} {item : ι}
    (h : pushFile fails nodeInsertRows edgeInsertRows fmt w item = some w') :
    w'.rows = (w.rows.insertNodes ((fmt.nodes item).map (fmt.node item))).insertEdges
        ((freshOf fmt.edgeKey w.seenEdges (fmt.edges item)).filterMap fmt.edge) ∧
      w'.seenEdges = seenAfter fmt.edgeKey w.seenEdges (fmt.edges item) := by
  obtain ⟨w₁, h₁, h₂⟩ := Option.bind_eq_some_iff.mp h
  obtain ⟨hr₁, hs₁⟩ := pushNodes_rows h₁
  obtain ⟨hr₂, hs₂⟩ := pushEdges_rows h₂
  rw [← hr₁, ← hs₁]
  exact ⟨hr₂, hs₂⟩

theorem pushFiles_rows : ∀ {batch : List ι} {w w' : Writer},
    batch.foldlM (pushFile fails nodeInsertRows edgeInsertRows fmt) w = some w' →
      w'.rows = (w.rows.insertNodes (fmt.nodeColumns batch)).insertEdges
        ((freshOf fmt.edgeKey w.seenEdges (batch.flatMap fmt.edges)).filterMap fmt.edge)
  | [], w, w', h => by
      cases h
      rfl
  | item :: batch, w, w', h => by
      rw [List.foldlM_cons] at h
      obtain ⟨w₁, h₁, h₂⟩ := Option.bind_eq_some_iff.mp h
      obtain ⟨hr₁, hs₁⟩ := pushFile_rows h₁
      rw [pushFiles_rows h₂, hr₁, hs₁, GraphRows.insertEdges_insertNodes,
        ← GraphRows.insertNodes_append, ← GraphRows.insertEdges_append, List.flatMap_cons,
        freshOf_append, List.filterMap_append]
      rfl

theorem flush_rows {w : Writer} {c c' : Conn} (h₁ : flushNodes fails w = some c)
    (h₂ : flushEdges fails w c = some c') : c'.rows = w.rows := by
  have hr₁ : c.rows = w.conn.rows.insertNodes w.nodeRows := by
    unfold flushNodes at h₁
    split at h₁
    · exact exec_rows h₁
    · rename_i hlen
      cases h₁
      rw [List.eq_nil_of_length_eq_zero (Nat.eq_zero_of_not_pos hlen)]
      rfl
  unfold Writer.rows
  rw [← hr₁]
  unfold flushEdges at h₂
  split at h₂
  · exact exec_rows h₂
  · rename_i hlen
    cases h₂
    rw [List.eq_nil_of_length_eq_zero (Nat.eq_zero_of_not_pos hlen)]
    rfl

/-- A store that succeeds leaves the net effect: the flush sizes, the suspended
indexes and the statements that could have failed leave no trace in the rows. -/
theorem storeBatchTx_rows {suspend : Bool} {c c' : Conn} {batch : List ι}
    (h : storeBatchTx fails nodeInsertRows edgeInsertRows fmt suspend c batch = some c') :
    c'.rows = storeRows fmt c.rows batch := by
  unfold storeBatchTx at h
  obtain ⟨c₁, h₁, h⟩ := Option.bind_eq_some_iff.mp h
  obtain ⟨c₂, h₂, h⟩ := Option.bind_eq_some_iff.mp h
  obtain ⟨w, hw, h⟩ := Option.bind_eq_some_iff.mp h
  obtain ⟨c₃, h₃, h⟩ := Option.bind_eq_some_iff.mp h
  obtain ⟨c₄, h₄, h⟩ := Option.bind_eq_some_iff.mp h
  obtain ⟨c₅, h₅, h⟩ := Option.bind_eq_some_iff.mp h
  rw [exec_rows h, id, setIndexes_rows h₅, flush_rows h₃ h₄, pushFiles_rows hw, freshOf_nil]
  change ((c₂.rows.insertNodes _).insertEdges _) = _
  rw [removeFilesRowsTx_rows h₂, setIndexes_rows h₁]
  rfl

end Loop

/-! ## What a batch leaves -/

section Stored

variable {ι ν ε : Type} (fmt : BatchFormat ι ν ε)

/-- The rows after a batch, read off the rows before it. -/
structure BatchStored (batch : List ι) (g g' : GraphRows) : Prop where
  /-- The rows of the batch's files are the batch's nodes, the last of each name. -/
  node : ∀ n : NodeColumns, n.filePath ∈ batch.map fmt.filePath →
    ((∃ id, (id, n) ∈ g'.nodes.rows) ↔
      lastOf NodeColumns.qualifiedName n.qualifiedName (fmt.nodeColumns batch) = some n)
  /-- A name the batch has is the batch's, whatever file held it before. -/
  named : ∀ r ∈ g'.nodes.rows, r.2.qualifiedName ∈
      (fmt.nodeColumns batch).map NodeColumns.qualifiedName →
    lastOf NodeColumns.qualifiedName r.2.qualifiedName (fmt.nodeColumns batch) = some r.2
  /-- The other rows of the other files are as they were. -/
  other : ∀ r : Nat × NodeColumns, r.2.filePath ∉ batch.map fmt.filePath →
    r.2.qualifiedName ∉ (fmt.nodeColumns batch).map NodeColumns.qualifiedName →
      (r ∈ g'.nodes.rows ↔ r ∈ g.nodes.rows)
  /-- The edges of the other files stay, and the batch's edges follow them, the first
  of each key. -/
  edges : g'.edges = (g.edges.filter fun e => e.2.filePath ∉ batch.map fmt.filePath) ++
    numberFrom g.edgeSeq (fmt.edgeColumns batch)

theorem insertEdges_nodes : ∀ (es : List EdgeColumns) (g : GraphRows),
    (g.insertEdges es).nodes = g.nodes
  | [], _ => rfl
  | e :: es, g => insertEdges_nodes es (g.insertEdge e)

theorem insertEdges_edges : ∀ (es : List EdgeColumns) (g : GraphRows),
    (g.insertEdges es).edges = g.edges ++ numberFrom g.edgeSeq es
  | [], g => (List.append_nil _).symm
  | e :: es, g => by
      change ((g.insertEdge e).insertEdges es).edges = _
      rw [insertEdges_edges es]
      simp [GraphRows.insertEdge, numberFrom]

theorem insertEdges_edgeSeq : ∀ (es : List EdgeColumns) (g : GraphRows),
    (g.insertEdges es).edgeSeq = g.edgeSeq + es.length
  | [], _ => rfl
  | e :: es, g => by
      change ((g.insertEdge e).insertEdges es).edgeSeq = _
      rw [insertEdges_edgeSeq es]
      simp only [GraphRows.insertEdge, List.length_cons]
      omega

theorem storeRows_nodes (g : GraphRows) (batch : List ι) :
    (storeRows fmt g batch).nodes =
      (g.nodes.deleteWhere fun n => n.filePath ∈ batch.map fmt.filePath).upsertAll
        (fmt.nodeColumns batch) := by
  unfold storeRows
  rw [insertEdges_nodes]
  rfl

theorem storeRows_stored (g : GraphRows) (batch : List ι) :
    BatchStored fmt batch g (storeRows fmt g batch) := by
  refine ⟨fun n hn => ?_, fun r hr hname => ?_, fun r hr hname => ?_, ?_⟩
  · rw [storeRows_nodes]
    constructor
    · rintro ⟨id, hid⟩
      rcases KeyTable.mem_upsertAll hid with hlast | ⟨-, hold⟩
      · exact hlast
      · -- a kept row is not of the batch's files
        have hdel := (KeyTable.mem_deleteWhere.mp hold).2
        simp [hn] at hdel
    · exact KeyTable.mem_upsertAll_of_last
  · rw [storeRows_nodes] at hr
    rcases KeyTable.mem_upsertAll hr with hlast | ⟨hnone, -⟩
    · exact hlast
    · obtain ⟨n, hn, hq⟩ := List.mem_map.mp hname
      exact absurd hq (lastOf_eq_none.mp hnone n hn)
  · have hnone : lastOf NodeColumns.qualifiedName r.2.qualifiedName (fmt.nodeColumns batch)
        = none :=
      lastOf_eq_none.mpr fun n hn hq => hname (List.mem_map.mpr ⟨n, hn, hq⟩)
    rw [storeRows_nodes]
    constructor
    · intro h
      rcases KeyTable.mem_upsertAll h with hlast | ⟨-, hold⟩
      · rw [hnone] at hlast
        cases hlast
      · exact (KeyTable.mem_deleteWhere.mp hold).1
    · intro h
      exact KeyTable.mem_upsertAll_of_mem
        (KeyTable.mem_deleteWhere.mpr ⟨h, decide_eq_false hr⟩) hnone
  · unfold storeRows
    rw [insertEdges_edges]
    rfl

end Stored

theorem inTransaction_cases (fails : Nat → Bool) (body : Conn → Option Conn) (c : Conn) :
    ((inTransaction fails body c).2 = false ∧ (inTransaction fails body c).1 = c) ∨
    ((inTransaction fails body c).2 = true ∧ body c = some (inTransaction fails body c).1) := by
  unfold inTransaction
  split
  · rename_i c' hc'
    split
    · exact .inl ⟨rfl, rfl⟩
    · exact .inr ⟨rfl, hc'⟩
  · exact .inl ⟨rfl, rfl⟩

section Results

variable (render : Json → String) (fails : Nat → Bool) (nodeInsertRows edgeInsertRows : Nat)
  (bulk : Bool) (c : Conn) (batch : List Store.FileBatchItem)

/-- A store either fails and leaves the database as it was, or leaves the rows of
`storeRows`, which depend on the rows before and the batch alone. -/
theorem storeFileBatch_stored :
    (storeFileBatch render fails nodeInsertRows edgeInsertRows bulk c batch = (c, false)) ∨
    (∃ stored, storeFileBatch render fails nodeInsertRows edgeInsertRows bulk c batch
        = (stored, true) ∧
      stored.rows = storeRows (typedFormat render) c.rows batch ∧
      BatchStored (typedFormat render) batch c.rows stored.rows) := by
  rcases inTransaction_cases fails (fun c => storeBatchTx fails nodeInsertRows edgeInsertRows
    (typedFormat render) (!bulk) c batch) c with hfail | ⟨hok, hbody⟩
  · exact .inl (Prod.ext hfail.2 hfail.1)
  · have hrows := storeBatchTx_rows hbody
    have hstored := storeRows_stored (typedFormat render) c.rows batch
    rw [← hrows] at hstored
    exact .inr ⟨_, Prod.ext rfl hok, hrows, hstored⟩

end Results

def separatorFile : NodeColumns :=
  NodeInput.columns { kind := "Function", name := "c", filePath := "a::b" } "h" 0 emptyObject

/-- A function of the file `a` with the qualified name of that function. -/
def clashingBatch : List Store.FileBatchItem :=
  [{ filePath := "a", nodes := [{ kind := "Function", name := "b::c", filePath := "a" }]
     edges := [], fileHash := "h", mtimeNs := 0 }]

def separatorConn : Conn where
  rows :=
    { nodes := ⟨[(1, separatorFile)], 1, List.nodup_singleton _⟩, edges := [], edgeSeq := 0 }

/-- The qualified name is the only key of `nodes`, so the row of another file that
has the name of a batch node becomes that node. -/
theorem storeFileBatch_takes_row :
    let r := storeFileBatch (fun _ => emptyObject) (fun _ => false) 1875 3000 false
      separatorConn clashingBatch
    r.2 = true ∧ (1, separatorFile) ∈ separatorConn.rows.nodes.rows ∧
      separatorFile.filePath ∉ clashingBatch.map Store.FileBatchItem.filePath ∧
      (1, separatorFile) ∉ r.1.rows.nodes.rows := by
  decide +kernel

end Dagayn
