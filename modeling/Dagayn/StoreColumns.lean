import Dagayn.BatchRows

/-!
# The store over its columns

`Store` keeps rows as values; `BatchRows` keeps them as the columns SQLite sees.
`Store.columns` reads a store as columns, and `columns_storeFileBatch` says that the
batch store of `Store` is, column by column, the net effect of the statements the
loop issues.
-/

namespace Dagayn

variable (render : Json → String)

def columnText : Json → String
  | .obj [] => emptyObject
  | v => render v

theorem columnText_extraJson (v : Json) : columnText render (extraJson v) = extraText render v := by
  cases v with
  | obj fields => cases fields <;> rfl
  | _ => rfl

def NodeRow.columns (r : NodeRow) : NodeColumns :=
  { r.input.columns r.fileHash r.mtimeNs (columnText render r.input.extra) with
    qualifiedName := r.qualifiedName }

def EdgeRow.columns (r : EdgeRow) : EdgeColumns where
  kind := r.kind
  source := r.source
  target := r.target
  targetName := r.targetName
  filePath := r.filePath
  line := r.line
  extra := columnText render r.extra
  confidence := r.confidence
  tier := r.tier

def NodeTable.columns (t : NodeTable) : KeyTable NodeColumns.qualifiedName where
  rows := t.rows.map fun r => (r.id, r.columns render)
  seq := t.seq
  keys_nodup := by
    rw [List.map_map]
    exact t.names_nodup

def Store.columns (s : Store) : GraphRows where
  nodes := s.nodes.columns render
  edges := s.edges.rows.map fun r => (r.id, r.columns render)
  edgeSeq := s.edges.seq

/-! ## One operation at a time -/

theorem columns_upsert (t : NodeTable) (input : NodeInput) (hash : String) (mtime : Int) :
    (t.upsert input hash mtime false).columns render
      = (t.columns render).upsert
          (input.columns hash mtime (columnText render input.extra)) := by
  have hnames : (t.columns render).rows.map (fun e => e.2.qualifiedName) = t.names := by
    change (t.rows.map fun r => (r.id, r.columns render)).map _ = _
    rw [List.map_map]
    rfl
  by_cases h : input.qualified ∈ t.names
  · have h' : input.qualified ∈ (t.columns render).rows.map fun e => e.2.qualifiedName := by
      rw [hnames]
      exact h
    unfold NodeTable.upsert KeyTable.upsert
    rw [dif_pos h, dif_pos (show (input.columns hash mtime _).qualifiedName ∈ _ from h')]
    refine KeyTable.ext ?_ rfl
    change (t.rows.map _).map _ = KeyTable.replaced (t.rows.map _) _ _
    unfold KeyTable.replaced
    rw [List.map_map, List.map_map]
    refine List.map_congr_left fun r _ => ?_
    simp only [Function.comp]
    have hcols : (r.columns render).qualifiedName
        = (input.columns hash mtime (columnText render input.extra)).qualifiedName ↔
        r.qualifiedName = input.qualified := Iff.rfl
    by_cases hq : r.qualifiedName = input.qualified
    · rw [if_pos hq, if_pos (hcols.mpr hq)]
      simp [NodeRow.columns, NodeInput.columns, hq]
    · rw [if_neg hq, if_neg (hcols.not.mpr hq)]
  · have h' : input.qualified ∉ (t.columns render).rows.map fun e => e.2.qualifiedName := by
      rw [hnames]
      exact h
    unfold NodeTable.upsert KeyTable.upsert
    rw [dif_neg h, dif_neg (show (input.columns hash mtime _).qualifiedName ∉ _ from h')]
    refine KeyTable.ext ?_ rfl
    change (t.rows ++ [_]).map _ = (t.rows.map _) ++ [_]
    rw [List.map_append]
    rfl

theorem columns_upsertNodes : ∀ (inputs : List (NodeInput × String × Int)) (t : NodeTable),
    (Store.upsertNodes t inputs).columns render
      = (t.columns render).upsertAll
          (inputs.map fun n => n.1.columns n.2.1 n.2.2 (columnText render n.1.extra))
  | [], _ => rfl
  | n :: inputs, t => by
      change (Store.upsertNodes (t.upsert n.1 n.2.1 n.2.2 false) inputs).columns render = _
      rw [columns_upsertNodes inputs, columns_upsert]
      rfl

theorem columns_removeRowsChunk (s : Store) (chunk : List String) :
    (s.removeRowsChunk chunk).columns render
      = ((s.columns render).deleteEdges chunk).deleteNodes chunk := by
  simp only [Store.columns, Store.removeRowsChunk, GraphRows.deleteEdges, GraphRows.deleteNodes,
    GraphRows.mk.injEq]
  refine ⟨KeyTable.ext ?_ rfl, ?_, rfl⟩
  · change (s.nodes.rows.filter _).map _ = (s.nodes.rows.map _).filter _
    rw [List.filter_map]
    rfl
  · change (s.edges.rows.filter _).map _ = (s.edges.rows.map _).filter _
    rw [List.filter_map]
    congr 1
    refine List.filter_congr fun e _ => ?_
    simp [EdgeRow.columns]

theorem deleteNodes_deleteEdges (g : GraphRows) (ps qs : List String) :
    (((g.deleteEdges ps).deleteNodes ps).deleteEdges qs).deleteNodes qs
      = (g.deleteEdges (ps ++ qs)).deleteNodes (ps ++ qs) := by
  simp only [GraphRows.deleteEdges, GraphRows.deleteNodes, KeyTable.deleteWhere,
    List.filter_filter, GraphRows.mk.injEq, KeyTable.mk.injEq, and_true]
  refine ⟨?_, ?_⟩
  · refine List.filter_congr fun r _ => ?_
    simp only [List.mem_append]
    grind
  · refine List.filter_congr fun r _ => ?_
    simp only [List.mem_append]
    grind

theorem columns_removeChunks : ∀ (cs : List (List String)) (s : Store),
    (cs.foldl Store.removeRowsChunk s).columns render
      = ((s.columns render).deleteEdges cs.flatten).deleteNodes cs.flatten
  | [], s => by simp [GraphRows.deleteEdges, GraphRows.deleteNodes, KeyTable.deleteWhere]
  | chunk :: cs, s => by
      rw [List.foldl_cons, columns_removeChunks cs, columns_removeRowsChunk,
        deleteNodes_deleteEdges]
      rfl

theorem columns_insertEdges : ∀ (es : List EdgeInput) (s : Store),
    (es.foldl (Store.insertEdge extraJson) s).columns render
      = (s.columns render).insertEdges (es.filterMap (typedFormat render).edge)
  | [], _ => rfl
  | e :: es, s => by
      have hstep : (s.insertEdge extraJson e).columns render
          = (s.columns render).insertEdge
              (edgeColumns e.key e.extra (extraText render e.extra)) := by
        simp only [Store.columns, Store.insertEdge, EdgeTable.insert, GraphRows.insertEdge,
          List.map_append, List.map_cons, List.map_nil, GraphRows.mk.injEq, and_true, true_and]
        simp [EdgeRow.columns, EdgeInput.row, edgeColumns, EdgeInput.key, columnText_extraJson]
      rw [List.foldl_cons, columns_insertEdges es, hstep]
      rfl

theorem firstEdges_eq (es : List EdgeInput) :
    Store.firstEdges es = keepFirst EdgeInput.key es := by
  have hloop : ∀ (es seen : List EdgeInput),
      es.foldl (fun seen e =>
        if seen.any (fun e' => e'.kind = e.kind && e'.source = e.source && e'.target = e.target &&
          e'.filePath = e.filePath && e'.line = e.line) then seen else seen ++ [e]) seen
        = seen ++ freshOf EdgeInput.key (seen.map EdgeInput.key) es := by
    intro es
    induction es with
    | nil => exact fun seen => (List.append_nil seen).symm
    | cons e es ih =>
        intro seen
        have hany : seen.any (fun e' => e'.kind = e.kind && e'.source = e.source &&
            e'.target = e.target && e'.filePath = e.filePath && e'.line = e.line) = true ↔
            e.key ∈ seen.map EdgeInput.key := by
          simp [EdgeInput.key, and_assoc]
        rw [List.foldl_cons, freshOf]
        by_cases hseen : e.key ∈ seen.map EdgeInput.key
        · rw [if_pos (hany.mpr hseen), if_pos hseen, ih]
        · rw [if_neg (hany.not.mpr hseen), if_neg hseen, ih, List.append_assoc,
            List.map_append]
          rw [freshOf_eq_filter, freshOf_eq_filter, List.singleton_append]
          congr 2
          refine List.filter_congr fun b _ => ?_
          simp [or_comm]
  rw [Store.firstEdges, hloop es [], List.nil_append]
  exact freshOf_nil _ _

/-! ## The batch store -/

theorem columns_removeFilesRows (s : Store) (paths : List String) :
    (s.removeFilesRows paths).columns render
      = ((s.columns render).deleteEdges paths).deleteNodes paths := by
  have hfts : ∀ (cs : List (List String)) (s : Store),
      (cs.foldl Store.deleteFtsChunk s).columns render = s.columns render := by
    intro cs
    induction cs with
    | nil => exact fun _ => rfl
    | cons c cs ih => exact fun s => ih (s.deleteFtsChunk c)
  have hmem : ∀ x, x ∈ (Store.chunks paths).flatten ↔ x ∈ paths := by
    intro x
    rw [List.mem_flatten]
    exact mem_chunksOf (n := 450) (by decide)
  unfold Store.removeFilesRows
  rw [columns_removeChunks, Store.deleteFtsForFilePaths, hfts]
  simp only [GraphRows.deleteEdges, GraphRows.deleteNodes, KeyTable.deleteWhere, hmem]

theorem columns_insertFts {s s' : Store} {paths : List String}
    (h : s.insertFtsForFilePaths paths = some s') : s'.columns render = s.columns render := by
  unfold Store.insertFtsForFilePaths at h
  split at h
  · cases h
    rfl
  · obtain ⟨fts, -, rfl⟩ := Option.map_eq_some_iff.mp h
    rfl

theorem map_batchNodes (batch : List Store.FileBatchItem) :
    (((Store.batchNodes batch).map fun n =>
        (({ n.1 with extra := extraJson n.1.extra } : NodeInput), n.2)).map fun n =>
      n.1.columns n.2.1 n.2.2 (columnText render n.1.extra))
      = (typedFormat render).nodeColumns batch := by
  unfold Store.batchNodes BatchFormat.nodeColumns
  rw [List.map_map, List.map_flatMap]
  congr 1
  funext item
  rw [List.map_map]
  refine List.map_congr_left fun n _ => ?_
  simp only [Function.comp, columnText_extraJson]
  rfl

theorem columns_storeFileBatch {s s' : Store} {batch : List Store.FileBatchItem}
    (h : s.storeFileBatch batch = some s') :
    s'.columns render = storeRows (typedFormat render) (s.columns render) batch := by
  unfold Store.storeFileBatch Store.storeBatch at h
  rw [columns_insertFts render h, firstEdges_eq, columns_insertEdges]
  unfold storeRows
  change GraphRows.insertEdges _ _ = GraphRows.insertEdges _ _
  congr 1
  have hnodes := columns_upsertNodes render
    ((Store.batchNodes batch).map fun n => ({ n.1 with extra := extraJson n.1.extra }, n.2))
    (s.removeFilesRows (batch.map Store.FileBatchItem.filePath)).nodes
  rw [map_batchNodes] at hnodes
  have hrem := columns_removeFilesRows render s (batch.map Store.FileBatchItem.filePath)
  rw [show batch.map (typedFormat render).filePath = batch.map Store.FileBatchItem.filePath
    from rfl, ← hrem]
  simp only [Store.columns, GraphRows.insertNodes, hnodes]

/-! ## Runs of batches -/

/-- A call of `store_file_batch`, with the statements that fail and the sizes of its buffers. -/
structure BatchCall where
  fails : Nat → Bool
  nodeInsertRows : Nat
  edgeInsertRows : Nat
  bulk : Bool
  batch : List Store.FileBatchItem

def BatchCall.run (call : BatchCall) (c : Conn) : Conn × Bool :=
  storeFileBatch render call.fails call.nodeInsertRows call.edgeInsertRows call.bulk c call.batch

/-- The connection after some calls, and the batches whose calls have succeeded. -/
def runCalls : List BatchCall → Conn → Conn × List (List Store.FileBatchItem)
  | [], c => (c, [])
  | call :: calls, c =>
      let stored := call.run render c
      let rest := runCalls calls stored.1
      (rest.1, if stored.2 then call.batch :: rest.2 else rest.2)

/-- Over any run of calls, with whatever statements failing in each and whatever buffers, the
tables hold the columns of the store in which the batches of the successful calls are stored one
after the other. -/
theorem runCalls_refines {calls : List BatchCall} {c : Conn} {s s' : Store}
    (hc : c.rows = s.columns render)
    (h : (runCalls render calls c).2.foldlM Store.storeFileBatch s = some s') :
    (runCalls render calls c).1.rows = s'.columns render := by
  induction calls generalizing c s with
  | nil => exact Option.some.inj h ▸ hc
  | cons call calls ih =>
      simp only [runCalls] at h ⊢
      rcases inTransaction_cases call.fails (fun c => storeBatchTx call.fails call.nodeInsertRows
        call.edgeInsertRows (typedFormat render) (!call.bulk) c call.batch) c with
        ⟨hfail, hkept⟩ | ⟨hok, hbody⟩
      · have hflag : (call.run render c).2 = false := hfail
        rw [hflag] at h
        exact ih ((congrArg Conn.rows hkept).trans hc) h
      · have hflag : (call.run render c).2 = true := hok
        rw [hflag, if_pos rfl, List.foldlM_cons] at h
        obtain ⟨s₁, h₁, h⟩ := Option.bind_eq_some_iff.mp h
        refine ih ?_ h
        rw [columns_storeFileBatch render h₁, ← hc]
        exact storeBatchTx_rows hbody

theorem runCalls_refines_two :
    let item : Store.FileBatchItem := {
      filePath := "a.py", nodes := [{ kind := "File", name := "a.py", filePath := "a.py" }]
      edges := [], fileHash := "h", mtimeNs := 0 }
    let calls : List BatchCall :=
      [⟨fun n => n = 2, 1875, 3000, false, [item]⟩, ⟨fun _ => false, 1, 1, true, [item]⟩]
    let ran := runCalls (fun _ => "") calls { rows := ({} : Store).columns fun _ => "" }
    ran.2 = [[item]] ∧ ∃ s', Store.storeFileBatch {} [item] = some s' ∧
      ran.1.rows = s'.columns fun _ => "" := by
  refine ⟨rfl, _, rfl, runCalls_refines (fun _ => "") (s := {}) rfl ?_⟩
  rfl

end Dagayn
