import Dagayn.BatchRows

/-!
# The two batch stores on one batch

`store_file_batch` gets typed values and writes their `extra` itself;
`store_file_batch_json` gets a text and keeps the `extra` of each node and edge as
the part of the text it came in. `Encodes` says that a raw batch is some encoding of
a typed one: it has the same fields, and `serde_json` reads each `extra` as the
typed value.

The typed columns are the raw columns with `extra` written again (`normNode`,
`normEdge`), so the two stores leave the same rows exactly if writing it again
changes nothing where a row is stored.
-/

namespace Dagayn

section Encoding

variable (render : Json → String) (parse : String → Option Json)

structure EncodesNode (r : RawCompactNodeInput) (n : NodeInput) : Prop where
  kind : n.kind = r.kind
  name : n.name = r.name
  filePath : n.filePath = r.filePath
  lineStart : n.lineStart = r.lineStart
  lineEnd : n.lineEnd = r.lineEnd
  language : n.language = r.language
  parentName : n.parentName = r.parentName
  params : n.params = r.params
  returnType : n.returnType = r.returnType
  modifiers : n.modifiers = r.modifiers
  isTest : n.isTest = r.isTest
  extra : parse r.extra = some n.extra

structure EncodesEdge (r : RawCompactEdgeInput) (e : EdgeInput) : Prop where
  key : e.key = r.key
  extra : parse r.extra = some e.extra

structure EncodesItem (r : RawCompactFileBatchItem) (f : Store.FileBatchItem) : Prop where
  filePath : f.filePath = r.filePath
  nodes : List.Forall₂ (EncodesNode parse) r.nodes f.nodes
  edges : List.Forall₂ (EncodesEdge parse) r.edges f.edges
  fileHash : f.fileHash = r.fileHash
  mtimeNs : f.mtimeNs = r.mtimeNs

/-- The raw batch is an encoding of the typed one. -/
def Encodes (raw : List RawCompactFileBatchItem) (typed : List Store.FileBatchItem) : Prop :=
  List.Forall₂ (EncodesItem parse) raw typed

/-- The text `extra_json` writes for the value of a text. -/
def normText (text : String) : String :=
  match parse text with
  | some v => extraText render v
  | none => text

def normNode (n : NodeColumns) : NodeColumns := { n with extra := normText render parse n.extra }

def normEdge (e : EdgeColumns) : EdgeColumns := { e with extra := normText render parse e.extra }

/-- The `extra` of every node and edge that is stored is the text `extra_json` writes
for it. -/
def CanonicalExtras (raw : List RawCompactFileBatchItem) : Prop :=
  (∀ q n, lastOf NodeColumns.qualifiedName q ((rawFormat parse).nodeColumns raw) = some n →
    ∀ v, parse n.extra = some v → n.extra = extraText render v) ∧
  (∀ e ∈ (rawFormat parse).firstEdges raw,
    ∀ v, parse e.extra = some v → e.extra = extraText render v)

variable {render parse}

theorem columns_of_encodesNode {r : RawCompactNodeInput} {n : NodeInput}
    (h : EncodesNode parse r n) (hash : String) (mtime : Int) :
    n.columns hash mtime (extraText render n.extra) =
      normNode render parse (r.columns hash mtime) := by
  obtain ⟨h1, h2, h3, h4, h5, h6, h7, h8, h9, h10, h11, h12⟩ := h
  have htext : normText render parse r.extra = extraText render n.extra := by
    unfold normText
    rw [h12]
  simp only [NodeInput.columns, normNode, RawCompactNodeInput.columns, NodeInput.qualified,
    h1, h2, h3, h4, h5, h6, h7, h8, h9, h10, h11, htext]

theorem nodeColumns_of_encodes {raw : List RawCompactFileBatchItem}
    {typed : List Store.FileBatchItem} (h : Encodes parse raw typed) :
    (typedFormat render).nodeColumns typed
      = ((rawFormat parse).nodeColumns raw).map (normNode render parse) := by
  induction h with
  | nil => rfl
  | cons hi hrest ih =>
      rename_i r f raw typed
      have hnodes : f.nodes.map ((typedFormat render).node f)
          = (r.nodes.map ((rawFormat parse).node r)).map (normNode render parse) := by
        have hmap : ∀ {rs ns}, List.Forall₂ (EncodesNode parse) rs ns →
            ns.map ((typedFormat render).node f)
              = (rs.map ((rawFormat parse).node r)).map (normNode render parse) := by
          intro rs ns hn
          induction hn with
          | nil => rfl
          | cons hh _ ihn =>
              rw [List.map_cons, List.map_cons, List.map_cons, ihn]
              congr 1
              change NodeInput.columns _ f.fileHash f.mtimeNs _ = _
              rw [hi.fileHash, hi.mtimeNs]
              exact columns_of_encodesNode hh _ _
        exact hmap hi.nodes
      change f.nodes.map _ ++ (typedFormat render).nodeColumns typed
        = (r.nodes.map _ ++ (rawFormat parse).nodeColumns raw).map _
      rw [List.map_append, hnodes, ih]

theorem paths_of_encodes {raw : List RawCompactFileBatchItem}
    {typed : List Store.FileBatchItem} (h : Encodes parse raw typed) :
    typed.map Store.FileBatchItem.filePath = raw.map RawCompactFileBatchItem.filePath := by
  induction h with
  | nil => rfl
  | cons hi _ ih => rw [List.map_cons, List.map_cons, hi.filePath, ih]

theorem edges_of_encodes {raw : List RawCompactFileBatchItem}
    {typed : List Store.FileBatchItem} (h : Encodes parse raw typed) :
    List.Forall₂ (EncodesEdge parse) (raw.flatMap RawCompactFileBatchItem.edges)
      (typed.flatMap Store.FileBatchItem.edges) := by
  induction h with
  | nil => exact .nil
  | cons hi _ ih =>
      rw [List.flatMap_cons, List.flatMap_cons]
      exact List.rel_append hi.edges ih

theorem normText_eq_iff {text : String} :
    normText render parse text = text ↔ ∀ v, parse text = some v → text = extraText render v := by
  unfold normText
  cases h : parse text with
  | none => simp
  | some v => simp [eq_comm]

theorem rawEdge_of_encodes (hempty : parse emptyObject = some (.obj []))
    {r : RawCompactEdgeInput} {e : EdgeInput} (h : EncodesEdge parse r e) :
    (rawFormat parse).edge r = some (edgeColumns r.key e.extra r.extra) := by
  have hvalue : rawExtraValue parse r.extra = some e.extra := by
    unfold rawExtraValue
    split
    · rename_i heq
      rw [← h.extra, heq, hempty]
    · exact h.extra
  change (rawExtraValue parse r.extra).map _ = _
  rw [hvalue]
  rfl

theorem edgeColumns_of_encodes (hempty : parse emptyObject = some (.obj []))
    {rs : List RawCompactEdgeInput} {es : List EdgeInput}
    (h : List.Forall₂ (EncodesEdge parse) rs es) :
    es.filterMap (typedFormat render).edge
      = (rs.filterMap (rawFormat parse).edge).map (normEdge render parse) := by
  induction h with
  | nil => rfl
  | cons he htail ih =>
      rename_i r e rs es
      rw [List.filterMap_cons, List.filterMap_cons, rawEdge_of_encodes hempty he, ih]
      have htext : normText render parse r.extra = extraText render e.extra := by
        unfold normText
        rw [he.extra]
      simp only [typedFormat, List.map_cons, normEdge, edgeColumns, he.key, htext]

theorem normEdges_eq_iff (hempty : parse emptyObject = some (.obj []))
    {rs : List RawCompactEdgeInput} {es : List EdgeInput}
    (h : List.Forall₂ (EncodesEdge parse) rs es) :
    (rs.filterMap (rawFormat parse).edge).map (normEdge render parse)
        = rs.filterMap (rawFormat parse).edge ↔
      ∀ r ∈ rs, ∀ v, parse r.extra = some v → r.extra = extraText render v := by
  induction h with
  | nil => simp
  | cons he htail ih =>
      rename_i r e rs es
      rw [List.filterMap_cons, rawEdge_of_encodes hempty he]
      simp only [List.map_cons, List.cons.injEq, ih, List.forall_mem_cons]
      refine and_congr ?_ Iff.rfl
      rw [← normText_eq_iff]
      simp [normEdge, edgeColumns]

theorem numberFrom_inj {α : Type} {seq : Nat} {as bs : List α}
    (h : numberFrom seq as = numberFrom seq bs) : as = bs := by
  rw [← map_snd_numberFrom seq as, h, map_snd_numberFrom]

theorem upsertAll_normNode (t : KeyTable NodeColumns.qualifiedName) (ns : List NodeColumns) :
    t.upsertAll (ns.map (normNode render parse)) = t.upsertAll ns ↔
      ∀ q n, lastOf NodeColumns.qualifiedName q ns = some n → normNode render parse n = n :=
  KeyTable.upsertAll_map_eq_iff (fun n : NodeColumns => { n with extra := "" })
    (fun n => show NodeColumns.qualifiedName { n with extra := "" } = n.qualifiedName from rfl)
    (normNode render parse) (fun _ => rfl) (fun _ => rfl) t ns

theorem storeRows_eq_iff (hempty : parse emptyObject = some (.obj [])) (g : GraphRows)
    {raw : List RawCompactFileBatchItem} {typed : List Store.FileBatchItem}
    (h : Encodes parse raw typed) :
    storeRows (typedFormat render) g typed = storeRows (rawFormat parse) g raw ↔
      CanonicalExtras render parse raw := by
  have hedges : List.Forall₂ (EncodesEdge parse) ((rawFormat parse).firstEdges raw)
      ((typedFormat render).firstEdges typed) :=
    forall₂_keepFirst (fun _ _ he => he.key) (edges_of_encodes h)
  have hE : (typedFormat render).edgeColumns typed
      = ((rawFormat parse).edgeColumns raw).map (normEdge render parse) :=
    edgeColumns_of_encodes hempty hedges
  have hpaths : typed.map (typedFormat render).filePath = raw.map (rawFormat parse).filePath :=
    paths_of_encodes h
  have hnodes : (storeRows (typedFormat render) g typed).nodes
        = (storeRows (rawFormat parse) g raw).nodes ↔
      ∀ q n, lastOf NodeColumns.qualifiedName q ((rawFormat parse).nodeColumns raw) = some n →
        ∀ v, parse n.extra = some v → n.extra = extraText render v := by
    rw [storeRows_nodes, storeRows_nodes, hpaths, nodeColumns_of_encodes h, upsertAll_normNode]
    refine forall_congr' fun q => forall_congr' fun n => forall_congr' fun _ => ?_
    rw [← normText_eq_iff]
    exact ⟨fun heq => congrArg NodeColumns.extra heq,
      fun heq => show ({ n with extra := _ } : NodeColumns) = n by rw [heq]⟩
  unfold CanonicalExtras
  rw [← hnodes, ← normEdges_eq_iff hempty hedges]
  constructor
  · intro heq
    refine ⟨congrArg GraphRows.nodes heq, ?_⟩
    have hedge := congrArg GraphRows.edges heq
    rw [(storeRows_stored (typedFormat render) g typed).edges,
      (storeRows_stored (rawFormat parse) g raw).edges, hpaths] at hedge
    have hcols := numberFrom_inj (List.append_cancel_left hedge)
    rw [hE] at hcols
    exact hcols
  · rintro ⟨hn, he⟩
    have hcols : (typedFormat render).edgeColumns typed = (rawFormat parse).edgeColumns raw :=
      hE.trans he
    have hE' : (storeRows (typedFormat render) g typed).edges
        = (storeRows (rawFormat parse) g raw).edges := by
      rw [(storeRows_stored (typedFormat render) g typed).edges,
        (storeRows_stored (rawFormat parse) g raw).edges, hpaths, hcols]
    have hS : (storeRows (typedFormat render) g typed).edgeSeq
        = (storeRows (rawFormat parse) g raw).edgeSeq := by
      unfold storeRows
      rw [insertEdges_edgeSeq, insertEdges_edgeSeq, hcols]
      rfl
    cases hA : storeRows (typedFormat render) g typed
    cases hB : storeRows (rawFormat parse) g raw
    rw [hA, hB] at hn hE' hS
    simp only at hn hE' hS
    rw [hn, hE', hS]

/-- A typed batch and an encoding of it, stored by the two functions from the same
database, leave the same rows exactly if the texts that are stored are canonical. -/
theorem same_rows_iff_canonical (hempty : parse emptyObject = some (.obj []))
    {raw : List RawCompactFileBatchItem} {typed : List Store.FileBatchItem}
    (h : Encodes parse raw typed) (c : Conn) {fails fails' : Nat → Bool}
    {nodeInsertRows edgeInsertRows nodeInsertRows' edgeInsertRows' : Nat} {bulk bulk' : Bool}
    (hok : (storeFileBatch render fails nodeInsertRows edgeInsertRows bulk c typed).2 = true)
    (hok' : (storeFileBatchJson parse fails' nodeInsertRows' edgeInsertRows' bulk' c raw).2
      = true) :
    (storeFileBatch render fails nodeInsertRows edgeInsertRows bulk c typed).1.rows
        = (storeFileBatchJson parse fails' nodeInsertRows' edgeInsertRows' bulk' c raw).1.rows ↔
      CanonicalExtras render parse raw := by
  have hrows : (storeFileBatch render fails nodeInsertRows edgeInsertRows bulk c typed).1.rows
      = storeRows (typedFormat render) c.rows typed := by
    rcases inTransaction_cases fails (fun c => storeBatchTx fails nodeInsertRows edgeInsertRows
      (typedFormat render) (!bulk) c typed) c with ⟨hfail, -⟩ | ⟨-, hbody⟩
    · exact absurd hok (by rw [storeFileBatch, hfail]; decide)
    · exact storeBatchTx_rows hbody
  have hrows' : (storeFileBatchJson parse fails' nodeInsertRows' edgeInsertRows' bulk' c raw).1.rows
      = storeRows (rawFormat parse) c.rows raw := by
    rcases inTransaction_cases fails' (fun c => storeBatchTx fails' nodeInsertRows'
      edgeInsertRows' (rawFormat parse) (!bulk') c raw) c with ⟨hfail, -⟩ | ⟨-, hbody⟩
    · exact absurd hok' (by rw [storeFileBatchJson, hfail]; decide)
    · exact storeBatchTx_rows hbody
  rw [hrows, hrows']
  exact storeRows_eq_iff hempty c.rows h

end Encoding

/-! ## An `extra` that is null -/

/-- `serde_json::from_str` on the two texts used here. -/
def readExtra (text : String) : Option Json :=
  if text = emptyObject then some (.obj []) else if text = "null" then some .null else none

theorem readExtra_empty : readExtra emptyObject = some (.obj []) := if_pos rfl

theorem readExtra_null : readExtra "null" = some .null := by
  rw [readExtra, if_neg (by decide +kernel), if_pos rfl]

/-- `serde_json::to_string` on the values used here. -/
def writeExtra : Json → String
  | .null => "null"
  | _ => emptyObject

def rawFile (extra : String) : RawCompactFileBatchItem where
  filePath := "a.py"
  nodes := [{ kind := "File", name := "a.py", filePath := "a.py", lineStart := 1, lineEnd := 1
              language := "python", parentName := none, params := none, returnType := none
              modifiers := none, isTest := false, extra := extra }]
  edges := []
  fileHash := "h"
  mtimeNs := 0

def typedFile (extra : Json) : Store.FileBatchItem where
  filePath := "a.py"
  nodes := [{ kind := "File", name := "a.py", filePath := "a.py", lineStart := 1, lineEnd := 1
              language := "python", extra := extra }]
  edges := []
  fileHash := "h"
  mtimeNs := 0

theorem encodes_file {text : String} {extra : Json} (h : readExtra text = some extra) :
    Encodes readExtra [rawFile text] [typedFile extra] :=
  .cons ⟨rfl, .cons ⟨rfl, rfl, rfl, rfl, rfl, rfl, rfl, rfl, rfl, rfl, rfl, h⟩ .nil, .nil, rfl,
    rfl⟩ .nil

def emptyConn : Conn where
  rows := { nodes := .empty, edges := [], edgeSeq := 0 }

/-- The `extra` column of `nodes`. -/
def extras (g : GraphRows) : List String := g.nodes.rows.map fun r => r.2.extra

theorem differ_null_extra :
    Encodes readExtra [rawFile "null"] [typedFile .null] ∧
      let typed := storeFileBatch writeExtra (fun _ => false) 1875 3000 false emptyConn
        [typedFile .null]
      let raw := storeFileBatchJson readExtra (fun _ => false) 1875 3000 false emptyConn
        [rawFile "null"]
      typed.2 = true ∧ raw.2 = true ∧ extras typed.1.rows = [emptyObject] ∧
        extras raw.1.rows = ["null"] ∧ typed.1.rows ≠ raw.1.rows := by
  refine ⟨encodes_file readExtra_null, by decide +kernel, by decide +kernel,
    by decide +kernel, by decide +kernel, fun heq => ?_⟩
  have hextra := congrArg extras heq
  revert hextra
  decide +kernel

theorem same_rows_empty_extra :
    (storeFileBatch writeExtra (fun _ => false) 1875 3000 false emptyConn
        [typedFile (.obj [])]).1.rows
      = (storeFileBatchJson readExtra (fun _ => false) 1875 3000 false emptyConn
          [rawFile emptyObject]).1.rows := by
  refine (same_rows_iff_canonical readExtra_empty (encodes_file readExtra_empty) emptyConn
    (by decide +kernel) (by decide +kernel)).mpr ⟨fun q n hlast v hv => ?_, fun e he => ?_⟩
  · have hmem := mem_of_lastOf hlast
    obtain rfl := List.mem_singleton.mp hmem
    change readExtra emptyObject = some v at hv
    obtain rfl : Json.obj [] = v := by
      rw [readExtra_empty] at hv
      exact Option.some.inj hv
    rfl
  · exact absurd he List.not_mem_nil

end Dagayn
