import Dagayn.FtsSync

/-!
# The signatures of the nodes

`nodes.signature` is filled by a pass over the rows that have none
(`compute_missing_signatures`), from the kind, the name, the parameters and the return type of
a row. No statement that writes a node names the column: a new row has no signature, and a row
that an `ON CONFLICT` updates keeps the one it has. So a signature stays right as long as no
operation gives a row that has one other values to render it from. `keepsSignatures` is that
condition on the operation and the store it meets; it is exact at every step
(`rendered_write_iff`), and along a run that meets it every signature is right
(`rendered_of_reach`). A file that is replaced loses its rows, so that this never fails there;
a row updated in place is what fails (`not_rendered_of_run`).
-/

namespace Dagayn

namespace Signatures

open NodeTable Store

/-- `substr(text, 1, 512)`. -/
def substr512 (text : String) : String := .ofList (text.toList.take 512)

/-- The `CASE` of `compute_missing_signatures`. -/
def signatureOf (n : NodeInput) : String :=
  if n.kind = "Function" ∨ n.kind = "Test" then
    substr512 ("def " ++ n.name ++ "(" ++ n.params.getD "" ++ ")" ++
      match n.returnType with
      | some returnType => " -> " ++ returnType
      | none => "")
  else if n.kind = "Class" then substr512 ("class " ++ n.name)
  else substr512 n.name

/-! ## Node writes -/

def removes : StoreOp → NodeRow → Bool
  | .storeFileBatch batch, r => r.input.filePath ∈ batch.map FileBatchItem.filePath
  | .storeFileBatchJson batch, r => r.input.filePath ∈ batch.map FileBatchItem.filePath
  | .removeFileData path, r => r.input.filePath = path
  | .removeFilesData paths, r => r.input.filePath ∈ paths
  | .replaceManifestBridges extractorId _ _, r =>
      r.input.kind = "File" && ofExtractor extractorId r.input.extra
  | _, _ => false

/-- The nodes an operation writes over the rows of their names. The manifest bridges leave the
row of a `File` node as it is. -/
def writes : StoreOp → List NodeInput
  | .storeFileBatch batch => (batchNodes batch).map Prod.fst
  | .storeFileBatchJson batch => (batchNodes batch).map Prod.fst
  | .upsertNode node _ _ => [node]
  | .replaceManifestBridges _ nodes _ => nodes.filter (·.kind ≠ "File")
  | _ => []

def lastSignature (inputs : List NodeInput) (q : String) : Option String :=
  ((inputs.filter (·.qualified = q)).getLast?).map signatureOf

theorem lastSignature_append (inputs : List NodeInput) (n : NodeInput) (q : String) :
    lastSignature (inputs ++ [n]) q =
      if n.qualified = q then some (signatureOf n) else lastSignature inputs q := by
  unfold lastSignature
  rw [List.filter_append]
  by_cases hq : n.qualified = q <;> simp [hq]

theorem lastSignature_map (f : Json → Json) (inputs : List NodeInput) (q : String) :
    lastSignature (inputs.map fun n => { n with extra := f n.extra }) q =
      lastSignature inputs q := by
  have hq : ∀ n : NodeInput, ({ n with extra := f n.extra } : NodeInput).qualified
      = n.qualified := fun _ => rfl
  have hs : ∀ n : NodeInput, signatureOf { n with extra := f n.extra } = signatureOf n :=
    fun _ => rfl
  simp only [lastSignature, List.filter_map, Function.comp_def, hq, List.getLast?_map,
    Option.map_map, hs]

/-- From one table to the next: the rows that are not gone keep their ids and names and render
as the last write to their name, all other rows are new. -/
structure Rewritten (gone : NodeRow → Bool) (latest : String → Option String)
    (t t' : NodeTable) : Prop where
  seq_le : t.seq ≤ t'.seq
  row : ∀ r' ∈ t'.rows, t.seq < r'.id ∨ ∃ r ∈ t.rows, gone r = false ∧ r.id = r'.id ∧
    signatureOf r'.input = (latest r.qualifiedName).getD (signatureOf r.input)
  kept : ∀ r ∈ t.rows, gone r = false →
    ∃ r' ∈ t'.rows, r'.id = r.id ∧ r'.qualifiedName = r.qualifiedName

variable {gone : NodeRow → Bool} {latest : String → Option String} {t t₁ t' : NodeTable}

theorem row_unique {r r' : NodeRow} (hr : r ∈ t.rows) (hr' : r' ∈ t.rows) (h : r.id = r'.id) :
    r = r' :=
  List.inj_on_of_nodup_map t.ids_nodup hr hr' h

theorem not_seq_lt {r : NodeRow} (hr : r ∈ t.rows) : ¬ t.seq < r.id :=
  Nat.not_lt.mpr (t.ids_le r hr)

theorem Rewritten.of_filter (hseq : t'.seq = t.seq)
    (h : ∀ r, r ∈ t'.rows ↔ r ∈ t.rows ∧ gone r = false) :
    Rewritten gone (fun _ => none) t t' where
  seq_le := hseq.ge
  row r' hr' := .inr ⟨r', ((h r').mp hr').1, ((h r').mp hr').2, rfl, rfl⟩
  kept r hr hgone := ⟨r, (h r).mpr ⟨hr, hgone⟩, rfl, rfl⟩

theorem Rewritten.congr {latest' : String → Option String} (h : Rewritten gone latest t t')
    (heq : ∀ r ∈ t.rows, gone r = false → latest' r.qualifiedName = latest r.qualifiedName) :
    Rewritten gone latest' t t' where
  seq_le := h.seq_le
  row r' hr' := by
    refine (h.row r' hr').imp_right ?_
    rintro ⟨r, hr, hgone, hid, htext⟩
    exact ⟨r, hr, hgone, hid, (heq r hr hgone).symm ▸ htext⟩
  kept := h.kept

theorem Rewritten.upsert (h : Rewritten gone latest t t₁) (n : NodeInput) (hash : String)
    (mtime : Int) (keepHash : Bool) :
    Rewritten gone (fun q => if n.qualified = q then some (signatureOf n) else latest q) t
      (t₁.upsert n hash mtime keepHash) := by
  have hu := upserted_upsert t₁ n hash mtime keepHash
  have hname : ∀ r ∈ t.rows, ∀ r₁ ∈ t₁.rows, gone r = false → r.id = r₁.id →
      r₁.qualifiedName = r.qualifiedName := by
    intro r hr r₁ hr₁ hgone hid
    obtain ⟨r₂, hr₂, hid₂, hname⟩ := h.kept r hr hgone
    rw [row_unique hr₁ hr₂ (hid.symm.trans hid₂.symm)]
    exact hname
  refine ⟨h.seq_le.trans hu.seq_le, fun r' hr' => ?_, fun r hr hgone => ?_⟩
  · rcases hu.row r' hr' with ⟨hne, hr₁⟩ | ⟨-, hin, ⟨r₀, hr₀, hid, hq⟩ | ⟨hlt, -⟩⟩
    · refine (h.row r' hr₁).imp_right ?_
      rintro ⟨r, hr, hgone, hid, htext⟩
      refine ⟨r, hr, hgone, hid, ?_⟩
      rw [if_neg fun heq => hne ((hname r hr r' hr₁ hgone hid).trans heq.symm)]
      exact htext
    · rw [← hid]
      refine (h.row r₀ hr₀).imp_right ?_
      rintro ⟨r, hr, hgone, hid₀, -⟩
      refine ⟨r, hr, hgone, hid₀, ?_⟩
      rw [if_pos (hq.symm.trans (hname r hr r₀ hr₀ hgone hid₀)), hin]
      rfl
    · exact .inl (Nat.lt_of_le_of_lt h.seq_le hlt)
  · obtain ⟨r₁, hr₁, hid, hn⟩ := h.kept r hr hgone
    obtain ⟨r', hr', hid'⟩ := mem_ids.mp (hu.ids r₁.id (mem_ids.mpr ⟨r₁, hr₁, rfl⟩))
    refine ⟨r', hr', hid'.trans hid, ?_⟩
    rw [← hn]
    rcases hu.row r' hr' with ⟨-, hold⟩ | ⟨hq, -, ⟨r₀, hr₀, hid₀, hq₀⟩ | ⟨hlt, -⟩⟩
    · rw [row_unique hold hr₁ hid']
    · rw [hq, ← hq₀, row_unique hr₀ hr₁ (hid₀.trans hid')]
    · exact absurd (hid' ▸ hlt) (not_seq_lt hr₁)

theorem Rewritten.upsertNodes (h : Rewritten gone (fun _ => none) t t₁)
    (inputs : List (NodeInput × String × Int)) :
    Rewritten gone (lastSignature (inputs.map Prod.fst)) t (upsertNodes t₁ inputs) := by
  induction inputs using List.reverseRecOn with
  | nil => exact h
  | append_singleton inputs n ih =>
      have hstep : Store.upsertNodes t₁ (inputs ++ [n])
          = (Store.upsertNodes t₁ inputs).upsert n.1 n.2.1 n.2.2 false := by
        simp [Store.upsertNodes]
      rw [hstep, List.map_append, List.map_singleton]
      exact (ih.upsert n.1 n.2.1 n.2.2 false).congr fun r _ _ => lastSignature_append _ _ _

/-- A `File` node that has a row is passed over; one that has none writes no row of before. -/
theorem Rewritten.bridgeNode {acc : NodeTable × List String} (h : Rewritten gone latest t acc.1)
    (n : NodeInput) :
    Rewritten gone
      (fun q => if n.kind ≠ "File" ∧ n.qualified = q then some (signatureOf n) else latest q) t
      (bridgeNode acc n).1 := by
  unfold Store.bridgeNode
  by_cases hskip : (n.kind = "File" && (acc.1.find n.qualified).isSome) = true
  · rw [if_pos hskip]
    simp only [Bool.and_eq_true, decide_eq_true_eq] at hskip
    exact h.congr fun r _ _ => if_neg fun hne => hne.1 hskip.1
  · rw [if_neg hskip]
    refine (h.upsert { n with extra := extraJson n.extra } "" 0 true).congr fun r hr hgone => ?_
    by_cases hkind : n.kind = "File"
    · have hnone : (acc.1.find n.qualified).isSome = false := by
        simpa [hkind] using hskip
      have hne : n.qualified ≠ r.qualifiedName := by
        intro heq
        obtain ⟨r₁, hr₁, -, hname⟩ := h.kept r hr hgone
        have hfind : acc.1.find n.qualified = none := by
          simpa [Option.isSome_eq_false_iff] using hnone
        exact List.find?_eq_none.mp hfind r₁ hr₁ (by simp [hname, heq])
      have hne' : ({ n with extra := extraJson n.extra } : NodeInput).qualified
          ≠ r.qualifiedName := hne
      rw [if_neg fun hboth => hboth.1 hkind, if_neg hne']
    · simp only [ne_eq, hkind, not_false_eq_true, true_and]
      rfl

theorem Rewritten.bridgeNodes (h : Rewritten gone (fun _ => none) t t₁) (touched : List String)
    (nodes : List NodeInput) :
    Rewritten gone (lastSignature (nodes.filter (·.kind ≠ "File"))) t
      (nodes.foldl Store.bridgeNode (t₁, touched)).1 := by
  induction nodes using List.reverseRecOn with
  | nil => exact h
  | append_singleton nodes n ih =>
      rw [List.foldl_append, List.foldl_cons, List.foldl_nil]
      refine (Rewritten.bridgeNode ih n).congr fun r _ _ => ?_
      rw [List.filter_append]
      by_cases hkind : n.kind = "File"
      · simp [hkind]
      · have hone : [n].filter (·.kind ≠ "File") = [n] := by simp [hkind]
        rw [hone, lastSignature_append]
        simp [hkind]

/-! ## What an operation does to the nodes -/

variable {s s' : Store}

theorem insertFts_nodes {paths : List String} (hs : s.insertFtsForFilePaths paths = some s') :
    s'.nodes = s.nodes := by
  unfold insertFtsForFilePaths at hs
  split at hs
  · exact Option.some.inj hs ▸ rfl
  · obtain ⟨fts, -, rfl⟩ := Option.map_eq_some_iff.mp hs
    rfl

theorem deleteFts_nodes (s : Store) (paths : List String) :
    (s.deleteFtsForFilePaths paths).nodes = s.nodes :=
  (foldl_deleteFtsChunk (chunks paths) s).1

theorem syncFtsTx_nodes {paths : List String} (hs : s.syncFtsForFilePathsTx paths = some s') :
    s'.nodes = s.nodes := by
  unfold syncFtsForFilePathsTx at hs
  split at hs
  · exact Option.some.inj hs ▸ rfl
  · exact (insertFts_nodes hs).trans (deleteFts_nodes s paths)

theorem rebuildFts_nodes (hs : s.rebuildFtsIndex = some s') : s'.nodes = s.nodes := by
  obtain ⟨fts, -, rfl⟩ := Option.map_eq_some_iff.mp hs
  rfl

theorem syncFts_nodes {paths : List String} (hs : s.syncFtsForFilePaths paths = some s') :
    s'.nodes = s.nodes := by
  unfold syncFtsForFilePaths at hs
  split at hs
  · exact Option.some.inj hs ▸ rfl
  · split at hs
    · exact rebuildFts_nodes hs
    · exact syncFtsTx_nodes hs

theorem upsertFts_nodes {id : Nat} (hs : s.upsertFtsForNodeId id = some s') :
    s'.nodes = s.nodes := by
  unfold upsertFtsForNodeId at hs
  split at hs
  · obtain ⟨fts, -, rfl⟩ := Option.map_eq_some_iff.mp hs
    rfl
  · exact Option.some.inj hs ▸ rfl

theorem foldl_removeRowsChunk_seq : ∀ (cs : List (List String)) (s : Store),
    (cs.foldl removeRowsChunk s).nodes.seq = s.nodes.seq
  | [], _ => rfl
  | c :: cs, s => foldl_removeRowsChunk_seq cs (s.removeRowsChunk c)

theorem rewritten_removeFilesRows (s : Store) (paths : List String) :
    Rewritten (fun r => r.input.filePath ∈ paths) (fun _ => none) s.nodes
      (s.removeFilesRows paths).nodes := by
  refine .of_filter ?_ fun r => ?_
  · rw [removeFilesRows, foldl_removeRowsChunk_seq, deleteFts_nodes]
  · rw [removeFilesRows_rows, decide_eq_false_iff_not]

theorem rewritten_storeBatch {f : Json → Json} {batch : List FileBatchItem}
    (hs : s.storeBatch f batch = some s') :
    Rewritten (fun r => r.input.filePath ∈ batch.map FileBatchItem.filePath)
      (lastSignature ((batchNodes batch).map Prod.fst)) s.nodes s'.nodes := by
  have hnodes := insertFts_nodes hs
  rw [(foldl_insertEdge f _ _).1] at hnodes
  rw [hnodes]
  refine ((rewritten_removeFilesRows s _).upsertNodes _).congr fun r _ _ => ?_
  rw [← lastSignature_map f, List.map_map, List.map_map]
  rfl

theorem rewritten_apply {op : StoreOp} (hs : s.apply op = some s') :
    Rewritten (removes op) (lastSignature (writes op)) s.nodes s'.nodes := by
  have hsame : ∀ {t : NodeTable}, t = s.nodes →
      Rewritten (fun _ => false) (fun _ => none) s.nodes t := by
    rintro _ rfl
    exact .of_filter rfl fun r => (and_iff_left rfl).symm
  cases op with
  | storeFileBatch batch => exact rewritten_storeBatch hs
  | storeFileBatchJson batch => exact rewritten_storeBatch hs
  | removeFileData path =>
      obtain rfl : s.removeFileData path = s' := Option.some.inj hs
      rw [removeFileData_eq]
      have h := rewritten_removeFilesRows s [path]
      simp only [List.mem_singleton] at h
      exact h
  | removeFilesData paths =>
      obtain rfl : s.removeFilesData paths = s' := Option.some.inj hs
      exact rewritten_removeFilesRows s paths
  | upsertNode node hash mtime =>
      have hup := (hsame rfl).upsert { node with extra := extraJson node.extra } hash mtime false
      simp only [apply, upsertNode] at hs
      split at hs
      · rw [upsertFts_nodes hs]
        exact hup.congr fun r _ _ => lastSignature_append [] node r.qualifiedName
      · cases hs
  | replaceManifestBridges extractorId nodes edges =>
      have hleft : Rewritten (removes (.replaceManifestBridges extractorId nodes edges))
          (fun _ => none) s.nodes (s.nodes.deleteWhere fun r =>
            r.input.kind = "File" && ofExtractor extractorId r.input.extra) := by
        refine .of_filter rfl fun r => ?_
        simp only [deleteWhere, List.mem_filter, removes, Bool.not_eq_true']
      have hb := hleft.bridgeNodes [] nodes
      rw [syncFtsTx_nodes hs, (foldl_upsertEdge edges _).1]
      exact hb
  | syncFtsForFilePaths paths => exact hsame (syncFts_nodes hs)
  | rebuildFtsIndex => exact hsame (rebuildFts_nodes hs)

/-! ## The signature column -/

/-- A store with the column `signature`, by the id of the row. Ids are given out once, so the
ids to come have none. -/
structure SignedStore where
  store : Store := {}
  signature : Nat → Option String := fun _ => none
  unsigned_of_seq_lt : ∀ i, store.nodes.seq < i → signature i = none := by simp

namespace SignedStore

inductive SignedOp where
  | write (op : StoreOp)
  | computeMissingSignatures

/-- A write that goes through leaves the column as it is. -/
def write (s : SignedStore) (op : StoreOp) : Option SignedStore :=
  match h : s.store.apply op with
  | none => none
  | some store =>
      some { store := store
             signature := s.signature
             unsigned_of_seq_lt := fun i hi =>
               s.unsigned_of_seq_lt i (Nat.lt_of_le_of_lt (rewritten_apply h).seq_le hi) }

def computeMissingSignatures (s : SignedStore) : SignedStore where
  store := s.store
  signature i :=
    match s.signature i with
    | some text => some text
    | none => (s.store.nodes.rows.find? (·.id = i)).map fun r => signatureOf r.input
  unsigned_of_seq_lt i hi := by
    have hnone : s.store.nodes.rows.find? (·.id = i) = none := by
      refine List.find?_eq_none.mpr fun r hr hid => not_seq_lt hr ?_
      rwa [of_decide_eq_true hid]
    simp only [s.unsigned_of_seq_lt i hi, hnone, Option.map_none]

def apply (s : SignedStore) : SignedOp → Option SignedStore
  | .write op => s.write op
  | .computeMissingSignatures => some s.computeMissingSignatures

/-- Every signature is the rendering of its row. -/
def Rendered (s : SignedStore) : Prop :=
  ∀ r ∈ s.store.nodes.rows, s.signature r.id = none ∨
    s.signature r.id = some (signatureOf r.input)

/-- The last node an operation writes over a row that stays and has a signature renders as the
row does. -/
def keepsSignatures (s : SignedStore) : SignedOp → Prop
  | .write op => ∀ r ∈ s.store.nodes.rows, removes op r = false → s.signature r.id ≠ none →
      (lastSignature (writes op) r.qualifiedName).all (· = signatureOf r.input) = true
  | .computeMissingSignatures => True

instance (s : SignedStore) : Decidable s.Rendered :=
  inferInstanceAs (Decidable (∀ r ∈ s.store.nodes.rows, _))

instance (s : SignedStore) : (op : SignedOp) → Decidable (s.keepsSignatures op)
  | .write _ => inferInstanceAs (Decidable (∀ r ∈ s.store.nodes.rows, _ → _ → _))
  | .computeMissingSignatures => inferInstanceAs (Decidable True)

variable {s s' : SignedStore}

theorem write_eq_some {op : StoreOp} (h : s.write op = some s') :
    s.store.apply op = some s'.store ∧ s'.signature = s.signature := by
  unfold write at h
  split at h
  · cases h
  · rename_i store hs
    obtain rfl := Option.some.inj h
    exact ⟨hs, rfl⟩

theorem rendered_write_iff (h : s.Rendered) {op : StoreOp} (hs : s.write op = some s') :
    s'.Rendered ↔ s.keepsSignatures (.write op) := by
  obtain ⟨happly, hsig⟩ := write_eq_some hs
  have hrw := rewritten_apply happly
  constructor
  · intro h' r hr hgone hsome
    obtain ⟨r', hr', hid, -⟩ := hrw.kept r hr hgone
    rcases hrw.row r' hr' with hlt | ⟨r₀, hr₀, -, hid₀, hrender⟩
    · exact absurd (hid ▸ hlt) (not_seq_lt hr)
    · obtain rfl := row_unique hr₀ hr (hid₀.trans hid)
      have hold := (h r₀ hr).resolve_left hsome
      have hnew := h' r' hr'
      rw [hsig, hid, hold, hrender] at hnew
      cases hlast : lastSignature (writes op) r₀.qualifiedName with
      | none => rfl
      | some text =>
          rw [hlast, Option.getD_some] at hnew
          exact decide_eq_true (Option.some.inj (hnew.resolve_left (Option.some_ne_none _))).symm
  · intro hok r' hr'
    rw [hsig]
    rcases hrw.row r' hr' with hlt | ⟨r, hr, hgone, hid, hrender⟩
    · exact .inl (s.unsigned_of_seq_lt _ hlt)
    · rw [← hid]
      by_cases hnone : s.signature r.id = none
      · exact .inl hnone
      · have hold := (h r hr).resolve_left hnone
        right
        rw [hold, hrender]
        cases hlast : lastSignature (writes op) r.qualifiedName with
        | none => rfl
        | some text =>
            have hsame := hok r hr hgone hnone
            rw [hlast] at hsame
            rw [Option.getD_some, of_decide_eq_true hsame]

theorem rendered_computeMissingSignatures (h : s.Rendered) :
    s.computeMissingSignatures.Rendered := by
  intro r hr
  right
  have hfind : s.store.nodes.rows.find? (·.id = r.id) = some r := by
    cases hf : s.store.nodes.rows.find? (·.id = r.id) with
    | none => exact absurd (by simp) (List.find?_eq_none.mp hf r hr)
    | some r' =>
        have hid : r'.id = r.id := by simpa using List.find?_some hf
        rw [row_unique (List.mem_of_find?_eq_some hf) hr hid]
  simp only [computeMissingSignatures, hfind, Option.map_some]
  rcases h r hr with hnone | hsome
  · simp only [hnone]
  · simp only [hsome]

theorem rendered_apply (h : s.Rendered) {op : SignedOp} (hok : s.keepsSignatures op)
    (hs : s.apply op = some s') : s'.Rendered := by
  cases op with
  | write op => exact (rendered_write_iff h hs).mpr hok
  | computeMissingSignatures =>
      obtain rfl := Option.some.inj hs
      exact rendered_computeMissingSignatures h

/-- From any store whose signatures are right, along every run of writes and passes whose
steps meet the condition, each signature is missing or the rendering of its row. -/
theorem rendered_of_reach (h : Reach Rendered apply keepsSignatures s) : s.Rendered :=
  h.invariant (fun _ h0 => h0) fun _ _ _ _ hr hok hs => rendered_apply hr hok hs

/-! ## A signature that stays behind -/

def parseFunction (params : String) : NodeInput where
  kind := "Function"
  name := "parse"
  filePath := "app.py"
  language := "python"
  params := some params

theorem rendered_empty : Rendered {} := fun _ hr => absurd hr List.not_mem_nil

/-- A function is written, signed, and written again with the same parameters. -/
theorem rendered_of_reach_same :
    ∃ s, Reach Rendered apply keepsSignatures s ∧ s.Rendered ∧
      s.signature 1 = some "def parse(text)" := by
  have hrun : (runSteps apply keepsSignatures {}
      [.write (.upsertNode (parseFunction "text") "" 0), .computeMissingSignatures,
        .write (.upsertNode (parseFunction "text") "1" 7)]).map (·.signature 1)
      = some (some "def parse(text)") := by decide +kernel
  obtain ⟨s, hs, hsig⟩ := Option.map_eq_some_iff.mp hrun
  have hr := reach_runSteps (.start rendered_empty) hs
  exact ⟨s, hr, rendered_of_reach hr, hsig⟩

/-- A function is written and signed; written again with other parameters it keeps the
signature of the old ones. -/
theorem not_rendered_of_run :
    ∃ s, Rendered {} ∧
      runSteps apply anyStep {}
        [.write (.upsertNode (parseFunction "text") "" 0), .computeMissingSignatures,
          .write (.upsertNode (parseFunction "text, strict") "" 0)] = some s ∧
      s.signature 1 = some "def parse(text)" ∧ ¬ s.Rendered := by
  have hrun : (runSteps apply anyStep {}
      [.write (.upsertNode (parseFunction "text") "" 0), .computeMissingSignatures,
        .write (.upsertNode (parseFunction "text, strict") "" 0)]).map
          (fun s => (s.signature 1, decide s.Rendered))
      = some (some "def parse(text)", false) := by decide +kernel
  obtain ⟨s, hs, hpair⟩ := Option.map_eq_some_iff.mp hrun
  obtain ⟨hsig, hnot⟩ := Prod.mk.inj hpair
  exact ⟨s, rendered_empty, hs, hsig, of_decide_eq_false hnot⟩

end SignedStore

end Signatures

end Dagayn
