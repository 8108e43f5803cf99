import Dagayn.Runs
import Dagayn.Distinct
import Dagayn.Store
import Mathlib

/-!
# The search index follows the nodes

`nodes_fts` is kept by hand: no trigger ties its rows to `nodes`. `Synced` says its
rowids are exactly the node ids. Which operations keep it so is a condition on the
operation and the store it meets (`keepsSync`): all but two always do.

`replace_manifest_bridges` deletes the `File` nodes of its extractor and leaves
their search rows behind, since `delete_fts_for_file_paths_tx` finds rows through a
join with `nodes` and the nodes are gone by then. A batch store indexes the nodes of
the batch's files, so a new node that ends up in another file goes unindexed.
`synced_step_iff` shows that the condition is exact, step by step.
-/

namespace Dagayn

namespace NodeTable

/-! ## Upserts, one by one and in sequence -/

theorem mem_ids {t : NodeTable} {i : Nat} : i ∈ t.ids ↔ ∃ r ∈ t.rows, r.id = i := by
  simp [ids]

theorem mem_names {t : NodeTable} {q : String} :
    q ∈ t.names ↔ ∃ r ∈ t.rows, r.qualifiedName = q := by
  simp [names]

/-- What one upsert does to the table. -/
structure Upserted (t t' : NodeTable) (input : NodeInput) : Prop where
  seq_le : t.seq ≤ t'.seq
  ids : ∀ i ∈ t.ids, i ∈ t'.ids
  row : ∀ r ∈ t'.rows, (r.qualifiedName ≠ input.qualified ∧ r ∈ t.rows) ∨
    (r.qualifiedName = input.qualified ∧ r.input = input ∧
      ((∃ r₀ ∈ t.rows, r₀.id = r.id ∧ r₀.qualifiedName = input.qualified) ∨
        (t.seq < r.id ∧ input.qualified ∉ t.names)))
  names : ∀ q, q ∈ t'.names ↔ q ∈ t.names ∨ q = input.qualified

theorem upserted_upsert (t : NodeTable) (input : NodeInput) (hash : String) (mtime : Int)
    (keepHash : Bool) : Upserted t (t.upsert input hash mtime keepHash) input := by
  unfold upsert
  split
  · rename_i hq
    refine ⟨Nat.le_refl _, fun i hi => ?_, fun r hr => ?_, fun q => ?_⟩
    · obtain ⟨r, hr, rfl⟩ := mem_ids.mp hi
      refine mem_ids.mpr ⟨_, List.mem_map_of_mem hr, ?_⟩
      split <;> rfl
    · obtain ⟨r', hr', rfl⟩ := List.mem_map.mp hr
      by_cases hn : r'.qualifiedName = input.qualified
      · rw [if_pos hn]
        exact .inr ⟨hn, rfl, .inl ⟨r', hr', rfl, hn⟩⟩
      · rw [if_neg hn]
        exact .inl ⟨hn, hr'⟩
    · constructor
      · intro h
        obtain ⟨r, hr, rfl⟩ := mem_names.mp h
        obtain ⟨r', hr', rfl⟩ := List.mem_map.mp hr
        left
        refine mem_names.mpr ⟨r', hr', ?_⟩
        split <;> rfl
      · rintro (h | rfl)
        · obtain ⟨r, hr, rfl⟩ := mem_names.mp h
          refine mem_names.mpr ⟨_, List.mem_map_of_mem hr, ?_⟩
          split <;> rfl
        · obtain ⟨r, hr, hrn⟩ := mem_names.mp hq
          refine mem_names.mpr ⟨_, List.mem_map_of_mem hr, ?_⟩
          split <;> exact hrn
  · rename_i hq
    refine ⟨Nat.le_succ _, fun i hi => ?_, fun r hr => ?_, fun q => ?_⟩
    · obtain ⟨r, hr, rfl⟩ := mem_ids.mp hi
      exact mem_ids.mpr ⟨r, List.mem_append_left _ hr, rfl⟩
    · rcases List.mem_append.mp hr with hr | hr
      · refine .inl ⟨fun hn => hq (mem_names.mpr ⟨r, hr, hn⟩), hr⟩
      · obtain rfl := List.mem_singleton.mp hr
        exact .inr ⟨rfl, rfl, .inr ⟨Nat.lt_succ_self _, hq⟩⟩
    · simp [names, insert, eq_comm]

def lastPath (inputs : List NodeInput) (q : String) : Option String :=
  ((inputs.filter fun n => n.qualified = q).getLast?).map NodeInput.filePath

theorem lastPath_append (inputs : List NodeInput) (n : NodeInput) (q : String) :
    lastPath (inputs ++ [n]) q = if n.qualified = q then some n.filePath
      else lastPath inputs q := by
  unfold lastPath
  rw [List.filter_append]
  by_cases hq : n.qualified = q <;> simp [hq]

/-- What a sequence of upserts does: the rows of before keep their ids, and a new
row has the path of the last node of its name. -/
structure Grown (t t' : NodeTable) (inputs : List NodeInput) : Prop where
  seq_le : t.seq ≤ t'.seq
  ids : ∀ i ∈ t.ids, i ∈ t'.ids
  row : ∀ r ∈ t'.rows, (r.id ∈ t.ids ∧ r.qualifiedName ∈ t.names) ∨
    (r.id ∉ t.ids ∧ r.qualifiedName ∉ t.names ∧
      lastPath inputs r.qualifiedName = some r.input.filePath)
  names : ∀ q, q ∈ t'.names ↔ q ∈ t.names ∨ ∃ n ∈ inputs, n.qualified = q

theorem Grown.refl (t : NodeTable) : Grown t t [] where
  seq_le := Nat.le_refl _
  ids _ h := h
  row r hr := .inl ⟨mem_ids.mpr ⟨r, hr, rfl⟩, mem_names.mpr ⟨r, hr, rfl⟩⟩
  names q := by simp

theorem not_mem_ids_of_seq_lt {t : NodeTable} {i : Nat} (h : t.seq < i) : i ∉ t.ids := by
  intro hi
  obtain ⟨r, hr, rfl⟩ := mem_ids.mp hi
  exact Nat.not_lt.mpr (t.ids_le r hr) h

theorem Grown.snoc {t t₁ t₂ : NodeTable} {inputs : List NodeInput} {n : NodeInput}
    (h : Grown t t₁ inputs) (hu : Upserted t₁ t₂ n) : Grown t t₂ (inputs ++ [n]) where
  seq_le := Nat.le_trans h.seq_le hu.seq_le
  ids i hi := hu.ids i (h.ids i hi)
  row r hr := by
    rw [lastPath_append]
    rcases hu.row r hr with ⟨hne, hr₁⟩ | ⟨hq, hin, hcase⟩
    · rw [if_neg (Ne.symm hne)]
      exact h.row r hr₁
    · rw [if_pos hq.symm, hin, hq]
      rcases hcase with ⟨r₀, hr₀, hid, hqn⟩ | ⟨hlt, hname⟩
      · rw [← hid, ← hqn]
        rcases h.row r₀ hr₀ with hold | ⟨h1, h2, -⟩
        · exact .inl hold
        · exact .inr ⟨h1, h2, rfl⟩
      · refine .inr ⟨not_mem_ids_of_seq_lt (Nat.lt_of_le_of_lt h.seq_le hlt), ?_, rfl⟩
        exact fun hn => hname ((h.names _).mpr (.inl hn))
  names q := by
    rw [hu.names, h.names]
    constructor
    · rintro ((hq | ⟨m, hm, hq⟩) | rfl)
      · exact .inl hq
      · exact .inr ⟨m, List.mem_append_left _ hm, hq⟩
      · exact .inr ⟨n, List.mem_append_right _ List.mem_cons_self, rfl⟩
    · rintro (hq | ⟨m, hm, hq⟩)
      · exact .inl (.inl hq)
      · rcases List.mem_append.mp hm with hm | hm
        · exact .inl (.inr ⟨m, hm, hq⟩)
        · obtain rfl := List.mem_singleton.mp hm
          exact .inr hq.symm

theorem grown_foldl_upsert (t : NodeTable) (inputs : List (NodeInput × String × Int)) :
    Grown t (Store.upsertNodes t inputs) (inputs.map Prod.fst) := by
  induction inputs using List.reverseRecOn with
  | nil => exact .refl t
  | append_singleton inputs n ih =>
      rw [List.map_append]
      have hstep : Store.upsertNodes t (inputs ++ [n])
          = (Store.upsertNodes t inputs).upsert n.1 n.2.1 n.2.2 false := by
        simp [Store.upsertNodes]
      rw [hstep]
      exact ih.snoc (upserted_upsert _ _ _ _ _)

/-- Every row is an old one or in one of these files exactly where each new name ends in one
of them. -/
theorem Grown.rows_in_iff {t t' : NodeTable} {inputs : List NodeInput} (h : Grown t t' inputs)
    (paths : List String) :
    (∀ r ∈ t'.rows, r.id ∈ t.ids ∨ r.input.filePath ∈ paths) ↔
      ∀ n ∈ inputs, n.qualified ∈ t.names ∨
        ∃ p ∈ paths, lastPath inputs n.qualified = some p := by
  constructor
  · intro hall n hn
    obtain ⟨r, hr, hrq⟩ := mem_names.mp ((h.names n.qualified).mpr (.inr ⟨n, hn, rfl⟩))
    rw [← hrq]
    rcases h.row r hr with ⟨-, hold⟩ | ⟨hid, -, hlast⟩
    · exact .inl hold
    · exact .inr ⟨_, (hall r hr).resolve_left hid, hlast⟩
  · intro hcond r hr
    rcases h.row r hr with ⟨hid, -⟩ | ⟨-, hnew, hlast⟩
    · exact .inl hid
    · obtain ⟨n, hn, hnq⟩ :=
        ((h.names r.qualifiedName).mp (mem_names.mpr ⟨r, hr, rfl⟩)).resolve_left hnew
      rw [← hnq] at hnew hlast
      obtain ⟨p, hp, hlast'⟩ := (hcond n hn).resolve_left hnew
      exact .inr (Option.some.inj (hlast'.symm.trans hlast) ▸ hp)

end NodeTable

namespace Store

open NodeTable

variable {s s' : Store}

/-- The rowids of the search index are the node ids. -/
def Synced (s : Store) : Prop := ∃ fts, s.fts = some fts ∧ ∀ i, i ∈ fts ↔ i ∈ s.nodes.ids

/-! ## The search-index operations -/

theorem mem_chunks {x : String} {paths : List String} :
    (∃ c ∈ chunks paths, x ∈ c) ↔ x ∈ paths :=
  mem_chunksOf (n := 450) (by decide)

/-- `i` is the id of a node in one of the paths. -/
def InPaths (t : NodeTable) (paths : List String) (i : Nat) : Prop :=
  ∃ r ∈ t.rows, r.input.filePath ∈ paths ∧ r.id = i

theorem foldl_deleteFtsChunk : ∀ (cs : List (List String)) (s : Store),
    (cs.foldl deleteFtsChunk s).nodes = s.nodes ∧
    (cs.foldl deleteFtsChunk s).edges = s.edges ∧
    (cs.foldl deleteFtsChunk s).fts.isSome = s.fts.isSome ∧
    ∀ fts fts', s.fts = some fts → (cs.foldl deleteFtsChunk s).fts = some fts' →
      ∀ i, i ∈ fts' ↔ i ∈ fts ∧ ∀ c ∈ cs, ¬ InPaths s.nodes c i
  | [], s => by
      refine ⟨rfl, rfl, rfl, fun fts fts' h h' i => ?_⟩
      obtain rfl := Option.some.inj (h.symm.trans h')
      simp
  | c :: cs, s => by
      obtain ⟨hn, he, hsome, hmem⟩ := foldl_deleteFtsChunk cs (s.deleteFtsChunk c)
      refine ⟨hn, he, hsome.trans (by simp [deleteFtsChunk]), fun fts fts' h h' i => ?_⟩
      rw [hmem _ fts' (by simp [deleteFtsChunk, h]; rfl) h' i]
      have hnodes : (s.deleteFtsChunk c).nodes = s.nodes := rfl
      simp [hnodes, InPaths, and_assoc]

theorem deleteFts_spec {fts : List Nat} (h : s.fts = some fts) (paths : List String) :
    (s.deleteFtsForFilePaths paths).nodes = s.nodes ∧
    (s.deleteFtsForFilePaths paths).edges = s.edges ∧
    ∃ fts', (s.deleteFtsForFilePaths paths).fts = some fts' ∧
      ∀ i, i ∈ fts' ↔ i ∈ fts ∧ ¬ InPaths s.nodes paths i := by
  obtain ⟨hn, he, hsome, hmem⟩ := foldl_deleteFtsChunk (chunks paths) s
  rw [h] at hsome
  obtain ⟨fts', h'⟩ := Option.isSome_iff_exists.mp hsome
  refine ⟨hn, he, fts', h', fun i => ?_⟩
  rw [hmem fts fts' h h' i]
  refine and_congr_right fun _ => ⟨?_, ?_⟩
  · rintro hall ⟨r, hr, hp, hid⟩
    obtain ⟨c, hc, hrc⟩ := mem_chunks.mpr hp
    exact hall c hc ⟨r, hr, hrc, hid⟩
  · rintro hnone c hc ⟨r, hr, hrc, hid⟩
    exact hnone ⟨r, hr, mem_chunks.mp ⟨c, hc, hrc⟩, hid⟩

theorem insertFtsRows_mem : ∀ {ids fts fts' : List Nat}, insertFtsRows ids fts = some fts' →
    ∀ i, i ∈ fts' ↔ i ∈ fts ∨ i ∈ ids
  | [], fts, fts', h, i => by
      obtain rfl : fts = fts' := by simpa [insertFtsRows] using h
      simp
  | j :: ids, fts, fts', h, i => by
      simp only [insertFtsRows] at h
      split at h
      · cases h
      · rw [insertFtsRows_mem h i]
        simp [or_assoc]

theorem foldl_insertFtsChunk {t : NodeTable} : ∀ {cs : List (List String)}
    {start fts' : List Nat}, cs.foldl (insertFtsChunk t) (some start) = some fts' →
      ∀ i, i ∈ fts' ↔ i ∈ start ∨ ∃ c ∈ cs, InPaths t c i
  | [], start, fts', h, i => by
      obtain rfl : start = fts' := by simpa using h
      simp
  | c :: cs, start, fts', h, i => by
      rw [List.foldl_cons] at h
      cases hc : insertFtsChunk t (some start) c with
      | none =>
          have hnone : ∀ cs : List (List String), cs.foldl (insertFtsChunk t) none = none := by
            intro cs
            induction cs with
            | nil => rfl
            | cons c cs ih => exact ih
          rw [hc, hnone] at h
          cases h
      | some mid =>
          rw [hc] at h
          have hmid := insertFtsRows_mem (show insertFtsRows _ start = some mid from hc)
          rw [foldl_insertFtsChunk h i, hmid i]
          simp [InPaths, or_assoc, and_assoc]

theorem insertFts_spec {paths : List String} (hs : s.insertFtsForFilePaths paths = some s')
    {fts : List Nat} (h : s.fts = some fts) :
    s'.nodes = s.nodes ∧ s'.edges = s.edges ∧
      ∃ fts', s'.fts = some fts' ∧ ∀ i, i ∈ fts' ↔ i ∈ fts ∨ InPaths s.nodes paths i := by
  unfold insertFtsForFilePaths at hs
  split at hs
  · rename_i hp
    obtain rfl : s = s' := by simpa using hs
    refine ⟨rfl, rfl, fts, h, fun i => ?_⟩
    simp [InPaths, hp]
  · simp only [Option.map_eq_some_iff] at hs
    obtain ⟨fts', hf, rfl⟩ := hs
    refine ⟨rfl, rfl, fts', rfl, fun i => ?_⟩
    rw [h] at hf
    rw [foldl_insertFtsChunk hf i]
    refine or_congr_right ⟨?_, ?_⟩
    · rintro ⟨c, hc, r, hr, hrc, hid⟩
      exact ⟨r, hr, mem_chunks.mp ⟨c, hc, hrc⟩, hid⟩
    · rintro ⟨r, hr, hp, hid⟩
      obtain ⟨c, hc, hrc⟩ := mem_chunks.mpr hp
      exact ⟨c, hc, r, hr, hrc, hid⟩

theorem syncFtsTx_spec {paths : List String} (hs : s.syncFtsForFilePathsTx paths = some s')
    {fts : List Nat} (h : s.fts = some fts) :
    s'.nodes = s.nodes ∧ ∃ fts', s'.fts = some fts' ∧
      ∀ i, i ∈ fts' ↔ i ∈ fts ∨ InPaths s.nodes paths i := by
  unfold syncFtsForFilePathsTx at hs
  split at hs
  · rename_i hp
    obtain rfl : s = s' := by simpa using hs
    refine ⟨rfl, fts, h, fun i => ?_⟩
    simp [InPaths, hp]
  · obtain ⟨hn, -, mid, hmid, hdel⟩ := deleteFts_spec h paths
    obtain ⟨hn', -, fts', hf', hins⟩ := insertFts_spec hs hmid
    refine ⟨hn'.trans hn, fts', hf', fun i => ?_⟩
    rw [hins i, hdel i, hn]
    by_cases hp : InPaths s.nodes paths i <;> simp [hp]

/-! ## Removing files -/

theorem foldl_removeRowsChunk : ∀ (cs : List (List String)) (s : Store),
    (cs.foldl removeRowsChunk s).fts = s.fts ∧
    ∀ r, r ∈ (cs.foldl removeRowsChunk s).nodes.rows ↔
      r ∈ s.nodes.rows ∧ ∀ c ∈ cs, r.input.filePath ∉ c
  | [], s => by simp
  | c :: cs, s => by
      obtain ⟨hf, hr⟩ := foldl_removeRowsChunk cs (s.removeRowsChunk c)
      refine ⟨hf, fun r => ?_⟩
      rw [List.foldl_cons, hr r]
      simp [removeRowsChunk, deleteWhere, and_assoc]

theorem removeFilesRows_rows (s : Store) (paths : List String) (r : NodeRow) :
    r ∈ (s.removeFilesRows paths).nodes.rows ↔
      r ∈ s.nodes.rows ∧ r.input.filePath ∉ paths := by
  have hn : (s.deleteFtsForFilePaths paths).nodes = s.nodes :=
    (foldl_deleteFtsChunk (chunks paths) s).1
  rw [removeFilesRows, (foldl_removeRowsChunk _ _).2 r, hn]
  refine and_congr_right fun _ => ⟨?_, ?_⟩
  · intro hall hp
    obtain ⟨c, hc, hrc⟩ := mem_chunks.mpr hp
    exact hall c hc hrc
  · intro hp c hc hrc
    exact hp (mem_chunks.mp ⟨c, hc, hrc⟩)

theorem synced_removeFilesRows (h : Synced s) (paths : List String) :
    Synced (s.removeFilesRows paths) := by
  obtain ⟨fts, hf, hsync⟩ := h
  obtain ⟨-, -, fts', hf', hdel⟩ := deleteFts_spec hf paths
  refine ⟨fts', ((foldl_removeRowsChunk _ _).1).trans hf', fun i => ?_⟩
  rw [hdel i, hsync i, mem_ids, mem_ids]
  constructor
  · rintro ⟨⟨r, hr, rfl⟩, hp⟩
    refine ⟨r, (removeFilesRows_rows s paths r).mpr ⟨hr, fun hrp => hp ⟨r, hr, hrp, rfl⟩⟩, rfl⟩
  · rintro ⟨r, hr, rfl⟩
    obtain ⟨hr, hrp⟩ := (removeFilesRows_rows s paths r).mp hr
    refine ⟨⟨r, hr, rfl⟩, ?_⟩
    rintro ⟨r', hr', hrp', hid⟩
    have : r' = r := List.inj_on_of_nodup_map s.nodes.ids_nodup hr' hr hid
    exact hrp (this ▸ hrp')

theorem names_removeFilesRows (s : Store) (paths : List String) (q : String) :
    q ∈ (s.removeFilesRows paths).nodes.names ↔
      ∃ r ∈ s.nodes.rows, r.qualifiedName = q ∧ r.input.filePath ∉ paths := by
  simp only [mem_names, removeFilesRows_rows, and_assoc, and_comm]

theorem removeFileData_eq (s : Store) (path : String) :
    s.removeFileData path = s.removeFilesRows [path] := by
  have hc : chunks [path] = [[path]] := by simp [chunks]
  rw [removeFileData, removeFilesRows, hc]
  rfl

/-! ## Batches -/

theorem foldl_insertEdge (f : Json → Json) : ∀ (es : List EdgeInput) (s : Store),
    (es.foldl (insertEdge f) s).nodes = s.nodes ∧ (es.foldl (insertEdge f) s).fts = s.fts
  | [], _ => ⟨rfl, rfl⟩
  | e :: es, s => foldl_insertEdge f es (s.insertEdge f e)

theorem foldl_upsertEdge : ∀ (es : List EdgeInput) (s : Store),
    (es.foldl upsertEdge s).nodes = s.nodes ∧ (es.foldl upsertEdge s).fts = s.fts
  | [], _ => ⟨rfl, rfl⟩
  | e :: es, s => by
      obtain ⟨hn, hf⟩ := foldl_upsertEdge es (s.upsertEdge e)
      have h1 : (s.upsertEdge e).nodes = s.nodes ∧ (s.upsertEdge e).fts = s.fts := by
        unfold upsertEdge
        split <;> exact ⟨rfl, rfl⟩
      exact ⟨hn.trans h1.1, hf.trans h1.2⟩

/-- Every new node of the batch ends in one of the batch's files: the last node of
each qualified name that no node outside these files has. -/
def batchInFiles (s : Store) (batch : List FileBatchItem) : Prop :=
  let paths := batch.map FileBatchItem.filePath
  let inputs := (batchNodes batch).map Prod.fst
  ∀ n ∈ inputs, (∃ r ∈ s.nodes.rows, r.qualifiedName = n.qualified ∧
    r.input.filePath ∉ paths) ∨ ∃ p ∈ paths, lastPath inputs n.qualified = some p

theorem lastPath_map (f : Json → Json) (inputs : List NodeInput) (q : String) :
    lastPath (inputs.map fun n => { n with extra := f n.extra }) q = lastPath inputs q := by
  have hq : ∀ n : NodeInput, ({ n with extra := f n.extra } : NodeInput).qualified
      = n.qualified := fun _ => rfl
  simp only [lastPath, List.filter_map, Function.comp_def, hq, List.getLast?_map,
    Option.map_map]

/-- Where the search rows are those of old ids and of some files' nodes, the index follows
exactly when every other node is old. -/
theorem synced_iff_rows {fts ids : List Nat} {paths : List String} (hf : s.fts = some fts)
    (hids : ∀ i ∈ ids, i ∈ s.nodes.ids)
    (hmem : ∀ i, i ∈ fts ↔ i ∈ ids ∨ InPaths s.nodes paths i) :
    Synced s ↔ ∀ r ∈ s.nodes.rows, r.id ∈ ids ∨ r.input.filePath ∈ paths := by
  constructor
  · rintro ⟨fts', hf', hsync⟩ r hr
    obtain rfl := Option.some.inj (hf.symm.trans hf')
    have hin : r.id ∈ fts := (hsync r.id).mpr (mem_ids.mpr ⟨r, hr, rfl⟩)
    refine ((hmem r.id).mp hin).imp_right ?_
    rintro ⟨r', hr', hp, hid⟩
    have hsame : r' = r := List.inj_on_of_nodup_map s.nodes.ids_nodup hr' hr hid
    exact hsame ▸ hp
  · intro hall
    refine ⟨fts, hf, fun i => (hmem i).trans ⟨?_, fun hi => ?_⟩⟩
    · rintro (hi | ⟨r, hr, -, rfl⟩)
      · exact hids i hi
      · exact mem_ids.mpr ⟨r, hr, rfl⟩
    · obtain ⟨r, hr, rfl⟩ := mem_ids.mp hi
      exact (hall r hr).imp_right fun hp => ⟨r, hr, hp, rfl⟩

theorem synced_storeBatch_iff (h : Synced s) {f : Json → Json} {batch : List FileBatchItem}
    (hs : s.storeBatch f batch = some s') : Synced s' ↔ s.batchInFiles batch := by
  have hrem := synced_removeFilesRows h (batch.map FileBatchItem.filePath)
  have hnames := names_removeFilesRows s (batch.map FileBatchItem.filePath)
  unfold storeBatch at hs
  simp only at hs
  generalize hpaths : batch.map FileBatchItem.filePath = paths at hs hrem hnames
  generalize s.removeFilesRows paths = s₀ at hs hrem hnames
  obtain ⟨fts, hf, hsync⟩ := hrem
  generalize hin : (batchNodes batch).map (fun n =>
    (({ n.1 with extra := f n.1.extra } : NodeInput), n.2)) = inputs at hs
  have hgrown := grown_foldl_upsert s₀.nodes inputs
  generalize upsertNodes s₀.nodes inputs = nodes at hs hgrown
  obtain ⟨hen, hef⟩ := foldl_insertEdge f (firstEdges (batch.flatMap FileBatchItem.edges))
    { s₀ with nodes := nodes }
  generalize (firstEdges (batch.flatMap FileBatchItem.edges)).foldl (insertEdge f)
    { s₀ with nodes := nodes } = s₁ at hs hen hef
  obtain ⟨hn', -, fts', hf', hmem⟩ := insertFts_spec hs (hef.trans hf)
  have hnodes : s'.nodes = nodes := hn'.trans hen
  have hrows : Synced s' ↔
      ∀ r ∈ s'.nodes.rows, r.id ∈ s₀.nodes.ids ∨ r.input.filePath ∈ paths :=
    synced_iff_rows hf' (hnodes ▸ hgrown.ids) fun i => by rw [hmem, hsync, hn']
  -- how `extra` is stored changes neither the inputs' names nor their last paths
  have hinputs : inputs.map Prod.fst
      = ((batchNodes batch).map Prod.fst).map (fun n => { n with extra := f n.extra }) := by
    rw [← hin]
    simp only [List.map_map, Function.comp_def]
  rw [hrows, hnodes, hgrown.rows_in_iff, hinputs, batchInFiles]
  simp only [List.forall_mem_map, lastPath_map, hnames, hpaths]
  rfl

/-! ## Manifest bridges -/

/-- What the node loop of `replace_manifest_bridges` does to the table it starts from. -/
structure Bridged (t : NodeTable) (acc : NodeTable × List String) : Prop where
  seq_le : t.seq ≤ acc.1.seq
  ids : ∀ i ∈ t.ids, i ∈ acc.1.ids
  row : ∀ r ∈ acc.1.rows, r.id ∈ t.ids ∨ (t.seq < r.id ∧ r.input.filePath ∈ acc.2)

theorem Bridged.bridgeNode {t : NodeTable} {acc : NodeTable × List String}
    (h : Bridged t acc) (node : NodeInput) : Bridged t (bridgeNode acc node) := by
  unfold Store.bridgeNode
  split
  · exact h
  · have hu := upserted_upsert acc.1 { node with extra := extraJson node.extra } "" 0 true
    refine ⟨Nat.le_trans h.seq_le hu.seq_le, fun i hi => hu.ids i (h.ids i hi), ?_⟩
    intro r hr
    have htouched : ∀ p ∈ acc.2,
        p ∈ (if node.filePath ∈ acc.2 then acc.2 else acc.2 ++ [node.filePath]) := by
      intro p hp
      split
      · exact hp
      · exact List.mem_append_left _ hp
    have hpath : node.filePath ∈
        (if node.filePath ∈ acc.2 then acc.2 else acc.2 ++ [node.filePath]) := by
      split
      · assumption
      · exact List.mem_append_right _ List.mem_cons_self
    rcases hu.row r hr with ⟨-, hold⟩ | ⟨-, hin, hcase⟩
    · exact (h.row r hold).imp_right fun ⟨hlt, hp⟩ => ⟨hlt, htouched _ hp⟩
    · rw [hin]
      rcases hcase with ⟨r₀, hr₀, hid, -⟩ | ⟨hlt, -⟩
      · rw [← hid]
        exact (h.row r₀ hr₀).imp_right fun ⟨hlt, _⟩ => ⟨hlt, hpath⟩
      · exact .inr ⟨Nat.lt_of_le_of_lt h.seq_le hlt, hpath⟩

theorem Bridged.foldl {t : NodeTable} : ∀ (nodes : List NodeInput)
    (acc : NodeTable × List String), Bridged t acc →
      Bridged t (nodes.foldl Store.bridgeNode acc)
  | [], _, h => h
  | n :: nodes, _, h => Bridged.foldl nodes _ (h.bridgeNode n)

/-- The store has no `File` node of the extractor. -/
def noBridgeFile (s : Store) (extractorId : String) : Prop :=
  ∀ r ∈ s.nodes.rows, ¬ (r.input.kind = "File" ∧ ofExtractor extractorId r.input.extra)

/-- A deleted `File` node's search row stays: its id is not given out again, and the
refresh looks for rows through the nodes that are left. -/
theorem synced_replaceManifestBridges_iff (h : Synced s) {extractorId : String}
    {nodes : List NodeInput} {edges : List EdgeInput}
    (hs : s.replaceManifestBridges extractorId nodes edges = some s') :
    Synced s' ↔ s.noBridgeFile extractorId := by
  obtain ⟨fts, hf, hsync⟩ := h
  unfold replaceManifestBridges at hs
  simp only at hs
  generalize hleft : s.nodes.deleteWhere (fun r =>
    r.input.kind = "File" && ofExtractor extractorId r.input.extra) = left at hs
  have hrows : ∀ r, r ∈ left.rows ↔ r ∈ s.nodes.rows ∧
      ¬ (r.input.kind = "File" ∧ ofExtractor extractorId r.input.extra) := by
    intro r
    rw [← hleft]
    simp only [deleteWhere, List.mem_filter, Bool.not_eq_true', Bool.and_eq_false_iff,
      decide_eq_false_iff_not, not_and_or, Bool.not_eq_true]
  have hseq : left.seq = s.nodes.seq := by rw [← hleft]; rfl
  have hb : Bridged left (nodes.foldl bridgeNode (left, [])) :=
    Bridged.foldl nodes (left, []) ⟨Nat.le_refl _, fun _ hi => hi,
      fun r hr => .inl (mem_ids.mpr ⟨r, hr, rfl⟩)⟩
  generalize nodes.foldl bridgeNode (left, []) = acc at hs hb
  obtain ⟨hen, hef⟩ := foldl_upsertEdge edges { s with
    nodes := acc.1
    edges := s.edges.deleteWhere fun e =>
      e.kind = "CROSS_ARTIFACT" && ofExtractor extractorId e.extra }
  obtain ⟨hn', fts', hf', hmem⟩ := syncFtsTx_spec hs (hef.trans hf)
  rw [hen] at hn' hmem
  constructor
  · rintro ⟨fts'', hf'', hsync''⟩ r hr hbad
    obtain rfl := Option.some.inj (hf'.symm.trans hf'')
    -- the deleted node's row is still there, so its id would have to be a node's
    have hi : r.id ∈ fts' :=
      (hmem r.id).mpr (.inl ((hsync r.id).mpr (mem_ids.mpr ⟨r, hr, rfl⟩)))
    rw [hsync'', hn'] at hi
    obtain ⟨r', hr', hid⟩ := mem_ids.mp hi
    rcases hb.row r' hr' with hold | ⟨hlt, -⟩
    · obtain ⟨r₀, hr₀, hid₀⟩ := mem_ids.mp hold
      obtain ⟨hr₀, hok⟩ := (hrows r₀).mp hr₀
      have : r₀ = r := List.inj_on_of_nodup_map s.nodes.ids_nodup hr₀ hr (hid₀.trans hid)
      exact hok (this ▸ hbad)
    · rw [hid, hseq] at hlt
      exact Nat.not_lt.mpr (s.nodes.ids_le r hr) hlt
  · intro hnone
    have hids : ∀ i, i ∈ left.ids ↔ i ∈ s.nodes.ids := by
      intro i
      rw [mem_ids, mem_ids]
      constructor
      · rintro ⟨r, hr, rfl⟩
        exact ⟨r, ((hrows r).mp hr).1, rfl⟩
      · rintro ⟨r, hr, rfl⟩
        exact ⟨r, (hrows r).mpr ⟨hr, hnone r hr⟩, rfl⟩
    have hnodes : s'.nodes = acc.1 := hn'
    refine (synced_iff_rows hf' (by rw [hnodes]; exact hb.ids)
      fun i => by rw [hmem, hsync, ← hids, hn']).mpr ?_
    rw [hnodes]
    exact fun r hr => (hb.row r hr).imp_right And.right

/-! ## Refreshes and single nodes -/

theorem synced_rebuildFtsIndex (hs : s.rebuildFtsIndex = some s') : Synced s' := by
  simp only [rebuildFtsIndex, Option.map_eq_some_iff] at hs
  obtain ⟨fts', hf, rfl⟩ := hs
  refine ⟨fts', rfl, fun i => ?_⟩
  rw [insertFtsRows_mem hf i]
  simp

theorem synced_syncFtsForFilePaths (h : Synced s) {paths : List String}
    (hs : s.syncFtsForFilePaths paths = some s') : Synced s' := by
  unfold syncFtsForFilePaths at hs
  split at hs
  · obtain rfl : s = s' := by simpa using hs
    exact h
  · split at hs
    · exact synced_rebuildFtsIndex hs
    · obtain ⟨fts, hf, hsync⟩ := h
      obtain ⟨hn, fts', hf', hmem⟩ := syncFtsTx_spec hs hf
      refine ⟨fts', hf', fun i => ?_⟩
      rw [hmem, hsync, hn, mem_ids]
      constructor
      · rintro (hi | ⟨r, hr, -, hid⟩)
        · exact hi
        · exact ⟨r, hr, hid⟩
      · exact .inl

theorem synced_upsertFtsForNodeId {id : Nat} (hid : id ∈ s.nodes.ids) {fts : List Nat}
    (hf : s.fts = some fts) (hold : ∀ i, i ≠ id → (i ∈ fts ↔ i ∈ s.nodes.ids))
    (hs : s.upsertFtsForNodeId id = some s') : Synced s' := by
  unfold upsertFtsForNodeId at hs
  rw [if_pos hid, hf] at hs
  simp only [Option.getD_some, Option.map_eq_some_iff] at hs
  obtain ⟨fts', hf', rfl⟩ := hs
  refine ⟨fts', rfl, fun i => ?_⟩
  rw [insertFtsRows_mem hf' i]
  by_cases hi : i = id
  · simp [hi, hid]
  · simp [hi, hold i hi]

theorem synced_upsertNode (h : Synced s) {node : NodeInput} {hash : String} {mtime : Int}
    (hs : s.upsertNode node hash mtime = some s') : Synced s' := by
  obtain ⟨fts, hf, hsync⟩ := h
  have hu := upserted_upsert s.nodes { node with extra := extraJson node.extra } hash mtime false
  unfold upsertNode at hs
  simp only at hs
  generalize s.nodes.upsert { node with extra := extraJson node.extra } hash mtime false
    = nodes at hs hu
  cases hfind : nodes.find node.qualified with
  | none => rw [hfind] at hs; cases hs
  | some r =>
      rw [hfind] at hs
      have hr : r ∈ nodes.rows := List.mem_of_find?_eq_some hfind
      have hq : r.qualifiedName = node.qualified := by
        have := List.find?_some hfind
        simpa using this
      refine synced_upsertFtsForNodeId (s := { s with nodes := nodes })
        (mem_ids.mpr ⟨r, hr, rfl⟩) hf (fun i hi => ?_) hs
      rw [hsync i]
      constructor
      · exact hu.ids i
      · intro hi'
        obtain ⟨r', hr', rfl⟩ := mem_ids.mp hi'
        rcases hu.row r' hr' with ⟨-, hold⟩ | ⟨hq', -⟩
        · exact mem_ids.mpr ⟨r', hold, rfl⟩
        · have : r' = r :=
            List.inj_on_of_nodup_map nodes.names_nodup hr' hr (hq'.trans hq.symm)
          exact absurd (this ▸ rfl) hi

/-! ## Runs of store operations -/

/-- The operations that write nodes or the search index. -/
inductive StoreOp where
  | storeFileBatch (batch : List FileBatchItem)
  | storeFileBatchJson (batch : List FileBatchItem)
  | removeFileData (path : String)
  | removeFilesData (paths : List String)
  | upsertNode (node : NodeInput) (hash : String) (mtime : Int)
  | replaceManifestBridges (extractorId : String) (nodes : List NodeInput)
      (edges : List EdgeInput)
  | syncFtsForFilePaths (paths : List String)
  | rebuildFtsIndex

/-- One operation; `none` when it fails and its transaction is rolled back. -/
def apply (s : Store) : StoreOp → Option Store
  | .storeFileBatch batch => s.storeFileBatch batch
  | .storeFileBatchJson batch => s.storeFileBatchJson batch
  | .removeFileData path => some (s.removeFileData path)
  | .removeFilesData paths => some (s.removeFilesData paths)
  | .upsertNode node hash mtime => s.upsertNode node hash mtime
  | .replaceManifestBridges extractorId nodes edges =>
      s.replaceManifestBridges extractorId nodes edges
  | .syncFtsForFilePaths paths => s.syncFtsForFilePaths paths
  | .rebuildFtsIndex => s.rebuildFtsIndex

/-- When an operation keeps the search index in step, read off the store it meets. -/
def keepsSync (s : Store) : StoreOp → Prop
  | .storeFileBatch batch => s.batchInFiles batch
  | .storeFileBatchJson batch => s.batchInFiles batch
  | .replaceManifestBridges extractorId _ _ => s.noBridgeFile extractorId
  | _ => True

theorem synced_apply_iff (h : Synced s) {op : StoreOp} (hs : s.apply op = some s') :
    Synced s' ↔ s.keepsSync op := by
  cases op with
  | storeFileBatch batch => exact synced_storeBatch_iff h hs
  | storeFileBatchJson batch => exact synced_storeBatch_iff h hs
  | removeFileData path =>
      obtain rfl : s.removeFileData path = s' := by simpa [apply] using hs
      rw [removeFileData_eq]
      exact iff_of_true (synced_removeFilesRows h _) trivial
  | removeFilesData paths =>
      obtain rfl : s.removeFilesData paths = s' := by simpa [apply] using hs
      exact iff_of_true (synced_removeFilesRows h _) trivial
  | upsertNode node hash mtime => exact iff_of_true (synced_upsertNode h hs) trivial
  | replaceManifestBridges extractorId nodes edges =>
      exact synced_replaceManifestBridges_iff h hs
  | syncFtsForFilePaths paths =>
      exact iff_of_true (synced_syncFtsForFilePaths h hs) trivial
  | rebuildFtsIndex => exact iff_of_true (synced_rebuildFtsIndex hs) trivial

/-- From any store whose index is in step, every run of operations that each
succeed and meet the condition keeps the rowids equal to the node ids. -/
theorem synced_of_reach (h : Reach Synced apply keepsSync s) : Synced s :=
  h.invariant (fun _ h0 => h0) fun _ _ _ _ hsync hok hs => (synced_apply_iff hsync hs).mpr hok

theorem synced_empty : Synced { fts := some [] } :=
  ⟨[], rfl, fun _ => iff_of_false List.not_mem_nil List.not_mem_nil⟩

/-- The `File` node a manifest bridge adds for a manifest that has none. -/
def bridgeFile : NodeInput where
  kind := "File"
  name := "Cargo.toml"
  filePath := "Cargo.toml"
  lineStart := 1
  lineEnd := 1
  language := "toml"
  extra := .obj [("extractor", .str "manifest_bridges"), ("node_role", .str "Artifact"),
    ("origin_file", .str "Cargo.toml")]

theorem synced_of_reach_bridge :
    ∃ s, Reach Synced apply keepsSync s ∧ Synced s ∧ s.nodes.ids = [1] := by
  have hok : keepsSync { fts := some [] }
      (.replaceManifestBridges "manifest_bridges" [bridgeFile] []) :=
    fun _ hr => absurd hr List.not_mem_nil
  have hids : (apply { fts := some [] }
      (.replaceManifestBridges "manifest_bridges" [bridgeFile] [])).map (·.nodes.ids)
        = some [1] := by decide
  obtain ⟨s, hs, hi⟩ := Option.map_eq_some_iff.mp hids
  have hr := (Reach.start synced_empty).next hok hs
  exact ⟨s, hr, synced_of_reach hr, hi⟩

/-- A bridge that goes away: the second replacement deletes the node of the first
and leaves its search row. -/
theorem not_synced_of_reach :
    ∃ s, Synced { fts := some [] } ∧
      runSteps apply anyStep { fts := some [] }
        [.replaceManifestBridges "manifest_bridges" [bridgeFile] [],
          .replaceManifestBridges "manifest_bridges" [] []] = some s ∧
      s.nodes.ids = [] ∧ s.fts = some [1] ∧ ¬ Synced s := by
  refine ⟨_, synced_empty, rfl, rfl, rfl, ?_⟩
  rintro ⟨fts, hf, hsync⟩
  obtain rfl : [1] = fts := Option.some.inj hf
  exact absurd ((hsync 1).mp List.mem_cons_self) List.not_mem_nil

end Store

end Dagayn
