import Dagayn.CallTargets
import Dagayn.FtsSync
import Dagayn.Markdown
import Dagayn.ScipOverlay

/-!
# The `target_name` column

`edges.target_name` repeats what `edge_target_name` computes from `target_qualified`,
so that callers are found by a bare name. Every statement that sets one column has to
set the other. All of them do but three: the demotion of a Markdown reference sets the
target alone, and two of the package passes write the package into both columns, which
is right only for a package without `::` (a Perl `List::Util` has one).

`keepsNames` says, on the state an operation meets, when it keeps the columns in step;
`named_of_reach` is the invariant over runs.
-/

namespace Dagayn

/-- `resolve_bare_inheritance_targets` for one edge. -/
inductive InheritAnswer where
  /-- The target looks like a file. -/
  | fileTarget
  | bound (target : String) (confidence : Float) (tier : ConfidenceTier)
  | unbound

theorem edgeTargetName_eq_self_iff (t : String) : edgeTargetName t = t ↔ hasScope t = false := by
  unfold edgeTargetName hasScope
  cases h : afterLast [':', ':'] t.toList with
  | none => simp [(afterLast_eq_none_iff _ _).mp h]
  | some name =>
      have hlt := length_afterLast_lt [':', ':'] (by simp) h
      have hne : splitFirst [':', ':'] t.toList ≠ none := by
        intro hnone
        rw [(afterLast_eq_none_iff _ _).mpr hnone] at h
        cases h
      have hsome : (splitFirst [':', ':'] t.toList).isSome = true := by
        rwa [Option.isSome_iff_ne_none]
      constructor
      · intro heq
        rw [← heq, String.toList_ofList] at hlt
        omega
      · intro hfalse
        rw [hsome] at hfalse
        cases hfalse

namespace Store

variable {s s' : Store} {r : EdgeRow}

def resolveBareInheritanceTargets (answer : Store → EdgeRow → InheritAnswer) (s : Store) : Store :=
  (s.rewrite (fun r => (r.kind = "INHERITS" || r.kind = "IMPLEMENTS") && !hasScope r.target)
    fun cur r =>
      match answer cur r with
      | .fileTarget => none
      | .bound target confidence tier => some (.retarget target none confidence tier)
      | .unbound =>
          if r.extra.isOne "bare_name_unresolved" then none
          else some (.setConfidence (r.extra.insert "bare_name_unresolved" (.bool true))
            bareUnresolvedConfidence .low)).1

def searchEdgesByTargetName (s : Store) (name kind : String) : List EdgeRow :=
  s.edges.rows.filter fun r => r.targetName = name && r.kind = kind

/-! ## The invariant -/

/-- Every row's `target_name` is that of its target. -/
def Named (s : Store) : Prop :=
  ∀ r ∈ s.edges.rows, r.targetName = edgeTargetName r.target

theorem named_of_edges (h : Named s) (he : s'.edges = s.edges) : Named s' := by
  unfold Named
  rw [he]
  exact h

theorem named_deleteWhere (h : Named s) (p : EdgeRow → Bool) :
    Named { s with edges := s.edges.deleteWhere p } :=
  fun r hr => h r (List.mem_filter.mp hr).1

theorem named_updateWhere (h : Named s) {p : EdgeRow → Bool} {f : EdgeRow → EdgeRow}
    (hf : ∀ r ∈ s.edges.rows, p r = true → (f r).targetName = edgeTargetName (f r).target) :
    Named { s with edges := s.edges.updateWhere p f } := by
  intro r hr
  obtain ⟨r₀, hr₀, rfl⟩ := List.mem_map.mp hr
  split
  · rename_i hp
    exact hf r₀ hr₀ hp
  · exact h r₀ hr₀

theorem named_insert (h : Named s) {row : EdgeRow}
    (hrow : row.targetName = edgeTargetName row.target) :
    Named { s with edges := s.edges.insert row } := by
  intro r hr
  rcases List.mem_append.mp hr with hr | hr
  · exact h r hr
  · rw [List.mem_singleton.mp hr]
    exact hrow

/-! ## Passes of `rewrite` shape -/

/-- What a write may put into the columns: all but a package with a `::`. -/
def writesName : EdgeWrite → Prop
  | .toPackage package _ => hasScope package = false
  | _ => True

theorem named_writeEdge (h : Named s) (id : Nat) {w : EdgeWrite} (hw : writesName w) :
    Named (s.writeEdge id w) := by
  refine named_updateWhere h fun r hr _ => ?_
  cases w with
  | retarget target extra confidence tier => rfl
  | toPackage package extra => exact ((edgeTargetName_eq_self_iff package).mpr hw).symm
  | setExtra extra => exact h r hr
  | setConfidence extra confidence tier => exact h r hr

theorem named_rewriteRows {write : Store → EdgeRow → Option EdgeWrite}
    (hw : ∀ cur r w, write cur r = some w → writesName w) :
    ∀ (rows : List EdgeRow) (s : Store) (n : Nat), Named s →
      Named (rewriteRows write rows (s, n)).1
  | [], _, _, h => h
  | a :: rows, s, n, h => by
      cases hwa : write s a with
      | none =>
          simp only [rewriteRows, hwa]
          exact named_rewriteRows hw rows s n h
      | some w =>
          simp only [rewriteRows, hwa]
          exact named_rewriteRows hw rows _ _ (named_writeEdge h a.id (hw s a w hwa))

theorem named_rewrite {select : EdgeRow → Bool} {write : Store → EdgeRow → Option EdgeWrite}
    (h : Named s) (hw : ∀ cur r w, write cur r = some w → writesName w) :
    Named (s.rewrite select write).1 :=
  named_rewriteRows hw _ s 0 h

theorem named_rewrite_map {α : Type} {select : EdgeRow → Bool}
    {find : Store → EdgeRow → Option α} {build : EdgeRow → α → EdgeWrite} (h : Named s)
    (hb : ∀ r a, writesName (build r a)) :
    Named (s.rewrite select fun cur r => (find cur r).map (build r)).1 := by
  refine named_rewrite h fun cur r w hw => ?_
  obtain ⟨a, -, rfl⟩ := Option.map_eq_some_iff.mp hw
  exact hb r a

section CallPasses

variable (h : CallHeuristics)

theorem named_shape (hn : Named s) : Named (resolveShapeReceivers h s).1 :=
  named_rewrite_map hn fun _ _ => trivial

theorem named_bind (onReturned : Bool) (hn : Named s) :
    Named (bindBareCallTargets h onReturned s).1 :=
  named_rewrite_map hn fun _ _ => trivial

theorem named_enum (hn : Named s) : Named (resolveEnumVariantCalls h s).1 :=
  named_rewrite_map hn fun _ _ => trivial

theorem named_pyo3 (hn : Named s) : Named (resolvePyo3Methods h s).1 :=
  named_rewrite_map hn fun _ _ => trivial

theorem named_field (hn : Named s) : Named (resolveFieldReceivers h s).1 :=
  named_rewrite_map hn fun _ _ => trivial

theorem named_goDeclared (hn : Named s) : Named (resolveGoDeclaredReceivers h s).1 :=
  named_rewrite_map hn fun _ _ => trivial

theorem named_pending (hn : Named s) : Named (resolvePendingCalls h s).1 :=
  named_rewrite_map hn fun _ d => by cases d <;> trivial

theorem named_returnedRounds : ∀ (n : Nat) {s : Store}, Named s → Named (returnedRounds h n s)
  | 0, _, hn => hn
  | n + 1, s, hn => by
      have hround : Named (returnedRound h s).1 :=
        named_pending h (named_shape h (named_goDeclared h (named_field h hn)))
      simp only [returnedRounds]
      split
      · exact hround
      · exact named_returnedRounds n hround

/-- The packages the glob imports give have no `::`. -/
def plainCrateImports (s : Store) : Prop :=
  ∀ c ∈ s.crateImports, ∀ p, c.extra.getStr "external_package" = some p → hasScope p = false

/-- The packages the typed calls reach have no `::`. -/
def plainObservedCalls (s : Store) : Prop :=
  ∀ c ∈ s.observedCalls, ∀ p, c.extra.getStr "external_package" = some p → hasScope p = false

theorem named_glob (hn : Named s) (hp : s.plainCrateImports)
    (hs : markGlobImportedExternalCalls h s = some s') : Named s' := by
  unfold markGlobImportedExternalCalls at hs
  split at hs
  · obtain rfl : s = s' := by simpa using hs
    exact hn
  · split at hs
    · obtain rfl := Option.some.inj hs
      refine named_rewrite hn fun cur r w hw => ?_
      obtain ⟨c, hc, hcw⟩ := List.exists_of_findSome?_eq_some hw
      simp only [Option.bind_eq_bind, Option.bind_eq_some_iff, Option.pure_def,
        Option.some.injEq] at hcw
      obtain ⟨symbol, -, package, hpackage, rfl⟩ := hcw
      exact hp c hc package hpackage
    · cases hs

theorem named_observed (hn : Named s) (hp : s.plainObservedCalls)
    (hs : markObservedMethodCalls h s = some s') : Named s' := by
  unfold markObservedMethodCalls at hs
  split at hs
  · obtain rfl := Option.some.inj hs
    refine named_rewrite hn fun cur r w hw => ?_
    simp only [Option.bind_eq_bind, Option.bind_eq_some_iff, Option.pure_def,
      Option.some.injEq] at hw
    obtain ⟨c, hc, package, hpackage, rfl⟩ := hw
    exact hp c (List.mem_of_find?_eq_some hc) package hpackage
  · cases hs

theorem named_deref (hn : Named s) : Named (markDerefCalls h s).1 :=
  named_rewrite_map hn fun _ _ => by show hasScope "std" = false; decide

theorem named_stdlib (hn : Named s) : Named (markStdlibMethodCalls h s).1 :=
  named_rewrite_map hn fun _ package => by
    show hasScope package.name = false
    cases package <;> decide

end CallPasses

theorem named_reexports (hn : Named s) (hs : s.resolveReexportedTargets = some s') :
    Named s' := by
  unfold resolveReexportedTargets at hs
  split at hs
  · obtain rfl := Option.some.inj hs
    exact named_rewrite_map hn fun _ _ => trivial
  · cases hs

theorem named_inheritance (hn : Named s) (answer : Store → EdgeRow → InheritAnswer) :
    Named (s.resolveBareInheritanceTargets answer) := by
  refine named_rewrite hn fun cur r w hw => ?_
  split at hw
  · cases hw
  · obtain rfl := Option.some.inj hw
    trivial
  · split at hw
    · cases hw
    · obtain rfl := Option.some.inj hw
      trivial

/-! ## `TESTED_BY` and the overlay -/

theorem named_sync (hn : Named s) : Named s.syncTestedByWithCalls := by
  have hgroup : ∀ (s : Store) (g : EdgeRow × List EdgeRow), Named s → Named (s.syncGroup g) := by
    intro s g hn
    unfold syncGroup
    split
    · simp only
      split
      · exact named_deleteWhere hn _
      · exact named_updateWhere hn fun r hr _ => hn r hr
    · exact hn
  have hfold : ∀ (gs : List (EdgeRow × List EdgeRow)) (s : Store), Named s →
      Named (gs.foldl syncGroup s) := by
    intro gs
    induction gs with
    | nil => exact fun _ hn => hn
    | cons g gs ih => exact fun s hn => ih _ (hgroup s g hn)
  exact hfold _ s hn

theorem named_reconcile (hn : Named s) : Named s.reconcileTestedByWithCalls := by
  have hfold : ∀ (cs : List EdgeRow) (s : Store), Named s → Named (cs.foldl addTestedBy s) := by
    intro cs
    induction cs with
    | nil => exact fun _ hn => hn
    | cons c cs ih => exact fun s hn => ih _ (named_insert hn rfl)
  exact hfold _ _ (named_deleteWhere hn _)

theorem writesName_scipWrite (target : String) (extra : Json) (tier : Option ConfidenceTier) :
    writesName (scipWrite target extra tier) := by
  cases tier <;> trivial

theorem named_settleByIndex (hn : Named s) (answer : Store → EdgeRow → ScipAnswer)
    (authoritative : Bool) : Named (settleByIndex answer authoritative s) := by
  refine named_sync (named_rewrite hn fun _ r w hw => ?_)
  cases ha : answer s r with
  | unknown => simp [scipDecision, ha] at hw
  | calleeLocal =>
      simp only [scipDecision, ha] at hw
      split at hw
      · obtain rfl := Option.some.inj hw
        trivial
      · cases hw
  | definition file line node =>
      simp only [scipDecision, ha] at hw
      split at hw
      · obtain rfl := Option.some.inj hw
        exact writesName_scipWrite _ _ _
      · split at hw
        · cases hw
        · obtain ⟨n, -, rfl⟩ := Option.map_eq_some_iff.mp hw
          exact writesName_scipWrite _ _ _
  | foreign target =>
      simp only [scipDecision, ha] at hw
      split at hw
      · obtain rfl := Option.some.inj hw
        exact writesName_scipWrite _ _ _
      · split at hw
        · cases hw
        · obtain ⟨t, -, rfl⟩ := Option.map_eq_some_iff.mp hw
          exact writesName_scipWrite _ _ _

/-! ## Markdown references -/

/-- Every reference the pass demotes has the unresolved target's name already. -/
def demotesInPlace (s : Store) : Prop :=
  ∀ r ∈ s.edges.rows, ∀ target extra, s.markdownResolution r = some (.demoted target extra) →
    r.targetName = edgeTargetName target

theorem mem_applyResolution_of_ne {a : EdgeRow} {res : MarkdownArtifactResolution}
    (hr : r ∈ (s.applyResolution a res).edges.rows) (hid : r.id ≠ a.id) : r ∈ s.edges.rows := by
  cases res with
  | resolved target extra =>
      simp only [applyResolution] at hr
      split at hr
      · exact hr
      · exact (mem_writeEdge_of_ne hid).mp hr
  | dropped => exact (List.mem_filter.mp hr).1
  | demoted target extra =>
      simp only [applyResolution, EdgeTable.updateWhere, List.mem_map, decide_eq_true_eq] at hr
      obtain ⟨r₀, hr₀, rfl⟩ := hr
      split at hid
      · rename_i h
        exact absurd h hid
      · rename_i h
        rw [if_neg h]
        exact hr₀
  | stillUnresolved => exact hr

theorem named_applyResolution (hn : Named s) {a : EdgeRow} {res : MarkdownArtifactResolution}
    (h : ∀ target extra, res = .demoted target extra →
      ∀ r ∈ s.edges.rows, r.id = a.id → r.targetName = edgeTargetName target) :
    Named (s.applyResolution a res) := by
  cases res with
  | resolved target extra =>
      simp only [applyResolution]
      split
      · exact hn
      · exact named_writeEdge hn _ trivial
  | dropped => exact named_deleteWhere hn _
  | demoted target extra =>
      exact named_updateWhere hn fun r hr hp => h target extra rfl r hr (by simpa using hp)
  | stillUnresolved => exact hn

theorem named_markdownLoop (hd : s.demotesInPlace) : ∀ (rows : List EdgeRow) (cur : Store),
    (∀ a ∈ rows, a ∈ s.edges.rows) → (∀ a ∈ rows, ∀ r ∈ cur.edges.rows, r.id = a.id → r = a) →
    rows.Pairwise (fun a b => a.id ≠ b.id) → Named cur →
    Named (rows.foldl (fun cur r =>
      match s.markdownResolution r with
      | some resolution => cur.applyResolution r resolution
      | none => cur) cur)
  | [], _, _, _, _, hn => hn
  | a :: rows, cur, hmem, hsame, hpair, hn => by
      obtain ⟨hne, hpair⟩ := List.pairwise_cons.mp hpair
      have hmem' := fun b hb => hmem b (List.mem_cons_of_mem a hb)
      have hsame' := fun b hb => hsame b (List.mem_cons_of_mem a hb)
      rw [List.foldl_cons]
      cases hres : s.markdownResolution a with
      | none => exact named_markdownLoop hd rows cur hmem' hsame' hpair hn
      | some res =>
          refine named_markdownLoop hd rows _ hmem' (fun b hb r hr hid => ?_) hpair
            (named_applyResolution hn fun target extra hdem r hr hid => ?_)
          · refine hsame' b hb r (mem_applyResolution_of_ne hr ?_) hid
            exact fun h => hne b hb (h.symm.trans hid)
          · rw [hsame a List.mem_cons_self r hr hid]
            exact hd a (hmem a List.mem_cons_self) target extra (hdem ▸ hres)

theorem named_markdown (digits : Float → Float) (hn : Named s) (hd : s.demotesInPlace) :
    Named (s.resolveMarkdownArtifactRefs digits) := by
  have hloop : Named s.resolveMarkdownRefs :=
    named_markdownLoop hd _ s (fun _ ha => ha) (fun _ ha _ hr hid => row_eq_of_id hr ha hid)
      (List.pairwise_map.mp s.edges.ids_nodup) hn
  have hrestore : Named s.resolveMarkdownRefs.restoreDirectives :=
    named_updateWhere hloop fun r hr _ => hloop r hr
  exact named_updateWhere hrestore fun r hr _ => hrestore r hr

/-! ## Batches, files and bridges -/

theorem named_removeFilesRows (hn : Named s) (paths : List String) :
    Named (s.removeFilesRows paths) := by
  have hfold : ∀ (cs : List (List String)) (s : Store), Named s →
      Named (cs.foldl removeRowsChunk s) := by
    intro cs
    induction cs with
    | nil => exact fun _ hn => hn
    | cons c cs ih =>
        exact fun s hn => ih _ fun r hr => hn r (List.mem_filter.mp hr).1
  exact hfold _ _ (named_of_edges hn (foldl_deleteFtsChunk _ s).2.1)

theorem insertFts_edges {paths : List String} (hs : s.insertFtsForFilePaths paths = some s') :
    s'.edges = s.edges := by
  unfold insertFtsForFilePaths at hs
  split at hs
  · obtain rfl : s = s' := by simpa using hs
    rfl
  · obtain ⟨fts, -, rfl⟩ := Option.map_eq_some_iff.mp hs
    rfl

theorem named_foldl_insertEdge (f : Json → Json) : ∀ (es : List EdgeInput) (s : Store),
    Named s → Named (es.foldl (insertEdge f) s)
  | [], _, hn => hn
  | _ :: es, _, hn => named_foldl_insertEdge f es _ (named_insert hn rfl)

theorem named_storeBatch (hn : Named s) {f : Json → Json} {batch : List FileBatchItem}
    (hs : s.storeBatch f batch = some s') : Named s' := by
  unfold storeBatch at hs
  refine named_of_edges (named_foldl_insertEdge f _ _ ?_) (insertFts_edges hs)
  exact named_removeFilesRows hn _

theorem named_upsertEdge (hn : Named s) (e : EdgeInput) : Named (s.upsertEdge e) := by
  unfold upsertEdge
  split
  · refine named_updateWhere hn fun r _ hp => ?_
    simp only [EdgeInput.sameEdge, Bool.and_eq_true, decide_eq_true_eq] at hp
    simp [EdgeInput.row, hp.1.1.2]
  · exact named_insert hn rfl

theorem named_foldl_upsertEdge : ∀ (es : List EdgeInput) (s : Store), Named s →
    Named (es.foldl upsertEdge s)
  | [], _, hn => hn
  | e :: es, _, hn => named_foldl_upsertEdge es _ (named_upsertEdge hn e)

theorem syncFtsTx_edges {paths : List String} (hs : s.syncFtsForFilePathsTx paths = some s') :
    s'.edges = s.edges := by
  unfold syncFtsForFilePathsTx at hs
  split at hs
  · obtain rfl : s = s' := by simpa using hs
    rfl
  · exact (insertFts_edges hs).trans (foldl_deleteFtsChunk _ s).2.1

theorem named_replaceManifestBridges (hn : Named s) {extractorId : String}
    {nodes : List NodeInput} {edges : List EdgeInput}
    (hs : s.replaceManifestBridges extractorId nodes edges = some s') : Named s' := by
  unfold replaceManifestBridges at hs
  refine named_of_edges (named_foldl_upsertEdge edges _ ?_) (syncFtsTx_edges hs)
  exact fun r hr => hn r (List.mem_filter.mp hr).1

/-! ## Runs of edge operations -/

/-- The operations that write edges, the sub-passes of `resolve_bare_call_targets` one
by one; each carries what its heuristics decide. -/
inductive EdgeOp where
  | storeFileBatch (batch : List FileBatchItem)
  | storeFileBatchJson (batch : List FileBatchItem)
  | removeFileData (path : String)
  | removeFilesData (paths : List String)
  | upsertEdge (edge : EdgeInput)
  | replaceManifestBridges (extractorId : String) (nodes : List NodeInput)
      (edges : List EdgeInput)
  | resolveReexportedTargets
  | resolveMemberShapes (h : CallHeuristics)
  | bindBareCallTargets (h : CallHeuristics) (onReturnedValues : Bool)
  | resolveEnumVariantCalls (h : CallHeuristics)
  | resolveReturnedReceivers (h : CallHeuristics)
  | resolvePyo3Methods (h : CallHeuristics)
  | markGlobImportedExternalCalls (h : CallHeuristics)
  | markDerefCalls (h : CallHeuristics)
  | markStdlibMethodCalls (h : CallHeuristics)
  | markObservedMethodCalls (h : CallHeuristics)
  | syncTestedByWithCalls
  | reconcileTestedByWithCalls
  | resolveBareInheritanceTargets (answer : Store → EdgeRow → InheritAnswer)
  | resolveMarkdownArtifactRefs (digits : Float → Float)
  | settleByIndex (answer : Store → EdgeRow → ScipAnswer) (authoritative : Bool)

def applyEdgeOp (s : Store) : EdgeOp → Option Store
  | .storeFileBatch batch => s.storeFileBatch batch
  | .storeFileBatchJson batch => s.storeFileBatchJson batch
  | .removeFileData path => some (s.removeFileData path)
  | .removeFilesData paths => some (s.removeFilesData paths)
  | .upsertEdge edge => some (s.upsertEdge edge)
  | .replaceManifestBridges extractorId nodes edges =>
      s.replaceManifestBridges extractorId nodes edges
  | .resolveReexportedTargets => s.resolveReexportedTargets
  | .resolveMemberShapes h => some (Store.resolveShapeReceivers h s).1
  | .bindBareCallTargets h onReturned => some (Store.bindBareCallTargets h onReturned s).1
  | .resolveEnumVariantCalls h => some (Store.resolveEnumVariantCalls h s).1
  | .resolveReturnedReceivers h => some (Store.resolveReturnedReceivers h s)
  | .resolvePyo3Methods h => some (Store.resolvePyo3Methods h s).1
  | .markGlobImportedExternalCalls h => Store.markGlobImportedExternalCalls h s
  | .markDerefCalls h => some (Store.markDerefCalls h s).1
  | .markStdlibMethodCalls h => some (Store.markStdlibMethodCalls h s).1
  | .markObservedMethodCalls h => Store.markObservedMethodCalls h s
  | .syncTestedByWithCalls => some s.syncTestedByWithCalls
  | .reconcileTestedByWithCalls => some s.reconcileTestedByWithCalls
  | .resolveBareInheritanceTargets answer => some (s.resolveBareInheritanceTargets answer)
  | .resolveMarkdownArtifactRefs digits => some (s.resolveMarkdownArtifactRefs digits)
  | .settleByIndex answer authoritative => some (Store.settleByIndex answer authoritative s)

/-- When an operation keeps the two columns in step, read off the store it meets. -/
def keepsNames (s : Store) : EdgeOp → Prop
  | .markGlobImportedExternalCalls _ => s.plainCrateImports
  | .markObservedMethodCalls _ => s.plainObservedCalls
  | .resolveMarkdownArtifactRefs _ => s.demotesInPlace
  | _ => True

theorem named_applyEdgeOp (hn : Named s) {op : EdgeOp} (hok : s.keepsNames op)
    (hs : s.applyEdgeOp op = some s') : Named s' := by
  cases op with
  | storeFileBatch batch => exact named_storeBatch hn hs
  | storeFileBatchJson batch => exact named_storeBatch hn hs
  | removeFileData path =>
      obtain rfl := Option.some.inj hs
      rw [removeFileData_eq]
      exact named_removeFilesRows hn _
  | removeFilesData paths =>
      obtain rfl := Option.some.inj hs
      exact named_removeFilesRows hn _
  | upsertEdge edge =>
      obtain rfl := Option.some.inj hs
      exact named_upsertEdge hn edge
  | replaceManifestBridges extractorId nodes edges => exact named_replaceManifestBridges hn hs
  | resolveReexportedTargets => exact named_reexports hn hs
  | resolveMemberShapes h =>
      obtain rfl := Option.some.inj hs
      exact named_shape h hn
  | bindBareCallTargets h onReturned =>
      obtain rfl := Option.some.inj hs
      exact named_bind h onReturned hn
  | resolveEnumVariantCalls h =>
      obtain rfl := Option.some.inj hs
      exact named_enum h hn
  | resolveReturnedReceivers h =>
      obtain rfl := Option.some.inj hs
      exact named_returnedRounds h 6 hn
  | resolvePyo3Methods h =>
      obtain rfl := Option.some.inj hs
      exact named_pyo3 h hn
  | markGlobImportedExternalCalls h => exact named_glob h hn hok hs
  | markDerefCalls h =>
      obtain rfl := Option.some.inj hs
      exact named_deref h hn
  | markStdlibMethodCalls h =>
      obtain rfl := Option.some.inj hs
      exact named_stdlib h hn
  | markObservedMethodCalls h => exact named_observed h hn hok hs
  | syncTestedByWithCalls =>
      obtain rfl := Option.some.inj hs
      exact named_sync hn
  | reconcileTestedByWithCalls =>
      obtain rfl := Option.some.inj hs
      exact named_reconcile hn
  | resolveBareInheritanceTargets answer =>
      obtain rfl := Option.some.inj hs
      exact named_inheritance hn answer
  | resolveMarkdownArtifactRefs digits =>
      obtain rfl := Option.some.inj hs
      exact named_markdown digits hn hok
  | settleByIndex answer authoritative =>
      obtain rfl := Option.some.inj hs
      exact named_settleByIndex hn answer authoritative

def noEdges (s : Store) : Prop := s.edges.rows = []

/-- In every run from a store without edges whose operations meet the condition, the columns
are in step, and a lookup by name finds exactly the edges whose target has it. -/
theorem named_of_reach (hr : Reach noEdges applyEdgeOp keepsNames s) :
    Named s ∧ ∀ name kind, s.searchEdgesByTargetName name kind
      = s.edges.rows.filter fun r => edgeTargetName r.target = name && r.kind = kind := by
  have hn : Named s := by
    refine hr.invariant (fun s h0 r hr => ?_) fun _ _ _ _ hn hok hs => named_applyEdgeOp hn hok hs
    rw [show s.edges.rows = [] from h0] at hr
    cases hr
  refine ⟨hn, fun name kind => List.filter_congr fun r hr => ?_⟩
  rw [hn r hr]

/-- `code.py` with a function, and a document that names it. -/
def documented : List FileBatchItem :=
  [{ filePath := "code.py", fileHash := "", mtimeNs := 0, edges := []
     nodes := [{ kind := "Function", name := "run", filePath := "code.py",
                 language := "python" }] },
    { filePath := "doc.md", fileHash := "", mtimeNs := 0, nodes := []
      edges := [{ kind := "CROSS_ARTIFACT", source := "doc.md::usage", target := "<unresolved:run>"
                  filePath := "doc.md", line := 4
                  extra := .obj [("source_language", .str "markdown"),
                    ("original_symbol_name", .str "run")] }] }]

def demotes (s : Store) (r : EdgeRow) : Bool :=
  match s.markdownResolution r with
  | some (.demoted _ _) => true
  | _ => false

theorem demotesInPlace_of_none (h : s.edges.rows.any s.demotes = false) : s.demotesInPlace := by
  intro r hr target extra hres
  rw [List.any_eq_false] at h
  exact absurd (by simp [demotes, hres]) (h r hr)

theorem named_of_reach_documented :
    ∃ s, Reach noEdges applyEdgeOp keepsNames s ∧
      (s.searchEdgesByTargetName "run" "CROSS_ARTIFACT").map EdgeRow.target = ["code.py::run"] ∧
      Named s := by
  have hbatch : (applyEdgeOp { fts := some [] } (.storeFileBatch documented)).any
      (fun s => !s.edges.rows.any s.demotes &&
        ((s.resolveMarkdownArtifactRefs id).searchEdgesByTargetName "run" "CROSS_ARTIFACT").map
          EdgeRow.target = ["code.py::run"]) = true := by decide
  rw [Option.any_eq_true] at hbatch
  obtain ⟨s, hs, hok⟩ := hbatch
  simp only [Bool.and_eq_true, Bool.not_eq_true', decide_eq_true_eq] at hok
  have h0 : Reach noEdges applyEdgeOp keepsNames { fts := some [] } := .start rfl
  have hr := h0.next (show keepsNames _ (.storeFileBatch documented) from trivial) hs
  have hin : s.keepsNames (.resolveMarkdownArtifactRefs id) := demotesInPlace_of_none hok.1
  have hr' := hr.next hin rfl
  exact ⟨_, hr', hok.2, (named_of_reach hr').1⟩

/-- The function goes away: the reference is unresolved again, under the name of the
function. -/
theorem not_named_of_reach :
    ∃ s, runSteps applyEdgeOp anyStep { fts := some [] }
        [.storeFileBatch documented, .resolveMarkdownArtifactRefs id, .removeFileData "code.py",
          .resolveMarkdownArtifactRefs id] = some s ∧
      s.edges.rows.map (fun r => (r.target, r.targetName)) = [("<unresolved:run>", "run")] ∧
      ¬ Named s := by
  have hrows : (runSteps applyEdgeOp anyStep { fts := some [] }
      [.storeFileBatch documented, .resolveMarkdownArtifactRefs id, .removeFileData "code.py",
        .resolveMarkdownArtifactRefs id]).map
        (fun s => s.edges.rows.map fun r => (r.target, r.targetName))
      = some [("<unresolved:run>", "run")] := by decide
  obtain ⟨s, hs, hrows⟩ := Option.map_eq_some_iff.mp hrows
  refine ⟨s, hs, hrows, fun hn => ?_⟩
  have hmem : ("<unresolved:run>", "run") ∈ s.edges.rows.map fun r => (r.target, r.targetName) := by
    rw [hrows]
    exact List.mem_cons_self
  obtain ⟨r, hr, heq⟩ := List.mem_map.mp hmem
  obtain ⟨htarget, hname⟩ := Prod.mk.inj heq
  have := hn r hr
  rw [htarget, hname] at this
  exact absurd this (by decide)

end Store

end Dagayn
