import Dagayn.TaskQueue

/-!
# No request is lost

Every successful `enqueue` stays covered: by its row while the row exists, and by
the completed execution once `complete` has dropped it. A row's payload changes
only while it is pending, and merging loses nothing (`covers_mergePy`,
`covers_mergeRs`), so whoever claims the row claims the work of every request
folded into it before. `complete` drops a row only while it is running, and then
it is the claim the worker has in hand (`Inv.hand`), whatever a late watchdog or a
recycled row id has done in between. How often a row is claimed is bounded in `attempts_le`.
-/

namespace Dagayn

namespace Payload

variable {repr : Json → String}

theorem skipStructure_of_merge {old new merged : Payload}
    (h : (if old.skipStructure && new.skipStructure then merged
      else merged.erase "skip_structure").skipStructure = true) :
    old.skipStructure = true ∧ new.skipStructure = true := by
  split at h
  · rename_i hb
    simpa using hb
  · simp [skipStructure] at h

theorem skipStructure_insert_files (p : Payload) (v : Json) :
    skipStructure (p.insert "files" v) = p.skipStructure := by
  simp [skipStructure]

theorem skipStructure_erase_files (p : Payload) :
    skipStructure (p.erase "files") = p.skipStructure := by
  simp [skipStructure, AList.lookup_erase_ne]

end Payload

namespace TaskQueue

open Payload

variable {repr : Json → String} {q q' : TaskQueue}

/-! ## Merging loses nothing -/

/-- A merged embed payload: `skip_structure` only if both had it, the files of
both or no list at all. -/
structure Merged (repr : Json → String) (old new merged : Payload) : Prop where
  skip : merged.skipStructure = true → old.skipStructure = true ∧ new.skipStructure = true
  files : fileNames repr merged = none ∨ ∃ names olds news,
    fileNames repr merged = some names ∧ fileNames repr old = some olds ∧
    fileNames repr new = some news ∧ ∀ f, f ∈ olds ∨ f ∈ news → f ∈ names

theorem fileNames_insert (p : Payload) (names : List String) :
    fileNames repr (p.insert "files" (.arr (names.map .str))) = some names := by
  simp [fileNames, fileList, Json.asList, Json.pyStr, Function.comp_def]

theorem fileNames_erase (p : Payload) : fileNames repr (p.erase "files") = none := by
  simp [fileNames, fileList]

theorem merged_mergePy (old new : Payload) :
    Merged repr old new (mergePy repr .embed old new) := by
  unfold mergePy
  simp only [ne_eq, not_true_eq_false, if_false]
  split
  · rename_i oldFiles newFiles ho hn
    constructor
    · intro h
      rw [skipStructure_insert_files] at h
      exact skipStructure_of_merge h
    · refine .inr ⟨_, oldFiles.map (Json.pyStr repr), newFiles.map (Json.pyStr repr),
        fileNames_insert _ _, by simp [fileNames, ho], by simp [fileNames, hn], ?_⟩
      intro f hf
      rw [List.mem_insertionSort, List.mem_dedup, List.map_append, List.mem_append]
      exact hf
  · constructor
    · intro h
      rw [skipStructure_erase_files] at h
      exact skipStructure_of_merge h
    · exact .inl (fileNames_erase _)

theorem pyStr_of_rsStr {v : Json} {s : String} (h : v.rsStr = some s) :
    v.pyStr repr = s := by
  cases v <;> simp_all [Json.rsStr, Json.pyStr]

theorem map_pyStr_of_mapM : ∀ {items : List Json} {names : List String},
    items.mapM Json.rsStr = some names → items.map (Json.pyStr repr) = names
  | [], names, h => by
      simp only [List.mapM_nil, Option.pure_def, Option.some.injEq] at h
      simp [← h]
  | v :: rest, names, h => by
      simp only [List.mapM_cons, Option.pure_def, Option.bind_eq_bind,
        Option.bind_eq_some_iff, Option.some.injEq] at h
      obtain ⟨s, hs, ss, hss, rfl⟩ := h
      rw [List.map_cons, pyStr_of_rsStr hs, map_pyStr_of_mapM hss]

theorem fileNames_of_pathList {p : Payload} {names : List String}
    (h : p.pathList = some (some names)) : fileNames repr p = some names := by
  unfold pathList at h
  split at h
  · cases h
  · rename_i items hi
    simp only [Option.map_eq_some_iff, Option.some.injEq] at h
    obtain ⟨ns, hns, rfl⟩ := h
    simp [fileNames, hi, map_pyStr_of_mapM hns]

theorem merged_mergeRs {old new merged : Payload}
    (h : mergeRs .embed old new = some merged) : Merged repr old new merged := by
  unfold mergeRs at h
  simp only [ne_eq, not_true_eq_false, if_false] at h
  split at h
  · rename_i oldFiles newFiles ho hn
    obtain rfl := Option.some.inj h
    constructor
    · intro h
      rw [skipStructure_insert_files] at h
      exact skipStructure_of_merge h
    · refine .inr ⟨_, oldFiles, newFiles, fileNames_insert _ _, fileNames_of_pathList ho,
        fileNames_of_pathList hn, ?_⟩
      intro f hf
      rw [List.mem_dedup, List.mem_insertionSort, List.mem_append]
      exact hf
  · obtain rfl := Option.some.inj h
    constructor
    · intro h
      rw [skipStructure_erase_files] at h
      exact skipStructure_of_merge h
    · exact .inl (fileNames_erase _)
  · cases h

theorem Merged.covers_old {old new merged : Payload} {kind : Kind} {r : Request}
    (hm : kind = .embed → Merged repr old new merged) (h : Covers repr kind old r) :
    Covers repr kind merged r := by
  refine ⟨h.1, fun hk => ?_⟩
  obtain ⟨hfiles, hskip⟩ := h.2 hk
  have hm := hm hk
  refine ⟨?_, fun hs => hskip (hm.skip hs).1⟩
  rcases hm.files with hnone | ⟨names, olds, news, hn, ho, -, hsub⟩
  · exact .inl hnone
  · rcases hfiles with hnone | ⟨have_, want, hh, hw, hwant⟩
    · rw [ho] at hnone; cases hnone
    · obtain rfl : olds = have_ := by rw [ho] at hh; exact Option.some.inj hh
      exact .inr ⟨names, want, hn, hw, fun f hf => hsub f (.inl (hwant f hf))⟩

theorem Merged.covers_new {old new merged : Payload} {kind : Kind} {time : Nat}
    (hm : kind = .embed → Merged repr old new merged) :
    Covers repr kind merged ⟨kind, new, time⟩ := by
  refine ⟨rfl, fun hk => ?_⟩
  have hm := hm hk
  refine ⟨?_, fun hs => (hm.skip hs).2⟩
  rcases hm.files with hnone | ⟨names, olds, news, hn, -, hnew, hsub⟩
  · exact .inl hnone
  · exact .inr ⟨names, news, hn, hnew, fun f hf => hsub f (.inr hf)⟩

theorem covers_self (kind : Kind) (payload : Payload) (time : Nat) :
    Covers repr kind payload ⟨kind, payload, time⟩ := by
  refine ⟨rfl, fun _ => ⟨?_, id⟩⟩
  cases fileNames repr payload with
  | none => exact .inl rfl
  | some names => exact .inr ⟨names, names, rfl, rfl, fun _ h => h⟩

/-! ## The invariant -/

/-- A row that does the work of a request; if running, since a later claim. -/
def Backs (repr : Json → String) (row : TaskRow) (r : Request) : Prop :=
  Covers repr row.kind row.payload r ∧ (row.state = .running → r.time < row.claimedAt)

structure Inv (repr : Json → String) (q : TaskQueue) : Prop where
  ids : (q.rows.map TaskRow.id).Nodup
  past : ∀ r ∈ q.requests, r.time < q.time
  backed : ∀ r ∈ q.requests, (∃ row ∈ q.rows, Backs repr row r) ∨
    ∃ task ∈ q.completed, r.time < task.claimedAt ∧ Covers repr task.kind task.payload r
  hand : ∀ {task : Task}, q.worker = some (some task) → ∀ row ∈ q.rows, row.id = task.id →
    row.state = .running → row.kind = task.kind ∧ row.payload = task.payload ∧
      row.claimedAt = task.claimedAt

theorem inv_start : Inv repr {} where
  ids := by simp
  past := by simp
  backed := by simp
  hand h := by simp at h

theorem eq_of_id (h : (q.rows.map TaskRow.id).Nodup) {r r' : TaskRow} (hr : r ∈ q.rows)
    (hr' : r' ∈ q.rows) (hid : r.id = r'.id) : r = r' :=
  List.inj_on_of_nodup_map h hr hr' hid

theorem ids_setRow (q : TaskQueue) (id : Nat) (f : TaskRow → TaskRow)
    (hf : ∀ r, (f r).id = r.id) :
    (q.setRow id f).rows.map TaskRow.id = q.rows.map TaskRow.id := by
  simp only [setRow, List.map_map]
  refine List.map_congr_left fun r _ => ?_
  simp only [Function.comp]
  split
  · exact hf r
  · rfl

theorem mem_setRow {id : Nat} {f : TaskRow → TaskRow} {row : TaskRow} :
    row ∈ (q.setRow id f).rows ↔
      ∃ r ∈ q.rows, (if r.id = id then f r else r) = row := by
  simp [setRow]

theorem backed_setRow {id : Nat} {f : TaskRow → TaskRow} {r : Request}
    (hf : ∀ row ∈ q.rows, row.id = id → Backs repr row r → Backs repr (f row) r)
    (h : ∃ row ∈ q.rows, Backs repr row r) :
    ∃ row ∈ (q.setRow id f).rows, Backs repr row r := by
  obtain ⟨row, hrow, hb⟩ := h
  refine ⟨_, mem_setRow.mpr ⟨row, hrow, rfl⟩, ?_⟩
  split
  · rename_i hid
    exact hf row hrow hid hb
  · exact hb

/-! ## The producers -/

theorem id_lt_nextId {row : TaskRow} (h : row ∈ q.rows) : row.id < q.nextId :=
  Nat.lt_succ_of_le (List.le_max_of_le (List.mem_map_of_mem h) (Nat.le_refl _))

theorem Inv.past_request (h : Inv repr q) (kind : Kind) (payload : Payload) :
    ∀ r ∈ (⟨kind, payload, q.time⟩ : Request) :: q.requests, r.time < q.time + 1 := by
  intro r hr
  rcases List.mem_cons.mp hr with rfl | hr
  · exact Nat.lt_succ_self _
  · exact Nat.lt_succ_of_lt (h.past r hr)

/-- A request that is merged into the pending task of its kind. -/
theorem inv_merge (h : Inv repr q) {kind : Kind} {payload merged : Payload} {priority : Int}
    {r : TaskRow} (ht : q.twin kind = some r)
    (hmerge : kind = .embed → Merged repr r.payload payload merged) :
    Inv repr { ({ q with requests := ⟨kind, payload, q.time⟩ :: q.requests } : TaskQueue).setRow
        r.id fun r => { r with payload := merged, priority := max r.priority priority } with
      time := q.time + 1 } := by
  have hr : r ∈ q.rows := List.mem_of_find?_eq_some ht
  have hrk : r.kind = kind ∧ r.state = .pending := by
    simpa using List.find?_some ht
  refine ⟨?_, h.past_request kind payload, ?_, ?_⟩
  · have := ids_setRow { q with requests := ⟨kind, payload, q.time⟩ :: q.requests } r.id
      (fun r => { r with payload := merged, priority := max r.priority priority })
      (fun _ => rfl)
    exact this ▸ h.ids
  · intro req hreq
    rcases List.mem_cons.mp hreq with rfl | hreq
    · refine .inl ⟨_, mem_setRow.mpr ⟨r, hr, rfl⟩, ?_⟩
      rw [if_pos rfl]
      refine ⟨?_, fun hrun => ?_⟩
      · show Covers repr r.kind merged _
        rw [hrk.1]
        exact Merged.covers_new hmerge
      · exact absurd (show r.state = .running from hrun) (by simp [hrk.2])
    · refine (h.backed req hreq).imp_left fun hb => backed_setRow ?_ hb
      intro row hrow hid hback
      obtain rfl := eq_of_id h.ids hrow hr hid
      refine ⟨Merged.covers_old (fun hk => hmerge (hrk.1 ▸ hk)) hback.1, ?_⟩
      exact fun hrun => hback.2 hrun
  · intro task hw row hrow hid hrun
    obtain ⟨r', hr', rfl⟩ := mem_setRow.mp hrow
    split at hrun
    · rename_i hid'
      obtain rfl := eq_of_id h.ids hr' hr hid'
      exact absurd (show r'.state = .running from hrun) (by simp [hrk.2])
    · rename_i hid'
      rw [if_neg hid'] at hid ⊢
      exact h.hand hw r' hr' hid hrun

/-- A request of a kind without a pending task. -/
theorem inv_add (h : Inv repr q) (kind : Kind) (payload : Payload) (row : TaskRow)
    (hid : row.id = q.nextId) (hpending : row.state = .pending)
    (hcovers : Covers repr row.kind row.payload ⟨kind, payload, q.time⟩) :
    Inv repr { q with
      rows := q.rows ++ [row]
      requests := ⟨kind, payload, q.time⟩ :: q.requests
      time := q.time + 1 } := by
  refine ⟨?_, h.past_request kind payload, ?_, ?_⟩
  · show (List.map TaskRow.id (q.rows ++ _)).Nodup
    rw [List.map_append, List.nodup_append]
    refine ⟨h.ids, by simp, ?_⟩
    intro a ha b hb
    obtain ⟨row', hrow, rfl⟩ := List.mem_map.mp ha
    obtain rfl : b = q.nextId := by simpa [hid] using hb
    exact Nat.ne_of_lt (id_lt_nextId hrow)
  · intro req hreq
    rcases List.mem_cons.mp hreq with rfl | hreq
    · refine .inl ⟨row, List.mem_append_right _ List.mem_cons_self, hcovers, fun hrun => ?_⟩
      rw [hpending] at hrun
      cases hrun
    · refine (h.backed req hreq).imp_left ?_
      rintro ⟨row', hrow, hb⟩
      exact ⟨row', List.mem_append_left _ hrow, hb⟩
  · intro task hw row' hrow hid' hrun
    rcases List.mem_append.mp hrow with hrow | hrow
    · exact h.hand hw row' hrow hid' hrun
    · obtain rfl := List.mem_singleton.mp hrow
      rw [hpending] at hrun
      cases hrun

theorem inv_enqueue (h : Inv repr q) {kind : Kind} {payload : Payload} {priority : Int}
    {merge : Payload → Option Payload}
    (hmerge : ∀ old merged, merge old = some merged →
      kind = .embed → Merged repr old payload merged)
    (hq : q.enqueue kind payload priority merge = some q') :
    Inv repr { q' with time := q.time + 1 } := by
  unfold enqueue at hq
  cases ht : q.twin kind with
  | some r =>
      simp only [ht, Option.map_eq_some_iff] at hq
      obtain ⟨merged, hm, rfl⟩ := hq
      exact inv_merge h ht (hmerge _ _ hm)
  | none =>
      simp only [ht, Option.some.injEq] at hq
      subst hq
      exact inv_add h kind payload _ rfl rfl (covers_self kind payload _)

/-! ## The worker -/

theorem inv_fail (h : Inv repr q) (task : Task) (fatal : Bool) (now delay : Int)
    {w : Option (Option Task)} (hw : w = some none ∨ w = q.worker) (firing : List Task) :
    Inv repr { q.fail task fatal now delay with
      worker := w, firing := firing, time := q.time + 1 } := by
  obtain ⟨f, hf, hid, hk, hp, hs⟩ : ∃ f : TaskRow → TaskRow,
      q.fail task fatal now delay = q.setRow task.id f ∧ (∀ r, (f r).id = r.id) ∧
      (∀ r, (f r).kind = r.kind) ∧ (∀ r, (f r).payload = r.payload) ∧
      ∀ r, (f r).state ≠ .running := by
    unfold fail
    split
    · exact ⟨_, rfl, fun _ => rfl, fun _ => rfl, fun _ => rfl, fun _ => by simp⟩
    · exact ⟨_, rfl, fun _ => rfl, fun _ => rfl, fun _ => rfl, fun _ => by simp⟩
  rw [hf]
  refine ⟨?_, fun r hr => Nat.lt_succ_of_lt (h.past r hr), ?_, ?_⟩
  · exact (ids_setRow q task.id f hid) ▸ h.ids
  · intro r hr
    refine (h.backed r hr).imp_left fun hb => backed_setRow ?_ hb
    intro row _ _ hback
    exact ⟨by rw [hk, hp]; exact hback.1, fun hrun => absurd hrun (hs row)⟩
  · intro t ht row hrow hrid hrun
    rcases hw with rfl | rfl
    · cases ht
    · obtain ⟨r', hr', rfl⟩ := mem_setRow.mp hrow
      split at hrun
      · exact absurd hrun (hs r')
      · rename_i hne
        rw [if_neg hne] at hrid ⊢
        exact h.hand ht r' hr' hrid hrun

theorem nextClaim_spec {now : Int} : ∀ {rows : List TaskRow} {r : TaskRow},
    nextClaim now rows = some r → r ∈ rows ∧ r.state = .pending
  | x :: rest, r, h => by
      simp only [nextClaim] at h
      split at h
      · split at h
        · rename_i hx
          obtain rfl : x = r := by simpa using h
          simp only [Bool.and_eq_true, decide_eq_true_eq] at hx
          exact ⟨List.mem_cons_self, hx.1⟩
        · cases h
      · rename_i b hb
        split at h
        · rename_i hx
          obtain rfl : x = r := by simpa using h
          simp only [Bool.and_eq_true, decide_eq_true_eq] at hx
          exact ⟨List.mem_cons_self, hx.1.1⟩
        · obtain rfl : b = r := by simpa using h
          obtain ⟨hm, hs⟩ := nextClaim_spec hb
          exact ⟨List.mem_cons_of_mem _ hm, hs⟩

theorem inv_claim (h : Inv repr q) (now : Int) :
    Inv repr { q.claim now with time := q.time + 1 } := by
  unfold claim
  split
  · exact ⟨h.ids, fun r hr => Nat.lt_succ_of_lt (h.past r hr), h.backed, h.hand⟩
  · rename_i r hr
    obtain ⟨hmem, -⟩ := nextClaim_spec hr
    refine ⟨?_, fun r hr => Nat.lt_succ_of_lt (h.past r hr), ?_, ?_⟩
    · have := ids_setRow q r.id
        (fun r => { r with state := .running, attempts := r.attempts + 1, claimedAt := q.time })
        (fun _ => rfl)
      exact this ▸ h.ids
    · intro req hreq
      refine (h.backed req hreq).imp_left fun hb => backed_setRow ?_ hb
      intro row _ _ hback
      exact ⟨hback.1, fun _ => h.past req hreq⟩
    · intro task ht row hrow hid hrun
      obtain rfl : _ = task := by simpa using ht
      obtain ⟨r', hr', rfl⟩ := mem_setRow.mp hrow
      split at hid
      · rename_i hid'
        obtain rfl := eq_of_id h.ids hr' hmem hid'
        rw [if_pos rfl]
        exact ⟨rfl, rfl, rfl⟩
      · rename_i hid'
        exact absurd hid hid'

theorem inv_complete (h : Inv repr q) {task : Task} (hw : q.worker = some (some task)) :
    Inv repr { q.complete task with worker := some none, time := q.time + 1 } := by
  have hsub : ∀ row, row ∈ (q.complete task).rows →
      row ∈ q.rows := fun row hrow => List.mem_of_mem_filter hrow
  refine ⟨?_, fun r hr => Nat.lt_succ_of_lt (h.past r hr), ?_, ?_⟩
  · exact h.ids.sublist (List.filter_sublist.map TaskRow.id)
  · intro r hr
    rcases h.backed r hr with ⟨row, hrow, hback⟩ | ⟨t, ht, hb⟩
    · by_cases hgone : row.id = task.id ∧ row.state = .running
      · -- the dropped row is the claim in hand
        obtain ⟨hk, hp, hc⟩ := h.hand hw row hrow hgone.1 hgone.2
        refine .inr ⟨task, List.mem_cons_self, ?_, ?_⟩
        · rw [← hc]; exact hback.2 hgone.2
        · rw [← hk, ← hp]; exact hback.1
      · refine .inl ⟨row, List.mem_filter.mpr ⟨hrow, ?_⟩, hback⟩
        simpa [Classical.or_iff_not_imp_left] using hgone
    · exact .inr ⟨t, List.mem_cons_of_mem _ ht, hb⟩
  · intro t ht
    cases ht

theorem inv_requeueStale (h : Inv repr q) :
    Inv repr { q.requeueStale with time := q.time + 1 } := by
  have hrow : ∀ r : TaskRow, ∃ r', (if r.state = .running then
      if maxAttempts ≤ r.attempts then { r with state := .dead }
      else { r with state := .pending } else r) = r' ∧ r'.id = r.id ∧ r'.kind = r.kind ∧
      r'.payload = r.payload ∧ r'.state ≠ .running := by
    intro r
    split
    · split <;> exact ⟨_, rfl, rfl, rfl, rfl, by simp⟩
    · rename_i hne; exact ⟨_, rfl, rfl, rfl, rfl, hne⟩
  refine ⟨?_, fun r hr => Nat.lt_succ_of_lt (h.past r hr), ?_, ?_⟩
  · have hmap : (q.requeueStale.rows).map TaskRow.id = q.rows.map TaskRow.id := by
      simp only [requeueStale, List.map_map]
      refine List.map_congr_left fun r _ => ?_
      obtain ⟨r', hr', hid, -⟩ := hrow r
      simp only [Function.comp, hr', hid]
    exact hmap ▸ h.ids
  · intro r hr
    refine (h.backed r hr).imp_left ?_
    rintro ⟨row, hmem, hback⟩
    obtain ⟨r', hr', -, hk, hp, hs⟩ := hrow row
    refine ⟨r', ?_, by rw [hk, hp]; exact hback.1, fun hrun => absurd hrun hs⟩
    exact List.mem_map.mpr ⟨row, hmem, hr'⟩
  · intro t _ row hmem _ hrun
    obtain ⟨r, -, hr⟩ := List.mem_map.mp hmem
    obtain ⟨r', hr', -, -, -, hs⟩ := hrow r
    rw [hr'] at hr
    exact absurd hrun (hr ▸ hs)

/-! ## Whole runs -/

/-- A move of the worker that touches no row, and gives it no new task. -/
theorem inv_worker (h : Inv repr q) (w : Option (Option Task)) (firing : List Task)
    (hw : ∀ task, w = some (some task) → q.worker = w) :
    Inv repr { q with worker := w, firing := firing, time := q.time + 1 } := by
  refine ⟨h.ids, fun r hr => Nat.lt_succ_of_lt (h.past r hr), h.backed, ?_⟩
  intro task ht
  exact h.hand ((hw task ht).trans ht)

theorem inv_overrun (h : Inv repr q) (task : Task) (i : Nat) (now delay : Int) :
    Inv repr { q.fail task false now delay with
      firing := q.firing.eraseIdx i, time := q.time + 1 } := by
  have hw : (q.fail task false now delay).worker = q.worker := by
    unfold fail; split <;> rfl
  have hfail := inv_fail h task false now delay (w := q.worker) (.inr rfl) (q.firing.eraseIdx i)
  rw [← hw] at hfail
  exact hfail

theorem inv_step (h : Inv repr q) {a : QueueAct} (hs : q.step repr a = some q') :
    Inv repr q' := by
  simp only [step, Option.map_eq_some_iff] at hs
  obtain ⟨q₁, ha, rfl⟩ := hs
  cases a with
  | enqueuePy kind payload priority =>
      simp only [act] at ha
      refine inv_enqueue h (fun old merged hm hk => ?_) ha
      obtain rfl : _ = merged := by simpa using hm
      exact hk ▸ merged_mergePy old payload
  | enqueueRs kind payload =>
      simp only [act] at ha
      refine inv_enqueue h (fun old merged hm hk => ?_) ha
      exact merged_mergeRs (hk ▸ hm)
  | start =>
      simp only [act] at ha
      split at ha
      · obtain rfl : _ = q₁ := by simpa using ha
        exact inv_worker h (some none) q.firing (by simp)
      · cases ha
  | requeueStale =>
      simp only [act] at ha
      split at ha
      · cases ha
      · obtain rfl : _ = q₁ := by simpa using ha
        exact inv_requeueStale h
  | claim now =>
      simp only [act] at ha
      split at ha
      · obtain rfl : _ = q₁ := by simpa using ha
        exact inv_claim h now
      · cases ha
  | complete =>
      simp only [act] at ha
      split at ha
      · rename_i task hw
        obtain rfl : _ = q₁ := by simpa using ha
        exact inv_complete h hw
      · cases ha
  | fail fatal now delay =>
      simp only [act] at ha
      split at ha
      · rename_i task hw
        obtain rfl : _ = q₁ := by simpa using ha
        have := inv_fail h task fatal now delay (w := some none) (.inl rfl)
          (q.fail task fatal now delay).firing
        exact this
      · cases ha
  | expire =>
      simp only [act] at ha
      split at ha
      · rename_i task hw
        obtain rfl : _ = q₁ := by simpa using ha
        exact inv_worker h q.worker (task :: q.firing) (fun _ _ => rfl)
      · cases ha
  | overrun i now delay =>
      simp only [act] at ha
      split at ha
      · rename_i t ht
        obtain rfl : _ = q₁ := by simpa using ha
        exact inv_overrun h t i now delay
      · cases ha
  | exit =>
      obtain rfl : _ = q₁ := by simpa [act] using ha
      exact inv_worker h none q.firing (by simp)

theorem inv_reachable (h : Reachable repr q) : Inv repr q := by
  refine Reach.invariant (I := Inv repr) ?_ ?_ h
  · rintro q rfl
    exact inv_start
  · intro q a q' _ hi _ hs
    exact inv_step hi hs

/-- Whatever the order of enqueues from either client, claims, completions,
failures, overruns and recoveries, every request is covered at all times. -/
theorem request_covered (h : Reachable repr q) {r : Request} (hr : r ∈ q.requests) :
    Covered repr q r := by
  rcases (inv_reachable h).backed r hr with ⟨row, hrow, hc, hrun⟩ | hdone
  · cases hs : row.state with
    | pending => exact .inl ⟨row, hrow, hs, hc⟩
    | running => exact .inr (.inl ⟨row, hrow, hs, hrun hs, hc⟩)
    | dead => exact .inr (.inr (.inr ⟨row, hrow, hs, hc⟩))
  · exact .inr (.inr (.inl hdone))

/-- Two scoped embeds folded into one row, the row claimed, a third request for
one of its files enqueued, and the task in hand completed. -/
def embedRun : List QueueAct :=
  let oneFile (file : String) : Payload :=
    (∅ : Payload).insert "files" (.arr [.str file])
  [.enqueuePy .embed (oneFile "a.py") none, .enqueueRs .embed (oneFile "b.py"), .start,
    .requeueStale, .claim 0, .enqueueRs .embed (oneFile "a.py"), .complete]

theorem request_covered_embedRun :
    ∃ q, Reachable (fun _ => "") q ∧ q.requests.length = 3 ∧ q.completed.length = 1 ∧
      ∀ r ∈ q.requests, Covered (fun _ => "") q r := by
  obtain ⟨q, hr, hq⟩ := exists_reach_of_run (· = {}) (step fun _ => "")
    anyStep {} embedRun
    (fun q => q.requests.length = 3 && q.completed.length = 1) rfl (by decide)
  simp only [Bool.and_eq_true, decide_eq_true_eq] at hq
  exact ⟨q, hr, hq.1, hq.2, fun r hmem => request_covered hr hmem⟩

/-! ## Retries -/

/-- The overrun of a task whose row has been claimed again. -/
def isLate (q : TaskQueue) : QueueAct → Bool
  | .overrun i _ _ => q.firing[i]?.any fun task =>
      q.rows.any fun r => r.id = task.id && task.attempts < r.attempts
  | _ => false

def lateOverruns (repr : Json → String) : TaskQueue → List QueueAct → Nat
  | _, [] => 0
  | q, a :: as => (if q.isLate a then 1 else 0) +
      ((q.step repr a).map fun q' => lateOverruns repr q' as).getD 0

/-- After `b` late overruns; nobody has claimed the row in hand again. -/
structure Bounded (b : Nat) (q : TaskQueue) : Prop where
  rows : ∀ r ∈ q.rows, r.attempts ≤ maxAttempts + b ∧
    (r.state = .pending → r.attempts < maxAttempts + b)
  hand : ∀ {task : Task}, q.worker = some (some task) → ∀ r ∈ q.rows, r.id = task.id →
    r.attempts ≤ task.attempts

/-- A new row, or one of the queue that has not been claimed in between. -/
def Unclaimed (b : Nat) (q : TaskQueue) (r' : TaskRow) : Prop :=
  r'.attempts = 0 ∨ ∃ r ∈ q.rows, r'.id = r.id ∧ r'.attempts = r.attempts ∧
    (r'.state = .pending → r.attempts < maxAttempts + b)

section Retries

variable {b b' : Nat}

theorem Bounded.unclaimed (h : Bounded b q) (hb : b ≤ b') {r : TaskRow} (hr : r ∈ q.rows) :
    Unclaimed b' q r :=
  .inr ⟨r, hr, rfl, rfl, fun hp => Nat.lt_of_lt_of_le ((h.rows r hr).2 hp) (by omega)⟩

theorem Bounded.of_unclaimed (h : Bounded b q) (hb : b ≤ b')
    (hrows : ∀ r' ∈ q'.rows, Unclaimed b' q r')
    (hhand : ∀ task, q'.worker = some (some task) → q.worker = some (some task)) :
    Bounded b' q' := by
  constructor
  · intro r' hr'
    rcases hrows r' hr' with hzero | ⟨r, hr, -, heq, hpending⟩
    · simp only [hzero, maxAttempts]
      omega
    · rw [heq]
      exact ⟨Nat.le_trans (h.rows r hr).1 (by omega), hpending⟩
  · intro task htask r' hr' hid
    rcases hrows r' hr' with hzero | ⟨r, hr, heq, hattempts, -⟩
    · omega
    · exact hattempts ▸ h.hand (hhand task htask) r hr (heq ▸ hid)

theorem Bounded.setRow (h : Bounded b q) (hb : b ≤ b') {id : Nat} {f : TaskRow → TaskRow}
    (hf : ∀ r ∈ q.rows, r.id = id → Unclaimed b' q (f r)) :
    ∀ r' ∈ (q.setRow id f).rows, Unclaimed b' q r' := by
  intro r' hr'
  obtain ⟨r, hr, rfl⟩ := mem_setRow.mp hr'
  split
  · rename_i hid
    exact hf r hr hid
  · exact h.unclaimed hb hr

theorem Bounded.enqueue (h : Bounded b q) {kind : Kind} {payload : Payload} {priority : Int}
    {merge : Payload → Option Payload} (hq : q.enqueue kind payload priority merge = some q') :
    Bounded b q' := by
  unfold TaskQueue.enqueue at hq
  split at hq
  · obtain ⟨merged, -, rfl⟩ := Option.map_eq_some_iff.mp hq
    exact h.of_unclaimed le_rfl
      (h.setRow le_rfl fun r hr _ => .inr ⟨r, hr, rfl, rfl, (h.rows r hr).2⟩) fun _ => id
  · obtain rfl := Option.some.inj hq
    refine h.of_unclaimed le_rfl (fun r' hr' => ?_) fun _ => id
    rcases List.mem_append.mp hr' with hr' | hr'
    · exact h.unclaimed le_rfl hr'
    · exact .inl (List.mem_singleton.mp hr' ▸ rfl)

theorem Bounded.fail (h : Bounded b q) (hb : b ≤ b') {task : Task} (fatal : Bool)
    (now delay : Int) (hlow : task.attempts < maxAttempts → ∀ r ∈ q.rows, r.id = task.id →
      r.attempts < maxAttempts + b') :
    ∀ r' ∈ (q.fail task fatal now delay).rows, Unclaimed b' q r' := by
  unfold TaskQueue.fail
  split
  · exact h.setRow hb fun r hr _ => .inr ⟨r, hr, rfl, rfl, nofun⟩
  · rename_i hgo
    simp only [Bool.or_eq_true, decide_eq_true_eq, not_or, Nat.not_le] at hgo
    exact h.setRow hb fun r hr hid => .inr ⟨r, hr, rfl, rfl, fun _ => hlow hgo.2 r hr hid⟩

theorem Bounded.claim (h : Bounded b q) (hi : Inv repr q) (now : Int) :
    Bounded b (q.claim now) := by
  unfold TaskQueue.claim
  split
  · exact h
  · rename_i r hr
    obtain ⟨hmem, hpending⟩ := nextClaim_spec hr
    have hrows : ∀ r' ∈ (q.setRow r.id fun r => { r with
        state := .running, attempts := r.attempts + 1, claimedAt := q.time }).rows,
        (r' ∈ q.rows ∧ r'.id ≠ r.id) ∨ r'.attempts = r.attempts + 1 ∧ r'.state = .running := by
      intro r' hr'
      obtain ⟨r₁, hr₁, rfl⟩ := mem_setRow.mp hr'
      split
      · rename_i hid
        obtain rfl := eq_of_id hi.ids hr₁ hmem hid
        exact .inr ⟨rfl, rfl⟩
      · rename_i hid
        exact .inl ⟨hr₁, hid⟩
    constructor
    · intro r' hr'
      rcases hrows r' hr' with ⟨hold, -⟩ | ⟨hattempts, hstate⟩
      · exact h.rows r' hold
      · rw [hattempts, hstate]
        exact ⟨(h.rows r hmem).2 hpending, nofun⟩
    · intro task htask r' hr' hid
      obtain rfl := Option.some.inj (Option.some.inj htask)
      rcases hrows r' hr' with ⟨-, hne⟩ | ⟨hattempts, -⟩
      · exact absurd hid hne
      · exact hattempts.le

theorem bounded_step (hi : Inv repr q) (h : Bounded b q) {a : QueueAct}
    (hs : q.step repr a = some q') : Bounded (b + if q.isLate a then 1 else 0) q' := by
  simp only [step, Option.map_eq_some_iff] at hs
  obtain ⟨q₁, ha, rfl⟩ := hs
  suffices hq : Bounded (b + if q.isLate a then 1 else 0) q₁ from ⟨hq.rows, hq.hand⟩
  have hsame : ∀ r ∈ q.rows, Unclaimed b q r := fun r => h.unclaimed le_rfl
  cases a <;> simp only [act] at ha
  case enqueuePy => exact h.enqueue ha
  case enqueueRs => exact h.enqueue ha
  case start =>
    split at ha
    · obtain rfl := Option.some.inj ha
      exact h.of_unclaimed le_rfl hsame nofun
    · cases ha
  case requeueStale =>
    split at ha
    · cases ha
    · obtain rfl := Option.some.inj ha
      refine h.of_unclaimed le_rfl (fun r' hr' => ?_) fun _ => id
      obtain ⟨r, hr, rfl⟩ := List.mem_map.mp hr'
      refine .inr ⟨r, hr, ?_⟩
      split
      · split
        · exact ⟨rfl, rfl, nofun⟩
        · exact ⟨rfl, rfl, fun _ => by omega⟩
      · exact ⟨rfl, rfl, (h.rows r hr).2⟩
  case claim now =>
    split at ha
    · obtain rfl := Option.some.inj ha
      exact h.claim hi now
    · cases ha
  case complete =>
    split at ha
    · obtain rfl := Option.some.inj ha
      exact h.of_unclaimed le_rfl (fun r hr => hsame r (List.mem_of_mem_filter hr)) nofun
    · cases ha
  case fail fatal now delay =>
    split at ha
    · rename_i task hw
      obtain rfl := Option.some.inj ha
      refine h.of_unclaimed le_rfl (h.fail le_rfl fatal now delay fun hlow r hr hid => ?_) nofun
      exact Nat.lt_of_le_of_lt (h.hand hw r hr hid) (by omega)
    · cases ha
  case expire =>
    split at ha
    · obtain rfl := Option.some.inj ha
      exact h.of_unclaimed le_rfl hsame fun _ => id
    · cases ha
  case overrun i now delay =>
    split at ha
    · rename_i task htask
      obtain rfl := Option.some.inj ha
      refine h.of_unclaimed (Nat.le_add_right b _)
        (h.fail (Nat.le_add_right b _) false now delay fun hlow r hr hid => ?_) ?_
      · by_cases hlate : task.attempts < r.attempts
        · have hl : q.isLate (.overrun i now delay) = true := by
            simp only [isLate, htask, Option.any_some, List.any_eq_true]
            exact ⟨r, hr, by simp [hid, hlate]⟩
          rw [hl]
          exact Nat.lt_succ_of_le (h.rows r hr).1
        · omega
      · unfold TaskQueue.fail
        split <;> exact fun _ => id
    · cases ha
  case exit =>
    obtain rfl := Option.some.inj ha
    exact h.of_unclaimed le_rfl hsame nofun

theorem bounded_run : ∀ {as : List QueueAct} {b : Nat} {q : TaskQueue}, Inv repr q →
    Bounded b q → runSteps (step repr) anyStep q as = some q' →
      Bounded (b + lateOverruns repr q as) q'
  | [], _, _, _, h, hrun => Option.some.inj hrun ▸ h
  | a :: as, b, q, hi, h, hrun => by
      rw [runSteps_anyStep_cons, Option.bind_eq_some_iff] at hrun
      obtain ⟨q₁, hs, hrun⟩ := hrun
      rw [lateOverruns, hs, ← Nat.add_assoc]
      exact bounded_run (inv_step hi hs) (bounded_step hi h hs) hrun

/-- No row is claimed a fourth time but where the overrun of an earlier claim comes late, and
each of these gives it one claim more. -/
theorem attempts_le {as : List QueueAct} (hrun : runSteps (step repr) anyStep {} as = some q)
    {r : TaskRow} (hr : r ∈ q.rows) : r.attempts ≤ maxAttempts + lateOverruns repr {} as := by
  have h : Bounded 0 {} := ⟨nofun, nofun⟩
  have := ((bounded_run inv_start h hrun).rows r hr).1
  rwa [Nat.zero_add] at this

/-- The overrun of the first attempt is recorded after the third has failed. -/
def lateRun : List QueueAct :=
  [.enqueueRs .update ∅, .start, .claim 0, .expire, .fail false 0 0, .claim 0, .fail false 0 0,
    .claim 0, .fail false 0 0, .overrun 0 0 0, .claim 0]

theorem attempts_le_late : ∃ q, runSteps (step fun _ => "") anyStep {} lateRun = some q ∧
    (∃ r ∈ q.rows, r.attempts = maxAttempts + 1) ∧
      ∀ r ∈ q.rows, r.attempts ≤ maxAttempts + lateOverruns (fun _ => "") {} lateRun := by
  have hrun : (runSteps (step fun _ => "") anyStep {} lateRun).any (fun q =>
      q.rows.any fun r => r.attempts = maxAttempts + 1) = true := by decide
  obtain ⟨q, hq, hrow⟩ := (Option.any_eq_true _ _).mp hrun
  exact ⟨q, hq, by simpa using hrow, fun r hr => attempts_le hq hr⟩

end Retries

end TaskQueue

end Dagayn
