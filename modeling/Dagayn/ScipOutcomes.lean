import Dagayn.CallTargets
import Dagayn.JsonFields
import Dagayn.ScipIndex

/-!
# What the SCIP overlay counts and leaves alone

Every call of an indexed document is counted once, in the bucket of its outcome
(`foldl_settleEdge_bucket`). What is written for it is the decision on what the index says
(`settleCall_fst`), so a run is `settleByIndex` with that answer, whatever order the calls
come in. Calls of a file that is stale or not indexed stay as they are, and since
`sync_tested_by_with_calls` pairs a `TESTED_BY` edge with calls of its own file only, so do the
file's other edges, but for the `TESTED_BY` edges that were already due to move (`Due`).
-/

namespace Dagayn

theorem EdgeTable.eq_of_rows {a b : EdgeTable} (hrows : a.rows = b.rows) (hseq : a.seq = b.seq) :
    a = b := by
  cases a
  cases b
  cases hrows
  cases hseq
  rfl

/-! ## The counters -/

namespace ScipOverlayStats

def bucket (stats : ScipOverlayStats) : ScipOutcome → Nat
  | .staleSkipped => stats.staleSkipped
  | .confirmed => stats.confirmed
  | .rewrittenToNode => stats.rewrittenToNode
  | .rewrittenToPackage => stats.rewrittenToPackage
  | .markedLocal => stats.markedLocal
  | .ambiguous => stats.ambiguous
  | .unmatched => stats.unmatched
  | .left => stats.left

def total (stats : ScipOverlayStats) : Nat :=
  stats.staleSkipped + stats.confirmed + stats.rewrittenToNode + stats.rewrittenToPackage +
    stats.markedLocal + stats.ambiguous + stats.unmatched + stats.left

variable (stats : ScipOverlayStats) (o : ScipOutcome)

theorem bucket_count (o' : ScipOutcome) :
    (stats.count o).bucket o' = stats.bucket o' + if o = o' then 1 else 0 := by
  cases o <;> cases o' <;> rfl

@[simp] theorem calls_count : (stats.count o).calls = stats.calls := by cases o <;> rfl

theorem total_count : (stats.count o).total = stats.total + 1 := by
  cases o <;> simp only [count, total] <;> omega

end ScipOverlayStats

namespace Store

open Scip

variable {s s' : Store} {r : EdgeRow}

/-! ## One call -/

section

variable (env : Env) (index : Index) (definitions : Definitions) (authoritative : Bool)

def symbolAnswer (s : Store) (r : EdgeRow) (symbol : String) : ScipAnswer :=
  if isCalleeLocal env symbol then .calleeLocal
  else
    match definitions.lookup symbol with
    | some places =>
        match s.definitionOf env r.source symbol places with
        | none => .unknown
        | some ((file, line), node) => .definition file line node
    | none => .foreign (externalTarget env symbol (separatorOf r.filePath))

def indexAnswer (s : Store) (r : EdgeRow) : ScipAnswer :=
  match index.documents.lookup r.filePath, s.sourceLines env r.filePath with
  | some encoding, some text =>
      match symbolsFrom index encoding r text (chainLines + 1) r.line with
      | [symbol] => symbolAnswer env definitions s r symbol
      | _ => .unknown
  | _, _ => .unknown

def outcomeOf (s : Store) (r : EdgeRow) : Option ScipOutcome :=
  (index.documents.lookup r.filePath).map fun encoding =>
    (s.settleCall env definitions authoritative r index encoding).2

theorem settleSymbol_fst (s : Store) (r : EdgeRow) (symbol : String) :
    (s.settleSymbol env definitions authoritative r symbol).1 =
      s.scipDecision authoritative r (symbolAnswer env definitions s r symbol) := by
  unfold settleSymbol symbolAnswer
  simp only
  split
  · simp only [scipDecision]
    split <;> rfl
  · cases definitions.lookup symbol with
    | some places =>
        simp only
        cases s.definitionOf env r.source symbol places with
        | none => rfl
        | some d =>
            obtain ⟨⟨file, line⟩, node⟩ := d
            simp only [scipDecision]
            split
            · rfl
            · split
              · rfl
              · cases node <;> rfl
    | none =>
        simp only [scipDecision]
        cases hext : markedExternal r with
        | true => rfl
        | false =>
            simp only [Bool.or_false, Bool.false_eq_true, if_false]
            split
            · rfl
            · cases externalTarget env symbol (separatorOf r.filePath) <;> rfl

theorem settleCall_fst (s : Store) (r : EdgeRow) {encoding : Encoding}
    (h : index.documents.lookup r.filePath = some encoding) :
    (s.settleCall env definitions authoritative r index encoding).1 =
      s.scipDecision authoritative r (indexAnswer env index definitions s r) := by
  unfold settleCall indexAnswer
  rw [h]
  cases s.sourceLines env r.filePath with
  | none => rfl
  | some text =>
      simp only
      cases symbolsFrom index encoding r text (chainLines + 1) r.line with
      | nil => rfl
      | cons symbol symbols =>
          cases symbols with
          | nil => exact settleSymbol_fst env definitions authoritative s r symbol
          | cons symbol' symbols => rfl

theorem settleSymbol_ne_stale (s : Store) (r : EdgeRow) (symbol : String) :
    (s.settleSymbol env definitions authoritative r symbol).2 ≠ .staleSkipped := by
  unfold settleSymbol
  simp only
  split
  · split <;> exact nofun
  · cases definitions.lookup symbol with
    | some places =>
        simp only
        cases s.definitionOf env r.source symbol places with
        | none => exact nofun
        | some d =>
            obtain ⟨⟨file, line⟩, node⟩ := d
            simp only
            split
            · exact nofun
            · split
              · exact nofun
              · cases node <;> exact nofun
    | none =>
        simp only
        split
        · exact nofun
        · split
          · exact nofun
          · cases externalTarget env symbol (separatorOf r.filePath) <;> exact nofun

theorem outcomeOf_stale (s : Store) (r : EdgeRow) :
    outcomeOf env index definitions authoritative s r = some .staleSkipped ↔
      (index.documents.lookup r.filePath).isSome = true ∧ s.sourceLines env r.filePath = none := by
  unfold outcomeOf settleCall
  cases index.documents.lookup r.filePath with
  | none => simp
  | some encoding =>
      cases s.sourceLines env r.filePath with
      | none => simp
      | some text =>
          simp only [Option.map_some, Option.some.injEq, reduceCtorEq, and_false, iff_false]
          split
          · exact nofun
          · exact settleSymbol_ne_stale env definitions authoritative s r _
          · exact nofun

theorem indexAnswer_of_unsettled {s : Store} {r : EdgeRow}
    (h : index.documents.lookup r.filePath = none ∨ s.sourceLines env r.filePath = none) :
    indexAnswer env index definitions s r = .unknown := by
  unfold indexAnswer
  rcases h with h | h
  · rw [h]
  · rw [h]
    cases index.documents.lookup r.filePath <;> rfl

/-! ## The loop -/

theorem settleEdge_of_none {state : Store × ScipOverlayStats}
    (h : index.documents.lookup r.filePath = none) :
    settleEdge env index definitions authoritative s state r = state := by
  rw [settleEdge, h]

theorem settleEdge_fst (state : Store × ScipOverlayStats) :
    (settleEdge env index definitions authoritative s state r).1 =
      match s.scipDecision authoritative r (indexAnswer env index definitions s r) with
      | some w => state.1.writeEdge r.id w
      | none => state.1 := by
  cases h : index.documents.lookup r.filePath with
  | none =>
      rw [settleEdge_of_none env index definitions authoritative h, indexAnswer, h]
      rfl
  | some encoding =>
      rw [← settleCall_fst env index definitions authoritative s r h, settleEdge, h]
      simp only
      cases (s.settleCall env definitions authoritative r index encoding).1 <;> rfl

theorem settleEdge_bucket (state : Store × ScipOverlayStats) (o : ScipOutcome) :
    (settleEdge env index definitions authoritative s state r).2.bucket o =
      state.2.bucket o +
        if outcomeOf env index definitions authoritative s r = some o then 1 else 0 := by
  cases h : index.documents.lookup r.filePath with
  | none =>
      rw [settleEdge_of_none env index definitions authoritative h, outcomeOf, h]
      rfl
  | some encoding =>
      rw [settleEdge, outcomeOf, h]
      simp only [Option.map_some, Option.some.injEq]
      exact ScipOverlayStats.bucket_count _ _ o

theorem settleEdge_calls (state : Store × ScipOverlayStats) :
    (settleEdge env index definitions authoritative s state r).2.calls =
      state.2.calls + if (index.documents.lookup r.filePath).isSome then 1 else 0 := by
  cases h : index.documents.lookup r.filePath with
  | none =>
      rw [settleEdge_of_none env index definitions authoritative h]
      rfl
  | some encoding =>
      rw [settleEdge, h]
      simp only [ScipOverlayStats.calls_count]
      rfl

theorem settleEdge_total {state : Store × ScipOverlayStats} (h : state.2.calls = state.2.total) :
    (settleEdge env index definitions authoritative s state r).2.calls =
      (settleEdge env index definitions authoritative s state r).2.total := by
  cases hdoc : index.documents.lookup r.filePath with
  | none =>
      rw [settleEdge_of_none env index definitions authoritative hdoc]
      exact h
  | some encoding =>
      rw [settleEdge, hdoc]
      simp only [ScipOverlayStats.calls_count, ScipOverlayStats.total_count]
      exact congrArg (· + 1) h

theorem foldl_settleEdge_fst (rows : List EdgeRow) (state : Store × ScipOverlayStats) (n : Nat) :
    (rows.foldl (settleEdge env index definitions authoritative s) state).1 =
      (rewriteRows (fun _ r =>
        s.scipDecision authoritative r (indexAnswer env index definitions s r)) rows
          (state.1, n)).1 := by
  induction rows generalizing state n with
  | nil => rfl
  | cons r rows ih =>
      have hstep := settleEdge_fst (r := r) env index definitions authoritative (s := s) state
      rw [List.foldl_cons]
      cases hw : s.scipDecision authoritative r (indexAnswer env index definitions s r) with
      | none =>
          rw [hw] at hstep
          simp only [rewriteRows, hw]
          rw [ih _ n, hstep]
      | some w =>
          rw [hw] at hstep
          simp only [rewriteRows, hw]
          rw [ih _ (n + w.moves), hstep]

theorem foldl_settleEdge_bucket (o : ScipOutcome) (rows : List EdgeRow)
    (state : Store × ScipOverlayStats) :
    (rows.foldl (settleEdge env index definitions authoritative s) state).2.bucket o =
      state.2.bucket o +
        rows.countP fun r => outcomeOf env index definitions authoritative s r = some o := by
  induction rows generalizing state with
  | nil => rfl
  | cons r rows ih =>
      rw [List.foldl_cons, ih, settleEdge_bucket, List.countP_cons]
      simp only [decide_eq_true_eq]
      omega

theorem foldl_settleEdge_calls (rows : List EdgeRow) (state : Store × ScipOverlayStats) :
    (rows.foldl (settleEdge env index definitions authoritative s) state).2.calls =
      state.2.calls + rows.countP fun r => (index.documents.lookup r.filePath).isSome := by
  induction rows generalizing state with
  | nil => rfl
  | cons r rows ih =>
      rw [List.foldl_cons, ih, settleEdge_calls, List.countP_cons]
      omega

theorem foldl_settleEdge_total (rows : List EdgeRow) (state : Store × ScipOverlayStats)
    (h : state.2.calls = state.2.total) :
    (rows.foldl (settleEdge env index definitions authoritative s) state).2.calls =
      (rows.foldl (settleEdge env index definitions authoritative s) state).2.total := by
  induction rows generalizing state with
  | nil => exact h
  | cons r rows ih => exact ih _ (settleEdge_total env index definitions authoritative h)

theorem callRows_perm (s : Store) :
    s.callRows.Perm (s.edges.rows.filter fun r => r.kind = "CALLS") :=
  sortBy_perm _ _

theorem rewriteRows_seq (write : Store → EdgeRow → Option EdgeWrite) (rows : List EdgeRow)
    (s : Store) (n : Nat) : (rewriteRows write rows (s, n)).1.edges.seq = s.edges.seq ∧
      (rewriteRows write rows (s, n)).1.fts = s.fts := by
  induction rows generalizing s n with
  | nil => exact ⟨rfl, rfl⟩
  | cons r rows ih =>
      cases hw : write s r with
      | none => simp only [rewriteRows, hw]; exact ih s n
      | some w => simp only [rewriteRows, hw]; exact ih (s.writeEdge r.id w) (n + w.moves)

theorem rewriteRows_callRows (write : EdgeRow → Option EdgeWrite) (s : Store) :
    (rewriteRows (fun _ => write) s.callRows (s, 0)).1 =
      (s.rewrite (fun r => r.kind = "CALLS") fun _ => write).1 := by
  have hrows := (rewriteRows_of_perm (callRows_perm s) write 0).trans (rewrite_rows s _ write).symm
  obtain ⟨hseq, hfts⟩ := rewriteRows_seq (fun _ => write) s.callRows s 0
  obtain ⟨hseq', hfts'⟩ :=
    rewriteRows_seq (fun _ => write) (s.edges.rows.filter fun r => r.kind = "CALLS") s 0
  have hedges := EdgeTable.eq_of_rows hrows (hseq.trans hseq'.symm)
  have hnodes : (rewriteRows (fun _ => write) s.callRows (s, 0)).1.nodes =
      (s.rewrite (fun r => r.kind = "CALLS") fun _ => write).1.nodes :=
    (rewriteRows_nodes _ s 0).trans (rewriteRows_nodes _ s 0).symm
  have hsearch := hfts.trans hfts'.symm
  generalize (rewriteRows (fun _ => write) s.callRows (s, 0)).1 = a at *
  rw [rewrite] at *
  generalize (rewriteRows (fun _ => write) _ (s, 0)).1 = b at *
  cases a
  cases b
  simp only [Store.mk.injEq]
  exact ⟨hnodes, hedges, hsearch⟩

theorem settleWithIndex_fst (s : Store) :
    (s.settleWithIndex env index definitions authoritative).1 =
      s.settleByIndex (indexAnswer env index definitions) authoritative := by
  have hrun := foldl_settleEdge_fst env index definitions authoritative (s := s) s.callRows
    (s, { documents := index.documents.keys.length }) 0
  rw [rewriteRows_callRows] at hrun
  simp only [settleWithIndex, settleByIndex]
  rw [hrun]

theorem settleWithIndex_snd (s : Store) :
    let stats := (s.settleWithIndex env index definitions authoritative).2
    (∀ o, stats.bucket o = s.edges.rows.countP fun r => r.kind = "CALLS" &&
        outcomeOf env index definitions authoritative s r = some o) ∧
      (stats.calls = s.edges.rows.countP fun r => r.kind = "CALLS" &&
        (index.documents.lookup r.filePath).isSome) ∧
      stats.calls = stats.total := by
  have hcount : ∀ p : EdgeRow → Bool, s.callRows.countP p =
      s.edges.rows.countP fun r => r.kind = "CALLS" && p r := fun p => by
    rw [(callRows_perm s).countP_eq, List.countP_filter]
    exact List.countP_congr fun r _ => by rw [Bool.and_comm]
  refine ⟨fun o => ?_, ?_, ?_⟩
  · rw [← hcount]
    refine (foldl_settleEdge_bucket env index definitions authoritative o s.callRows _).trans ?_
    cases o <;> exact Nat.zero_add _
  · rw [← hcount]
    refine (foldl_settleEdge_calls env index definitions authoritative s.callRows _).trans ?_
    exact Nat.zero_add _
  · exact foldl_settleEdge_total env index definitions authoritative s.callRows _ rfl

end

/-! ## `TESTED_BY` edges that do not move -/

/-- A `TESTED_BY` edge that `sync_tested_by_with_calls` moves or drops. -/
def Due (s : Store) (tb : EdgeRow) : Prop :=
  s.bareTestedBy tb = true ∧ ∃ c, s.candidates tb = [c]

theorem mem_foldl_syncGroup (groups : List (EdgeRow × List EdgeRow)) (cur : Store)
    (hr : r ∈ cur.edges.rows) (h : ∀ g ∈ groups, g.1.id ≠ r.id ∨ ∀ c, g.2 ≠ [c]) :
    r ∈ (groups.foldl syncGroup cur).edges.rows := by
  induction groups generalizing cur with
  | nil => exact hr
  | cons g groups ih =>
      refine ih _ ?_ fun g' hg' => h g' (List.mem_cons_of_mem _ hg')
      unfold syncGroup
      split
      · rename_i c hc
        have hid : r.id ≠ g.1.id := by
          rcases h g List.mem_cons_self with hne | hnot
          · exact hne.symm
          · exact absurd hc (hnot c)
        simp only
        split
        · exact List.mem_filter.mpr ⟨hr, by simpa using hid⟩
        · exact List.mem_map.mpr ⟨r, hr, by simp [hid]⟩
      · exact hr

theorem mem_sync_of_not_due (hr : r ∈ s.edges.rows) (h : ¬ s.Due r) :
    r ∈ s.syncTestedByWithCalls.edges.rows := by
  refine mem_foldl_syncGroup _ s hr fun g hg => ?_
  obtain ⟨tb, htb, rfl⟩ := List.mem_map.mp hg
  obtain ⟨htb, hbare⟩ := List.mem_filter.mp htb
  by_cases hid : tb.id = r.id
  · obtain rfl := row_eq_of_id htb hr hid
    exact .inr fun c hc => h ⟨hbare, c, hc⟩
  · exact .inl hid

theorem due_of_map {f : EdgeRow → EdgeRow} {tb : EdgeRow}
    (hrows : s'.edges.rows = s.edges.rows.map f) (hfile : ∀ r, (f r).filePath = r.filePath)
    (hfixed : ∀ r ∈ s.edges.rows, r.filePath = tb.filePath → f r = r) :
    s'.Due tb ↔ s.Due tb := by
  have hcall : ∀ (q : EdgeRow → Bool), ∀ r ∈ s.edges.rows,
      (callOf tb (f r) && q (f r)) = (callOf tb r && q r) := by
    intro q r hr
    by_cases hf : r.filePath = tb.filePath
    · rw [hfixed r hr hf]
    · have hoff : ∀ c : EdgeRow, c.filePath ≠ tb.filePath → callOf tb c = false := fun c hc => by
        simp [callOf, hc]
      rw [hoff r hf, hoff (f r) (by rw [hfile]; exact hf)]
      rfl
  have hbare : s'.bareTestedBy tb = s.bareTestedBy tb := by
    have hany : s'.edges.rows.any (fun c => callOf tb c && c.target = tb.source) =
        s.edges.rows.any fun c => callOf tb c && c.target = tb.source := by
      rw [hrows, Bool.eq_iff_iff, List.any_eq_true, List.any_eq_true]
      simp only [List.mem_map, exists_exists_and_eq_and]
      refine exists_congr fun r => and_congr_right fun hr => ?_
      rw [hcall (fun c => c.target = tb.source) r hr]
    rw [bareTestedBy, bareTestedBy, hany]
  have hcand : s'.candidates tb = s.candidates tb := by
    have hfilter := filter_map_of_fixed (p := fun c => callOf tb c && hasScope c.target &&
        endpointLeaf c.target = endpointLeaf tb.source) (f := f)
      (fun r hr => by
        simp only [Bool.and_assoc]
        exact hcall (fun c => hasScope c.target &&
          endpointLeaf c.target = endpointLeaf tb.source) r hr)
      (fun r hr hp => by
        simp only [callOf, Bool.and_eq_true, decide_eq_true_eq] at hp
        exact hfixed r hr hp.1.1.1.2)
    rw [candidates, candidates, hrows, hfilter]
  rw [Due, Due, hbare, hcand]

/-! ## What stays -/

section

variable (answer : Store → EdgeRow → ScipAnswer) (authoritative : Bool)

def settledRow (s : Store) (r : EdgeRow) : EdgeRow :=
  if r.kind = "CALLS" then rewritten r (s.scipDecision authoritative r (answer s r)) else r

theorem rewritten_filePath (r : EdgeRow) (w : Option EdgeWrite) :
    (rewritten r w).filePath = r.filePath := by
  cases w with
  | none => rfl
  | some w => cases w <;> rfl

theorem settledRow_filePath (s : Store) (r : EdgeRow) :
    (settledRow answer authoritative s r).filePath = r.filePath := by
  unfold settledRow
  split
  · exact rewritten_filePath r _
  · rfl

theorem settledRow_id (s : Store) (r : EdgeRow) :
    (settledRow answer authoritative s r).id = r.id := by
  unfold settledRow
  split
  · exact rewritten_id r _
  · rfl

theorem settledRow_kind (s : Store) (r : EdgeRow) :
    (settledRow answer authoritative s r).kind = r.kind := by
  unfold settledRow
  split
  · exact rewritten_kind r _
  · rfl

theorem settledRow_of_unknown (h : answer s r = .unknown) :
    settledRow answer authoritative s r = r := by
  unfold settledRow
  rw [h]
  split <;> rfl

/-- At a function, a test, a class or a type, or in a package. -/
def Answered (s : Store) (r : EdgeRow) : Prop :=
  (s.codeNode r.target).isSome = true ∨ markedExternal r = true

theorem scipWrite_target (t : String) (extra : Json) (tier : Option ConfidenceTier)
    (h : tier = none → t = r.target) :
    (rewritten r (some (scipWrite t extra tier))).target = t := by
  cases tier with
  | none => exact (h rfl).symm
  | some tier => rfl

theorem settledRow_target (h : r.kind = "CALLS" → authoritative = false ∧ s.Answered r) :
    (settledRow answer authoritative s r).target = r.target := by
  unfold settledRow
  split
  · rename_i hk
    obtain ⟨rfl, hanswered⟩ := h hk
    cases answer s r with
    | unknown => rfl
    | calleeLocal =>
        simp only [scipDecision]
        split <;> rfl
    | definition file line node =>
        have hkept : ((s.codeNode r.target).isSome || markedExternal r) = true := by
          simpa [Answered] using hanswered
        simp only [scipDecision, hkept, Bool.not_false, Bool.true_and, if_true]
        split
        · exact scipWrite_target r.target _ _ fun _ => rfl
        · rfl
    | foreign target =>
        simp only [scipDecision, Bool.not_false, Bool.true_and]
        split
        · exact scipWrite_target r.target _ _ fun _ => rfl
        · rename_i hext
          rw [if_pos (hanswered.resolve_right hext)]
          rfl
  · rfl

theorem get_settle (extra : Json) (key : String) :
    (settle extra).get key =
      if key = "resolved_by" then some (.str "scip")
      else if key = "inferred_from" then none
      else if key = "receiver_unknown" then none
      else extra.get key := by
  rw [settle, Json.get_insert, Json.get_erase, Json.get_erase]

theorem scipWrite_external (t : String) (extra : Json) (tier : Option ConfidenceTier) :
    markedExternal (rewritten r (some (scipWrite t extra tier))) =
      markedExternal { r with extra := extra } := by
  cases tier with
  | none => rfl
  | some tier =>
      simp only [scipWrite, rewritten, EdgeWrite.apply, markedExternal, Option.getD_some,
        Json.get_insert, String.reduceEq, if_false]

theorem settledRow_external (hauth : authoritative = false) (h : markedExternal r = true) :
    markedExternal (settledRow answer authoritative s r) = true := by
  have hsettled : markedExternal { r with extra := settle r.extra } = true := by
    simpa only [markedExternal, get_settle, String.reduceEq, if_false] using h
  unfold settledRow
  split
  · cases answer s r with
    | unknown => exact h
    | calleeLocal =>
        simp only [scipDecision, h, Bool.not_true, Bool.and_false, Bool.false_eq_true, if_false]
        exact h
    | definition file line node =>
        simp only [scipDecision, hauth, h, Bool.not_false, Bool.or_true, Bool.and_true, if_true]
        split
        · rw [scipWrite_external]
          exact hsettled
        · exact h
    | foreign target =>
        simp only [scipDecision, h, if_true]
        rw [scipWrite_external]
        exact hsettled
  · exact h

theorem rewrite_settled (s : Store) :
    (s.rewrite (fun r => r.kind = "CALLS") fun _ r =>
        s.scipDecision authoritative r (answer s r)).1.edges.rows =
      s.edges.rows.map (settledRow answer authoritative s) := by
  rw [rewrite_rows s _ fun r => s.scipDecision authoritative r (answer s r)]
  simp only [decide_eq_true_eq]
  rfl

theorem exists_row_of_settleByIndex
    (hr : r ∈ (s.settleByIndex answer authoritative).edges.rows) :
    ∃ r₀ ∈ s.edges.rows, r₀.id = r.id ∧ r₀.kind = r.kind ∧ r₀.filePath = r.filePath ∧
      (settledRow answer authoritative s r₀).target = r.target ∧
      (r.kind ≠ "TESTED_BY" → r = settledRow answer authoritative s r₀) := by
  have hfollow := following_sync (s.rewrite (fun r => r.kind = "CALLS") fun _ r =>
    s.scipDecision authoritative r (answer s r)).1
  by_cases hk : r.kind = "TESTED_BY"
  · obtain ⟨r₁, hr₁, hid, hkind, htarget, hfile, -⟩ := hfollow.tested r hr hk
    rw [rewrite_settled] at hr₁
    obtain ⟨r₀, hr₀, rfl⟩ := List.mem_map.mp hr₁
    exact ⟨r₀, hr₀, (settledRow_id answer authoritative s r₀).symm.trans hid,
      (settledRow_kind answer authoritative s r₀).symm.trans hkind,
      (settledRow_filePath answer authoritative s r₀).symm.trans hfile, htarget,
      fun hne => absurd hk hne⟩
  · have hr₁ := (hfollow.others r hk).mp hr
    rw [rewrite_settled] at hr₁
    obtain ⟨r₀, hr₀, rfl⟩ := List.mem_map.mp hr₁
    exact ⟨r₀, hr₀, (settledRow_id answer authoritative s r₀).symm,
      (settledRow_kind answer authoritative s r₀).symm,
      (settledRow_filePath answer authoritative s r₀).symm, rfl, fun _ => rfl⟩

theorem settledRow_mem (hr : r ∈ s.edges.rows) (hk : r.kind ≠ "TESTED_BY") :
    settledRow answer authoritative s r ∈ (s.settleByIndex answer authoritative).edges.rows := by
  have hne : (settledRow answer authoritative s r).kind ≠ "TESTED_BY" := by
    rw [settledRow_kind]
    exact hk
  refine ((following_sync _).others _ hne).mpr ?_
  rw [rewrite_settled]
  exact List.mem_map_of_mem hr

section File

variable {file : String} (hfile : ∀ r ∈ s.edges.rows, r.filePath = file → answer s r = .unknown)
include hfile

theorem mem_settleByIndex_of_unknown (hr : r ∈ s.edges.rows) (hf : r.filePath = file)
    (hdue : ¬ s.Due r) : r ∈ (s.settleByIndex answer authoritative).edges.rows := by
  have hrows := rewrite_settled answer authoritative s
  refine mem_sync_of_not_due ?_ ?_
  · rw [hrows]
    exact List.mem_map.mpr ⟨r, hr, settledRow_of_unknown answer authoritative (hfile r hr hf)⟩
  · rw [due_of_map hrows (settledRow_filePath answer authoritative s) fun a ha hfa =>
      settledRow_of_unknown answer authoritative (hfile a ha (hfa.trans hf))]
    exact hdue

theorem mem_of_settleByIndex_of_unknown
    (hr : r ∈ (s.settleByIndex answer authoritative).edges.rows) (hf : r.filePath = file) :
    r ∈ s.edges.rows ∨ ∃ r₀ ∈ s.edges.rows, r₀.id = r.id ∧ r₀.filePath = r.filePath ∧ s.Due r₀ := by
  obtain ⟨r₀, hr₀, hid, hkind, hfile₀, -, hsame⟩ :=
    exists_row_of_settleByIndex answer authoritative hr
  by_cases hdue : s.Due r₀
  · exact .inr ⟨r₀, hr₀, hid, hfile₀, hdue⟩
  · have hkept := mem_settleByIndex_of_unknown answer authoritative hfile hr₀ (hfile₀.trans hf) hdue
    obtain rfl := row_eq_of_id hkept hr hid
    exact .inl hr₀

end File

end

/-! ## The whole overlay -/

/-- Every call of an indexed document is counted in the bucket of its outcome; the edges of a
file that is stale or not indexed stay as they are unless they are due to move with its calls;
and no edge gets another target but calls, which an index that is not authoritative leaves
where they are answered. -/
theorem settleWithIndex_accounts (env : Env) (index : Index) (definitions : Definitions)
    (authoritative : Bool) (s : Store) :
    let (after, stats) := s.settleWithIndex env index definitions authoritative
    ((∀ o, stats.bucket o = s.edges.rows.countP fun r => r.kind = "CALLS" &&
          outcomeOf env index definitions authoritative s r = some o) ∧
        (∀ r, outcomeOf env index definitions authoritative s r = some .staleSkipped ↔
          (index.documents.lookup r.filePath).isSome = true ∧
            s.sourceLines env r.filePath = none) ∧
        (stats.calls = s.edges.rows.countP fun r => r.kind = "CALLS" &&
          (index.documents.lookup r.filePath).isSome) ∧
        stats.calls = stats.total) ∧
      (∀ file, index.documents.lookup file = none ∨ s.sourceLines env file = none →
        (∀ r ∈ s.edges.rows, r.filePath = file → ¬ s.Due r → r ∈ after.edges.rows) ∧
        ∀ r ∈ after.edges.rows, r.filePath = file →
          r ∈ s.edges.rows ∨
            ∃ r₀ ∈ s.edges.rows, r₀.id = r.id ∧ r₀.filePath = r.filePath ∧ s.Due r₀) ∧
      ∀ r ∈ s.edges.rows, (r.kind = "CALLS" → authoritative = false ∧ s.Answered r) →
        (r.kind ≠ "TESTED_BY" → ∃ r' ∈ after.edges.rows, r'.id = r.id ∧ r'.kind = r.kind) ∧
        ∀ r' ∈ after.edges.rows, r'.id = r.id → r'.target = r.target := by
  have hafter := settleWithIndex_fst env index definitions authoritative s
  obtain ⟨hbucket, hcalls, htotal⟩ := settleWithIndex_snd env index definitions authoritative s
  generalize s.settleWithIndex env index definitions authoritative = run at *
  obtain ⟨after, stats⟩ := run
  obtain rfl : after = s.settleByIndex (indexAnswer env index definitions) authoritative := hafter
  refine ⟨⟨hbucket, outcomeOf_stale env index definitions authoritative s, hcalls, htotal⟩,
    fun file hoff => ?_, fun r hr h => ?_⟩
  · have hunknown : ∀ r ∈ s.edges.rows, r.filePath = file →
        indexAnswer env index definitions s r = .unknown := by
      rintro r - rfl
      exact indexAnswer_of_unsettled env index definitions hoff
    exact ⟨fun r => mem_settleByIndex_of_unknown _ authoritative hunknown,
      fun r => mem_of_settleByIndex_of_unknown _ authoritative hunknown⟩
  · refine ⟨fun hk => ⟨_, settledRow_mem _ authoritative hr hk, settledRow_id _ authoritative s r,
      settledRow_kind _ authoritative s r⟩, fun r' hr' hid => ?_⟩
    obtain ⟨r₀, hr₀, hid₀, -, -, htarget, -⟩ := exists_row_of_settleByIndex _ authoritative hr'
    obtain rfl := row_eq_of_id hr₀ hr (hid₀.trans hid)
    rw [← htarget]
    exact settledRow_target _ authoritative h

/-- A call of `configure` in `main.c`, where a shell script of that name is a file of the graph
and `lib.c` defines a function of that name, and a test in `t.c` whose call of that function is
resolved, but not yet its `TESTED_BY`. -/
def shellStore : Store where
  nodes := upsertNodes .empty
    [({ kind := "File", name := "main.c", filePath := "main.c" }, "h", 0),
      ({ kind := "File", name := "configure", filePath := "configure" }, "h", 0),
      ({ kind := "Function", name := "configure", filePath := "lib.c", lineStart := 1
         lineEnd := 2 }, "h", 0)]
  edges := ((EdgeTable.empty.insert (EdgeInput.row
      { kind := "CALLS", source := "main.c::main", target := "configure", filePath := "main.c"
        line := 1 } (.obj []))).insert (EdgeInput.row
      { kind := "CALLS", source := "t.c::test_it", target := "lib.c::configure", filePath := "t.c"
        line := 3 } (.obj []))).insert (EdgeInput.row
      { kind := "TESTED_BY", source := "configure", target := "t.c::test_it", filePath := "t.c"
        line := 3 } (.obj []))

def shellEnv : Env where
  parseSymbol _ := some { package := none, descriptors := [("configure", 4)] }
  isLocalSymbol _ := false
  readFile file := if file = "main.c" then some (utf8 "configure();".toList) else none
  digest _ := "h"

/-- An index of `main.c` and `lib.c`. -/
def shellInput : IndexInput where
  documents := some
    [{ relativePath := "main.c", positionEncoding := 1
       occurrences := [{ range := [0, 0, 9], symbol := "c lib configure().", symbolRoles := 0 }] },
      { relativePath := "lib.c", positionEncoding := 1
        occurrences := [{ range := [0, 4, 13], symbol := "c lib configure().",
                          symbolRoles := 1 }] }]
  pathPrefix := ""
  authoritative := false

def shellIndex : Index := (readIndex shellInput).getD {}

/-- The `TESTED_BY` edge of a file that is not indexed moves, and so does the call at the
script, which is a node. -/
theorem settleWithIndex_moves_due :
    let after := (shellStore.settleWithIndex shellEnv shellIndex shellIndex.definitions false).1
    (∃ r ∈ shellStore.edges.rows,
        shellIndex.documents.lookup r.filePath = none ∧ r ∉ after.edges.rows) ∧
      ∃ r ∈ shellStore.edges.rows, r.kind = "CALLS" ∧ r.target ∈ shellStore.nodes.names ∧
        ∀ r' ∈ after.edges.rows, r'.id = r.id → r'.target ≠ r.target := by
  have hafter : (shellStore.settleWithIndex shellEnv shellIndex
      shellIndex.definitions false).1.edges.rows.map (fun r => (r.id, r.source, r.target)) =
        [(1, "main.c::main", "lib.c::configure"), (2, "t.c::test_it", "lib.c::configure"),
          (3, "lib.c::configure", "t.c::test_it")] := by
    decide +kernel
  have hbefore : shellStore.edges.rows.map (fun r =>
      (r.id, r.kind, r.source, r.target, shellIndex.documents.lookup r.filePath)) =
        [(1, "CALLS", "main.c::main", "configure", some .utf8),
          (2, "CALLS", "t.c::test_it", "lib.c::configure", none),
          (3, "TESTED_BY", "configure", "t.c::test_it", none)] := by
    decide +kernel
  have hnode : "configure" ∈ shellStore.nodes.names := by decide +kernel
  have hmem : ∀ p ∈ shellStore.edges.rows.map (fun r =>
      (r.id, r.kind, r.source, r.target, shellIndex.documents.lookup r.filePath)),
      ∃ r ∈ shellStore.edges.rows,
        (r.id, r.kind, r.source, r.target, shellIndex.documents.lookup r.filePath) = p :=
    fun p hp => List.mem_map.mp hp
  rw [hbefore] at hmem
  refine ⟨?_, ?_⟩
  · obtain ⟨r, hr, heq⟩ := hmem (3, "TESTED_BY", "configure", "t.c::test_it", none) (by simp)
    simp only [Prod.mk.injEq] at heq
    refine ⟨r, hr, heq.2.2.2.2, fun hmoved => ?_⟩
    have hrow := List.mem_map_of_mem (f := fun r : EdgeRow => (r.id, r.source, r.target)) hmoved
    rw [hafter] at hrow
    simp [heq.1, heq.2.2.1] at hrow
  · obtain ⟨r, hr, heq⟩ := hmem (1, "CALLS", "main.c::main", "configure", some .utf8) (by simp)
    simp only [Prod.mk.injEq] at heq
    refine ⟨r, hr, heq.2.1, by rw [heq.2.2.2.1]; exact hnode, fun r' hr' hid htarget => ?_⟩
    have hrow := List.mem_map_of_mem (f := fun r : EdgeRow => (r.id, r.source, r.target)) hr'
    rw [hafter] at hrow
    simp [hid, htarget, heq.1, heq.2.2.2.1] at hrow

/-! ## A run over several indexes -/

section

variable (env : Env) (definitions : Definitions)

theorem overlayStep_nodes (state : Store × List ScipOverlayStats) (step : IndexInput × Index) :
    (overlayStep env definitions state step).1.nodes = state.1.nodes := by
  have hstep : (overlayStep env definitions state step).1 = state.1.settleByIndex _ _ :=
    settleWithIndex_fst env step.2 definitions step.1.authoritative state.1
  rw [hstep]
  exact (following_sync _).nodes.trans (rewriteRows_nodes _ _ 0)

theorem overlayStep_keeps {state : Store × List ScipOverlayStats} {step : IndexInput × Index}
    (hauth : step.1.authoritative = false) (hr : r ∈ state.1.edges.rows) (hk : r.kind = "CALLS")
    (h : state.1.Answered r) : ∃ r' ∈ (overlayStep env definitions state step).1.edges.rows,
      r'.id = r.id ∧ r'.kind = "CALLS" ∧ r'.target = r.target ∧
        (overlayStep env definitions state step).1.Answered r' := by
  have hnodes := overlayStep_nodes env definitions state step
  have hstep : (overlayStep env definitions state step).1 = state.1.settleByIndex _ _ :=
    settleWithIndex_fst env step.2 definitions step.1.authoritative state.1
  have htarget := settledRow_target (s := state.1) (indexAnswer env step.2 definitions)
    step.1.authoritative fun _ => ⟨hauth, h⟩
  have hmem := settledRow_mem (indexAnswer env step.2 definitions) step.1.authoritative hr
    (by rw [hk]; decide)
  rw [← hstep] at hmem
  refine ⟨_, hmem, settledRow_id _ _ _ r, (settledRow_kind _ _ _ r).trans hk, htarget, ?_⟩
  rcases h with hnode | hext
  · refine .inl ?_
    rw [htarget, codeNode, hnodes]
    exact hnode
  · exact .inr (settledRow_external _ _ hauth hext)

theorem foldl_overlayStep_keeps (steps : List (IndexInput × Index))
    (state : Store × List ScipOverlayStats) (hauth : ∀ step ∈ steps, step.1.authoritative = false)
    (hr : r ∈ state.1.edges.rows) (hk : r.kind = "CALLS") (h : state.1.Answered r) :
    ∃ r' ∈ (steps.foldl (overlayStep env definitions) state).1.edges.rows,
      r'.id = r.id ∧ r'.kind = "CALLS" ∧ r'.target = r.target := by
  induction steps generalizing state r with
  | nil => exact ⟨r, hr, rfl, hk, rfl⟩
  | cons step steps ih =>
      obtain ⟨r₁, hr₁, hid₁, hk₁, htarget₁, h₁⟩ := overlayStep_keeps env definitions
        (hauth step List.mem_cons_self) hr hk h
      obtain ⟨r₂, hr₂, hid₂, hk₂, htarget₂⟩ :=
        ih _ (fun step' hstep' => hauth step' (List.mem_cons_of_mem _ hstep')) hr₁ hk₁ h₁
      exact ⟨r₂, hr₂, hid₂.trans hid₁, hk₂, htarget₂.trans htarget₁⟩

theorem foldl_overlayStep_total (steps : List (IndexInput × Index))
    (state : Store × List ScipOverlayStats) (h : ∀ stats ∈ state.2, stats.calls = stats.total) :
    ∀ stats ∈ (steps.foldl (overlayStep env definitions) state).2, stats.calls = stats.total := by
  induction steps generalizing state with
  | nil => exact h
  | cons step steps ih =>
      refine ih _ fun stats hstats => ?_
      rcases List.mem_append.mp hstats with hold | hnew
      · exact h stats hold
      · obtain rfl := List.mem_singleton.mp hnew
        exact (settleWithIndex_snd env step.2 definitions step.1.authoritative state.1).2.2

end

/-- Over all the indexes of a run the counts add up, and where none is authoritative every
answered call keeps its target. -/
theorem applyScipOverlays_run {env : Env} {inputs : List IndexInput} {all : List ScipOverlayStats}
    (hrun : applyScipOverlays env inputs s = some (s', all)) :
    (∀ stats ∈ all, stats.calls = stats.total) ∧
      ((∀ input ∈ inputs, input.authoritative = false) → ∀ r ∈ s.edges.rows, r.kind = "CALLS" →
        s.Answered r → ∃ r' ∈ s'.edges.rows,
          r'.id = r.id ∧ r'.kind = "CALLS" ∧ r'.target = r.target) := by
  simp only [applyScipOverlays, Option.bind_eq_bind, Option.bind_eq_some_iff, Option.pure_def,
    Option.some.injEq] at hrun
  obtain ⟨read, -, hfold⟩ := hrun
  have hstats := foldl_overlayStep_total env (poolDefinitions read) (inputs.zip read)
    (s, []) fun _ hmem => absurd hmem List.not_mem_nil
  rw [hfold] at hstats
  refine ⟨hstats, fun hauth r hr hk h => ?_⟩
  have hkept := foldl_overlayStep_keeps env (poolDefinitions read) (inputs.zip read)
    (s, []) (fun step hstep => hauth step.1 (List.of_mem_zip hstep).1) hr hk h
  rw [hfold] at hkept
  exact hkept

/-- The call of `test_it` is answered, and keeps its target in a run over the index twice. -/
theorem applyScipOverlays_run_shell :
    ∃ s' all, applyScipOverlays shellEnv [shellInput, shellInput] shellStore = some (s', all) ∧
      all.length = 2 ∧ (∀ stats ∈ all, stats.calls = stats.total) ∧
        ∃ r ∈ s'.edges.rows, r.id = 2 ∧ r.kind = "CALLS" ∧ r.target = "lib.c::configure" := by
  have hsome : (applyScipOverlays shellEnv [shellInput, shellInput] shellStore).map
      (fun run => run.2.length) = some 2 := by decide +kernel
  obtain ⟨⟨s', all⟩, hrun, hlength⟩ := Option.map_eq_some_iff.mp hsome
  obtain ⟨hcounts, hkept⟩ := applyScipOverlays_run hrun
  obtain ⟨r, hr, hid, hkind, htarget, hcode⟩ : ∃ r ∈ shellStore.edges.rows, r.id = 2 ∧
      r.kind = "CALLS" ∧ r.target = "lib.c::configure" ∧
        (shellStore.codeNode r.target).isSome = true := by decide +kernel
  obtain ⟨r', hr', hid', hkind', htarget'⟩ := hkept (by simp [shellInput]) r hr hkind (.inl hcode)
  exact ⟨s', all, hrun, hlength, hcounts, r', hr', hid'.trans hid, hkind', htarget'.trans htarget⟩

end Store

end Dagayn
