import Dagayn.CallTargets
import Dagayn.ScipOverlay

/-!
# `TESTED_BY` follows the calls of tests

`TestedByFollows` is what the pass is for: the source of every `TESTED_BY` is a node,
a test's call to a node has exactly one, and each stands for a call the test makes at
that file and line.

The first part and "at least one" of the second hold of any graph. The rest is only
kept: neither half of the pass looks at a `TESTED_BY` whose source is a `file::symbol`
node. A call that a SCIP index moves from one node to another leaves the `TESTED_BY`
of the first behind.
-/

namespace Dagayn

namespace Store

variable {s s' cur : Store} {r c : EdgeRow}

/-- What identifies a `TESTED_BY` edge. -/
def testedKey (r : EdgeRow) : String × String × String × Int :=
  (r.source, r.target, r.filePath, r.line)

/-- No two `TESTED_BY` edges of a node agree in source, test, file and line. -/
def DistinctTests (s : Store) : Prop :=
  ∀ a ∈ s.edges.rows, ∀ b ∈ s.edges.rows, a.kind = "TESTED_BY" → b.kind = "TESTED_BY" →
    s.isNode a.source = true → testedKey a = testedKey b → a = b

/-- No pass would write the call, in the store as it is or as the passes before leave it: one
at a `file::symbol` node, an external one, one at a file (`unwritten_of_scope` and so on). -/
def StaysBound (h : CallHeuristics) (s : Store) (c : EdgeRow) : Prop :=
  ∀ cur, Passed (onNode s.nodes) s cur → Unwritten h cur c

/-- Every `TESTED_BY` of a node is of one that one of the test's calls at that file and line
targets, and goes on to. -/
def TestsCalled (h : CallHeuristics) (s : Store) : Prop :=
  ∀ tb ∈ s.edges.rows, tb.kind = "TESTED_BY" → s.isNode tb.source = true →
    ∃ c ∈ s.edges.rows, callOf tb c = true ∧ c.target = tb.source ∧ StaysBound h s c

/-- The agreement of `TESTED_BY` with the calls of tests. -/
structure TestedByFollows (s : Store) : Prop where
  source_isNode : ∀ tb ∈ s.edges.rows, tb.kind = "TESTED_BY" → s.isNode tb.source = true
  exactly_one : ∀ c ∈ s.edges.rows, s.testCall c = true →
    ∃! tb, tb ∈ s.edges.rows ∧ isTestedBy c.target c.source c.filePath c.line tb = true
  called : ∀ tb ∈ s.edges.rows, tb.kind = "TESTED_BY" →
    ∃ c ∈ s.edges.rows, callOf tb c = true ∧ c.target = tb.source

theorem isTestedBy_iff {source test file : String} {line : Int} :
    isTestedBy source test file line r = true ↔
      r.kind = "TESTED_BY" ∧ testedKey r = (source, test, file, line) := by
  simp [isTestedBy, testedKey, and_assoc]

theorem hasTestedBy_iff {source test file : String} {line : Int} :
    s.hasTestedBy source test file line = true ↔
      ∃ r ∈ s.edges.rows, r.kind = "TESTED_BY" ∧ testedKey r = (source, test, file, line) := by
  simp [hasTestedBy, isTestedBy_iff]

/-! ## No duplicates -/

theorem DistinctTests.syncGroup (hd : DistinctTests cur) (h : Following s cur) {tb : EdgeRow}
    (htb : tb ∈ s.edges.rows) (hkind : tb.kind = "TESTED_BY") :
    DistinctTests (cur.syncGroup (tb, s.candidates tb)) := by
  unfold Store.syncGroup
  simp only
  split
  · rename_i c hc
    split
    · intro a ha b hb
      exact hd a (List.mem_filter.mp ha).1 b (List.mem_filter.mp hb).1
    · rename_i hnone
      -- the moved row's new key, and that no row of the store has it
      have hkey : ∀ r ∈ cur.edges.rows, r.id = tb.id → (c.target, r.target, r.filePath, r.line)
          = (c.target, tb.target, tb.filePath, tb.line) := by
        intro r hr hid
        obtain ⟨-, ht, hf, hl⟩ := h.row htb hkind hr hid
        rw [ht, hf, hl]
      have hfree : ∀ b ∈ cur.edges.rows, b.kind = "TESTED_BY" →
          testedKey b ≠ (c.target, tb.target, tb.filePath, tb.line) :=
        fun b hb hk hkey => hnone (hasTestedBy_iff.mpr ⟨b, hb, hk, hkey⟩)
      intro a ha b hb hka hkb hnode hab
      simp only [EdgeTable.updateWhere, List.mem_map, decide_eq_true_eq] at ha hb
      obtain ⟨a₁, ha₁, rfl⟩ := ha
      obtain ⟨b₁, hb₁, rfl⟩ := hb
      by_cases hia : a₁.id = tb.id <;> by_cases hib : b₁.id = tb.id
      · rw [row_eq_of_id ha₁ hb₁ (hia.trans hib.symm)]
      · simp only [hia, hib, if_true, if_false] at hka hkb hnode hab ⊢
        exact absurd (hab.symm.trans (hkey a₁ ha₁ hia)) (hfree b₁ hb₁ hkb)
      · simp only [hia, hib, if_true, if_false] at hka hkb hnode hab ⊢
        exact absurd (hab.trans (hkey b₁ hb₁ hib)) (hfree a₁ ha₁ hka)
      · simp only [hia, hib, if_false] at hka hkb hnode hab ⊢
        exact hd a₁ ha₁ b₁ hb₁ hka hkb hnode hab
  · exact hd

theorem distinct_foldl_syncGroup : ∀ (tbs : List EdgeRow) (cur : Store), DistinctTests cur →
    Following s cur → (∀ tb ∈ tbs, tb ∈ s.edges.rows ∧ tb.kind = "TESTED_BY") →
    DistinctTests ((tbs.map fun tb => (tb, s.candidates tb)).foldl Store.syncGroup cur)
  | [], _, hd, _, _ => hd
  | tb :: tbs, cur, hd, h, htbs => by
      obtain ⟨htb, hkind⟩ := htbs tb List.mem_cons_self
      exact distinct_foldl_syncGroup tbs _ (hd.syncGroup h htb hkind) (h.syncGroup htb hkind)
        fun a ha => htbs a (List.mem_cons_of_mem _ ha)

theorem distinct_sync (hd : DistinctTests s) : DistinctTests s.syncTestedByWithCalls :=
  distinct_foldl_syncGroup _ s hd (.refl s) fun _ => mem_bareTestedBy

theorem DistinctTests.addTestedBy (hd : DistinctTests s)
    (hfree : s.hasTestedBy c.target c.source c.filePath c.line = false) :
    DistinctTests (s.addTestedBy c) := by
  have hnone : ∀ b ∈ s.edges.rows, b.kind = "TESTED_BY" → testedKey b ≠ callKey c := by
    intro b hb hk hkey
    rw [hasTestedBy_iff.mpr ⟨b, hb, hk, hkey⟩] at hfree
    cases hfree
  intro a ha b hb hka hkb hnode hab
  rcases List.mem_append.mp ha with ha | ha <;> rcases List.mem_append.mp hb with hb | hb
  · exact hd a ha b hb hka hkb hnode hab
  · obtain rfl := List.mem_singleton.mp hb
    exact absurd hab (hnone a ha hka)
  · obtain rfl := List.mem_singleton.mp ha
    exact absurd hab.symm (hnone b hb hkb)
  · rw [List.mem_singleton.mp ha, List.mem_singleton.mp hb]

theorem hasTestedBy_addTestedBy {c' : EdgeRow} (hne : callKey c ≠ callKey c')
    (h : s.hasTestedBy c'.target c'.source c'.filePath c'.line = false) :
    (s.addTestedBy c).hasTestedBy c'.target c'.source c'.filePath c'.line = false := by
  rw [← Bool.not_eq_true, hasTestedBy_iff] at h ⊢
  rintro ⟨b, hb, hk, hkey⟩
  rcases List.mem_append.mp hb with hb | hb
  · exact h ⟨b, hb, hk, hkey⟩
  · obtain rfl := List.mem_singleton.mp hb
    exact hne hkey

theorem distinct_foldl_addTestedBy : ∀ (cs : List EdgeRow) (s : Store), DistinctTests s →
    (∀ c ∈ cs, s.hasTestedBy c.target c.source c.filePath c.line = false) →
    cs.Pairwise (fun a b => callKey a ≠ callKey b) → DistinctTests (cs.foldl addTestedBy s)
  | [], _, hd, _, _ => hd
  | c :: cs, s, hd, hfree, hpair => by
      obtain ⟨hne, hpair⟩ := List.pairwise_cons.mp hpair
      refine distinct_foldl_addTestedBy cs _ (hd.addTestedBy (hfree c List.mem_cons_self)) ?_ hpair
      exact fun c' hc' =>
        hasTestedBy_addTestedBy (hne c' hc') (hfree c' (List.mem_cons_of_mem _ hc'))

theorem mem_missingTestedBy (h : c ∈ s.missingTestedBy) : c ∈ s.edges.rows ∧
    s.testCall c = true ∧ s.hasTestedBy c.target c.source c.filePath c.line = false := by
  have := mem_of_mem_keepFirst h
  simpa [and_assoc] using this

theorem distinct_reconcile (hd : DistinctTests s) :
    DistinctTests s.reconcileTestedByWithCalls := by
  refine distinct_foldl_addTestedBy _ _ ?_ (fun c hc => (mem_missingTestedBy hc).2.2)
    (keepFirst_pairwise _ _)
  intro a ha b hb
  exact hd a (mem_dropUntested.mp ha).1 b (mem_dropUntested.mp hb).1

/-! ## At least one -/

theorem mem_foldl_addTestedBy_key : ∀ (cs : List EdgeRow) (s : Store), c ∈ cs →
    ∃ r ∈ (cs.foldl addTestedBy s).edges.rows, r.kind = "TESTED_BY" ∧ testedKey r = callKey c
  | a :: cs, s, h => by
      rcases List.mem_cons.mp h with rfl | h
      · refine ⟨{ testedByRow c with id := s.edges.seq + 1 }, ?_, rfl, rfl⟩
        exact mem_foldl_addTestedBy_of_mem cs _ (List.mem_append_right _ List.mem_cons_self)
      · exact mem_foldl_addTestedBy_key cs _ h

theorem exists_testedBy (hc : c ∈ s.edges.rows) (ht : s.testCall c = true) :
    ∃ r ∈ s.reconcileTestedByWithCalls.edges.rows,
      r.kind = "TESTED_BY" ∧ testedKey r = callKey c := by
  have hkind : c.kind ≠ "TESTED_BY" := by
    simp only [testCall, Bool.and_eq_true, decide_eq_true_eq] at ht
    simp [ht.1.1.1.1]
  have hc' : c ∈ s.dropUntested.edges.rows :=
    mem_dropUntested.mpr ⟨hc, fun h => absurd h hkind⟩
  cases hhas : s.dropUntested.hasTestedBy c.target c.source c.filePath c.line with
  | true =>
      obtain ⟨r, hr, hk, hkey⟩ := hasTestedBy_iff.mp hhas
      exact ⟨r, mem_foldl_addTestedBy_of_mem _ _ hr, hk, hkey⟩
  | false =>
      have hmem : c ∈ s.dropUntested.edges.rows.filter fun c => s.dropUntested.testCall c &&
          !s.dropUntested.hasTestedBy c.target c.source c.filePath c.line := by
        refine List.mem_filter.mpr ⟨hc', ?_⟩
        have ht' : s.dropUntested.testCall c = true := ht
        simp [ht', hhas]
      obtain ⟨b, hb, hkey⟩ : ∃ b ∈ s.dropUntested.missingTestedBy, callKey b = callKey c :=
        exists_mem_keepFirst hmem
      obtain ⟨r, hr, hk, hrkey⟩ := mem_foldl_addTestedBy_key _ s.dropUntested hb
      exact ⟨r, hr, hk, hrkey.trans hkey⟩

/-! ## The whole pass -/

/-- A call at a node that stays there. -/
def tied (h : CallHeuristics) (s : Store) (c : EdgeRow) : Prop :=
  s.isNode c.target = true ∧ StaysBound h s c

theorem tied_of_onNode {h : CallHeuristics} (hr : onNode s.nodes r) : tied h s r := by
  obtain ⟨-, hscope, hnode⟩ := hr
  refine ⟨isNode_iff.mpr hnode, fun cur hp => unwritten_of_scope hscope ?_⟩
  exact isNode_iff.mpr (hp.nodes ▸ hnode)

theorem passed_resolveCalls {h : CallHeuristics} (hs : resolveCalls h s = some s') :
    Passed (tied h s) s s' := by
  obtain ⟨s₁, hre, hset⟩ := settling_resolveCalls s h (tied h s) hs
  have hfirst : Passed (tied h s) s s₁ := passed_reexports hre fun _ hk => hk.1
  have hleaves : Leaves h (tied h s) s := fun r hk cur hp =>
    hk.2 cur (hp.mono fun _ => tied_of_onNode)
  exact hfirst.trans (hset (hleaves.next hfirst))

theorem tested_cases {tb : EdgeRow}
    (htb : tb ∈ s.syncTestedByWithCalls.reconcileTestedByWithCalls.edges.rows)
    (hk : tb.kind = "TESTED_BY") :
    s.isNode tb.source = true ∧
      (tb ∈ s.edges.rows ∨ ∃ c ∈ s.edges.rows, callOf tb c = true ∧ c.target = tb.source) := by
  have hfollow := following_sync s
  have hcall : ∀ c ∈ s.syncTestedByWithCalls.edges.rows, c.kind = "CALLS" →
      c ∈ s.edges.rows := fun c hc hck => (hfollow.others c (by simp [hck])).mp hc
  rcases (mem_foldl_addTestedBy _ _).2 tb htb with hold | ⟨-, c, hc, hrow⟩
  · obtain ⟨hold, hnode⟩ := mem_dropUntested.mp hold
    have hnode := hnode hk
    rw [hfollow.nodes] at hnode
    refine ⟨isNode_iff.mpr hnode, ?_⟩
    obtain ⟨r₀, hr₀, -, -, -, -, -, rfl | hc⟩ := hfollow.tested tb hold hk
    · exact .inl hr₀
    · exact .inr hc
  · obtain ⟨hmem, htest, -⟩ := mem_missingTestedBy hc
    have hmem := (mem_dropUntested.mp hmem).1
    simp only [testCall, Bool.and_eq_true, decide_eq_true_eq] at htest
    obtain ⟨⟨⟨⟨hck, -⟩, hnode⟩, -⟩, -⟩ := htest
    have hnode' : c.target ∈ s.syncTestedByWithCalls.nodes.names := isNode_iff.mp hnode
    rw [hfollow.nodes] at hnode'
    rw [hrow]
    refine ⟨isNode_iff.mpr hnode', .inr ⟨c, hcall c hmem hck, ?_, rfl⟩⟩
    simp [callOf, testedByRow, hck]

theorem callOf_kind {tb : EdgeRow} (h : callOf tb c = true) : c.kind = "CALLS" := by
  simp only [callOf, Bool.and_eq_true, decide_eq_true_eq] at h
  exact h.1.1.1

theorem reconcile_nodes (s : Store) : s.reconcileTestedByWithCalls.nodes = s.nodes :=
  (mem_foldl_addTestedBy _ _).1

/-- After `resolve_bare_call_targets`, `TESTED_BY` agrees with the calls of tests, where
the `TESTED_BY` edges of nodes agreed with them before and had no duplicates. -/
theorem testedByFollows_resolveBareCallTargets {h : CallHeuristics}
    (hs : resolveBareCallTargets h s = some s') (hcalled : TestsCalled h s)
    (hdist : DistinctTests s) : TestedByFollows s' := by
  simp only [resolveBareCallTargets, Option.map_eq_some_iff] at hs
  obtain ⟨s₂, hcalls, rfl⟩ := hs
  have hpass := passed_resolveCalls hcalls
  have hfollow := following_sync s₂
  have hnodes : s₂.syncTestedByWithCalls.reconcileTestedByWithCalls.nodes = s₂.nodes :=
    (reconcile_nodes _).trans hfollow.nodes
  have hfinal : ∀ c : EdgeRow, c.kind = "CALLS" →
      (c ∈ s₂.syncTestedByWithCalls.reconcileTestedByWithCalls.edges.rows
        ↔ c ∈ s₂.edges.rows) := by
    intro c hk
    have hne : c.kind ≠ "TESTED_BY" := by simp [hk]
    rw [call_mem_reconcile hne, hfollow.others c hne]
  -- the call passes leave `TESTED_BY` rows alone
  have hdist₂ : DistinctTests s₂ := by
    intro a ha b hb hka hkb hnode
    refine hdist a ((hpass.tested hka).mp ha) b ((hpass.tested hkb).mp hb) hka hkb ?_
    rw [isNode, hpass.nodes] at hnode
    exact hnode
  have hdist' := distinct_reconcile (distinct_sync hdist₂)
  refine ⟨fun tb htb hk => ?_, fun c hc ht => ?_, fun tb htb hk => ?_⟩
  · rw [isNode, hnodes]
    exact (tested_cases htb hk).1
  · have hck : c.kind = "CALLS" := by
      simp only [testCall, Bool.and_eq_true, decide_eq_true_eq] at ht
      exact ht.1.1.1.1
    have hne : c.kind ≠ "TESTED_BY" := by simp [hck]
    have ht' : s₂.syncTestedByWithCalls.testCall c = true := by
      rw [testCall, isTestNode, isNode, reconcile_nodes] at ht
      exact ht
    obtain ⟨tb, htb, hk, hkey⟩ := exists_testedBy ((call_mem_reconcile hne).mp hc) ht'
    refine ⟨tb, ⟨htb, isTestedBy_iff.mpr ⟨hk, hkey⟩⟩, ?_⟩
    rintro tb' ⟨htb', his⟩
    obtain ⟨hk', hkey'⟩ := isTestedBy_iff.mp his
    refine hdist' tb' htb' tb htb hk' hk ?_ (hkey'.trans hkey.symm)
    rw [isNode, hnodes]
    exact (tested_cases htb' hk').1
  · obtain ⟨hnode, hcases⟩ := tested_cases htb hk
    rcases hcases with hold | ⟨c, hc, hcall, htarget⟩
    · have hnode' : s.isNode tb.source = true := by
        rw [isNode, ← hpass.nodes]
        exact hnode
      obtain ⟨c, hc, hcall, htarget, hstays⟩ :=
        hcalled tb ((hpass.tested hk).mp hold) hk hnode'
      have hkept := hpass.keeps c hc ⟨htarget ▸ hnode', hstays⟩
      exact ⟨c, (hfinal c (callOf_kind hcall)).mpr hkept, hcall, htarget⟩
    · exact ⟨c, (hfinal c (callOf_kind hcall)).mpr hc, hcall, htarget⟩

/-- The call of a test, and the `TESTED_BY` of it. -/
def addTest (edges : EdgeTable) (target : String) (line : Int) : EdgeTable :=
  (edges.insert (EdgeInput.row
      { kind := "CALLS", source := "test_a.py::test_run", target := target
        filePath := "test_a.py", line := line } (.obj []))).insert
    (EdgeInput.row
      { kind := "TESTED_BY", source := target, target := "test_a.py::test_run"
        filePath := "test_a.py", line := line } (.obj []))

/-- A test that calls `a.py::run`; `b.py` has a `run` as well. -/
def testStore : Store where
  nodes := upsertNodes .empty
    [({ kind := "Test", name := "test_run", filePath := "test_a.py", isTest := true
        lineStart := 1, lineEnd := 4 }, "", 0),
      ({ kind := "Function", name := "run", filePath := "a.py", lineStart := 1, lineEnd := 2 },
        "", 0),
      ({ kind := "Function", name := "run", filePath := "b.py", lineStart := 1, lineEnd := 2 },
        "", 0),
      ({ kind := "File", name := "app.ts", filePath := "app.ts" }, "", 0)]
  edges := addTest .empty "a.py::run" 3

/-- The test makes a request to the app of `app.ts` too. -/
def requestStore : Store := { testStore with edges := addTest testStore.edges "app.ts" 4 }

theorem testedByFollows_testStore :
    ∃ s', resolveBareCallTargets noHeuristics requestStore = some s' ∧ TestedByFollows s' := by
  have hsome : (resolveBareCallTargets noHeuristics requestStore).isSome = true := by decide
  obtain ⟨s', hs'⟩ := Option.isSome_iff_exists.mp hsome
  have hcalls : ∀ tb ∈ requestStore.edges.rows, tb.kind = "TESTED_BY" →
      ∃ c ∈ requestStore.edges.rows, callOf tb c = true ∧ c.target = tb.source ∧
        requestStore.isNode c.target = true ∧ (hasScope c.target = true ∨
          looksLikeFileTarget c.target = true ∧ c.extra.has "receiver_type" = false ∧
            c.extra.isOne "receiver_unknown" = false) := by decide
  have hcalled : TestsCalled noHeuristics requestStore := by
    intro tb htb hk _
    obtain ⟨c, hc, hcall, htarget, hnode, hkind⟩ := hcalls tb htb hk
    refine ⟨c, hc, hcall, htarget, fun cur hp => ?_⟩
    have hnode' : cur.isNode c.target = true := isNode_iff.mpr (hp.nodes ▸ isNode_iff.mp hnode)
    rcases hkind with hscope | ⟨hfile, htyped, huntyped⟩
    · exact unwritten_of_scope hscope hnode'
    · exact unwritten_of_file hnode' hfile htyped huntyped
  have hone : ∀ a ∈ requestStore.edges.rows, ∀ b ∈ requestStore.edges.rows,
      a.kind = "TESTED_BY" → b.kind = "TESTED_BY" → testedKey a = testedKey b →
        a.id = b.id := by decide
  refine ⟨s', hs', testedByFollows_resolveBareCallTargets hs' hcalled ?_⟩
  exact fun a ha b hb hka hkb _ hkey => row_eq_of_id ha hb (hone a ha b hb hka hkb hkey)

/-- An authoritative index finds that the test calls `b.py::run`: the call moves, and
the pass adds a `TESTED_BY` of `b.py::run` and keeps the one of `a.py::run`. -/
theorem not_testedByFollows_after_overlay :
    ∃ s', resolveBareCallTargets noHeuristics (settleByIndex
        (fun _ _ => .definition "b.py" 1 (some "b.py::run")) true testStore) = some s' ∧
      ¬ TestedByFollows s' := by
  have hstale : (resolveBareCallTargets noHeuristics (settleByIndex
      (fun _ _ => .definition "b.py" 1 (some "b.py::run")) true testStore)).map (fun s' =>
        s'.edges.rows.any fun tb => tb.kind = "TESTED_BY" && tb.source = "a.py::run" &&
          !s'.edges.rows.any fun c => callOf tb c && c.target = tb.source) = some true := by decide
  obtain ⟨s', hs', hany⟩ := Option.map_eq_some_iff.mp hstale
  refine ⟨s', hs', fun hall => ?_⟩
  obtain ⟨tb, htb, hbad⟩ := List.any_eq_true.mp hany
  simp only [Bool.and_eq_true, decide_eq_true_eq, Bool.not_eq_true', List.any_eq_false] at hbad
  obtain ⟨c, hc, hcall, htarget⟩ := hall.called tb htb hbad.1.1
  exact hbad.2 c hc ⟨hcall, htarget⟩

end Store

end Dagayn
