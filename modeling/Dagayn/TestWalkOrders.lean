import Dagayn.TestWalkHops

/-!
# The order of the incoming edges

Whether the walk to the tests gives one answer whatever the order in which the hash map of
incoming edges comes. A caller is entered by the first edge that leads to it, and what that
edge says of it is all that is kept: through what the test was met, the value use on the path,
whether an import or an implicit use is carried on. `orderFree_of_agreeing`: where the
edges to one caller say the same at every hop, no order changes the answer.
-/

namespace Dagayn

namespace TestWalk

open Bridges Coverage

section Values

variable {i : Inputs} {qn : String} {w w' : Walk} {classes : List String} {as : List Arrival}
  {a b : Arrival}

/-! ## What one hop knows of values -/

/-- All arrivals of one caller say the same of the value use on its path, and of a test that
is not met yet through what it is met; the value uses of the hop's own targets stay. -/
def Concordant (i : Inputs) (qn : String) (w : Walk) (classes : List String) : Prop :=
  (∀ a ∈ hopArrivals i qn w classes, ∀ b ∈ hopArrivals i qn w classes, a.name = b.name →
    (a.atTest i = true → w.met.lookup a.name = none) →
      a.use w = b.use w ∧ (a.atTest i = true → a.via.target = b.via.target)) ∧
  ∀ a ∈ hopArrivals i qn w classes, a.atTest i = false → a.name ∈ targetsOf w classes →
    a.use w = none ∨ w.valueUses.lookup a.name = a.use w

instance : Decidable (Concordant i qn w classes) := by
  unfold Concordant
  infer_instance

/-- The meetings and the value uses behind the arrivals. -/
structure Valued (i : Inputs) (w : Walk) (as : List Arrival) (w' : Walk) : Prop where
  met : ∀ q, w'.met.lookup q =
    (((as.filter fun a => a.atTest i && a.name = q).map fun a => a.entry w).foldl
      (keepLess ReachingTest.meeting) (w.met.lookup q))
  valueUses : ∀ k, w'.valueUses.lookup k =
    ((as.find? fun a => !a.atTest i && a.name = k).bind fun a => a.use w).or
      (w.valueUses.lookup k)

theorem meeting_le_of_hops_lt {r r' : ReachingTest} (h : r.hops < r'.hops) :
    r.meeting ≤ r'.meeting := (Prod.Lex.lt_iff.mpr (.inl h)).le

theorem foldl_entries_of_mem (hw : Honest i.store w.depth w.met) {q : String} {old : ReachingTest}
    (hold : w.met.lookup q = some old) (as : List Arrival) :
    (as.map fun a => a.entry w).foldl (keepLess ReachingTest.meeting) (some old) = some old := by
  refine foldl_keepLess_of_le fun r hr => ?_
  obtain ⟨a, -, rfl⟩ := List.mem_map.mp hr
  exact meeting_le_of_hops_lt (Nat.lt_succ_of_le (hw q old hold).1)

theorem Valued.start : Valued i w [] { w with next := [] } where
  met q := rfl
  valueUses k := by simp

theorem Valued.withSeen (h : Valued i w as w') (s : Finset String) :
    Valued i w as { w' with seen := s } where
  met := h.met
  valueUses := h.valueUses

theorem Valued.lookup_target (h : Valued i w as w') (hc : Concordant i qn w classes)
    (has : ∀ a ∈ as, a ∈ hopArrivals i qn w classes) {t : String}
    (ht : t ∈ targetsOf w classes) : w'.valueUses.lookup t = w.valueUses.lookup t := by
  rw [h.valueUses]
  cases hfind : as.find? fun a => !a.atTest i && a.name = t with
  | none => rfl
  | some a =>
      obtain ⟨htest, hname⟩ : a.atTest i = false ∧ a.name = t := by
        simpa using List.find?_some hfind
      rw [Option.bind_some]
      rcases hc.2 a (has a (List.mem_of_find?_eq_some hfind)) htest (hname ▸ ht) with hnone | hsame
      · rw [hnone, Option.none_or]
      · rw [← hsame, hname, Option.or_self]

/-- Whichever arrival of a caller is the first, its value use is this one's. -/
theorem Concordant.first_use (hc : Concordant i qn w classes)
    (has : ∀ a ∈ as, a ∈ hopArrivals i qn w classes) (ha : a ∈ hopArrivals i qn w classes)
    (htest : a.atTest i = false) :
    ((as ++ [a]).find? fun b => !b.atTest i && b.name = a.name).bind (fun b => b.use w) =
      a.use w := by
  rw [List.find?_append, List.find?_cons_of_pos (by simp [htest])]
  cases hfind : as.find? fun b => !b.atTest i && b.name = a.name with
  | none => rfl
  | some b =>
      obtain ⟨htest', hname⟩ : b.atTest i = false ∧ b.name = a.name := by
        simpa using List.find?_some hfind
      exact (hc.1 b (has b (List.mem_of_find?_eq_some hfind)) a ha hname
        fun h => by rw [htest'] at h; cases h).1

theorem Valued.arriveTest (h : Valued i w as w') (honest : Honest i.store (w.depth + 1) w'.met)
    (hmade : Made i.store (a.entry w)) (htest : a.atTest i = true) :
    Valued i w (as ++ [a]) { w' with met := meet w'.met (a.entry w) } where
  met q := by
    rw [lookup_meet honest hmade, List.filter_append, List.map_append, List.foldl_append,
      ← h.met]
    by_cases hq : q = a.name
    · rw [if_pos (show q = (a.entry w).test from hq),
        List.filter_cons_of_pos (by simp [htest, hq])]
      rfl
    · rw [if_neg (show ¬q = (a.entry w).test from hq),
        List.filter_cons_of_neg (by simp [Ne.symm hq])]
      rfl
  valueUses k := by
    rw [List.find?_append, List.find?_cons_of_neg (by simp [htest]), List.find?_nil,
      Option.or_none]
    exact h.valueUses k

/-- The first value use of a caller is kept: a later one is the same. -/
theorem Valued.lookup_caller (h : Valued i w as w') (hc : Concordant i qn w classes)
    (has : ∀ a ∈ as, a ∈ hopArrivals i qn w classes) (ha : a ∈ hopArrivals i qn w classes)
    (htest : a.atTest i = false) (k : String) :
    (((a.use w).map fun use => AList.insert a.name use w'.valueUses).getD w'.valueUses).lookup k =
      (((as ++ [a]).find? fun b => !b.atTest i && b.name = k).bind fun b => b.use w).or
        (w.valueUses.lookup k) := by
  by_cases hk : a.name = k
  · subst hk
    have hfirst := hc.first_use has ha htest
    rw [hfirst]
    cases hsome : a.use w with
    | some use =>
        rw [Option.map_some, Option.getD_some]
        exact AList.lookup_insert _
    | none =>
        rw [Option.map_none, Option.getD_none, Option.none_or, h.valueUses]
        rw [List.find?_append] at hfirst
        cases hfind : as.find? fun b => !b.atTest i && b.name = a.name with
        | none => rfl
        | some b =>
            rw [hfind] at hfirst
            rw [Option.bind_some, show b.use w = none from hfirst.trans hsome, Option.none_or]
  · rw [List.find?_append, List.find?_cons_of_neg (by simp [hk]), List.find?_nil, Option.or_none]
    refine Eq.trans ?_ (h.valueUses k)
    cases a.use w with
    | none => rfl
    | some use => exact AList.lookup_insert_ne (Ne.symm hk)

theorem Valued.arrive (h : Valued i w as w') (harrived : Arrived i w as w')
    (hc : Concordant i qn w classes) (has : ∀ a ∈ as, a ∈ hopArrivals i qn w classes)
    (ha : a ∈ hopArrivals i qn w classes) :
    Valued i w (as ++ [a]) (arrive i a.via a.edge a.caller w') := by
  have htarget : a.via.target ∈ targetsOf w classes := by
    obtain ⟨t, ht, hmem⟩ := mem_hopArrivals.mp ha
    rw [(mem_arrivals hmem).1]
    exact ht
  have huse : callerUse w'.valueUses a.via a.edge a.caller = a.use w := by
    rw [Arrival.use, callerUse, callerUse, h.lookup_target hc has htarget]
  unfold TestWalk.arrive
  dsimp only
  rw [huse, harrived.depth_eq]
  cases htest : a.atTest i with
  | true =>
      have hif : isTestNode a.caller (relative i.root a.caller.input.filePath) = true := htest
      rw [hif, if_pos rfl]
      have hmet := h.arriveTest harrived.honest
        (made_reachingTest (find_of_callerOf (callerOf_of_mem_hopArrivals ha)) _ _) htest
      exact ⟨hmet.met, hmet.valueUses⟩
  | false =>
      have hif : isTestNode a.caller (relative i.root a.caller.input.filePath) = false := htest
      rw [hif, if_neg Bool.false_ne_true]
      refine ⟨fun q => ?_, fun k => h.lookup_caller hc has ha htest k⟩
      rw [List.filter_append, List.filter_cons_of_neg (by simp [htest]), List.filter_nil,
        List.append_nil]
      exact h.met q

theorem Valued.again (h : Valued i w as w') (hw : Honest i.store w.depth w.met)
    (hc : Concordant i qn w classes) (ha : a ∈ hopArrivals i qn w classes)
    (hb' : b ∈ hopArrivals i qn w classes) (hb : b ∈ as) (hcaller : b.caller = a.caller) :
    Valued i w (as ++ [a]) w' := by
  have hname : b.name = a.name := congrArg NodeRow.qualifiedName hcaller
  have htest : b.atTest i = a.atTest i := by rw [Arrival.atTest, Arrival.atTest, hcaller]
  refine ⟨fun q => ?_, fun k => ?_⟩
  · rw [h.met, List.filter_append, List.map_append]
    by_cases hq : (a.atTest i && decide (a.name = q)) = true
    · obtain ⟨hat, rfl⟩ : a.atTest i = true ∧ a.name = q := by simpa using hq
      have hone : [a].filter (fun c => c.atTest i && c.name = a.name) = [a] := by simp [hat]
      rw [hone, List.map_singleton]
      cases hold : w.met.lookup a.name with
      | some old =>
          rw [foldl_entries_of_mem hw hold, List.foldl_append, foldl_entries_of_mem hw hold]
          exact (foldl_entries_of_mem hw hold [a]).symm
      | none =>
          obtain ⟨huse, hvia⟩ := hc.1 a ha b hb' hname.symm fun _ => hold
          have hentry : b.entry w = a.entry w := by
            rw [Arrival.entry, Arrival.entry, hcaller, huse, hvia hat]
          refine (foldl_keepLess_append_self ?_ (le_of_eq (congrArg _ hentry))).symm
          exact List.mem_map_of_mem (List.mem_filter.mpr ⟨hb, by simp [htest, hat, hname]⟩)
    · rw [List.filter_cons_of_neg (p := fun c : Arrival => c.atTest i && c.name = q) hq,
        List.filter_nil,
        List.map_nil, List.append_nil]
  · rw [h.valueUses, List.find?_append]
    by_cases hk : (!a.atTest i && decide (a.name = k)) = true
    · have hsome : (as.find? fun c => !c.atTest i && c.name = k).isSome :=
        List.find?_isSome.mpr ⟨b, hb, by rw [htest, hname]; exact hk⟩
      obtain ⟨c, hfind⟩ := Option.isSome_iff_exists.mp hsome
      rw [hfind, Option.some_or]
    · rw [List.find?_cons_of_neg (p := fun c : Arrival => !c.atTest i && c.name = k) hk,
        List.find?_nil,
        Option.or_none]

theorem visitCallers_valued (o : HashOrders) (hw : Honest i.store w.depth w.met)
    (hu : Unanimous i qn w classes) (hc : Concordant i qn w classes) :
    Valued i w (orderedArrivals i qn o w classes) (visitCallers i qn o w classes) := by
  have hrun := visitCallers_induction i qn w classes
    (motive := fun as w' => (∀ a ∈ as, a ∈ hopArrivals i qn w classes) ∧ Arrived i w as w' ∧
      Valued i w as w') o
    (fun as w' s h => ⟨h.1, h.2.1.withSeen s, h.2.2.withSeen s⟩)
    (fun as w' h t ht => h.2.1.viaOf_eq hu h.1 ht)
    (fun a ha => ?_) ⟨fun a ha => absurd ha List.not_mem_nil, Arrived.start hw, Valued.start⟩
  · exact hrun.1.2.2
  · have hcaller := callerOf_of_mem_hopArrivals ha
    refine ⟨fun as w' h => ⟨?_, h.2.1.arrive hcaller, h.2.2.arrive h.2.1 hc h.1 ha⟩,
      fun as w' b h hb hsource => ?_⟩
    · exact List.forall_mem_append.mpr ⟨h.1, List.forall_mem_singleton.mpr ha⟩
    · have hsame := caller_eq hcaller (callerOf_of_mem_hopArrivals (h.1 b hb)) hsource
      refine ⟨List.forall_mem_append.mpr ⟨h.1, List.forall_mem_singleton.mpr ha⟩, ?_, ?_⟩
      · exact h.2.1.again hb hsame (hu.1 a ha b (h.1 b hb) hsource.symm)
      · exact h.2.2.again hw hc ha (h.1 b hb) hb hsame

end Values

section Orders

variable {i : Inputs} {qn : String} {w w' : Walk} {classes classes' : List String}

/-! ## Two orders of one hop -/

theorem Same.use_eq (h : Same w w') (a : Arrival) : a.use w = a.use w' := by
  rw [Arrival.use, Arrival.use, callerUse, callerUse, h.valueUses]

theorem Same.entry_eq (h : Same w w') (a : Arrival) : a.entry w = a.entry w' := by
  rw [Arrival.entry, Arrival.entry, h.use_eq, h.depth]

theorem Same.concordant (h : Same w w') (hclasses : ∀ k, k ∈ classes ↔ k ∈ classes')
    (hc : Concordant i qn w classes) : Concordant i qn w' classes' := by
  have hmem : ∀ a, a ∈ hopArrivals i qn w classes ↔ a ∈ hopArrivals i qn w' classes' :=
    h.mem_hopArrivals hclasses
  refine ⟨fun a ha b hb hname hnew => ?_, fun a ha htest ht => ?_⟩
  · rw [← h.use_eq, ← h.use_eq]
    refine hc.1 a ((hmem a).mpr ha) b ((hmem b).mpr hb) hname fun htest => ?_
    rw [h.met]
    exact hnew htest
  · rw [← h.use_eq, ← h.valueUses]
    exact hc.2 a ((hmem a).mpr ha) htest ((h.mem_targetsOf hclasses a.name).mpr ht)

theorem visitCallers_same (o o' : HashOrders) (h : Same w w')
    (hclasses : ∀ k, k ∈ classes ↔ k ∈ classes') (hw : Honest i.store w.depth w.met)
    (hw' : Honest i.store w'.depth w'.met) (hu : Unanimous i qn w classes)
    (hc : Concordant i qn w classes) :
    Same (visitCallers i qn o w classes) (visitCallers i qn o' w' classes') := by
  have hvalued := visitCallers_valued o hw hu hc
  have hvalued' := visitCallers_valued o' hw' (h.unanimous hclasses hu) (h.concordant hclasses hc)
  obtain ⟨-, hcollect, htruncated, -⟩ := (visitCallers_arrived o hw hu).1.rest
  obtain ⟨-, hcollect', htruncated', -⟩ :=
    (visitCallers_arrived o' hw' (h.unanimous hclasses hu)).1.rest
  have hmem : ∀ a, a ∈ orderedArrivals i qn o w classes ↔
      a ∈ orderedArrivals i qn o' w' classes' := fun a => by
    rw [mem_orderedArrivals, mem_orderedArrivals, h.mem_hopArrivals hclasses]
  refine ⟨visitCallers_alike o o' h.toAlike hclasses hw hw' hu, ?_, ?_, fun q => ?_, fun k => ?_⟩
  · rw [hcollect, hcollect', h.collect]
  · rw [htruncated, htruncated', h.truncated]
  · have hentry : (fun a : Arrival => a.entry w') = fun a => a.entry w :=
      funext fun a => (h.entry_eq a).symm
    rw [hvalued.met, hvalued'.met, ← h.met, hentry]
    cases hold : w.met.lookup q with
    | some old => rw [foldl_entries_of_mem hw hold, foldl_entries_of_mem hw hold]
    | none =>
        refine foldl_keepLess_congr (fun r => ?_) fun r hr r' hr' _ => ?_
        · rw [List.mem_map, List.mem_map]
          exact exists_congr fun a => and_congr_left fun _ => by
            rw [List.mem_filter, List.mem_filter, hmem]
        · obtain ⟨a, ha, rfl⟩ := List.mem_map.mp hr
          obtain ⟨b, hb, rfl⟩ := List.mem_map.mp hr'
          obtain ⟨ha, haq⟩ := List.mem_filter.mp ha
          obtain ⟨hb, hbq⟩ := List.mem_filter.mp hb
          obtain ⟨htest, hname⟩ : a.atTest i = true ∧ a.name = q := by simpa using haq
          obtain ⟨-, hname'⟩ : b.atTest i = true ∧ b.name = q := by simpa using hbq
          have ha' := mem_orderedArrivals.mp ha
          have hb' := mem_orderedArrivals.mp hb
          have hsame : a.name = b.name := hname.trans hname'.symm
          obtain ⟨huse, hvia⟩ := hc.1 a ha' b hb' hsame fun _ => by rw [hname, hold]
          have hcaller : some a.caller = some b.caller :=
            (find_of_callerOf (callerOf_of_mem_hopArrivals ha')).symm.trans
              (hsame ▸ find_of_callerOf (callerOf_of_mem_hopArrivals hb'))
          rw [Arrival.entry, Arrival.entry, Option.some.inj hcaller, huse, hvia htest]
  · rw [hvalued.valueUses, hvalued'.valueUses, h.valueUses]
    have huse : (fun a : Arrival => a.use w') = fun a => a.use w :=
      funext fun a => (h.use_eq a).symm
    rw [huse]
    congr 1
    refine bind_find?_congr (exists_congr fun a => and_congr_left fun _ => hmem a) ?_
    intro a ha b hb hak hbk
    obtain ⟨htest, hname⟩ : a.atTest i = false ∧ a.name = k := by simpa using hak
    obtain ⟨-, hname'⟩ : b.atTest i = false ∧ b.name = k := by simpa using hbk
    exact (hc.1 a (mem_orderedArrivals.mp ha) b (mem_orderedArrivals.mp ((hmem b).mpr hb))
      (hname.trans hname'.symm) fun h => by rw [htest] at h; cases h).1

/-- Two methods of one class that the frontier has not come to use it alike. -/
def ClassesAgree (i : Inputs) (m : Walk) : Prop :=
  ∀ x ∈ m.frontier, ∀ y ∈ m.frontier, implicitOf i x = implicitOf i y →
    ((implicitOf i x).any fun k =>
      decide (k ∉ m.frontier) && (m.valueUses.lookup k).isNone) = true →
        m.valueUses.lookup x = m.valueUses.lookup y

instance : Decidable (ClassesAgree i w) := by
  unfold ClassesAgree
  infer_instance

theorem Same.withClasses {m m' c c' : Walk} (h : Same m m') (hagree : ClassesAgree i m)
    (hc : withClasses i m = some (c, classes)) (hc' : withClasses i m' = some (c', classes')) :
    Same c c' ∧ ∀ k, k ∈ classes ↔ k ∈ classes' := by
  obtain ⟨halike, hmem⟩ := h.toAlike.withClasses hc hc'
  have hclassed := withClasses_classed hc
  have hclassed' := withClasses_classed hc'
  refine ⟨⟨halike, ?_, ?_, fun q => ?_, fun k => ?_⟩, hmem⟩
  · rw [hclassed.rest, hclassed'.rest]
    exact h.collect
  · rw [hclassed.rest, hclassed'.rest]
    exact h.truncated
  · rw [(met_withClasses hc).2, (met_withClasses hc').2]
    exact h.met q
  · rw [hclassed.valueUses, hclassed'.valueUses, ← h.valueUses]
    cases hold : m.valueUses.lookup k with
    | some use => rfl
    | none =>
        rw [Option.none_or, Option.none_or]
        by_cases hk : k ∈ m.frontier
        · rw [if_pos hk, if_pos ((h.frontier k).mp hk)]
        · rw [if_neg hk, if_neg (mt (h.frontier k).mpr hk)]
          have hlookup : (fun x => m'.valueUses.lookup x) = fun x => m.valueUses.lookup x :=
            funext fun x => (h.valueUses x).symm
          rw [hlookup]
          refine bind_find?_congr (exists_congr fun x => and_congr_left fun _ => h.frontier x) ?_
          intro x hx y hy hxk hyk
          have hx' : implicitOf i x = some k := of_decide_eq_true hxk
          have hy' : implicitOf i y = some k := of_decide_eq_true hyk
          refine hagree x hx y ((h.frontier y).mpr hy) (hx'.trans hy'.symm) ?_
          simp [hx', hk, hold]

/-! ## Two orders of the walk -/

/-- The edges that lead to one caller in the hop say the same of it. -/
def Agreeing (i : Inputs) (qn : String) (limit : Nat) (w : Walk) : Prop :=
  ends limit (meetDirect i qn w) = false →
    ClassesAgree i (meetDirect i qn w) ∧
      ∀ c ∈ withClasses i (meetDirect i qn w), Unanimous i qn c.1 c.2 ∧ Concordant i qn c.1 c.2

instance {limit : Nat} : Decidable (Agreeing i qn limit w) := by
  unfold Agreeing
  infer_instance

/-- The outcomes of two passes. -/
inductive SameStep : Option (Found ⊕ Walk) → Option (Found ⊕ Walk) → Prop
  | failure : SameStep none none
  | answer (found : Found) : SameStep (some (.inl found)) (some (.inl found))
  | next {w w' : Walk} : Same w w' → SameStep (some (.inr w)) (some (.inr w'))

theorem Same.found_eq {bound : Nat} (h : Same w w') (hw : Honest i.store bound w.met) :
    found w = found w' := by
  rw [found, found, h.truncated]
  congr 1
  refine sortBy_of_perm (Dict.values_perm h.met) fun a ha b hb hplace => ?_
  obtain ⟨k, hk⟩ := Dict.mem_values.mp ha
  obtain ⟨l, hl⟩ := Dict.mem_values.mp hb
  have htest : a.test = b.test := (Prod.mk.inj (toLex.injective
    (Prod.mk.inj (toLex.injective hplace)).2)).2
  rw [← (hw k a hk).2.1, htest, (hw l b hl).2.1, hl] at hk
  exact (Option.some.inj hk).symm

theorem Same.advance (h : Same w w') : Same (advance w) (advance w') := by
  have hhub : (decide (w.depth + 1 < w.collect) && decide (reachNodeLimit < w.seen.card)) =
      (decide (w'.depth + 1 < w'.collect) && decide (reachNodeLimit < w'.seen.card)) := by
    rw [h.depth, h.collect, h.seen]
  refine ⟨h.toAlike.advance, ?_, ?_, h.met, h.valueUses⟩
  · unfold TestWalk.advance
    dsimp only
    rw [hhub, h.depth, h.collect]
  · unfold TestWalk.advance
    dsimp only
    rw [hhub, h.truncated]

theorem Same.climb (o o' : HashOrders) {m m' : Walk} (h : Same m m')
    (hm : Honest i.store m.depth m.met) (hm' : Honest i.store m'.depth m'.met)
    (hclasses : ClassesAgree i m)
    (hagree : ∀ p ∈ TestWalk.withClasses i m, Unanimous i qn p.1 p.2 ∧ Concordant i qn p.1 p.2) :
    (TestWalk.climb i qn o m = none ∧ TestWalk.climb i qn o' m' = none) ∨
      ∃ c c', TestWalk.climb i qn o m = some c ∧ TestWalk.climb i qn o' m' = some c' ∧
        Same c c' := by
  rcases h.climb_cases o o' hm hm' with hnone | ⟨p, p', hp, hp', hc, hc', hhonest, hhonest'⟩
  · exact .inl hnone
  · obtain ⟨hsame, hmem⟩ := h.withClasses hclasses hp hp'
    obtain ⟨hu, hcon⟩ := hagree p hp
    exact .inr ⟨_, _, hc, hc', visitCallers_same o o' hsame hmem hhonest hhonest' hu hcon⟩

theorem Same.hop (o o' : HashOrders) {limit : Nat} (h : Same w w')
    (hw : Honest i.store w.depth w.met) (hw' : Honest i.store w'.depth w'.met)
    (hagree : Agreeing i qn limit w) :
    SameStep (TestWalk.hop i qn o limit w) (TestWalk.hop i qn o' limit w') := by
  have hm := h.meetDirect qn hw hw'
  have hhonest := honest_meetDirect qn hw
  have hhonest' := honest_meetDirect qn hw'
  have hends : ends limit (TestWalk.meetDirect i qn w) =
      ends limit (TestWalk.meetDirect i qn w') := by
    rw [ends, ends, hm.collect, hm.depth, hm.isEmpty_met]
  rw [TestWalk.hop, TestWalk.hop]
  cases hstop : ends limit (TestWalk.meetDirect i qn w) with
  | true =>
      rw [← hends, hstop, if_pos rfl, if_pos rfl, hm.found_eq hhonest]
      exact .answer _
  | false =>
      rw [← hends, hstop, if_neg Bool.false_ne_true, if_neg Bool.false_ne_true]
      obtain ⟨hclasses, hcallers⟩ := hagree hstop
      rcases hm.climb o o' hhonest hhonest' hclasses hcallers with
        ⟨hnone, hnone'⟩ | ⟨c, c', hc, hc', hsame⟩
      · rw [hnone, hnone']
        exact .failure
      · rw [hc, hc', Option.map_some, Option.map_some, ← hsame.depth, ← hsame.collect,
          ← hsame.isEmpty_met, ← hsame.isEmpty_next]
        split
        · rw [hsame.found_eq (onward_climb hhonest hc).honest]
          exact .answer _
        · exact .next hsame.advance

theorem Same.classesAgree {m m' : Walk} (h : Same m m') (hagree : ClassesAgree i m) :
    ClassesAgree i m' := by
  intro x hx y hy hxy hnew
  rw [← h.valueUses, ← h.valueUses]
  refine hagree x ((h.frontier x).mpr hx) y ((h.frontier y).mpr hy) hxy ?_
  simpa [h.frontier, h.valueUses] using hnew

theorem Same.agreeing {limit : Nat} (h : Same w w') (hw : Honest i.store w.depth w.met)
    (hw' : Honest i.store w'.depth w'.met) (hagree : Agreeing i qn limit w) :
    Agreeing i qn limit w' := by
  have hm := h.meetDirect qn hw hw'
  intro hends
  have hends' : ends limit (TestWalk.meetDirect i qn w) = false := by
    rw [ends, hm.collect, hm.depth, hm.isEmpty_met]
    exact hends
  obtain ⟨hclasses, hcallers⟩ := hagree hends'
  refine ⟨hm.classesAgree hclasses, fun c' hc' => ?_⟩
  cases hc : TestWalk.withClasses i (TestWalk.meetDirect i qn w) with
  | none =>
      rw [hm.withClasses_eq_none.mp hc] at hc'
      cases hc'
  | some c =>
      obtain ⟨hsame, hmem⟩ := hm.withClasses hclasses hc hc'
      obtain ⟨hu, hcon⟩ := hcallers c hc
      exact ⟨hsame.unanimous hmem hu, hsame.concordant hmem hcon⟩

theorem Same.walkFrom (o o' : HashOrders) {limit left : Nat} (h : Same w w')
    (hw : Honest i.store w.depth w.met) (hw' : Honest i.store w'.depth w'.met)
    (hagree : ∀ u ∈ statesFrom i qn o limit left w, Agreeing i qn limit u) :
    walkFrom i qn o limit left w = walkFrom i qn o' limit left w' ∧
      ∀ u ∈ statesFrom i qn o' limit left w', Agreeing i qn limit u := by
  induction left generalizing w w' with
  | zero => exact ⟨congrArg some (h.found_eq hw), fun u hu => by cases hu⟩
  | succ left ih =>
      rw [statesFrom, List.forall_mem_cons] at hagree
      obtain ⟨hhere, hlater⟩ := hagree
      have hstep := h.hop o o' hw hw' hhere
      rw [TestWalk.walkFrom, TestWalk.walkFrom, statesFrom, List.forall_mem_cons]
      have hhere' := h.agreeing hw hw' hhere
      generalize hhop : TestWalk.hop i qn o limit w = step at hstep hlater ⊢
      generalize hhop' : TestWalk.hop i qn o' limit w' = step' at hstep ⊢
      cases hstep with
      | failure => exact ⟨rfl, hhere', fun u hu => by cases hu⟩
      | answer found => exact ⟨rfl, hhere', fun u hu => by cases hu⟩
      | next hsame =>
          obtain ⟨heq, hstates⟩ :=
            ih hsame (honest_of_hop hw hhop) (honest_of_hop hw' hhop') hlater
          exact ⟨heq, hhere', hstates⟩

/-! ## The nearest nodes -/

/-- The test is met in the hop through the node: as a direct test of the frontier, or as a
caller not seen before that a followed edge of a target leads to. -/
def MetThrough (i : Inputs) (qn : String) (limit : Nat) (w : Walk) (test : String) (hops : Nat)
    (via : String) : Prop :=
  (hops = w.depth ∧ via ∈ w.frontier ∧ ∃ row ∈ directTests i.store via,
    built i.store qn row.input.filePath = true ∧ row.qualifiedName = test) ∨
  ends limit (meetDirect i qn w) = false ∧ hops = w.depth + 1 ∧
    ∃ c classes, withClasses i (meetDirect i qn w) = some (c, classes) ∧
      via ∈ targetsOf c classes ∧ ∃ e ∈ incomingOf i c classes via,
        follows (viaOf c classes via) e = true ∧ e.sourceQualified ∉ w.seen ∧
          ∃ caller, callerOf i qn e = some caller ∧ caller.qualifiedName = test ∧
            isTestNode caller (relative i.root caller.input.filePath) = true

/-- The node through which a test is met, by its hops and its name. -/
def nearness (hops : Nat) (via : String) : Nat ×ₗ String := toLex (hops, via)

theorem exists_le_of_direct (qn : String) {hops : Nat} {via test : String}
    (hw : Honest i.store w.depth w.met) (hhops : hops = w.depth) (hvia : via ∈ w.frontier)
    {row : NodeRow} (hrow : row ∈ directTests i.store via)
    (hbuilt : built i.store qn row.input.filePath = true) (htest : row.qualifiedName = test) :
    ∃ r, (meetDirect i qn w).met.lookup test = some r ∧ r.meeting ≤ nearness hops via := by
  rw [meetDirect_eq]
  show ∃ r, (List.foldl meet w.met _).lookup test = some r ∧ _
  rw [lookup_meetAll hw fun n hn =>
    ⟨(directMeetings_made n hn).1, (directMeetings_made n hn).2.le⟩]
  have hmem : reachingTest w.depth row via (w.valueUses.lookup via) ∈
      (directMeetings i qn w).filter (·.test = test) :=
    List.mem_filter.mpr ⟨mem_directMeetings.mpr ⟨via, hvia, row, hrow, hbuilt, rfl⟩,
      decide_eq_true htest⟩
  obtain ⟨r, hr, hle⟩ :=
    exists_foldl_keepLess ReachingTest.meeting (w.met.lookup test) hmem
  refine ⟨r, hr, hle.trans (le_of_eq ?_)⟩
  rw [hhops]
  rfl

theorem exists_le_of_caller (o : HashOrders) {via test : String}
    (hw : Honest i.store w.depth w.met) (hu : Unanimous i qn w classes)
    (hc : Concordant i qn w classes) (hvia : via ∈ targetsOf w classes) {e : GraphEdge}
    (he : e ∈ incomingOf i w classes via) (hfollows : follows (viaOf w classes via) e = true)
    (hseen : e.sourceQualified ∉ w.seen) {caller : NodeRow}
    (hcaller : callerOf i qn e = some caller)
    (hname : caller.qualifiedName = test)
    (htest : isTestNode caller (relative i.root caller.input.filePath) = true) :
    ∃ r, (visitCallers i qn o w classes).met.lookup test = some r ∧
      r.meeting ≤ nearness (w.depth + 1) via := by
  have hpassed : e.sourceQualified ∈ passed (viaOf w classes via) (incomingOf i w classes via) :=
    List.mem_map_of_mem (List.mem_filter.mpr ⟨he, hfollows⟩)
  obtain ⟨a, ha, hsource⟩ := exists_mem_arrivals hpassed hseen hcaller
  have hhop : a ∈ hopArrivals i qn w classes := mem_hopArrivals.mpr ⟨via, hvia, ha⟩
  have hsame : caller = a.caller := by
    have hedge : callerOf i qn a.edge = callerOf i qn e := by
      unfold callerOf
      rw [show a.edge.sourceQualified = e.sourceQualified from hsource]
    rw [callerOf_of_mem_hopArrivals hhop, hcaller] at hedge
    exact (Option.some.inj hedge).symm
  subst hsame
  have hmem : a.entry w ∈ ((orderedArrivals i qn o w classes).filter
      fun a => a.atTest i && a.name = test).map fun a => a.entry w := by
    refine List.mem_map_of_mem (List.mem_filter.mpr ⟨mem_orderedArrivals.mpr hhop, ?_⟩)
    rw [Bool.and_eq_true, decide_eq_true_eq]
    exact ⟨htest, hname⟩
  rw [(visitCallers_valued o hw hu hc).met]
  obtain ⟨r, hr, hle⟩ :=
    exists_foldl_keepLess ReachingTest.meeting (w.met.lookup test) hmem
  refine ⟨r, hr, hle.trans (le_of_eq ?_)⟩
  rw [Arrival.entry, (mem_arrivals ha).1]
  rfl

theorem meeting_le_of_climb {o : HashOrders} {limit left : Nat} {answer : Found} {v : Walk}
    {test : String} {r r' : ReachingTest} (hw : Honest i.store w.depth w.met)
    (h : walkFrom i qn o limit (left + 1) w = some answer)
    (hends : ends limit (meetDirect i qn w) = false)
    (hclimb : climb i qn o (meetDirect i qn w) = some v) (hr' : v.met.lookup test = some r')
    (hr : r ∈ answer.1) (htest : r.test = test) : r.meeting ≤ r'.meeting := by
  have hv := (onward_climb (honest_meetDirect _ hw) hclimb).honest
  rw [walkFrom] at h
  cases hhop : hop i qn o limit w with
  | none =>
      rw [hhop] at h
      cases h
  | some step =>
      rw [hhop] at h
      rw [hop, hends, if_neg Bool.false_ne_true, hclimb, Option.map_some, Option.some.injEq] at hhop
      split at hhop
      · subst hhop
        obtain rfl : found v = answer := Option.some.inj h
        exact (Nearer.refl _).le_of_mem_found hv hr' hr htest
      · subst hhop
        refine meeting_le_of_walkFrom (w := advance v) ?_ h hr' hr htest
        rw [advance, (onward_climb (honest_meetDirect _ hw) hclimb).rest.1]
        exact hv

theorem meeting_le_of_direct {o : HashOrders} {limit left : Nat} {answer : Found}
    {test : String} {r r' : ReachingTest} (hw : Honest i.store w.depth w.met)
    (h : walkFrom i qn o limit (left + 1) w = some answer)
    (hr' : (meetDirect i qn w).met.lookup test = some r')
    (hr : r ∈ answer.1) (htest : r.test = test) : r.meeting ≤ r'.meeting := by
  have hdirect := honest_meetDirect qn hw
  cases hends : ends limit (meetDirect i qn w) with
  | true =>
      rw [walkFrom, hop, hends, if_pos rfl] at h
      obtain rfl : found (meetDirect i qn w) = answer := Option.some.inj h
      exact (Nearer.refl _).le_of_mem_found hdirect hr' hr htest
  | false =>
      cases hclimb : climb i qn o (meetDirect i qn w) with
      | none =>
          rw [walkFrom, hop, hends, if_neg Bool.false_ne_true, hclimb] at h
          cases h
      | some v =>
          obtain ⟨r'', hr'', hle⟩ := (onward_climb hdirect hclimb).nearer test r' hr'
          exact (meeting_le_of_climb hw h hends hclimb hr'' hr htest).trans hle

theorem meeting_le_of_metThrough {o : HashOrders} {limit left hops : Nat} {answer : Found}
    {via test : String} (hw : Honest i.store w.depth w.met)
    (h : walkFrom i qn o limit (left + 1) w = some answer) (hagree : Agreeing i qn limit w)
    (hmet : MetThrough i qn limit w test hops via) {r : ReachingTest} (hr : r ∈ answer.1)
    (htest : r.test = test) : r.meeting ≤ nearness hops via := by
  rcases hmet with ⟨hhops, hvia, row, hrow, hbuilt, hname⟩ |
    ⟨hends, rfl, c, classes, hclasses, hvia, e, he, hfollows, hseen, caller, hcaller, hname, hat⟩
  · obtain ⟨r', hr', hle⟩ := exists_le_of_direct qn hw hhops hvia hrow hbuilt hname
    exact (meeting_le_of_direct hw h hr' hr htest).trans hle
  · obtain ⟨hu, hcon⟩ := (hagree hends).2 (c, classes) hclasses
    have hdepth : c.depth = w.depth := (met_withClasses hclasses).1.trans (by rw [meetDirect_eq])
    have hc : Honest i.store c.depth c.met := by
      rw [hdepth, (met_withClasses hclasses).2]
      exact honest_meetDirect _ hw
    have hcseen : c.seen = w.seen := by
      rw [(withClasses_classed hclasses).rest, meetDirect_eq]
    obtain ⟨r', hr', hle⟩ := exists_le_of_caller o hc hu hcon hvia he hfollows
      (by rwa [hcseen]) hcaller hname hat
    rw [hdepth] at hle
    refine (meeting_le_of_climb hw h hends ?_ hr' hr htest).trans hle
    rw [climb, hclasses]
    rfl

theorem meeting_le_of_mem_states {o : HashOrders} {limit left hops : Nat} {answer : Found}
    {via test : String} {u : Walk} (hw : Honest i.store w.depth w.met)
    (h : walkFrom i qn o limit left w = some answer)
    (hagree : ∀ u ∈ statesFrom i qn o limit left w, Agreeing i qn limit u)
    (hu : u ∈ statesFrom i qn o limit left w) (hmet : MetThrough i qn limit u test hops via)
    {r : ReachingTest} (hr : r ∈ answer.1) (htest : r.test = test) :
    r.meeting ≤ nearness hops via := by
  induction left generalizing w with
  | zero => cases hu
  | succ left ih =>
      rw [statesFrom] at hagree hu
      obtain ⟨hhere, hlater⟩ := List.forall_mem_cons.mp hagree
      rcases List.mem_cons.mp hu with rfl | hu
      · exact meeting_le_of_metThrough hw h hhere hmet hr htest
      · rw [walkFrom] at h
        cases hhop : hop i qn o limit w with
        | none =>
            rw [hhop] at hu
            cases hu
        | some step =>
            rw [hhop] at hu hlater h
            cases step with
            | inl answer => cases hu
            | inr w' => exact ih (honest_of_hop hw hhop) h hlater hu

theorem honest_start (qn : String) (collect : Nat) :
    Honest i.store (start qn collect).depth (start qn collect).met := by
  intro q r hr
  cases hr

/-- Every order gives one answer, and it has every test at the fewest hops at which the walk
meets it and through the first node by name of those. -/
def OrderFree (i : Inputs) (qn : String) (collect search : Nat) : Prop :=
  ∀ o, (∀ o', walkTests i qn o' collect search = walkTests i qn o collect search) ∧
    ∀ answer, walkTests i qn o collect search = some answer → ∀ r ∈ answer.1,
      ∀ w ∈ statesFrom i qn o search (search + 1) (start qn collect), ∀ hops via,
        MetThrough i qn search w r.test hops via → r.meeting ≤ nearness hops via

/-- In a run whose hops all agree, whatever its order, the order does not show. -/
theorem orderFree_of_agreeing (i : Inputs) (qn : String) (collect search : Nat) (o : HashOrders)
    (hagree : ∀ w ∈ statesFrom i qn o search (search + 1) (start qn collect),
      Agreeing i qn search w) : OrderFree i qn collect search := by
  have hstart := honest_start (i := i) qn collect
  have hall : ∀ o', walkTests i qn o collect search = walkTests i qn o' collect search ∧
      ∀ u ∈ statesFrom i qn o' search (search + 1) (start qn collect), Agreeing i qn search u :=
    fun o' => (Same.refl _).walkFrom o o' hstart hstart hagree
  intro o'
  refine ⟨fun o'' => (hall o'').1.symm.trans (hall o').1,
    fun answer h r hr w hw hops via hmet => ?_⟩
  exact meeting_le_of_mem_states hstart h (hall o').2 hw hmet hr rfl

end Orders

/-! ### A test of two callers -/

def rowOrder : HashOrders where
  order _ l := l
  perm _ l := .refl l

def reverseOrder : HashOrders where
  order _ l := l.reverse
  perm _ l := l.reverse_perm

def pythonNode (id : Nat) (kind file name : String) : NodeRow where
  id := id
  qualifiedName := file ++ "::" ++ name
  input := { kind := kind, name := name, filePath := file, language := "python" }
  fileHash := ""
  mtimeNs := 0

def callEdge (id : Nat) (source target : String) : GraphEdge where
  id := id
  kind := "CALLS"
  sourceQualified := source
  targetQualified := target
  filePath := "app.py"
  line := 1
  extra := .null
  confidence := 1.0
  confidenceTier := .extracted

def parserNodes : NodeTable where
  rows :=
    [pythonNode 1 "Function" "app.py" "parse", pythonNode 2 "Function" "app.py" "load",
      pythonNode 3 "Function" "app.py" "read", pythonNode 4 "Test" "tests/test_app.py" "test_all",
      pythonNode 5 "Test" "tests/test_app.py" "test_add"]
  seq := 5
  ids_nodup := by decide
  names_nodup := by decide
  ids_le := by decide

def parserGraph (edges : List GraphEdge) (h : (edges.map GraphEdge.id).Nodup) : Inputs where
  store :=
    { keys := .rootless
      nodes := parserNodes
      edges := edges
      scanned := parserNodes.rows
      edge_ids_nodup := h
      scanned_perm := List.Perm.refl _ }
  root := "/repo"
  files _ := none
  root_absolute := by decide

/-- `test_all` calls one caller of `parse`. -/
def oneCaller : Inputs :=
  parserGraph
    [callEdge 1 "app.py::load" "app.py::parse", callEdge 2 "app.py::read" "app.py::parse",
      callEdge 3 "tests/test_app.py::test_all" "app.py::load"] (by decide)

theorem orderFree_oneCaller : OrderFree oneCaller "app.py::parse" 4 8 :=
  orderFree_of_agreeing oneCaller "app.py::parse" 4 8 rowOrder (by decide +kernel)

/-- `test_all` calls both. -/
def twoCallers : Inputs :=
  parserGraph
    [callEdge 1 "app.py::load" "app.py::parse", callEdge 2 "app.py::read" "app.py::parse",
      callEdge 3 "tests/test_app.py::test_all" "app.py::load",
      callEdge 4 "tests/test_app.py::test_all" "app.py::read"] (by decide)

/-- The order of the map decides through which caller the test is reported. -/
theorem not_orderFree_twoCallers : ¬OrderFree twoCallers "app.py::parse" 4 8 := by
  intro h
  have hvias : ∀ o, (walkTests twoCallers "app.py::parse" o 4 8).map
      (fun answer => answer.1.map ReachingTest.via) =
        (walkTests twoCallers "app.py::parse" rowOrder 4 8).map
          (fun answer => answer.1.map ReachingTest.via) :=
    fun o => congrArg _ ((h rowOrder).1 o)
  have hrow : (walkTests twoCallers "app.py::parse" rowOrder 4 8).map
      (fun answer => answer.1.map ReachingTest.via) = some ["app.py::load"] := by decide +kernel
  have hreverse : (walkTests twoCallers "app.py::parse" reverseOrder 4 8).map
      (fun answer => answer.1.map ReachingTest.via) = some ["app.py::read"] := by decide +kernel
  rw [hvias, hrow] at hreverse
  exact absurd hreverse (by decide)

end TestWalk

end Dagayn
