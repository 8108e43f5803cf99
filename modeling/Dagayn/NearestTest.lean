import Dagayn.TestWalkOrders

/-!
# The nearest test and the tests that reach

`nearest_test` ends its walk with the first tests it meets, `tests_reaching` meets all tests
up to a limit; what a review says and what a query says rests on the first test of either. The
shorter walk ends behind the callers of a hop, in front of the direct tests of the same hop,
which the longer one sorts among them: `nearest_agrees_iff` says when that does not show.
-/

namespace Dagayn

namespace TestWalk

open Bridges Coverage

variable {i : Inputs} {qn : String} {w w' u u' : Walk}

/-! ## The first of the tests -/

def firstOf (answer : Found) : Option (Nat × String) :=
  answer.1.head?.map fun test => (test.hops, test.test)

/-- The first test, where it is within the limit. -/
def firstWithin (limit : Nat) (answer : Found) : Option (Nat × String) :=
  (answer.1.head?.filter (·.hops ≤ limit)).map fun test => (test.hops, test.test)

def LeastIn (met : Dict String ReachingTest) (r : ReachingTest) : Prop :=
  (∃ q, met.lookup q = some r) ∧ ∀ q b, met.lookup q = some b → r.place ≤ b.place

theorem leastIn_of_head? {r : ReachingTest} (h : (found u).1.head? = some r) :
    LeastIn u.met r := by
  obtain ⟨hmem, hle⟩ := le_of_head?_sortBy h
  exact ⟨Dict.mem_values.mp hmem, fun q b hb => hle b (Dict.mem_values.mpr ⟨q, hb⟩)⟩

theorem head?_found_eq_none : (found u).1.head? = none ↔ ∀ q, u.met.lookup q = none := by
  rw [List.head?_eq_none_iff, ← Dict.isEmpty_entries_iff, List.isEmpty_iff]
  have hlength := (sortBy_perm ReachingTest.place (Dict.values u.met)).length_eq
  rw [Dict.values, List.length_map] at hlength
  rw [← List.length_eq_zero_iff, ← List.length_eq_zero_iff]
  exact ⟨fun h => hlength.symm.trans h, fun h => hlength.trans h⟩

theorem exists_head?_found {q : String} {r : ReachingTest} (h : u.met.lookup q = some r) :
    ∃ first, (found u).1.head? = some first ∧ LeastIn u.met first := by
  cases hhead : (found u).1.head? with
  | none =>
      rw [head?_found_eq_none.mp hhead] at h
      cases h
  | some first => exact ⟨first, rfl, leastIn_of_head? hhead⟩

theorem LeastIn.place_eq {met : Dict String ReachingTest} {r r' : ReachingTest}
    (h : LeastIn met r) (h' : LeastIn met r') : r.place = r'.place := by
  obtain ⟨⟨q, hq⟩, hle⟩ := h
  obtain ⟨⟨q', hq'⟩, hle'⟩ := h'
  exact le_antisymm (hle q' r' hq') (hle' q r hq)

theorem said_eq_of_place {r r' : ReachingTest} (h : r.place = r'.place) :
    (r.hops, r.test) = (r'.hops, r'.test) := by
  obtain ⟨hhops, hrest⟩ := Prod.mk.inj (toLex.injective h)
  rw [hhops, (Prod.mk.inj (toLex.injective hrest)).2]

theorem firstOf_congr (h : ∀ q, (u.met.lookup q).map ReachingTest.place =
    (u'.met.lookup q).map ReachingTest.place) : firstOf (found u) = firstOf (found u') := by
  have hplace : ∀ {v v' : Walk} {q : String} {r : ReachingTest},
      (∀ q, (v.met.lookup q).map ReachingTest.place = (v'.met.lookup q).map ReachingTest.place) →
        v.met.lookup q = some r → ∃ r', v'.met.lookup q = some r' ∧ r'.place = r.place := by
    intro v v' q r hvv hr
    have hsome := hvv q
    rw [hr] at hsome
    obtain ⟨r', hr', heq⟩ := Option.map_eq_some_iff.mp hsome.symm
    exact ⟨r', hr', heq⟩
  rw [firstOf, firstOf]
  cases hhead : (found u).1.head? with
  | none =>
      have hnone : (found u').1.head? = none := by
        refine head?_found_eq_none.mpr fun q => ?_
        have hq := h q
        rw [head?_found_eq_none.mp hhead q] at hq
        exact Option.map_eq_none_iff.mp hq.symm
      rw [hnone]
  | some r =>
      obtain ⟨⟨q, hq⟩, hle⟩ := leastIn_of_head? hhead
      obtain ⟨r', hr', heq⟩ := hplace h hq
      obtain ⟨first, hfirst, hleast⟩ := exists_head?_found hr'
      have hleast' : LeastIn u'.met r' := by
        refine ⟨⟨q, hr'⟩, fun q'' b hb => ?_⟩
        obtain ⟨b', hb', hbeq⟩ := hplace (fun q => (h q).symm) hb
        rw [heq, ← hbeq]
        exact hle q'' b' hb'
      rw [hfirst, Option.map_some, Option.map_some,
        said_eq_of_place ((hleast.place_eq hleast').trans heq)]

/-! ## What comes later -/

structure Beyond (hops : Nat) (met met' : Dict String ReachingTest) : Prop where
  kept : ∀ q p, (met.lookup q).map ReachingTest.place = some p →
    (met'.lookup q).map ReachingTest.place = some p
  later : ∀ q r, met'.lookup q = some r →
    (met.lookup q).map ReachingTest.place = some r.place ∨ hops < r.hops

theorem Beyond.refl (hops : Nat) (met : Dict String ReachingTest) : Beyond hops met met where
  kept _ _ h := h
  later q r h := .inl (by rw [h]; rfl)

theorem hops_of_place {r : ReachingTest} {p : Nat ×ₗ Nat ×ₗ String} (h : r.place = p) :
    r.hops = (ofLex p).1 := by
  rw [← h]
  rfl

theorem Beyond.trans {hops hops' : Nat} {met met' met'' : Dict String ReachingTest}
    (h : Beyond hops met met') (h' : Beyond hops' met' met'') (hle : hops ≤ hops') :
    Beyond hops met met'' where
  kept q p hp := h'.kept q p (h.kept q p hp)
  later q r hr := by
    rcases h'.later q r hr with hsame | hlt
    · obtain ⟨r', hr', heq⟩ := Option.map_eq_some_iff.mp hsame
      rcases h.later q r' hr' with hold | hlt
      · exact .inl (heq ▸ hold)
      · refine .inr ?_
        rwa [hops_of_place heq] at hlt
    · exact .inr (lt_of_le_of_lt hle hlt)

theorem beyond_meetDirect (qn : String) {hops : Nat} (hw : Honest i.store w.depth w.met)
    (hlt : hops < w.depth) :
    Beyond hops w.met (meetDirect i qn w).met := by
  rw [meetDirect_eq]
  refine ⟨fun q p hp => ?_, fun q r hr => ?_⟩
  · show ((List.foldl meet w.met _).lookup q).map _ = _
    rw [place_meetAll hw directMeetings_made, hp]
    rfl
  · have hplace : ((List.foldl meet w.met (directMeetings i qn w)).lookup q).map
        ReachingTest.place = some r.place := congrArg (Option.map ReachingTest.place) hr
    rw [place_meetAll hw directMeetings_made] at hplace
    cases hold : (w.met.lookup q).map ReachingTest.place with
    | some p =>
        rw [hold] at hplace
        exact .inl hplace
    | none =>
        rw [hold, Option.none_or] at hplace
        obtain ⟨n, hn, heq⟩ := Option.map_eq_some_iff.mp hplace
        refine .inr ?_
        have hhops := (directMeetings_made n (List.mem_of_find?_eq_some hn)).2
        rwa [hops_of_place heq.symm, ← hops_of_place rfl, hhops]

theorem beyond_climb {o : HashOrders} {m c : Walk} (hm : Honest i.store m.depth m.met)
    (h : climb i qn o m = some c) : Beyond m.depth m.met c.met := by
  have hon := onward_climb hm h
  have hkept : ∀ q r, m.met.lookup q = some r → c.met.lookup q = some r := by
    intro q r hr
    obtain ⟨r', hr', hle⟩ := hon.nearer q r hr
    have hhops : r'.hops ≤ m.depth := by
      have hrm := (hm q r hr).1
      rcases Prod.Lex.le_iff.mp hle with hlt | ⟨heq, -⟩
      · exact (le_of_lt hlt).trans hrm
      · exact (le_of_eq heq).trans hrm
    rw [hon.fresh q r' hr' hhops] at hr
    exact hr ▸ hr'
  refine ⟨fun q p hp => ?_, fun q r hr => ?_⟩
  · obtain ⟨r, hr, rfl⟩ := Option.map_eq_some_iff.mp hp
    rw [hkept q r hr]
    rfl
  · rcases Nat.lt_or_ge m.depth r.hops with hlt | hle
    · exact .inr hlt
    · rw [hon.fresh q r hr hle]
      exact .inl rfl

theorem beyond_walkFrom {o : HashOrders} {limit left hops : Nat} {answer : Found}
    (hw : Honest i.store w.depth w.met) (h : walkFrom i qn o limit left w = some answer)
    (hlt : hops < w.depth) : ∃ u, answer = found u ∧ Beyond hops w.met u.met := by
  induction left generalizing w with
  | zero => exact ⟨w, (Option.some.inj h).symm, .refl _ _⟩
  | succ left ih =>
      have hdirect := beyond_meetDirect qn hw hlt
      have hhonest := honest_meetDirect qn hw
      have hle : hops ≤ (meetDirect i qn w).depth := by
        rw [meetDirect_eq]
        exact hlt.le
      rw [walkFrom] at h
      cases hhop : hop i qn o limit w with
      | none =>
          rw [hhop] at h
          cases h
      | some step =>
          rw [hhop] at h
          cases step with
          | inl found =>
              obtain rfl : found = answer := Option.some.inj h
              rcases hop_eq_inl hhop with rfl | ⟨-, c, hc, rfl⟩
              · exact ⟨_, rfl, hdirect⟩
              · exact ⟨c, rfl, hdirect.trans (beyond_climb hhonest hc) hle⟩
          | inr w' =>
              have hhonest' := honest_of_hop hw hhop
              obtain ⟨-, c, hc, rfl⟩ := hop_eq_inr hhop
              have hdepth : hops < (advance c).depth := by
                rw [advance, (onward_climb hhonest hc).rest.1]
                exact Nat.lt_succ_of_le hle
              obtain ⟨u, hu, hbeyond⟩ := ih hhonest' h hdepth
              exact ⟨u, hu, (hdirect.trans (beyond_climb hhonest hc) hle).trans hbeyond le_rfl⟩

theorem beyond_direct_walkFrom {o : HashOrders} {limit left : Nat} {answer : Found}
    (hw : Honest i.store w.depth w.met)
    (h : walkFrom i qn o limit (left + 1) w = some answer) :
    ∃ u, answer = found u ∧ Beyond w.depth (meetDirect i qn w).met u.met := by
  have hhonest := honest_meetDirect qn hw
  have hdepth : (meetDirect i qn w).depth = w.depth := by rw [meetDirect_eq]
  rw [walkFrom] at h
  cases hhop : hop i qn o limit w with
  | none =>
      rw [hhop] at h
      cases h
  | some step =>
      rw [hhop] at h
      cases step with
      | inl found =>
          obtain rfl : found = answer := Option.some.inj h
          rcases hop_eq_inl hhop with rfl | ⟨-, c, hc, rfl⟩
          · exact ⟨_, rfl, .refl _ _⟩
          · exact ⟨c, rfl, hdepth ▸ beyond_climb hhonest hc⟩
      | inr w' =>
          have hhonest' := honest_of_hop hw hhop
          obtain ⟨-, c, hc, rfl⟩ := hop_eq_inr hhop
          have hlt : w.depth < (advance c).depth := by
            rw [advance, (onward_climb hhonest hc).rest.1, hdepth]
            exact Nat.lt_succ_self _
          obtain ⟨u, hu, hbeyond⟩ := beyond_walkFrom hhonest' h hlt
          exact ⟨u, hu, (hdepth ▸ beyond_climb hhonest hc).trans hbeyond le_rfl⟩

theorem hops_le_of_place_le {r r' : ReachingTest} (h : r.place ≤ r'.place) : r.hops ≤ r'.hops := by
  rcases Prod.Lex.le_iff.mp h with hlt | ⟨heq, -⟩
  · exact le_of_lt hlt
  · exact le_of_eq heq

theorem Beyond.firstOf_eq {hops : Nat} (h : Beyond hops u.met u'.met)
    (hu : Honest i.store hops u.met) {q : String} {r : ReachingTest}
    (hr : u.met.lookup q = some r) : firstOf (found u') = firstOf (found u) := by
  obtain ⟨first, hfirst, ⟨k, hk⟩, hle⟩ := exists_head?_found hr
  obtain ⟨r', hr', hplace⟩ := Option.map_eq_some_iff.mp (h.kept k first.place (by rw [hk]; rfl))
  obtain ⟨first', hfirst', ⟨k', hk'⟩, hle'⟩ := exists_head?_found hr'
  have hle'' : first'.place ≤ first.place := hplace ▸ hle' k r' hr'
  have hsame : first'.place = first.place := by
    rcases h.later k' first' hk' with hold | hlt
    · obtain ⟨b, hb, hbplace⟩ := Option.map_eq_some_iff.mp hold
      exact le_antisymm hle'' (hbplace ▸ hle k' b hb)
    · have hfar := (hops_le_of_place_le hle'').trans (hu k first hk).1
      exact absurd hlt (not_lt_of_ge hfar)
  rw [firstOf, firstOf, hfirst, hfirst', Option.map_some, Option.map_some, said_eq_of_place hsame]

theorem firstOf_meetDirect_iff (hw : Honest i.store w.depth w.met) {q : String} {r : ReachingTest}
    (hr : w.met.lookup q = some r) :
    firstOf (found (meetDirect i qn w)) = firstOf (found w) ↔
      ∀ n ∈ directMeetings i qn w, ∃ r ∈ Dict.values w.met, r.place ≤ n.place := by
  have hplaces : ∀ q, ((meetDirect i qn w).met.lookup q).map ReachingTest.place =
      ((w.met.lookup q).map ReachingTest.place).or
        (((directMeetings i qn w).find? (·.test = q)).map ReachingTest.place) := by
    intro q
    rw [meetDirect_eq]
    exact place_meetAll hw directMeetings_made q
  have hhonest := honest_meetDirect qn hw
  obtain ⟨first, hfirst, hleast⟩ := exists_head?_found hr
  obtain ⟨⟨k, hk⟩, hle⟩ := hleast
  have hkept : ((meetDirect i qn w).met.lookup k).map ReachingTest.place = some first.place := by
    rw [hplaces, hk]
    rfl
  obtain ⟨r', hr', hplace⟩ := Option.map_eq_some_iff.mp hkept
  obtain ⟨first', hfirst', ⟨k', hk'⟩, hle'⟩ := exists_head?_found hr'
  rw [firstOf, firstOf, hfirst, hfirst', Option.map_some, Option.map_some, Option.some.injEq]
  constructor
  · intro hsaid n hn
    refine ⟨first, Dict.mem_values.mpr ⟨k, hk⟩, ?_⟩
    obtain ⟨hmade, hhops⟩ := directMeetings_made n hn
    -- The first behind the direct tests has the place of the first in front of them.
    have hsame : first'.place = first.place := by
      obtain ⟨-, htest, hmade'⟩ := hhonest k' first' hk'
      exact hmade'.place_eq (hw k first hk).2.2 (Prod.mk.inj hsaid).2 (Prod.mk.inj hsaid).1
    have hsome : ((meetDirect i qn w).met.lookup n.test).isSome := by
      have hfind : ((directMeetings i qn w).find? (·.test = n.test)).isSome :=
        List.find?_isSome.mpr ⟨n, hn, by simp⟩
      have hor := hplaces n.test
      rw [← Option.isSome_map (f := ReachingTest.place), hor, Option.isSome_or,
        Option.isSome_map, Option.isSome_map, hfind, Bool.or_true]
    obtain ⟨b, hb⟩ := Option.isSome_iff_exists.mp hsome
    have hbplace : b.place ≤ n.place := by
      obtain ⟨hbhops, hbtest, hbmade⟩ := hhonest n.test b hb
      rcases Nat.lt_or_eq_of_le (hhops.symm ▸ hbhops : b.hops ≤ n.hops) with hlt | heq
      · exact (Prod.Lex.lt_iff.mpr (.inl hlt)).le
      · exact le_of_eq (hbmade.place_eq hmade hbtest heq)
    exact (hsame ▸ hle' n.test b hb).trans hbplace
  · intro hall
    refine said_eq_of_place (le_antisymm (hplace ▸ hle' k r' hr') ?_)
    have hor := hplaces k'
    rw [hk', Option.map_some] at hor
    cases hold : w.met.lookup k' with
    | some b =>
        rw [hold] at hor
        exact Option.some.inj hor ▸ hle k' b hold
    | none =>
        rw [hold] at hor
        obtain ⟨n, hn, hnplace⟩ := Option.map_eq_some_iff.mp hor.symm
        obtain ⟨b, hb, hbn⟩ := hall n (List.mem_of_find?_eq_some hn)
        obtain ⟨k'', hk''⟩ := Dict.mem_values.mp hb
        exact hnplace ▸ (hle k'' b hk'').trans hbn

/-! ## Two walks -/

/-- The hop is one that the walk to the nearest test climbs, and the arrivals from one source
carry the same on. -/
def FlagsAgree (i : Inputs) (qn : String) (limit : Nat) (w : Walk) : Prop :=
  w.depth < limit → (meetDirect i qn w).met.entries.isEmpty = true →
    ∀ c ∈ withClasses i (meetDirect i qn w), Unanimous i qn c.1 c.2

instance {limit : Nat} : Decidable (FlagsAgree i qn limit w) := by
  unfold FlagsAgree
  infer_instance

/-- Where all tests so far were met as callers at this hop, no direct test of the hop comes in
front of them. -/
def DirectBehind (i : Inputs) (qn : String) (w : Walk) : Prop :=
  Dict.values w.met ≠ [] → (∀ r ∈ Dict.values w.met, r.hops = w.depth) →
    ∀ n ∈ directMeetings i qn w, ∃ r ∈ Dict.values w.met, r.place ≤ n.place

instance : Decidable (DirectBehind i qn w) := by
  unfold DirectBehind
  infer_instance

def Fresh (w : Walk) : Prop := w.met.entries.isEmpty = true

theorem directBehind_of_earlier {q : String} {r : ReachingTest} (hr : w.met.lookup q = some r)
    (hlt : r.hops < w.depth) : DirectBehind i qn w := by
  intro _ hall
  have hhops := hall r (Dict.mem_values.mpr ⟨q, hr⟩)
  omega

theorem directBehind_of_fresh (h : Fresh w) : DirectBehind i qn w := by
  intro hne
  refine absurd ?_ hne
  rw [Dict.values, List.isEmpty_iff.mp h]
  rfl

theorem directBehind_states {o : HashOrders} {limit left : Nat} {q : String} {r : ReachingTest}
    (hw : Honest i.store w.depth w.met) (hr : w.met.lookup q = some r) (hlt : r.hops < w.depth) :
    ∀ u ∈ statesFrom i qn o limit left w, DirectBehind i qn u := by
  induction left generalizing w r with
  | zero => exact fun u hu => by cases hu
  | succ left ih =>
      rw [statesFrom]
      refine List.forall_mem_cons.mpr ⟨directBehind_of_earlier hr hlt, ?_⟩
      cases hhop : hop i qn o limit w with
      | none => exact fun u hu => by cases hu
      | some step =>
          cases step with
          | inl answer => exact fun u hu => by cases hu
          | inr w' =>
              have hhonest := honest_of_hop hw hhop
              have hdirect := honest_meetDirect qn hw
              obtain ⟨-, c, hc, rfl⟩ := hop_eq_inr hhop
              have hbeyond := (beyond_meetDirect qn hw hlt).trans
                (beyond_climb hdirect hc) (by rw [meetDirect_eq]; exact hlt.le)
              obtain ⟨r', hr', hplace⟩ :=
                Option.map_eq_some_iff.mp (hbeyond.kept q r.place (by rw [hr]; rfl))
              refine ih hhonest (r := r') hr' ?_
              have hdepth : (advance c).depth = w.depth + 1 := by
                rw [advance, (onward_climb hdirect hc).rest.1, meetDirect_eq]
              rw [hdepth, hops_of_place hplace, ← hops_of_place rfl]
              exact Nat.lt_succ_of_lt hlt

/-! ## One pass of both -/

def endsBehind (c : Walk) : Bool :=
  (decide (c.collect < c.depth + 1) && !c.met.entries.isEmpty) || c.next.isEmpty

theorem walkFrom_of_ends {o : HashOrders} {limit : Nat} (left : Nat)
    (h : ends limit (meetDirect i qn w) = true) :
    walkFrom i qn o limit (left + 1) w = some (found (meetDirect i qn w)) ∧
      statesFrom i qn o limit (left + 1) w = [w] := by
  rw [walkFrom, statesFrom, hop, h, if_pos rfl]
  exact ⟨rfl, rfl⟩

theorem walkFrom_of_climb {o : HashOrders} {c : Walk} (limit left : Nat)
    (h : ends limit (meetDirect i qn w) = false)
    (hc : climb i qn o (meetDirect i qn w) = some c) :
    walkFrom i qn o limit (left + 1) w =
        (if endsBehind c then some (found c) else walkFrom i qn o limit left (advance c)) ∧
      statesFrom i qn o limit (left + 1) w =
        w :: (if endsBehind c then [] else statesFrom i qn o limit left (advance c)) := by
  have hstep : hop i qn o limit w =
      some (if endsBehind c then .inl (found c) else .inr (advance c)) := by
    rw [hop, h, if_neg Bool.false_ne_true, hc, Option.map_some]
    rfl
  rw [walkFrom, statesFrom, hstep]
  cases endsBehind c <;> exact ⟨rfl, rfl⟩

theorem fresh_states {o : HashOrders} {limit left : Nat} (hfresh : Fresh w)
    (hcollect : w.collect ≤ w.depth) (hw : Honest i.store w.depth w.met) :
    ∀ u ∈ statesFrom i qn o limit left w, Fresh u := by
  induction left generalizing w with
  | zero => exact fun u hu => by cases hu
  | succ left ih =>
      have hdirect := honest_meetDirect qn hw
      cases hends : ends limit (meetDirect i qn w) with
      | true =>
          rw [(walkFrom_of_ends left hends).2]
          exact List.forall_mem_singleton.mpr hfresh
      | false =>
          cases hc : climb i qn o (meetDirect i qn w) with
          | none =>
              rw [statesFrom, hop, hends, if_neg Bool.false_ne_true, hc]
              exact List.forall_mem_singleton.mpr hfresh
          | some c =>
              rw [(walkFrom_of_climb _ left hends hc).2]
              refine List.forall_mem_cons.mpr ⟨hfresh, ?_⟩
              obtain ⟨hdepth, hkept, -⟩ := (onward_climb hdirect hc).rest
              rw [meetDirect_eq] at hdepth hkept
              have hlt : c.collect < c.depth + 1 := by
                rw [hdepth, hkept]
                exact Nat.lt_succ_of_le hcollect
              cases hbehind : endsBehind c with
              | true => exact fun u hu => by cases hu
              | false =>
                  rw [endsBehind, decide_eq_true hlt, Bool.true_and, Bool.or_eq_false_iff,
                    Bool.not_eq_false'] at hbehind
                  refine ih hbehind.1 ?_ ?_
                  · rw [advance]
                    split
                    · exact le_rfl
                    · exact hlt.le
                  · rw [advance, hdepth]
                    exact (onward_climb hdirect hc).honest

theorem firstWithin_of_firstOf {limit hops : Nat} {test : String} {answer : Found}
    (h : firstOf answer = some (hops, test)) (hle : hops ≤ limit) :
    firstWithin limit answer = some (hops, test) := by
  obtain ⟨r, hr, heq⟩ := Option.map_eq_some_iff.mp h
  have hhops : r.hops ≤ limit := (Prod.mk.inj heq).1 ▸ hle
  rw [firstWithin, hr, Option.filter_some, if_pos (decide_eq_true hhops)]
  exact congrArg some heq

theorem exists_lookup_of_not_fresh (h : ¬Fresh w) : ∃ q r, w.met.lookup q = some r := by
  rw [Fresh, Dict.isEmpty_entries_iff, not_forall] at h
  obtain ⟨q, hq⟩ := h
  obtain ⟨r, hr⟩ := Option.ne_none_iff_exists'.mp hq
  exact ⟨q, r, hr⟩

theorem exists_firstOf {hops : Nat} (hw : Honest i.store hops w.met) (h : ¬Fresh w) :
    ∃ k test, firstOf (found w) = some (k, test) ∧ k ≤ hops := by
  obtain ⟨q, r, hr⟩ := exists_lookup_of_not_fresh h
  obtain ⟨first, hfirst, ⟨k, hk⟩, -⟩ := exists_head?_found hr
  refine ⟨first.hops, first.test, ?_, (hw k first hk).1⟩
  rw [firstOf, hfirst]
  rfl

theorem firstOf_of_fresh (h : Fresh w) : firstOf (found w) = none := by
  rw [firstOf, head?_found_eq_none.mpr (Dict.isEmpty_entries_iff.mp h)]
  rfl

theorem directBehind_states_iff {o : HashOrders} {limit left : Nat} {q : String}
    {r : ReachingTest} (hw : Honest i.store w.depth w.met)
    (hr : (meetDirect i qn w).met.lookup q = some r) :
    (∀ u ∈ statesFrom i qn o limit (left + 1) w, DirectBehind i qn u) ↔ DirectBehind i qn w := by
  have hdirect := honest_meetDirect qn hw
  rw [statesFrom, List.forall_mem_cons]
  refine and_iff_left ?_
  cases hhop : hop i qn o limit w with
  | none => exact fun u hu => by cases hu
  | some step =>
      cases step with
      | inl answer => exact fun u hu => by cases hu
      | inr w' =>
          have hhonest := honest_of_hop hw hhop
          obtain ⟨-, c, hc, rfl⟩ := hop_eq_inr hhop
          obtain ⟨r', hr', hplace⟩ := Option.map_eq_some_iff.mp
            ((beyond_climb hdirect hc).kept q r.place (by rw [hr]; rfl))
          refine directBehind_states hhonest (q := q) (r := r') hr' ?_
          rw [advance, (onward_climb hdirect hc).rest.1, hops_of_place hplace, ← hops_of_place rfl]
          exact Nat.lt_succ_of_le (hdirect q r hr).1

/-- Where direct tests are the first that are met, both walks say the first of them. -/
theorem nearest_of_direct (o o' : HashOrders) (left' : Nat) {limit search left : Nat}
    {answer : Found}
    (h : Alike w w') (hw : Honest i.store w.depth w.met) (hw' : Honest i.store w'.depth w'.met)
    (hfresh : Fresh w) (hzero : w'.collect = 0) (hle : w.depth ≤ limit)
    (hanswer : walkFrom i qn o search (left + 1) w = some answer)
    (hmet : ¬Fresh (meetDirect i qn w)) :
    (walkFrom i qn o' limit (left' + 1) w').map firstOf = some (firstWithin limit answer) ∧
      ∀ u ∈ statesFrom i qn o search (left + 1) w, DirectBehind i qn u := by
  have hm := h.meetDirect qn hw hw'
  have hdirect := honest_meetDirect qn hw
  have hdepth : (meetDirect i qn w).depth = w.depth := by rw [meetDirect_eq]
  have hends' : ends limit (meetDirect i qn w') = true := by
    have hmet' : (meetDirect i qn w').met.entries.isEmpty = false := by
      rw [← hm.isEmpty_met]
      exact Bool.eq_false_iff.mpr hmet
    have hcollect : (meetDirect i qn w').collect = 0 := by
      rw [meetDirect_eq]
      exact hzero
    rw [ends, hmet', hcollect]
    simp
  obtain ⟨k, test, hfirst, hk⟩ := exists_firstOf hdirect hmet
  obtain ⟨q, r, hr⟩ := exists_lookup_of_not_fresh hmet
  constructor
  · obtain ⟨u, rfl, hbeyond⟩ := beyond_direct_walkFrom hw hanswer
    have hsame : firstOf (found u) = some (k, test) := (hbeyond.firstOf_eq hdirect hr).trans hfirst
    rw [(walkFrom_of_ends left' hends').1, Option.map_some, ← firstOf_congr hm.places, hfirst,
      firstWithin_of_firstOf hsame (hk.trans hle)]
  · exact (directBehind_states_iff hw hr).mpr (directBehind_of_fresh hfresh)

theorem nearest_at_limit (o o' : HashOrders) (left' : Nat) {limit search left : Nat}
    {answer : Found}
    (h : Alike w w') (hw : Honest i.store w.depth w.met) (hw' : Honest i.store w'.depth w'.met)
    (hfresh : Fresh w) (hle : w.depth = limit) (hcollect : w.collect ≤ w.depth)
    (hanswer : walkFrom i qn o search (left + 1) w = some answer)
    (hmet : Fresh (meetDirect i qn w)) :
    (walkFrom i qn o' limit (left' + 1) w').map firstOf = some (firstWithin limit answer) ∧
      ∀ u ∈ statesFrom i qn o search (left + 1) w, DirectBehind i qn u := by
  have hm := h.meetDirect qn hw hw'
  have hends' : ends limit (meetDirect i qn w') = true := by
    have hdepth : (meetDirect i qn w').depth = limit := by
      rw [meetDirect_eq]
      exact h.depth.symm.trans hle
    rw [ends, hdepth]
    simp
  refine ⟨?_, fun u hu => directBehind_of_fresh (fresh_states hfresh hcollect hw u hu)⟩
  have hmet' : Fresh (meetDirect i qn w') := hm.isEmpty_met.symm.trans hmet
  rw [(walkFrom_of_ends left' hends').1, Option.map_some, firstOf_of_fresh hmet']
  obtain ⟨u, rfl, hbeyond⟩ := beyond_direct_walkFrom hw hanswer
  rw [firstWithin]
  cases hhead : (found u).1.head? with
  | none => rfl
  | some r =>
      obtain ⟨⟨q, hq⟩, -⟩ := leastIn_of_head? hhead
      have hfar : limit < r.hops := by
        rcases hbeyond.later q r hq with hold | hlt
        · rw [Dict.isEmpty_entries_iff.mp hmet q] at hold
          cases hold
        · exact hle ▸ hlt
      rw [Option.filter_some, if_neg (by simpa using hfar)]
      rfl

/-- Where callers are the first tests that are met, the walks agree unless a direct test of
the same hop comes in front of them. -/
theorem nearest_of_callers {o : HashOrders} {limit search left : Nat} {answer : Found}
    {c : Walk} (hc : Honest i.store c.depth c.met) (hmet : ¬Fresh c)
    (hhops : ∀ q r, c.met.lookup q = some r → r.hops = c.depth) (hle : c.depth ≤ limit)
    (hanswer : walkFrom i qn o search (left + 1) c = some answer) :
    firstOf (found c) = firstWithin limit answer ↔
      ∀ u ∈ statesFrom i qn o search (left + 1) c, DirectBehind i qn u := by
  have hdirect := honest_meetDirect qn hc
  obtain ⟨q, r, hr⟩ := exists_lookup_of_not_fresh hmet
  have hkept : ∃ r', (meetDirect i qn c).met.lookup q = some r' := by
    obtain ⟨r', hr', -⟩ := nearer_meetDirect qn hc q r hr
    exact ⟨r', hr'⟩
  obtain ⟨r', hr'⟩ := hkept
  obtain ⟨u, rfl, hbeyond⟩ := beyond_direct_walkFrom hc hanswer
  have hmet' : ¬Fresh (meetDirect i qn c) := by
    intro hempty
    rw [Dict.isEmpty_entries_iff.mp hempty q] at hr'
    cases hr'
  obtain ⟨k, test, hfirst, hk⟩ := exists_firstOf hdirect hmet'
  have hsame : firstOf (found u) = some (k, test) := (hbeyond.firstOf_eq hdirect hr').trans hfirst
  rw [firstWithin_of_firstOf hsame (hk.trans hle), ← hfirst, directBehind_states_iff hc hr',
    eq_comm,
    firstOf_meetDirect_iff hc hr]
  refine ⟨fun hall _ _ => hall, fun hbehind => hbehind ?_ fun b hb => ?_⟩
  · exact List.ne_nil_of_mem (Dict.mem_values.mpr ⟨q, hr⟩)
  · obtain ⟨k', hk'⟩ := Dict.mem_values.mp hb
    exact hhops k' b hk'

/-- What a climb comes to from a walk that has met no test. -/
structure Climbed (i : Inputs) (w c : Walk) : Prop where
  depth : c.depth = w.depth
  collect : c.collect = w.collect
  honest : Honest i.store (w.depth + 1) c.met
  later : ∀ q r, c.met.lookup q = some r → w.depth < r.hops

theorem climbed {o : HashOrders} {c : Walk} (hw : Honest i.store w.depth w.met)
    (hmet : Fresh (meetDirect i qn w)) (hc : climb i qn o (meetDirect i qn w) = some c) :
    Climbed i w c := by
  have hon := onward_climb (honest_meetDirect qn hw) hc
  have hdepth : (meetDirect i qn w).depth = w.depth := by rw [meetDirect_eq]
  refine ⟨hon.rest.1.trans hdepth, hon.rest.2.1.trans (by rw [meetDirect_eq]), ?_,
    fun q r hr => ?_⟩
  · rw [← hdepth]
    exact hon.honest
  · by_contra hle
    have hold := hon.fresh q r hr (by omega)
    rw [Dict.isEmpty_entries_iff.mp hmet q] at hold
    cases hold

theorem Climbed.honest_advance {c : Walk} (h : Climbed i w c) :
    Honest i.store (advance c).depth (advance c).met := by
  rw [advance, h.depth]
  exact h.honest

/-- Where a climb has met callers that are tests, the nearest one is theirs. -/
theorem Climbed.nearest {o : HashOrders} {limit search left : Nat} {answer : Found} {c : Walk}
    (h : Climbed i w c) (hmet : ¬Fresh c) (hle : w.depth < limit) (hleft : 0 < left)
    (hanswer : (if endsBehind c then some (found c) else walkFrom i qn o search left (advance c)) =
      some answer) :
    firstOf (found c) = firstWithin limit answer ↔
      ∀ u ∈ if endsBehind c then [] else statesFrom i qn o search left (advance c),
        DirectBehind i qn u := by
  cases hbehind : endsBehind c with
  | true =>
      rw [hbehind, if_pos rfl] at hanswer
      obtain rfl : found c = answer := Option.some.inj hanswer
      obtain ⟨k, test, hfirst, hk⟩ := exists_firstOf h.honest hmet
      rw [hfirst, firstWithin_of_firstOf hfirst (by omega), if_pos rfl]
      exact iff_of_true rfl fun u hu => by cases hu
  | false =>
      rw [hbehind, if_neg Bool.false_ne_true] at hanswer
      rw [if_neg Bool.false_ne_true]
      obtain ⟨left, rfl⟩ : ∃ k, left = k + 1 := ⟨left - 1, by omega⟩
      have hnext : (advance c).depth = w.depth + 1 := congrArg (· + 1) h.depth
      refine nearest_of_callers h.honest_advance hmet (fun q r hr => ?_) (by omega) hanswer
      have hlater := h.later q r hr
      exact le_antisymm (h.honest_advance q r hr).1 (by omega)

/-- Where a climb ends without a test, there is none within the limit. -/
theorem firstWithin_of_fresh {c : Walk} (limit : Nat) (h : Fresh c) :
    firstWithin limit (found c) = none := by
  rw [firstWithin, head?_found_eq_none.mpr (Dict.isEmpty_entries_iff.mp h)]
  rfl

theorem endsBehind_of_met {c : Walk} (hmet : ¬Fresh c) (hzero : c.collect = 0) :
    endsBehind c = true := by
  have hsome : c.met.entries.isEmpty = false := Bool.eq_false_iff.mpr hmet
  rw [endsBehind, hsome, hzero]
  simp

theorem endsBehind_of_fresh {c c' : Walk} (h : Alike c c') (hmet : Fresh c) :
    endsBehind c' = endsBehind c := by
  have hmet' : c'.met.entries.isEmpty = true := h.isEmpty_met.symm.trans hmet
  rw [endsBehind, endsBehind, show c.met.entries.isEmpty = true from hmet, hmet', h.isEmpty_next]
  simp

theorem nearest_from (o o' : HashOrders) {limit search left left' : Nat} {answer : Found}
    (h : Alike w w') (hw : Honest i.store w.depth w.met) (hw' : Honest i.store w'.depth w'.met)
    (hfresh : Fresh w) (hzero : w'.collect = 0) (hsearch : limit ≤ search)
    (hleft' : w.depth + left' = limit + 1) (hleft : w.depth + left = search + 1)
    (hle : w.depth ≤ limit) (hcollect : w.collect = limit ∨ w.collect ≤ w.depth)
    (hanswer : walkFrom i qn o search left w = some answer)
    (hflags : ∀ u ∈ statesFrom i qn o search left w, FlagsAgree i qn limit u) :
    (walkFrom i qn o' limit left' w').map firstOf = some (firstWithin limit answer) ↔
      ∀ u ∈ statesFrom i qn o search left w, DirectBehind i qn u := by
  induction left' generalizing w w' left with
  | zero => omega
  | succ left' ih =>
      obtain ⟨left, rfl⟩ : ∃ k, left = k + 1 := ⟨left - 1, by omega⟩
      have hm := h.meetDirect qn hw hw'
      have hdirect := honest_meetDirect qn hw
      have hdirect' := honest_meetDirect qn hw'
      have hdepth : (meetDirect i qn w).depth = w.depth := by rw [meetDirect_eq]
      by_cases hmet : Fresh (meetDirect i qn w)
      swap
      · obtain ⟨hsaid, hstates⟩ := nearest_of_direct o o' left' h hw hw' hfresh hzero hle
          hanswer hmet
        exact iff_of_true hsaid hstates
      by_cases hlimit : w.depth = limit
      · have hcollect' : w.collect ≤ w.depth := hcollect.elim (fun heq => by omega) id
        obtain ⟨hsaid, hstates⟩ := nearest_at_limit o o' left' h hw hw' hfresh hlimit
          hcollect' hanswer hmet
        exact iff_of_true hsaid hstates
      -- Both walks climb, and come to states alike.
      have hmet' : Fresh (meetDirect i qn w') := hm.isEmpty_met.symm.trans hmet
      have hends : ends search (meetDirect i qn w) = false := by
        have hmet'' : (meetDirect i qn w).met.entries.isEmpty = true := hmet
        rw [ends, hmet'', hdepth]
        simp
        omega
      have hends' : ends limit (meetDirect i qn w') = false := by
        have hmet'' : (meetDirect i qn w').met.entries.isEmpty = true := hmet'
        rw [ends, hmet'', ← hm.depth, hdepth]
        simpa using hlimit
      have hhere : FlagsAgree i qn limit w :=
        hflags w (by rw [statesFrom]; exact List.mem_cons_self)
      rcases hm.climb o o' hdirect hdirect' (hhere (by omega) hmet) with
        ⟨hnone, -⟩ | ⟨c, c', hc, hc', halike⟩
      · rw [walkFrom, hop, hends, if_neg Bool.false_ne_true, hnone] at hanswer
        cases hanswer
      obtain ⟨hrun, hstates⟩ := walkFrom_of_climb search left hends hc
      obtain ⟨hrun', -⟩ := walkFrom_of_climb limit left' hends' hc'
      have hclimb := climbed hw hmet hc
      have hclimb' := climbed hw' hmet' hc'
      have hzero' : c'.collect = 0 := hclimb'.collect.trans hzero
      rw [hstates] at hflags ⊢
      rw [hrun']
      rw [hrun] at hanswer
      rw [List.forall_mem_cons, and_iff_right (directBehind_of_fresh hfresh)]
      by_cases hcmet : Fresh c
      · rw [endsBehind_of_fresh halike hcmet]
        have hcmet' : Fresh c' := halike.isEmpty_met.symm.trans hcmet
        cases hbehind : endsBehind c with
        | true =>
            rw [hbehind, if_pos rfl] at hanswer
            obtain rfl : found c = answer := Option.some.inj hanswer
            rw [if_pos rfl, if_pos rfl, Option.map_some, firstOf_of_fresh hcmet',
              firstWithin_of_fresh limit hcmet]
            exact iff_of_true rfl fun u hu => by cases hu
        | false =>
            rw [hbehind, if_neg Bool.false_ne_true] at hanswer hflags
            rw [if_neg Bool.false_ne_true, if_neg Bool.false_ne_true]
            have hnext : (advance c).depth = w.depth + 1 := congrArg (· + 1) hclimb.depth
            refine ih halike.advance hclimb.honest_advance hclimb'.honest_advance hcmet ?_
              (by omega) (by omega)
              (by omega) ?_ hanswer fun u hu => hflags u (List.mem_cons_of_mem _ hu)
            · rw [advance, hzero']
              simp
            · rw [hnext, advance, hclimb.depth, hclimb.collect]
              split
              · exact .inr le_rfl
              · exact hcollect.imp_right fun hle => hle.trans (Nat.le_succ _)
      · have hcmet' : ¬Fresh c' := fun hfresh' => hcmet (halike.isEmpty_met.trans hfresh')
        rw [endsBehind_of_met hcmet' hzero', if_pos rfl, Option.map_some,
          ← firstOf_congr halike.places, Option.some.injEq]
        exact hclimb.nearest hcmet (by omega) (by omega) hanswer

/-! ## The nearest and the first -/

/-- The nearest test is the first of the tests that reach, within the limit of both. -/
def NearestAgrees (i : Inputs) (qn : String) (limit search : Nat) : Prop :=
  ∀ o o' answer, testsReaching i qn o limit search = some answer →
    nearestTest i qn o' limit = some (firstWithin limit answer)

/-- Where the arrivals from one source carry the same on, the nearest test is the first of
the tests that reach exactly where no direct test comes in front of the callers of its hop. -/
theorem nearest_agrees_iff (i : Inputs) (qn : String) (limit search : Nat) (o : HashOrders)
    (answer : Found) (h : testsReaching i qn o limit search = some answer)
    (hflags : ∀ w ∈ statesFrom i qn o (max search limit) (max search limit + 1) (start qn limit),
      FlagsAgree i qn limit w) :
    (∀ o', nearestTest i qn o' limit = some (firstWithin limit answer)) ↔
      ∀ w ∈ statesFrom i qn o (max search limit) (max search limit + 1) (start qn limit),
        DirectBehind i qn w := by
  have halike : Alike (start qn limit) (start qn 0) :=
    ⟨rfl, fun _ => Iff.rfl, fun _ => Iff.rfl, rfl, rfl, rfl, fun _ => rfl⟩
  have hboth : ∀ o', nearestTest i qn o' limit = some (firstWithin limit answer) ↔
      ∀ w ∈ statesFrom i qn o (max search limit) (max search limit + 1) (start qn limit),
        DirectBehind i qn w := fun o' =>
    nearest_from o o' halike (honest_start qn limit) (honest_start qn 0) rfl rfl
      (le_max_right _ _) (Nat.zero_add _) (Nat.zero_add _) (Nat.zero_le _) (.inl rfl) h hflags
  exact ⟨fun hall => (hboth o).mp (hall o), fun hbehind o' => (hboth o').mpr hbehind⟩

theorem nearest_agrees_oneCaller :
    (∀ o', nearestTest oneCaller "app.py::parse" o' 4 = some (firstWithin 4
        ([⟨2, "tests/test_app.py::test_all", "app.py::load", true, none, 0⟩], false))) ↔
      ∀ w ∈ statesFrom oneCaller "app.py::parse" rowOrder (max 8 4) (max 8 4 + 1)
        (start "app.py::parse" 4), DirectBehind oneCaller "app.py::parse" w :=
  nearest_agrees_iff oneCaller "app.py::parse" 4 8 rowOrder _ (by decide +kernel)
    (by decide +kernel)

/-- `test_all` calls `parse`, and `test_add` is the direct test of its caller `load`. -/
def testedCaller : Inputs :=
  parserGraph
    [callEdge 1 "app.py::load" "app.py::parse",
      callEdge 2 "tests/test_app.py::test_all" "app.py::parse",
      { callEdge 3 "app.py::load" "tests/test_app.py::test_add" with kind := "TESTED_BY" }]
    (by decide)

/-- Both tests are one hop away, and the two walks name different ones. -/
theorem not_nearestAgrees_testedCaller : ¬NearestAgrees testedCaller "app.py::parse" 4 8 := by
  intro h
  have hreaching : testsReaching testedCaller "app.py::parse" rowOrder 4 8 = some
      ([⟨1, "tests/test_app.py::test_add", "app.py::load", true, none, 0⟩,
        ⟨1, "tests/test_app.py::test_all", "app.py::parse", true, none, 0⟩], false) := by
    decide +kernel
  have hnearest : nearestTest testedCaller "app.py::parse" rowOrder 4 =
      some (some (1, "tests/test_app.py::test_all")) := by
    decide +kernel
  have hboth := h rowOrder rowOrder _ hreaching
  rw [hnearest] at hboth
  exact absurd hboth (by decide)

end TestWalk

end Dagayn
