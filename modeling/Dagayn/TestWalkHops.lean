import Dagayn.Least
import Dagayn.TestWalk

/-!
# A hop of the test walk

What a hop leaves behind, as sets: which tests are met and where they are placed, which
callers come next, which of them carry an import or an implicit use on. A caller that several
targets of the hop lead to is entered by one of them, the first in the order of the hash map;
`Unanimous` says that all of them would enter it alike, and then the order does not show.
-/

namespace Dagayn

namespace TestWalk

open Bridges Coverage

/-! ## Meeting tests -/

def Made (g : GraphReads) (r : ReachingTest) : Prop :=
  ∃ row, g.nodes.find r.test = some row ∧ r = reachingTest r.hops row r.via r.valueUse

/-- Entries under their own names, within some hops. -/
def Honest (g : GraphReads) (hops : Nat) (met : Dict String ReachingTest) : Prop :=
  ∀ q r, met.lookup q = some r → r.hops ≤ hops ∧ r.test = q ∧ Made g r

section Meet

variable {g : GraphReads} {hops : Nat} {met : Dict String ReachingTest} {new r : ReachingTest}
  {q : String}

theorem Honest.mono {hops' : Nat} (h : Honest g hops met) (hle : hops ≤ hops') :
    Honest g hops' met := fun q r hr => ⟨(h q r hr).1.trans hle, (h q r hr).2⟩

theorem made_reachingTest {row : NodeRow} (h : g.nodes.find row.qualifiedName = some row)
    (via : String) (use : Option ValueUse) : Made g (reachingTest hops row via use) :=
  ⟨row, h, rfl⟩

theorem Made.place_eq (hr : Made g r) (hnew : Made g new) (htest : r.test = new.test)
    (hhops : r.hops = new.hops) : r.place = new.place := by
  obtain ⟨row, hrow, heq⟩ := hr
  obtain ⟨row', hrow', heq'⟩ := hnew
  obtain rfl : row = row' := Option.some.inj (hrow.symm.trans (htest ▸ hrow'))
  have hrank : r.rank = new.rank := by
    rw [heq, heq']
    rfl
  rw [ReachingTest.place, ReachingTest.place, hhops, htest, hrank]

theorem Made.eq_of_meeting (hr : Made g r) (hnew : Made g new) (htest : r.test = new.test)
    (hmeeting : r.meeting = new.meeting) (huse : r.valueUse = new.valueUse) : r = new := by
  obtain ⟨row, hrow, heq⟩ := hr
  obtain ⟨row', hrow', heq'⟩ := hnew
  obtain rfl : row = row' := Option.some.inj (hrow.symm.trans (htest ▸ hrow'))
  obtain ⟨hhops, hvia⟩ := Prod.mk.inj (toLex.injective hmeeting)
  rw [heq, heq', hhops, hvia, huse]

theorem remeet_eq (hr : Made g r) (hnew : Made g new) (htest : r.test = new.test) :
    remeet r new = if new.meeting < r.meeting then new else r := by
  rw [remeet]
  split
  · obtain ⟨row, hrow, heq⟩ := hr
    obtain ⟨row', hrow', heq'⟩ := hnew
    obtain rfl : row = row' := Option.some.inj (hrow.symm.trans (htest ▸ hrow'))
    rw [heq, heq']
    rfl
  · rfl

theorem lookup_meet (hmet : Honest g hops met) (hnew : Made g new) :
    (meet met new).lookup q =
      if q = new.test then keepLess ReachingTest.meeting (met.lookup q) new else met.lookup q := by
  rw [meet, Dict.lookup_insert_ite]
  by_cases hq : q = new.test
  · rw [if_pos hq, if_pos hq, hq]
    cases hold : met.lookup new.test with
    | none => rfl
    | some old =>
        obtain ⟨-, htest, hmade⟩ := hmet _ _ hold
        rw [Option.map_some, Option.getD_some, remeet_eq hmade hnew htest, keepLess]
        split <;> rfl
  · rw [if_neg hq, if_neg hq]

theorem Honest.meet (hmet : Honest g hops met) (hnew : Made g new) (hle : new.hops ≤ hops) :
    Honest g hops (meet met new) := by
  intro q r hr
  rw [lookup_meet hmet hnew] at hr
  split at hr
  · rename_i hq
    have hfold : [new].foldl (keepLess ReachingTest.meeting) (met.lookup q) = some r := hr
    rcases (foldl_keepLess_eq_some hfold).1 with hold | ⟨hmem, -⟩
    · exact hmet q r hold
    · obtain rfl := List.mem_singleton.mp hmem
      exact ⟨hle, hq.symm, hnew⟩
  · exact hmet q r hr

theorem Honest.meetAll {news : List ReachingTest} (hmet : Honest g hops met)
    (hnews : ∀ new ∈ news, Made g new ∧ new.hops ≤ hops) :
    Honest g hops (news.foldl TestWalk.meet met) := by
  induction news generalizing met with
  | nil => exact hmet
  | cons new news ih =>
      obtain ⟨hmade, hle⟩ := hnews new List.mem_cons_self
      exact ih (hmet.meet hmade hle) fun n hn => hnews n (List.mem_cons_of_mem _ hn)

theorem lookup_meetAll {news : List ReachingTest} (hmet : Honest g hops met)
    (hnews : ∀ new ∈ news, Made g new ∧ new.hops ≤ hops) (q : String) :
    (news.foldl TestWalk.meet met).lookup q =
      (news.filter (·.test = q)).foldl (keepLess ReachingTest.meeting) (met.lookup q) := by
  induction news generalizing met with
  | nil => rfl
  | cons new news ih =>
      obtain ⟨hmade, hle⟩ := hnews new List.mem_cons_self
      rw [List.foldl_cons, ih (hmet.meet hmade hle) fun n hn => hnews n (List.mem_cons_of_mem _ hn),
        lookup_meet hmet hmade]
      by_cases hq : q = new.test
      · rw [if_pos hq, List.filter_cons_of_pos (by simpa using hq.symm), List.foldl_cons]
      · rw [if_neg hq, List.filter_cons_of_neg (by simpa using Ne.symm hq)]

theorem place_meet (hmet : Honest g hops met) (hnew : Made g new) (hle : hops ≤ new.hops) :
    ((meet met new).lookup q).map ReachingTest.place =
      ((met.lookup q).map ReachingTest.place).or
        (if new.test = q then some new.place else none) := by
  rw [lookup_meet hmet hnew]
  by_cases hq : q = new.test
  · rw [if_pos hq, if_pos hq.symm]
    cases hold : met.lookup q with
    | none => rfl
    | some old =>
        obtain ⟨hhops, htest, hmade⟩ := hmet _ _ hold
        rw [keepLess]
        split
        · rename_i hlt
          have hsame : new.hops = old.hops := by
            rcases Prod.Lex.lt_iff.mp hlt with hlt | ⟨heq, -⟩
            · exact absurd hlt (not_lt_of_ge (hhops.trans hle))
            · exact heq
          rw [Option.map_some, Option.map_some, hnew.place_eq hmade (hq ▸ htest.symm) hsame]
          rfl
        · rfl
  · rw [if_neg hq, if_neg (Ne.symm hq), Option.or_none]

theorem place_meetAll {news : List ReachingTest} (hmet : Honest g hops met)
    (hnews : ∀ new ∈ news, Made g new ∧ new.hops = hops) (q : String) :
    ((news.foldl TestWalk.meet met).lookup q).map ReachingTest.place =
      ((met.lookup q).map ReachingTest.place).or
        ((news.find? (·.test = q)).map ReachingTest.place) := by
  induction news generalizing met with
  | nil => simp
  | cons new news ih =>
      obtain ⟨hmade, hle⟩ := hnews new List.mem_cons_self
      rw [List.foldl_cons, ih (hmet.meet hmade hle.le) fun n hn =>
        hnews n (List.mem_cons_of_mem _ hn), place_meet hmet hmade hle.ge, Option.or_assoc]
      congr 1
      by_cases hq : new.test = q
      · rw [if_pos hq, List.find?_cons_of_pos (by simpa using hq)]
        rfl
      · rw [if_neg hq, List.find?_cons_of_neg (by simpa using hq)]
        rfl

theorem find?_place_congr {l l' : List ReachingTest} (hl : ∀ n ∈ l, Made g n ∧ n.hops = hops)
    (hl' : ∀ n ∈ l', Made g n ∧ n.hops = hops)
    (hex : (∃ n ∈ l, n.test = q) ↔ ∃ n ∈ l', n.test = q) :
    (l.find? (·.test = q)).map ReachingTest.place =
      (l'.find? (·.test = q)).map ReachingTest.place := by
  refine map_find?_congr (by simpa using hex) fun n hn n' hn' htest htest' => ?_
  obtain ⟨hmade, hhops⟩ := hl n hn
  obtain ⟨hmade', hhops'⟩ := hl' n' hn'
  have hsame : n.test = n'.test := (of_decide_eq_true htest).trans (of_decide_eq_true htest').symm
  exact hmade.place_eq hmade' hsame (hhops.trans hhops'.symm)

end Meet

/-! ## States alike -/

/-- Two walks that have met the same tests at the same hops and know the same flags. -/
structure Alike (w w' : Walk) : Prop where
  depth : w.depth = w'.depth
  frontier : ∀ x, x ∈ w.frontier ↔ x ∈ w'.frontier
  next : ∀ x, x ∈ w.next ↔ x ∈ w'.next
  seen : w.seen = w'.seen
  imported : w.imported = w'.imported
  implicit : w.implicit = w'.implicit
  places : ∀ q, (w.met.lookup q).map ReachingTest.place =
    (w'.met.lookup q).map ReachingTest.place

/-- Two walks that differ in the orders of their lists and maps only. -/
structure Same (w w' : Walk) : Prop extends Alike w w' where
  collect : w.collect = w'.collect
  truncated : w.truncated = w'.truncated
  met : ∀ q, w.met.lookup q = w'.met.lookup q
  valueUses : ∀ x, w.valueUses.lookup x = w'.valueUses.lookup x

theorem Alike.refl (w : Walk) : Alike w w :=
  ⟨rfl, fun _ => Iff.rfl, fun _ => Iff.rfl, rfl, rfl, rfl, fun _ => rfl⟩

theorem Same.refl (w : Walk) : Same w w := ⟨Alike.refl w, rfl, rfl, fun _ => rfl, fun _ => rfl⟩

section Hop

variable (i : Inputs) (qn : String)

/-! ### Direct tests -/

def directMeetings (w : Walk) : List ReachingTest :=
  w.frontier.flatMap fun current =>
    ((directTests i.store current).filter fun test => built i.store qn test.input.filePath).map
      fun test => reachingTest w.depth test current (w.valueUses.lookup current)

theorem meetDirect_eq (w : Walk) :
    meetDirect i qn w = { w with met := (directMeetings i qn w).foldl meet w.met } := by
  simp only [meetDirect, directMeetings, List.foldl_flatMap, List.foldl_map]

variable {i qn}

theorem mem_directMeetings {w : Walk} {n : ReachingTest} :
    n ∈ directMeetings i qn w ↔ ∃ current ∈ w.frontier, ∃ test ∈ directTests i.store current,
      built i.store qn test.input.filePath = true ∧
        reachingTest w.depth test current (w.valueUses.lookup current) = n := by
  simp [directMeetings, and_assoc]

theorem find_of_mem_directTests {g : GraphReads} {current : String} {test : NodeRow}
    (h : test ∈ directTests g current) : g.nodes.find test.qualifiedName = some test := by
  obtain ⟨row, -, hrow⟩ := List.mem_filterMap.mp h
  exact GraphReads.find_of_getNode hrow

theorem directMeetings_made {w : Walk} :
    ∀ n ∈ directMeetings i qn w, Made i.store n ∧ n.hops = w.depth := by
  intro n hn
  obtain ⟨current, -, test, htest, -, rfl⟩ := mem_directMeetings.mp hn
  exact ⟨made_reachingTest (find_of_mem_directTests htest) _ _, rfl⟩

theorem honest_meetDirect (qn : String) {w : Walk} (h : Honest i.store w.depth w.met) :
    Honest i.store w.depth (meetDirect i qn w).met := by
  rw [meetDirect_eq]
  exact h.meetAll fun n hn =>
    ⟨(directMeetings_made n hn).1, (directMeetings_made n hn).2.le⟩

theorem Alike.meetDirect (qn : String) {w w' : Walk} (h : Alike w w')
    (hw : Honest i.store w.depth w.met) (hw' : Honest i.store w'.depth w'.met) :
    Alike (meetDirect i qn w) (meetDirect i qn w') := by
  rw [meetDirect_eq, meetDirect_eq]
  refine ⟨h.depth, h.frontier, h.next, h.seen, h.imported, h.implicit, fun q => ?_⟩
  show ((List.foldl meet w.met _).lookup q).map _ = ((List.foldl meet w'.met _).lookup q).map _
  have hmade' : ∀ n ∈ directMeetings i qn w', Made i.store n ∧ n.hops = w.depth := by
    rw [h.depth]
    exact directMeetings_made
  rw [place_meetAll hw directMeetings_made, place_meetAll hw' directMeetings_made, h.places]
  refine congrArg _ (find?_place_congr directMeetings_made hmade' ?_)
  constructor
  · rintro ⟨n, hn, hq⟩
    obtain ⟨current, hcurrent, test, htest, hbuilt, rfl⟩ := mem_directMeetings.mp hn
    exact ⟨_, mem_directMeetings.mpr
      ⟨current, (h.frontier current).mp hcurrent, test, htest, hbuilt, rfl⟩, hq⟩
  · rintro ⟨n, hn, hq⟩
    obtain ⟨current, hcurrent, test, htest, hbuilt, rfl⟩ := mem_directMeetings.mp hn
    exact ⟨_, mem_directMeetings.mpr
      ⟨current, (h.frontier current).mpr hcurrent, test, htest, hbuilt, rfl⟩, hq⟩

theorem Same.meetDirect (qn : String) {w w' : Walk} (h : Same w w')
    (hw : Honest i.store w.depth w.met) (hw' : Honest i.store w'.depth w'.met) :
    Same (meetDirect i qn w) (meetDirect i qn w') := by
  have halike := h.toAlike.meetDirect qn hw hw'
  rw [meetDirect_eq, meetDirect_eq] at halike ⊢
  refine ⟨halike, h.collect, h.truncated, fun q => ?_, h.valueUses⟩
  show (List.foldl meet w.met _).lookup q = (List.foldl meet w'.met _).lookup q
  have hle : ∀ w : Walk, ∀ n ∈ directMeetings i qn w, Made i.store n ∧ n.hops ≤ w.depth :=
    fun w n hn => ⟨(directMeetings_made n hn).1, (directMeetings_made n hn).2.le⟩
  rw [lookup_meetAll hw (hle w), lookup_meetAll hw' (hle w'), h.met]
  refine foldl_keepLess_congr (fun n => ?_) ?_
  · rw [List.mem_filter, List.mem_filter, mem_directMeetings, mem_directMeetings, h.depth]
    refine and_congr_left fun _ => exists_congr fun current => ?_
    rw [h.frontier, h.valueUses]
  · intro a ha b hb hmeeting
    obtain ⟨ha, hqa⟩ := List.mem_filter.mp ha
    obtain ⟨hb, hqb⟩ := List.mem_filter.mp hb
    have htest : a.test = b.test := (of_decide_eq_true hqa).trans (of_decide_eq_true hqb).symm
    refine (directMeetings_made a ha).1.eq_of_meeting (directMeetings_made b hb).1 htest hmeeting ?_
    obtain ⟨current, -, test, -, -, rfl⟩ := mem_directMeetings.mp ha
    obtain ⟨current', -, test', -, -, rfl⟩ := mem_directMeetings.mp hb
    obtain ⟨-, hvia⟩ := Prod.mk.inj (toLex.injective hmeeting)
    exact congrArg w.valueUses.lookup hvia

/-! ### Classes -/

def implicitOf (i : Inputs) (x : String) : Option String := (implicitCaller i x).getD none

theorem withClasses_eq_none {w : Walk} :
    withClasses i w = none ↔ ∃ x ∈ w.frontier, implicitCaller i x = none := by
  have hmap : ∀ l : List String,
      l.mapM (implicitCaller i) = none ↔ ∃ x ∈ l, implicitCaller i x = none := by
    intro l
    induction l with
    | nil => simp
    | cons x l ih =>
        rw [List.mapM_cons]
        cases hx : implicitCaller i x with
        | none => simp [hx]
        | some owner => cases hl : l.mapM (implicitCaller i) <;> simp [hx, ← ih, hl]
  rw [withClasses, Option.map_eq_none_iff, hmap]

theorem withClasses_eq_some {w : Walk} {found : Walk × List String}
    (h : withClasses i w = some found) :
    found = (w.frontier.map fun x => (x, implicitOf i x)).foldl (addClass w.frontier) (w, []) := by
  have hmap : ∀ (l : List String) (callers : List (Option String)),
      l.mapM (implicitCaller i) = some callers → callers = l.map (implicitOf i) := by
    intro l
    induction l with
    | nil =>
        intro callers hcallers
        simpa using hcallers.symm
    | cons x l ih =>
        intro callers hcallers
        rw [List.mapM_cons] at hcallers
        cases hx : implicitCaller i x with
        | none => simp [hx] at hcallers
        | some owner =>
            cases hl : l.mapM (implicitCaller i) with
            | none => simp [hx, hl] at hcallers
            | some rest =>
                obtain rfl : owner :: rest = callers := by simpa [hx, hl] using hcallers
                rw [List.map_cons, ih rest hl, implicitOf, hx]
                rfl
  obtain ⟨callers, hcallers, rfl⟩ := Option.map_eq_some_iff.mp h
  rw [hmap _ _ hcallers, ← List.map_prod_left_eq_zip]

/-- What the classes of the nodes gone through add to a walk. -/
structure Classed (i : Inputs) (m : Walk) (done : List String) (w : Walk)
    (classes : List String) : Prop where
  rest : w = { m with imported := w.imported, valueUses := w.valueUses }
  mem_classes : ∀ k, k ∈ classes ↔ k ∉ m.frontier ∧ ∃ x ∈ done, implicitOf i x = some k
  imported : ∀ k, k ∈ w.imported ↔ k ∈ m.imported ∨ k ∈ classes ∧ isPythonModule k = true
  valueUses : ∀ k, w.valueUses.lookup k = (m.valueUses.lookup k).or
    (if k ∈ m.frontier then none
      else (done.find? (implicitOf i · = some k)).bind fun x => m.valueUses.lookup x)

theorem exists_mem_append_singleton {α : Type} {p : α → Prop} {as : List α} {a : α} :
    (∃ b ∈ as ++ [a], p b) ↔ (∃ b ∈ as, p b) ∨ p a := by
  simp [or_and_right, exists_or]

theorem mem_insertIf {p : Bool} {n x : String} {s : Finset String} :
    x ∈ (if p then insert n s else s) ↔ x ∈ s ∨ p = true ∧ n = x := by
  cases p with
  | false => simp
  | true => simp [or_comm, eq_comm (a := n)]

/-- A node that brings no new class; no class is found at it first. -/
theorem Classed.stay {m w : Walk} {done classes : List String} {x : String}
    (h : Classed i m done w classes)
    (hold : ∀ k, implicitOf i x = some k → k ∈ m.frontier ∨ k ∈ classes) :
    Classed i m (done ++ [x]) w classes := by
  refine ⟨h.rest, fun k => ?_, h.imported, fun k => ?_⟩
  · rw [h.mem_classes k, exists_mem_append_singleton]
    refine and_congr_right fun hk => ⟨.inl, fun hor => hor.elim id fun hxk => ?_⟩
    exact (hold k hxk).elim (fun hf => absurd hf hk) fun hc => ((h.mem_classes k).mp hc).2
  · rw [h.valueUses k, List.find?_append]
    congr 1
    split
    · rfl
    · rename_i hk
      cases hfind : done.find? (implicitOf i · = some k) with
      | some y => rfl
      | none =>
          by_cases hxk : implicitOf i x = some k
          · have hc := (hold k hxk).resolve_left hk
            obtain ⟨y, hy, hyk⟩ := ((h.mem_classes k).mp hc).2
            exact absurd hyk (by simpa using List.find?_eq_none.mp hfind y hy)
          · simp [hxk]

theorem lookup_addUse (uses : Dict String ValueUse) (use : Option ValueUse) (owner k : String) :
    (match use with
      | some valueUse => if owner ∈ uses then uses else AList.insert owner valueUse uses
      | none => uses).lookup k = (uses.lookup k).or (if k = owner then use else none) := by
  cases use with
  | none => simp
  | some u =>
      dsimp only
      by_cases hk : k = owner
      · subst hk
        rw [if_pos rfl]
        split
        · rename_i hin
          obtain ⟨old, hold⟩ := Option.isSome_iff_exists.mp (AList.lookup_isSome.mpr hin)
          rw [hold]
          rfl
        · rename_i hin
          rw [AList.lookup_insert, AList.lookup_eq_none.mpr hin, Option.none_or]
      · rw [if_neg hk, Option.or_none]
        split
        · rfl
        · exact AList.lookup_insert_ne hk

/-- A node that brings a new class. -/
theorem Classed.new {m w : Walk} {done classes : List String} {x owner : String}
    (h : Classed i m done w classes) (hx : x ∈ m.frontier) (hxk : implicitOf i x = some owner)
    (hfrontier : owner ∉ m.frontier) (hclasses : owner ∉ classes) :
    Classed i m (done ++ [x])
      { w with
        imported := if isPythonModule owner then insert owner w.imported else w.imported
        valueUses :=
          match w.valueUses.lookup x with
          | some valueUse =>
              if owner ∈ w.valueUses then w.valueUses
              else AList.insert owner valueUse w.valueUses
          | none => w.valueUses }
      (classes ++ [owner]) := by
  have hfirst : done.find? (implicitOf i · = some owner) = none := by
    refine List.find?_eq_none.mpr fun y hy => ?_
    rw [decide_eq_true_eq]
    exact fun hyk => hclasses ((h.mem_classes owner).mpr ⟨hfrontier, y, hy, hyk⟩)
  refine ⟨?_, fun k => ?_, fun k => ?_, fun k => ?_⟩
  · conv_lhs => rw [h.rest]
  · rw [List.mem_append, List.mem_singleton, h.mem_classes k, exists_mem_append_singleton, hxk,
      Option.some.injEq]
    constructor
    · rintro (⟨hk, hex⟩ | rfl)
      · exact ⟨hk, .inl hex⟩
      · exact ⟨hfrontier, .inr rfl⟩
    · rintro ⟨hk, hex | rfl⟩
      · exact .inl ⟨hk, hex⟩
      · exact .inr rfl
  · rw [List.mem_append, List.mem_singleton]
    dsimp only
    rw [mem_insertIf, h.imported k, or_assoc, or_and_right]
    refine or_congr_right (or_congr_right ?_)
    rw [and_comm, eq_comm]
    refine and_congr_right fun hk => ?_
    rw [hk]
  · dsimp only
    refine (lookup_addUse w.valueUses (w.valueUses.lookup x) owner k).trans ?_
    rw [h.valueUses x, if_pos hx, Option.or_none, h.valueUses k, List.find?_append,
      Option.or_assoc]
    congr 1
    by_cases hk : k = owner
    · subst hk
      rw [if_pos rfl, if_neg hfrontier, if_neg hfrontier, hfirst]
      simp [hxk]
    · have hne : implicitOf i x ≠ some k := by
        rw [hxk]
        exact fun heq => hk (Option.some.inj heq).symm
      simp [hk, hne]

theorem Classed.addClass {m w : Walk} {done classes : List String} {x : String}
    (h : Classed i m done w classes) (hx : x ∈ m.frontier) :
    Classed i m (done ++ [x]) (addClass m.frontier (w, classes) (x, implicitOf i x)).1
      (addClass m.frontier (w, classes) (x, implicitOf i x)).2 := by
  cases hxk : implicitOf i x with
  | none => exact h.stay fun k hk => by simp [hxk] at hk
  | some owner =>
      rw [TestWalk.addClass]
      dsimp only
      split
      · rename_i hmem
        refine h.stay fun k hk => ?_
        obtain rfl : owner = k := Option.some.inj (hxk.symm.trans hk)
        simpa using hmem
      · rename_i hmem
        obtain ⟨hfrontier, hclasses⟩ : owner ∉ m.frontier ∧ owner ∉ classes := by
          simpa using hmem
        exact h.new hx hxk hfrontier hclasses

theorem withClasses_classed {m w : Walk} {classes : List String}
    (h : withClasses i m = some (w, classes)) : Classed i m m.frontier w classes := by
  have hfold : ∀ done : List String, (∀ x ∈ done, x ∈ m.frontier) →
      Classed i m done
        ((done.map fun x => (x, implicitOf i x)).foldl (TestWalk.addClass m.frontier) (m, [])).1
        ((done.map fun x => (x, implicitOf i x)).foldl
          (TestWalk.addClass m.frontier) (m, [])).2 := by
    intro done
    induction done using List.reverseRecOn with
    | nil =>
        intro _
        refine ⟨rfl, fun k => by simp, fun k => by simp, fun k => ?_⟩
        simp
    | append_singleton done x ih =>
        intro hdone
        have hdone' : ∀ y ∈ done, y ∈ m.frontier := fun y hy => hdone y (List.mem_append_left _ hy)
        rw [List.map_append, List.foldl_append]
        exact (ih hdone').addClass (hdone x (by simp))
  have heq := withClasses_eq_some h
  have hclassed := hfold m.frontier fun _ hx => hx
  rw [← heq] at hclassed
  exact hclassed

/-! ### Arrivals -/

/-- A caller that an edge of a target leads to. -/
structure Arrival where
  via : Via
  edge : GraphEdge
  caller : NodeRow

namespace Arrival

variable (a : Arrival)

def source : String := a.edge.sourceQualified

def name : String := a.caller.qualifiedName

def atTest (i : Inputs) : Bool := isTestNode a.caller (relative i.root a.caller.input.filePath)

def carriesOn : Bool := a.via.carries || runsOnImport a.edge

def use (w : Walk) : Option ValueUse := callerUse w.valueUses a.via a.edge a.caller

def entry (w : Walk) : ReachingTest := reachingTest (w.depth + 1) a.caller a.via.target (a.use w)

end Arrival

/-- The callers of a target that are not seen, each by the first edge from it. -/
def arrivals (i : Inputs) (qn : String) (w : Walk) (v : Via) (es : List GraphEdge) :
    List Arrival :=
  ((keepFirst GraphEdge.sourceQualified (es.filter (follows v))).filter
    (·.sourceQualified ∉ w.seen)).filterMap fun e =>
      (callerOf i qn e).map fun caller => ⟨v, e, caller⟩

/-- The sources of the edges that are followed. -/
def passed (v : Via) (es : List GraphEdge) : List String :=
  (es.filter (follows v)).map GraphEdge.sourceQualified

theorem mem_arrivals {w : Walk} {v : Via} {es : List GraphEdge} {a : Arrival}
    (h : a ∈ arrivals i qn w v es) :
    a.via = v ∧ a.edge ∈ es ∧ follows v a.edge = true ∧ a.source ∉ w.seen ∧
      callerOf i qn a.edge = some a.caller := by
  obtain ⟨e, he, hcaller⟩ := List.mem_filterMap.mp h
  obtain ⟨caller, hsome, rfl⟩ := Option.map_eq_some_iff.mp hcaller
  obtain ⟨hfirst, hseen⟩ := List.mem_filter.mp he
  obtain ⟨hmem, hfollows⟩ := List.mem_filter.mp (mem_of_mem_keepFirst hfirst)
  exact ⟨rfl, hmem, hfollows, of_decide_eq_true hseen, hsome⟩

theorem exists_mem_arrivals {w : Walk} {v : Via} {es : List GraphEdge} {e : GraphEdge}
    {caller : NodeRow} (h : e.sourceQualified ∈ passed v es) (hseen : e.sourceQualified ∉ w.seen)
    (hcaller : callerOf i qn e = some caller) :
    ∃ a ∈ arrivals i qn w v es, a.source = e.sourceQualified := by
  obtain ⟨e', he', hsource⟩ := List.mem_map.mp h
  obtain ⟨first, hfirst, hkey⟩ : ∃ first ∈ keepFirst GraphEdge.sourceQualified
      (es.filter (follows v)), first.sourceQualified = e'.sourceQualified :=
    exists_mem_keepFirst he'
  have heq : first.sourceQualified = e.sourceQualified := hkey.trans hsource
  have hsome : callerOf i qn first = some caller := by
    rw [callerOf, heq]
    exact hcaller
  refine ⟨⟨v, first, caller⟩,
    List.mem_filterMap.mpr ⟨first, List.mem_filter.mpr ⟨hfirst, ?_⟩, ?_⟩, heq⟩
  · simpa [heq] using hseen
  · rw [hsome]
    rfl

theorem passed_append_singleton (v : Via) (es : List GraphEdge) (e : GraphEdge) :
    passed v (es ++ [e]) = passed v es ++ if follows v e then [e.sourceQualified] else [] := by
  rw [passed, List.filter_append, List.map_append]
  congr 1
  cases h : follows v e <;> simp [h]

theorem arrivals_append_singleton (w : Walk) (v : Via) (es : List GraphEdge) (e : GraphEdge) :
    arrivals i qn w v (es ++ [e]) = arrivals i qn w v es ++
      if follows v e && e.sourceQualified ∉ passed v es && e.sourceQualified ∉ w.seen then
        ((callerOf i qn e).map fun caller => ⟨v, e, caller⟩).toList
      else [] := by
  rw [arrivals, List.filter_append]
  cases hfollows : follows v e with
  | false => simp [hfollows, arrivals]
  | true =>
      have hone : [e].filter (follows v) = [e] := by simp [hfollows]
      rw [hone, keepFirst_append_singleton, List.filter_append, List.filterMap_append]
      refine congrArg (arrivals i qn w v es ++ ·) ?_
      change List.filterMap _
        (List.filter _ (if e.sourceQualified ∈ passed v es then [] else [e])) = _
      by_cases hpassed : e.sourceQualified ∈ passed v es
      · simp [hpassed]
      · by_cases hseen : e.sourceQualified ∈ w.seen
        · simp [hpassed, hseen]
        · cases hcaller : callerOf i qn e <;> simp [hpassed, hseen, hcaller]

/-! ### The fold over a hop

What a run over the targets keeps is shown for two steps: a caller is entered, or it is
passed over because an arrival from the same source is there already. -/

section Fold

variable {motive : List Arrival → Walk → Prop} {w : Walk}

/-- The two steps, for one arrival. -/
structure Keeps (i : Inputs) (motive : List Arrival → Walk → Prop) (a : Arrival) : Prop where
  arrive : ∀ as w', motive as w' → motive (as ++ [a]) (arrive i a.via a.edge a.caller w')
  again : ∀ as w' b, motive as w' → b ∈ as → b.source = a.source → motive (as ++ [a]) w'

theorem seen_arrive (v : Via) (e : GraphEdge) (caller : NodeRow) (w : Walk) :
    (TestWalk.arrive i v e caller w).seen = w.seen := by
  unfold TestWalk.arrive
  dsimp only
  split <;> rfl

theorem foldl_follow {as : List Arrival} {w' : Walk} {before : List String} (v : Via)
    (es : List GraphEdge)
    (hseen : ∀ as w' s, motive as w' → motive as { w' with seen := s }) (hstart : motive as w')
    (hbefore : ∀ s, s ∈ w'.seen ↔ s ∈ w.seen ∨ s ∈ before)
    (hcover : ∀ (e : GraphEdge) (caller : NodeRow), e.sourceQualified ∈ before →
      e.sourceQualified ∉ w.seen → callerOf i qn e = some caller →
        ∃ b ∈ as, b.source = e.sourceQualified)
    (hkeeps : ∀ a ∈ arrivals i qn w v es, Keeps i motive a) :
    motive (as ++ arrivals i qn w v es) (es.foldl (follow i qn v) w') ∧
      ∀ s, s ∈ (es.foldl (follow i qn v) w').seen ↔ s ∈ w.seen ∨ s ∈ before ++ passed v es := by
  induction es using List.reverseRecOn with
  | nil =>
      refine ⟨by simpa [arrivals, keepFirst] using hstart, fun s => ?_⟩
      simpa [passed] using hbefore s
  | append_singleton es e ih =>
      rw [arrivals_append_singleton] at hkeeps ⊢
      obtain ⟨hmotive, hmem⟩ := ih fun a ha => hkeeps a (List.mem_append_left _ ha)
      have hnew : ∀ a ∈ _, Keeps i motive a := fun a ha => hkeeps a (List.mem_append_right _ ha)
      rw [passed_append_singleton, List.foldl_append, List.foldl_cons, List.foldl_nil]
      generalize es.foldl (follow i qn v) w' = u at hmotive hmem ⊢
      have hstay : ∀ s : String, s ∈ u.seen → ∀ x, x ∈ u.seen ↔
          x ∈ w.seen ∨ x ∈ before ++ (passed v es ++ [s]) := by
        intro s hs x
        rw [← List.append_assoc, List.mem_append, List.mem_singleton, ← or_assoc, ← hmem]
        exact ⟨.inl, fun h => h.elim id fun h => h ▸ hs⟩
      rw [follow]
      cases hfollows : follows v e with
      | false => simpa [hfollows] using ⟨hmotive, by simpa using hmem⟩
      | true =>
          rw [hfollows] at hnew
          by_cases hin : e.sourceQualified ∈ u.seen
          · refine ⟨?_, by simpa [hin] using hstay e.sourceQualified hin⟩
            simp only [hin, decide_true, Bool.not_true, Bool.false_or, if_true]
            by_cases hold : e.sourceQualified ∈ passed v es ∨ e.sourceQualified ∈ w.seen
            · rcases hold with hold | hold <;> simpa [hold] using hmotive
            · obtain ⟨hpassed, hseen'⟩ := not_or.mp hold
              cases hcaller : callerOf i qn e with
              | none => simpa [hpassed, hseen'] using hmotive
              | some caller =>
                  -- Another target of the hop led to this caller.
                  have hin' : e.sourceQualified ∈ before := by
                    have hor := ((hmem _).mp hin).resolve_left hseen'
                    exact (List.mem_append.mp hor).resolve_right hpassed
                  obtain ⟨b, hb, hsource⟩ := hcover e caller hin' hseen' hcaller
                  have hkeep : Keeps i motive ⟨v, e, caller⟩ :=
                    hnew _ (by simp [hpassed, hseen', hcaller])
                  have hagain := hkeep.again _ _ b hmotive (List.mem_append_left _ hb) hsource
                  simpa [hpassed, hseen', List.append_assoc] using hagain
          · have hout : e.sourceQualified ∉ w.seen ∧ e.sourceQualified ∉ passed v es := by
              rw [hmem, List.mem_append] at hin
              exact ⟨fun h => hin (.inl h), fun h => hin (.inr (.inr h))⟩
            have hinsert : ∀ x, x ∈ insert e.sourceQualified u.seen ↔
                x ∈ w.seen ∨ x ∈ before ++ (passed v es ++ [e.sourceQualified]) := by
              intro x
              rw [Finset.mem_insert, hmem, ← List.append_assoc, List.mem_append (t := [_]),
                List.mem_singleton, or_comm, or_assoc]
            cases hcaller : callerOf i qn e with
            | none =>
                refine ⟨?_, by simpa [hin] using hinsert⟩
                simpa [hin, hout] using hseen _ _ _ hmotive
            | some caller =>
                have hkeep : Keeps i motive ⟨v, e, caller⟩ := hnew _ (by simp [hout, hcaller])
                have harrive := hkeep.arrive _ _
                  (hseen _ _ (insert e.sourceQualified u.seen) hmotive)
                refine ⟨by simpa [hin, hout, List.append_assoc] using harrive, ?_⟩
                simpa [hin, seen_arrive] using hinsert

def arrivalsAt (i : Inputs) (qn : String) (w : Walk) (classes : List String)
    (incoming : String → List GraphEdge) (targets : List String) : List Arrival :=
  targets.flatMap fun t => arrivals i qn w (viaOf w classes t) (incoming t)

theorem foldl_visit (incoming : String → List GraphEdge) (classes targets : List String)
    (hseen : ∀ as w' s, motive as w' → motive as { w' with seen := s })
    (hvia : ∀ as w', motive as w' → ∀ t ∈ targets, viaOf w' classes t = viaOf w classes t)
    (hkeeps : ∀ a ∈ arrivalsAt i qn w classes incoming targets, Keeps i motive a)
    {w' : Walk} (hstart : motive [] w') (hw' : w'.seen = w.seen) :
    motive (arrivalsAt i qn w classes incoming targets)
        (targets.foldl (visit i qn incoming classes) w') ∧
      ∀ s, s ∈ (targets.foldl (visit i qn incoming classes) w').seen ↔ s ∈ w.seen ∨
        s ∈ targets.flatMap fun t => passed (viaOf w classes t) (incoming t) := by
  have hall : ∀ ts : List String, (∀ t ∈ ts, t ∈ targets) →
      motive (arrivalsAt i qn w classes incoming ts)
          (ts.foldl (visit i qn incoming classes) w') ∧
        ∀ s, s ∈ (ts.foldl (visit i qn incoming classes) w').seen ↔ s ∈ w.seen ∨
          s ∈ ts.flatMap fun t => passed (viaOf w classes t) (incoming t) := by
    intro ts
    induction ts using List.reverseRecOn with
    | nil =>
        intro _
        exact ⟨hstart, fun s => by simp [hw']⟩
    | append_singleton ts t ih =>
        intro hts
        obtain ⟨hmotive, hmem⟩ := ih fun t ht => hts t (List.mem_append_left _ ht)
        have ht : t ∈ targets := hts t (by simp)
        have hstep := foldl_follow (viaOf w classes t) (incoming t) hseen hmotive hmem
          (fun e caller hbefore hnew hcaller => by
            obtain ⟨t', ht', hpassed⟩ := List.mem_flatMap.mp hbefore
            obtain ⟨a, ha, hsource⟩ := exists_mem_arrivals hpassed hnew hcaller
            exact ⟨a, List.mem_flatMap.mpr ⟨t', ht', ha⟩, hsource⟩)
          fun a ha => hkeeps a (List.mem_flatMap.mpr ⟨t, ht, ha⟩)
        rw [List.foldl_append, List.foldl_cons, List.foldl_nil, visit, hvia _ _ hmotive t ht,
          arrivalsAt, List.flatMap_append, List.flatMap_append, List.flatMap_singleton,
          List.flatMap_singleton]
        exact hstep
  exact hall targets fun _ ht => ht

end Fold

/-! ### What a hop leaves -/

variable {w : Walk} {classes : List String}

def incomingOf (i : Inputs) (w : Walk) (classes : List String) : String → List GraphEdge :=
  i.store.incoming (targetsOf w classes)

def hopArrivals (i : Inputs) (qn : String) (w : Walk) (classes : List String) : List Arrival :=
  arrivalsAt i qn w classes (incomingOf i w classes) (targetsOf w classes)

/-- All arrivals from one source carry the same on, and what is carried to a target of the
hop is known of it in front of the hop. -/
def Unanimous (i : Inputs) (qn : String) (w : Walk) (classes : List String) : Prop :=
  (∀ a ∈ hopArrivals i qn w classes, ∀ b ∈ hopArrivals i qn w classes,
    a.source = b.source → a.atTest i = false → a.carriesOn = b.carriesOn) ∧
  ∀ a ∈ hopArrivals i qn w classes, a.atTest i = false → a.carriesOn = true →
    a.name ∈ targetsOf w classes →
      if isPythonModule a.name then a.name ∈ w.imported else (viaOf w classes a.name).carries = true

instance : Decidable (Unanimous i qn w classes) := by
  unfold Unanimous
  infer_instance

/-- The flags and the places behind the arrivals. -/
structure Arrived (i : Inputs) (w : Walk) (as : List Arrival) (w' : Walk) : Prop where
  rest : w'.depth = w.depth ∧ w'.collect = w.collect ∧ w'.truncated = w.truncated ∧
    w'.frontier = w.frontier
  next : ∀ x, x ∈ w'.next ↔ ∃ a ∈ as, a.atTest i = false ∧ a.name = x
  imported : ∀ x, x ∈ w'.imported ↔ x ∈ w.imported ∨ ∃ a ∈ as, a.atTest i = false ∧
    a.carriesOn = true ∧ isPythonModule a.name = true ∧ a.name = x
  implicit : ∀ x, x ∈ w'.implicit ↔ x ∈ w.implicit ∨ ∃ a ∈ as, a.atTest i = false ∧
    a.carriesOn = true ∧ isPythonModule a.name = false ∧ a.name = x
  honest : Honest i.store (w.depth + 1) w'.met
  places : ∀ q, (w'.met.lookup q).map ReachingTest.place =
    ((w.met.lookup q).map ReachingTest.place).or
      (((as.filter (·.atTest i)).find? (·.name = q)).map fun a => (a.entry w).place)

section Flags

variable {as : List Arrival} {w' : Walk} {a b : Arrival}

theorem caller_eq (ha : callerOf i qn a.edge = some a.caller)
    (hb : callerOf i qn b.edge = some b.caller) (hsource : b.source = a.source) :
    b.caller = a.caller := by
  have hsame : callerOf i qn b.edge = callerOf i qn a.edge := by
    unfold callerOf
    rw [show b.edge.sourceQualified = a.edge.sourceQualified from hsource]
  exact Option.some.inj (hb.symm.trans (hsame.trans ha))

theorem find_of_callerOf (h : callerOf i qn a.edge = some a.caller) :
    i.store.nodes.find a.name = some a.caller :=
  GraphReads.find_of_getNode (Option.mem_filter_iff.mp h).1

theorem Arrived.start (hw : Honest i.store w.depth w.met) :
    Arrived i w [] { w with next := [] } where
  rest := ⟨rfl, rfl, rfl, rfl⟩
  next x := by simp
  imported x := by simp
  implicit x := by simp
  honest := hw.mono (Nat.le_succ _)
  places q := by simp

theorem Arrived.withSeen (h : Arrived i w as w') (s : Finset String) :
    Arrived i w as { w' with seen := s } where
  rest := h.rest
  next := h.next
  imported := h.imported
  implicit := h.implicit
  honest := h.honest
  places := h.places

theorem Arrived.depth_eq (h : Arrived i w as w') : w'.depth = w.depth := h.rest.1

theorem Arrived.arrive (h : Arrived i w as w') (ha : callerOf i qn a.edge = some a.caller) :
    Arrived i w (as ++ [a]) (arrive i a.via a.edge a.caller w') := by
  have hmade : ∀ use, Made i.store (reachingTest (w'.depth + 1) a.caller a.via.target use) :=
    fun use => made_reachingTest (find_of_callerOf ha) _ _
  have hmet : Honest i.store (w'.depth + 1) w'.met := h.depth_eq ▸ h.honest
  unfold TestWalk.arrive
  cases htest : a.atTest i with
  | true =>
      have hif : isTestNode a.caller (relative i.root a.caller.input.filePath) = true := htest
      simp only [hif, if_true]
      refine ⟨h.rest, fun x => ?_, fun x => ?_, fun x => ?_, ?_, fun q => ?_⟩
      · rw [exists_mem_append_singleton, htest]
        simpa using h.next x
      · rw [exists_mem_append_singleton, htest]
        simpa using h.imported x
      · rw [exists_mem_append_singleton, htest]
        simpa using h.implicit x
      · exact h.depth_eq ▸ hmet.meet (hmade _) le_rfl
      · show ((meet w'.met _).lookup q).map _ = _
        rw [place_meet hmet (hmade _) le_rfl, h.places, Option.or_assoc, List.filter_append,
          List.find?_append, Option.map_or]
        have hone : [a].filter (·.atTest i) = [a] := by simp [htest]
        rw [hone]
        congr 2
        by_cases hq : a.name = q
        · have hq' : (reachingTest (w'.depth + 1) a.caller a.via.target
              (callerUse w'.valueUses a.via a.edge a.caller)).test = q := hq
          rw [if_pos hq', List.find?_cons_of_pos (by simpa using hq), h.depth_eq]
          rfl
        · have hq' : (reachingTest (w'.depth + 1) a.caller a.via.target
              (callerUse w'.valueUses a.via a.edge a.caller)).test ≠ q := hq
          rw [if_neg hq', List.find?_cons_of_neg (by simpa using hq)]
          rfl
  | false =>
      have hif : isTestNode a.caller (relative i.root a.caller.input.filePath) = false := htest
      simp only [hif, Bool.false_eq_true, if_false]
      refine ⟨h.rest, fun x => ?_, fun x => ?_, fun x => ?_, h.honest, fun q => ?_⟩
      · rw [exists_mem_append_singleton, List.mem_append, h.next x, List.mem_singleton]
        exact or_congr_right ⟨fun hx => ⟨htest, hx.symm⟩, fun hx => hx.2.symm⟩
      · rw [mem_insertIf, Bool.and_eq_true, exists_mem_append_singleton, ← or_assoc,
          ← h.imported x, and_assoc]
        exact or_congr_right (and_iff_right htest).symm
      · rw [mem_insertIf, Bool.and_eq_true, Bool.not_eq_true', exists_mem_append_singleton,
          ← or_assoc, ← h.implicit x, and_assoc]
        exact or_congr_right (and_iff_right htest).symm
      · rw [List.filter_append, List.filter_cons_of_neg (by simp [htest]), List.filter_nil,
          List.append_nil]
        exact h.places q

theorem Arrived.again (h : Arrived i w as w') (hb : b ∈ as)
    (hcaller : b.caller = a.caller) (hon : a.atTest i = false → a.carriesOn = b.carriesOn) :
    Arrived i w (as ++ [a]) w' := by
  have hname : b.name = a.name := congrArg NodeRow.qualifiedName hcaller
  have htest : b.atTest i = a.atTest i := by rw [Arrival.atTest, Arrival.atTest, hcaller]
  have hgo : ∀ p : Arrival → Prop, (p a → p b) →
      ((∃ c ∈ as ++ [a], p c) ↔ ∃ c ∈ as, p c) := fun p hp =>
    exists_mem_append_singleton.trans (or_iff_left_of_imp fun ha => ⟨b, hb, hp ha⟩)
  refine ⟨h.rest, fun x => ?_, fun x => ?_, fun x => ?_, h.honest, fun q => ?_⟩
  · rw [hgo _ fun ⟨hat, hx⟩ => ⟨htest.trans hat, hname.trans hx⟩]
    exact h.next x
  · rw [hgo _ fun ⟨hat, hc, hm, hx⟩ =>
      ⟨htest.trans hat, hon hat ▸ hc, hname ▸ hm, hname.trans hx⟩]
    exact h.imported x
  · rw [hgo _ fun ⟨hat, hc, hm, hx⟩ =>
      ⟨htest.trans hat, hon hat ▸ hc, hname ▸ hm, hname.trans hx⟩]
    exact h.implicit x
  · rw [h.places, List.filter_append, List.find?_append]
    cases hat : a.atTest i with
    | false => simp [hat]
    | true =>
        by_cases hq : a.name = q
        · have hsome : ((as.filter (·.atTest i)).find? (·.name = q)).isSome := by
            refine List.find?_isSome.mpr ⟨b, List.mem_filter.mpr ⟨hb, htest.trans hat⟩, ?_⟩
            simpa using hname.trans hq
          obtain ⟨c, hc⟩ := Option.isSome_iff_exists.mp hsome
          rw [hc]
          rfl
        · simp [hat, hq]

theorem Arrived.viaOf_eq (h : Arrived i w as w') (hu : Unanimous i qn w classes)
    (has : ∀ a ∈ as, a ∈ hopArrivals i qn w classes) {t : String}
    (ht : t ∈ targetsOf w classes) : viaOf w' classes t = viaOf w classes t := by
  have hmodule : t ∈ w'.imported ↔ t ∈ w.imported := by
    rw [h.imported]
    refine or_iff_left_of_imp ?_
    rintro ⟨a, ha, htest, hon, hpy, rfl⟩
    have hsettled := hu.2 a (has a ha) htest hon ht
    rwa [if_pos hpy] at hsettled
  have himplicit : t ∈ w'.implicit → t ∈ w.implicit ∨ (viaOf w classes t).carries = true := by
    rw [h.implicit]
    refine Or.imp_right ?_
    rintro ⟨a, ha, htest, hon, hpy, rfl⟩
    have hsettled := hu.2 a (has a ha) htest hon ht
    rwa [hpy, if_neg Bool.false_ne_true] at hsettled
  have hcarries : (viaOf w' classes t).carries = (viaOf w classes t).carries := by
    rw [Bool.eq_iff_iff]
    simp only [viaOf, Bool.or_eq_true, decide_eq_true_eq, hmodule] at himplicit ⊢
    constructor
    · rintro (hor | hin)
      · exact .inl hor
      · exact (himplicit hin).elim .inr id
    · exact Or.imp_right fun hin => (h.implicit t).mpr (.inl hin)
  have heq : viaOf w' classes t =
      ⟨t, t ∈ classes, t ∈ w'.imported, (viaOf w' classes t).carries⟩ := rfl
  rw [heq, hcarries]
  simp only [hmodule]
  rfl

theorem mem_hopArrivals : a ∈ hopArrivals i qn w classes ↔ ∃ t ∈ targetsOf w classes,
    a ∈ arrivals i qn w (viaOf w classes t) (incomingOf i w classes t) := List.mem_flatMap

theorem callerOf_of_mem_hopArrivals (h : a ∈ hopArrivals i qn w classes) :
    callerOf i qn a.edge = some a.caller := by
  obtain ⟨t, -, ha⟩ := mem_hopArrivals.mp h
  exact (mem_arrivals ha).2.2.2.2

def orderedArrivals (i : Inputs) (qn : String) (o : HashOrders) (w : Walk)
    (classes : List String) : List Arrival :=
  arrivalsAt i qn w classes (incomingOf i w classes) (o.order [w.depth] (targetsOf w classes))

theorem mem_orderedArrivals {o : HashOrders} :
    a ∈ orderedArrivals i qn o w classes ↔ a ∈ hopArrivals i qn w classes := by
  rw [orderedArrivals, arrivalsAt, List.mem_flatMap, mem_hopArrivals]
  exact exists_congr fun t => and_congr_left fun _ => (o.perm _ _).mem_iff

def hopPassed (i : Inputs) (w : Walk) (classes : List String) (s : String) : Prop :=
  ∃ t ∈ targetsOf w classes, s ∈ passed (viaOf w classes t) (incomingOf i w classes t)

theorem visitCallers_induction (i : Inputs) (qn : String) (w : Walk) (classes : List String)
    {motive : List Arrival → Walk → Prop} (o : HashOrders)
    (hseen : ∀ as w' s, motive as w' → motive as { w' with seen := s })
    (hvia : ∀ as w', motive as w' → ∀ t ∈ targetsOf w classes,
      viaOf w' classes t = viaOf w classes t)
    (hkeeps : ∀ a ∈ hopArrivals i qn w classes, Keeps i motive a)
    (hstart : motive [] { w with next := [] }) :
    motive (orderedArrivals i qn o w classes) (visitCallers i qn o w classes) ∧
      ∀ s, s ∈ (visitCallers i qn o w classes).seen ↔ s ∈ w.seen ∨ hopPassed i w classes s := by
  have hmem : ∀ t, t ∈ o.order [w.depth] (targetsOf w classes) ↔ t ∈ targetsOf w classes :=
    fun t => (o.perm _ _).mem_iff
  obtain ⟨hmotive, hmarked⟩ := foldl_visit (incomingOf i w classes) classes
    (o.order [w.depth] (targetsOf w classes)) hseen
    (fun as w' h t ht => hvia as w' h t ((hmem t).mp ht))
    (fun a ha => hkeeps a (mem_orderedArrivals.mp ha)) hstart rfl
  refine ⟨hmotive, fun s => (hmarked s).trans (or_congr_right ?_)⟩
  rw [List.mem_flatMap]
  exact exists_congr fun t => and_congr_left fun _ => hmem t

theorem visitCallers_arrived (o : HashOrders) (hw : Honest i.store w.depth w.met)
    (hu : Unanimous i qn w classes) :
    Arrived i w (orderedArrivals i qn o w classes) (visitCallers i qn o w classes) ∧
      ∀ s, s ∈ (visitCallers i qn o w classes).seen ↔ s ∈ w.seen ∨ hopPassed i w classes s := by
  have hrun := visitCallers_induction i qn w classes
    (motive := fun as w' => (∀ a ∈ as, a ∈ hopArrivals i qn w classes) ∧ Arrived i w as w') o
    (fun as w' s h => ⟨h.1, h.2.withSeen s⟩)
    (fun as w' h t ht => h.2.viaOf_eq hu h.1 ht)
    (fun a ha => ?_) ⟨fun a ha => absurd ha List.not_mem_nil, Arrived.start hw⟩
  · exact ⟨hrun.1.2, hrun.2⟩
  · have hcaller := callerOf_of_mem_hopArrivals ha
    refine ⟨fun as w' h => ⟨?_, h.2.arrive hcaller⟩, fun as w' b h hb hsource => ⟨?_, ?_⟩⟩
    · exact List.forall_mem_append.mpr ⟨h.1, List.forall_mem_singleton.mpr ha⟩
    · exact List.forall_mem_append.mpr ⟨h.1, List.forall_mem_singleton.mpr ha⟩
    · exact h.2.again hb (caller_eq hcaller (callerOf_of_mem_hopArrivals (h.1 b hb)) hsource)
        (hu.1 a ha b (h.1 b hb) hsource.symm)

end Flags

/-! ### Two orders -/

section Orders

variable {w' : Walk} {classes' : List String}

theorem mem_targetsOf {t : String} : t ∈ targetsOf w classes ↔ t ∈ w.frontier ∨ t ∈ classes := by
  rw [targetsOf, List.mem_dedup, List.mem_append]

theorem Alike.mem_targetsOf (h : Alike w w') (hclasses : ∀ k, k ∈ classes ↔ k ∈ classes')
    (t : String) : t ∈ targetsOf w classes ↔ t ∈ targetsOf w' classes' := by
  rw [TestWalk.mem_targetsOf, TestWalk.mem_targetsOf, h.frontier, hclasses]

theorem Alike.viaOf_eq (h : Alike w w') (hclasses : ∀ k, k ∈ classes ↔ k ∈ classes') :
    viaOf w classes = viaOf w' classes' := by
  funext t
  simp only [viaOf, hclasses, h.imported, h.implicit]

theorem Alike.incomingOf_eq (h : Alike w w') (hclasses : ∀ k, k ∈ classes ↔ k ∈ classes') :
    incomingOf i w classes = incomingOf i w' classes' :=
  GraphReads.incoming_congr (h.mem_targetsOf hclasses)

theorem Alike.mem_hopArrivals (h : Alike w w') (hclasses : ∀ k, k ∈ classes ↔ k ∈ classes')
    (a : Arrival) : a ∈ hopArrivals i qn w classes ↔ a ∈ hopArrivals i qn w' classes' := by
  rw [TestWalk.mem_hopArrivals, TestWalk.mem_hopArrivals, h.viaOf_eq hclasses,
    h.incomingOf_eq hclasses]
  have hsame : ∀ v es, arrivals i qn w v es = arrivals i qn w' v es := fun v es => by
    rw [arrivals, arrivals, h.seen]
  exact exists_congr fun t => and_congr (h.mem_targetsOf hclasses t) (by rw [hsame])

theorem Alike.hopPassed_iff (h : Alike w w') (hclasses : ∀ k, k ∈ classes ↔ k ∈ classes')
    (s : String) : hopPassed i w classes s ↔ hopPassed i w' classes' s := by
  unfold hopPassed
  rw [h.viaOf_eq hclasses, h.incomingOf_eq hclasses]
  exact exists_congr fun t => and_congr_left fun _ => h.mem_targetsOf hclasses t

theorem Alike.unanimous (h : Alike w w') (hclasses : ∀ k, k ∈ classes ↔ k ∈ classes')
    (hu : Unanimous i qn w classes) : Unanimous i qn w' classes' := by
  refine ⟨fun a ha b hb => hu.1 a ((h.mem_hopArrivals hclasses a).mpr ha) b
    ((h.mem_hopArrivals hclasses b).mpr hb), fun a ha htest hon ht => ?_⟩
  rw [← h.imported, ← h.viaOf_eq hclasses]
  exact hu.2 a ((h.mem_hopArrivals hclasses a).mpr ha) htest hon
    ((h.mem_targetsOf hclasses a.name).mpr ht)

theorem place_entry_eq {a b : Arrival} (ha : a ∈ hopArrivals i qn w classes)
    (hb : b ∈ hopArrivals i qn w classes) (hname : a.name = b.name) :
    (a.entry w).place = (b.entry w).place := by
  have hcaller : some a.caller = some b.caller :=
    (find_of_callerOf (callerOf_of_mem_hopArrivals ha)).symm.trans
      (hname ▸ find_of_callerOf (callerOf_of_mem_hopArrivals hb))
  rw [Arrival.entry, Arrival.entry, Option.some.inj hcaller]
  rfl

theorem visitCallers_alike (o o' : HashOrders) (h : Alike w w')
    (hclasses : ∀ k, k ∈ classes ↔ k ∈ classes') (hw : Honest i.store w.depth w.met)
    (hw' : Honest i.store w'.depth w'.met) (hu : Unanimous i qn w classes) :
    Alike (visitCallers i qn o w classes) (visitCallers i qn o' w' classes') := by
  obtain ⟨harrived, hseen⟩ := visitCallers_arrived o hw hu
  obtain ⟨harrived', hseen'⟩ := visitCallers_arrived o' hw' (h.unanimous hclasses hu)
  have hmem : ∀ a, a ∈ orderedArrivals i qn o w classes ↔
      a ∈ orderedArrivals i qn o' w' classes' := fun a => by
    rw [mem_orderedArrivals, mem_orderedArrivals, h.mem_hopArrivals hclasses]
  obtain ⟨hdepth, -, -, hfrontier⟩ := harrived.rest
  obtain ⟨hdepth', -, -, hfrontier'⟩ := harrived'.rest
  refine ⟨?_, fun x => ?_, fun x => ?_, ?_, ?_, ?_, fun q => ?_⟩
  · rw [hdepth, hdepth', h.depth]
  · rw [hfrontier, hfrontier', h.frontier]
  · rw [harrived.next, harrived'.next]
    exact exists_congr fun a => and_congr_left fun _ => hmem a
  · ext s
    rw [hseen, hseen', h.seen, h.hopPassed_iff hclasses]
  · ext x
    rw [harrived.imported, harrived'.imported, h.imported]
    exact or_congr_right (exists_congr fun a => and_congr_left fun _ => hmem a)
  · ext x
    rw [harrived.implicit, harrived'.implicit, h.implicit]
    exact or_congr_right (exists_congr fun a => and_congr_left fun _ => hmem a)
  · rw [harrived.places, harrived'.places, h.places]
    congr 1
    have hentry : (fun a : Arrival => (a.entry w').place) = fun a => (a.entry w).place := by
      funext a
      rw [Arrival.entry, Arrival.entry, h.depth]
      rfl
    rw [hentry]
    refine map_find?_congr ?_ fun a ha b hb hqa hqb => ?_
    · exact exists_congr fun a => and_congr_left fun _ => by
        rw [List.mem_filter, List.mem_filter, hmem]
    · have ha' : a ∈ hopArrivals i qn w classes :=
        mem_orderedArrivals.mp (List.mem_filter.mp ha).1
      have hb' : b ∈ hopArrivals i qn w classes :=
        mem_orderedArrivals.mp ((hmem b).mpr (List.mem_filter.mp hb).1)
      exact place_entry_eq ha' hb' ((of_decide_eq_true hqa).trans (of_decide_eq_true hqb).symm)

theorem Alike.withClasses {m m' c c' : Walk} (h : Alike m m')
    (hc : withClasses i m = some (c, classes)) (hc' : withClasses i m' = some (c', classes')) :
    Alike c c' ∧ ∀ k, k ∈ classes ↔ k ∈ classes' := by
  have hclassed := withClasses_classed hc
  have hclassed' := withClasses_classed hc'
  have hmem : ∀ k, k ∈ classes ↔ k ∈ classes' := fun k => by
    rw [hclassed.mem_classes, hclassed'.mem_classes, h.frontier]
    exact and_congr_right fun _ => exists_congr fun x => and_congr_left fun _ => h.frontier x
  refine ⟨?_, hmem⟩
  rw [hclassed.rest, hclassed'.rest]
  refine ⟨h.depth, h.frontier, h.next, h.seen, ?_, h.implicit, h.places⟩
  ext k
  show k ∈ c.imported ↔ k ∈ c'.imported
  rw [hclassed.imported, hclassed'.imported, h.imported, hmem]

theorem Alike.withClasses_eq_none {m m' : Walk} (h : Alike m m') :
    TestWalk.withClasses i m = none ↔ TestWalk.withClasses i m' = none := by
  rw [TestWalk.withClasses_eq_none, TestWalk.withClasses_eq_none]
  exact exists_congr fun x => and_congr_left fun _ => h.frontier x

theorem met_withClasses {m c : Walk} (hc : withClasses i m = some (c, classes)) :
    c.depth = m.depth ∧ c.met = m.met := by
  rw [(withClasses_classed hc).rest]
  exact ⟨rfl, rfl⟩

theorem Alike.isEmpty_met {m m' : Walk} (h : Alike m m') :
    m.met.entries.isEmpty = m'.met.entries.isEmpty := by
  rw [Bool.eq_iff_iff, Dict.isEmpty_entries_iff, Dict.isEmpty_entries_iff]
  refine forall_congr' fun q => ?_
  rw [← Option.map_eq_none_iff (f := ReachingTest.place), h.places, Option.map_eq_none_iff]

theorem Alike.isEmpty_next {m m' : Walk} (h : Alike m m') :
    m.next.isEmpty = m'.next.isEmpty := by
  rw [Bool.eq_iff_iff, List.isEmpty_iff, List.isEmpty_iff, List.eq_nil_iff_forall_not_mem,
    List.eq_nil_iff_forall_not_mem]
  exact forall_congr' fun x => not_congr (h.next x)

theorem Alike.advance {m m' : Walk} (h : Alike m m') : Alike (advance m) (advance m') :=
  ⟨congrArg (· + 1) h.depth, h.next, h.next, h.seen, h.imported, h.implicit, h.places⟩

theorem Alike.climb_cases (o o' : HashOrders) {m m' : Walk} (h : Alike m m')
    (hm : Honest i.store m.depth m.met) (hm' : Honest i.store m'.depth m'.met) :
    (climb i qn o m = none ∧ climb i qn o' m' = none) ∨
      ∃ p p', TestWalk.withClasses i m = some p ∧ TestWalk.withClasses i m' = some p' ∧
        climb i qn o m = some (visitCallers i qn o p.1 p.2) ∧
        climb i qn o' m' = some (visitCallers i qn o' p'.1 p'.2) ∧
        Honest i.store p.1.depth p.1.met ∧ Honest i.store p'.1.depth p'.1.met := by
  rw [climb, climb]
  cases hp : TestWalk.withClasses i m with
  | none =>
      rw [h.withClasses_eq_none.mp hp]
      exact .inl ⟨rfl, rfl⟩
  | some p =>
      cases hp' : TestWalk.withClasses i m' with
      | none =>
          rw [h.withClasses_eq_none.mpr hp'] at hp
          cases hp
      | some p' =>
          refine .inr ⟨p, p', rfl, rfl, rfl, rfl, ?_, ?_⟩
          · rw [(met_withClasses hp).1, (met_withClasses hp).2]
            exact hm
          · rw [(met_withClasses hp').1, (met_withClasses hp').2]
            exact hm'

theorem Alike.climb (o o' : HashOrders) {m m' : Walk} (h : Alike m m')
    (hm : Honest i.store m.depth m.met) (hm' : Honest i.store m'.depth m'.met)
    (hflags : ∀ p ∈ TestWalk.withClasses i m, Unanimous i qn p.1 p.2) :
    (TestWalk.climb i qn o m = none ∧ TestWalk.climb i qn o' m' = none) ∨
      ∃ c c', TestWalk.climb i qn o m = some c ∧ TestWalk.climb i qn o' m' = some c' ∧
        Alike c c' := by
  rcases h.climb_cases o o' hm hm' with hnone | ⟨p, p', hp, hp', hc, hc', hhonest, hhonest'⟩
  · exact .inl hnone
  · obtain ⟨halike, hmem⟩ := h.withClasses hp hp'
    exact .inr ⟨_, _, hc, hc', visitCallers_alike o o' halike hmem hhonest hhonest' (hflags p hp)⟩

end Orders

/-! ### Entries only get nearer -/

def Nearer (met met' : Dict String ReachingTest) : Prop :=
  ∀ q r, met.lookup q = some r → ∃ r', met'.lookup q = some r' ∧ r'.meeting ≤ r.meeting

theorem Nearer.refl (met : Dict String ReachingTest) : Nearer met met :=
  fun _ r hr => ⟨r, hr, le_rfl⟩

theorem Nearer.trans {met met' met'' : Dict String ReachingTest} (h : Nearer met met')
    (h' : Nearer met' met'') : Nearer met met'' := by
  intro q r hr
  obtain ⟨r', hr', hle⟩ := h q r hr
  obtain ⟨r'', hr'', hle'⟩ := h' q r' hr'
  exact ⟨r'', hr'', hle'.trans hle⟩

theorem nearer_meet {g : GraphReads} {hops : Nat} {met : Dict String ReachingTest}
    {new : ReachingTest} (hmet : Honest g hops met) (hnew : Made g new) :
    Nearer met (meet met new) := by
  intro q r hr
  rw [lookup_meet hmet hnew, hr]
  split
  · rw [keepLess]
    split
    · rename_i hlt
      exact ⟨new, rfl, hlt.le⟩
    · exact ⟨r, rfl, le_rfl⟩
  · exact ⟨r, rfl, le_rfl⟩

theorem nearer_meetDirect (qn : String) {m : Walk} (hm : Honest i.store m.depth m.met) :
    Nearer m.met (meetDirect i qn m).met := by
  intro q r hr
  rw [meetDirect_eq]
  show ∃ r', (List.foldl meet m.met _).lookup q = some r' ∧ _
  rw [lookup_meetAll hm fun n hn =>
    ⟨(directMeetings_made n hn).1, (directMeetings_made n hn).2.le⟩, hr]
  exact exists_foldl_keepLess_of_held ReachingTest.meeting r _

/-- What a hop keeps of the entries, in whatever order and whatever the callers say. -/
structure Onward (g : GraphReads) (w w' : Walk) : Prop where
  rest : w'.depth = w.depth ∧ w'.collect = w.collect ∧ w'.truncated = w.truncated
  honest : Honest g (w.depth + 1) w'.met
  nearer : Nearer w.met w'.met
  fresh : ∀ q r, w'.met.lookup q = some r → r.hops ≤ w.depth → w.met.lookup q = some r

theorem Onward.follow {w w' : Walk} (h : Onward i.store w w') (v : Via) (e : GraphEdge) :
    Onward i.store w (follow i qn v w' e) := by
  rw [TestWalk.follow]
  split
  · exact h
  · cases hcaller : callerOf i qn e with
    | none => exact ⟨h.rest, h.honest, h.nearer, h.fresh⟩
    | some caller =>
        have hmade : ∀ via use, Made i.store (reachingTest (w.depth + 1) caller via use) :=
          fun via use => made_reachingTest
            (GraphReads.find_of_getNode (Option.mem_filter_iff.mp hcaller).1) via use
        dsimp only
        rw [TestWalk.arrive]
        dsimp only
        rw [h.rest.1]
        split
        · refine ⟨⟨rfl, h.rest.2⟩, h.honest.meet (hmade _ _) le_rfl,
            h.nearer.trans (nearer_meet h.honest (hmade _ _)), fun q r hr hle => ?_⟩
          refine h.fresh q r ?_ hle
          have hold : (meet w'.met _).lookup q = some r := hr
          rw [lookup_meet h.honest (hmade _ _)] at hold
          split at hold
          · have hfold :
                [_].foldl (keepLess ReachingTest.meeting) (w'.met.lookup q) = some r := hold
            rcases (foldl_keepLess_eq_some hfold).1 with hsame | ⟨hmem, -⟩
            · exact hsame
            · rw [List.mem_singleton.mp hmem] at hle
              exact absurd hle (Nat.not_succ_le_self _)
          · exact hold
        · exact ⟨⟨rfl, h.rest.2⟩, h.honest, h.nearer, h.fresh⟩

theorem onward_visitCallers (o : HashOrders) (hw : Honest i.store w.depth w.met) :
    Onward i.store w (visitCallers i qn o w classes) := by
  have hedges : ∀ v (es : List GraphEdge) (w' : Walk), Onward i.store w w' →
      Onward i.store w (es.foldl (follow i qn v) w') := by
    intro v es
    induction es with
    | nil => exact fun w' h => h
    | cons e es ih => exact fun w' h => ih _ (h.follow v e)
  have htargets : ∀ (ts : List String) (w' : Walk), Onward i.store w w' →
      Onward i.store w (ts.foldl (visit i qn (incomingOf i w classes) classes) w') := by
    intro ts
    induction ts with
    | nil => exact fun w' h => h
    | cons t ts ih => exact fun w' h => ih _ (hedges _ _ _ h)
  refine htargets _ _ ⟨⟨rfl, rfl, rfl⟩, hw.mono (Nat.le_succ _), Nearer.refl _, fun q r hr _ => hr⟩

theorem onward_climb {o : HashOrders} {m c : Walk} (hm : Honest i.store m.depth m.met)
    (h : climb i qn o m = some c) : Onward i.store m c := by
  obtain ⟨⟨w, classes⟩, hclasses, rfl⟩ := Option.map_eq_some_iff.mp h
  have hclassed := withClasses_classed hclasses
  have hon : Onward i.store w (visitCallers i qn o w classes) := by
    refine onward_visitCallers o ?_
    rw [hclassed.rest]
    exact hm
  rw [hclassed.rest] at hon ⊢
  exact ⟨hon.rest, hon.honest, hon.nearer, hon.fresh⟩

/-! ### The passes of the loop -/

theorem hop_eq_inl {o : HashOrders} {limit : Nat} {w : Walk} {answer : Found}
    (h : hop i qn o limit w = some (.inl answer)) :
    answer = found (meetDirect i qn w) ∨
      ends limit (meetDirect i qn w) = false ∧
        ∃ c, climb i qn o (meetDirect i qn w) = some c ∧ answer = found c := by
  rw [hop] at h
  split at h
  · cases h
    exact .inl rfl
  · rename_i hends
    obtain ⟨c, hc, hor⟩ := Option.map_eq_some_iff.mp h
    split at hor
    · cases hor
      exact .inr ⟨by simpa using hends, c, hc, rfl⟩
    · cases hor

theorem hop_eq_inr {o : HashOrders} {limit : Nat} {w w' : Walk}
    (h : hop i qn o limit w = some (.inr w')) :
    ends limit (meetDirect i qn w) = false ∧
      ∃ c, climb i qn o (meetDirect i qn w) = some c ∧ w' = advance c := by
  rw [hop] at h
  split at h
  · cases h
  · rename_i hends
    obtain ⟨c, hc, hor⟩ := Option.map_eq_some_iff.mp h
    split at hor
    · cases hor
    · cases hor
      exact ⟨by simpa using hends, c, hc, rfl⟩

theorem honest_of_hop {o : HashOrders} {limit : Nat} {w w' : Walk}
    (hw : Honest i.store w.depth w.met) (h : hop i qn o limit w = some (.inr w')) :
    Honest i.store w'.depth w'.met := by
  obtain ⟨-, c, hc, rfl⟩ := hop_eq_inr h
  have hon := onward_climb (honest_meetDirect _ hw) hc
  have hdepth : (advance c).depth = (meetDirect i qn w).depth + 1 := by
    rw [advance, hon.rest.1]
  rw [hdepth]
  exact hon.honest

theorem mem_found {u : Walk} {bound : Nat} {r : ReachingTest} (hu : Honest i.store bound u.met) :
    r ∈ (found u).1 ↔ u.met.lookup r.test = some r := by
  rw [found, (sortBy_perm _ _).mem_iff, Dict.mem_values]
  constructor
  · rintro ⟨k, hk⟩
    rw [(hu k r hk).2.1]
    exact hk
  · exact fun h => ⟨_, h⟩

theorem Nearer.le_of_mem_found {met : Dict String ReachingTest} {u : Walk} {bound : Nat}
    {q : String} {r r' : ReachingTest} (h : Nearer met u.met) (hu : Honest i.store bound u.met)
    (hr : met.lookup q = some r) (hr' : r' ∈ (found u).1) (hq : r'.test = q) :
    r'.meeting ≤ r.meeting := by
  obtain ⟨r'', hr'', hle⟩ := h q r hr
  have heq := (mem_found hu).mp hr'
  rw [hq, hr''] at heq
  exact Option.some.inj heq ▸ hle

theorem meeting_le_of_walkFrom {o : HashOrders} {limit left : Nat} {w : Walk} {answer : Found}
    (hw : Honest i.store w.depth w.met) (h : walkFrom i qn o limit left w = some answer)
    {q : String} {r r' : ReachingTest} (hr : w.met.lookup q = some r) (hr' : r' ∈ answer.1)
    (hq : r'.test = q) : r'.meeting ≤ r.meeting := by
  induction left generalizing w r with
  | zero =>
      obtain rfl : found w = answer := Option.some.inj h
      exact (Nearer.refl _).le_of_mem_found hw hr hr' hq
  | succ left ih =>
      rw [walkFrom] at h
      have hdirect := honest_meetDirect qn hw
      have hnear := nearer_meetDirect qn hw
      cases hhop : hop i qn o limit w with
      | none =>
          rw [hhop] at h
          cases h
      | some step =>
          rw [hhop] at h
          cases step with
          | inl found =>
              obtain rfl : found = answer := Option.some.inj h
              rcases hop_eq_inl hhop with rfl | ⟨-, c, hc, rfl⟩
              · exact hnear.le_of_mem_found hdirect hr hr' hq
              · have hon := onward_climb hdirect hc
                exact (hnear.trans hon.nearer).le_of_mem_found hon.honest hr hr' hq
          | inr w' =>
              obtain ⟨-, c, hc, rfl⟩ := hop_eq_inr hhop
              obtain ⟨r'', hr'', hle⟩ := (hnear.trans (onward_climb hdirect hc).nearer) q r hr
              exact (ih (honest_of_hop hw hhop) h hr'').trans hle

end Hop

end TestWalk

end Dagayn
