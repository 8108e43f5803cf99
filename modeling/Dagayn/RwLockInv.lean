import Dagayn.RwLock

/-!
# What the reader/writer lock guarantees

The lock's counters, its mode stacks and its granted-but-sleeping waiters are
three separate records of the same holds. `Held` says the counters are
consistent by themselves, `Balanced` that they agree with the stacks and the
sleeping waiters, `Settled` that the head of the queue is not owed anything, and
`RwSys.Inv` adds that every waiter belongs to exactly one blocked thread.

Everything `_dispatch` does is summed up by `Grants`: it moves a prefix of the
queue to the granted waiters, counts their holds and touches no stack. The steps
of `acquire` and `release` are then accounted for by counting.
-/

namespace Dagayn

namespace RwLock

/-! ## The counters -/

/-- The counters are consistent: a writer is alone with its own shared holds, the
exclusive count and the writer go together, no shared entry is left at zero. -/
structure Held (l : RwLock) : Prop where
  alone : ∀ {t u : Tid}, l.writerTid = some t → u ≠ t → u ∉ l.shared
  counted : 0 < l.writerCount ↔ l.writerTid.isSome
  positive : ∀ {t : Tid} {n : Nat}, l.shared.lookup t = some n → 0 < n

/-- A hold of this mode can be counted for `t` without breaking `Held`. -/
def Admits (l : RwLock) (t : Tid) (exclusive : Bool) : Prop :=
  l.writerTid = some t ∨
    (l.writerTid = none ∧ (exclusive = true → ∀ u, u ≠ t → u ∉ l.shared))

theorem Held.writerCount_eq_zero {l : RwLock} (h : Held l) (hw : l.writerTid = none) :
    l.writerCount = 0 := by
  have hc := h.counted
  rw [hw] at hc
  simpa using hc

theorem getD_shared_pos {l : RwLock} (h : Held l) {t : Tid} :
    0 < Dict.getD l.shared t 0 ↔ t ∈ l.shared := by
  rw [← AList.lookup_isSome]
  unfold Dict.getD
  cases hl : l.shared.lookup t with
  | none => simp
  | some n => simpa using h.positive hl

theorem entitled_iff {l : RwLock} {w : Waiter} :
    l.entitled w = true ↔ l.writerTid = none ∧
      (w.exclusive = true → ∀ u, u ≠ w.tid → u ∉ l.shared) := by
  cases hx : w.exclusive <;>
    simp only [entitled, hx, AList.mem_keys, Option.isNone_iff_eq_none, Bool.and_eq_true,
      List.isEmpty_iff, List.filter_eq_nil_iff, decide_eq_true_eq, Bool.false_eq_true,
      if_true, if_false, false_implies, true_implies, and_true, ne_eq, not_not]
  refine and_congr_right fun _ => ⟨fun h u hu hm => hu (h u hm), fun h u hm => ?_⟩
  by_contra hu
  exact h u hu hm

theorem admits_of_entitled {l : RwLock} {w : Waiter} (h : l.entitled w = true) :
    l.Admits w.tid w.exclusive := .inr (entitled_iff.mp h)

theorem admits_of_nests {l : RwLock} (h : Held l) {t : Tid} {exclusive : Bool}
    (hn : l.nests t exclusive = true) : l.Admits t exclusive := by
  simp only [nests, Bool.or_eq_true, decide_eq_true_eq, Bool.and_eq_true,
    Bool.not_eq_true'] at hn
  rcases hn with hw | ⟨hs, hx⟩
  · exact .inl hw
  · cases hw : l.writerTid with
    | none => exact .inr ⟨hw, by simp [hx]⟩
    | some u =>
        by_cases hut : u = t
        · exact .inl (hut ▸ hw)
        · exact absurd hs (h.alone hw (Ne.symm hut))

@[simp] theorem addHold_queue (l : RwLock) (t : Tid) (m : Bool) :
    (l.addHold t m).queue = l.queue := by cases m <;> rfl

@[simp] theorem addHold_stacks (l : RwLock) (t : Tid) (m : Bool) :
    (l.addHold t m).modeStacks = l.modeStacks := by cases m <;> rfl

@[simp] theorem addHold_granted (l : RwLock) (t : Tid) (m : Bool) :
    (l.addHold t m).granted = l.granted := by cases m <;> rfl

theorem held_addHold {l : RwLock} (h : Held l) {t : Tid} {m : Bool}
    (ha : l.Admits t m) : Held (l.addHold t m) := by
  cases m with
  | true =>
      refine ⟨fun {u v} hw hv => ?_, by simp [addHold], h.positive⟩
      have hut : t = u := by simpa [addHold] using hw
      subst hut
      rcases ha with hw' | ⟨_, hfree⟩
      · exact h.alone hw' hv
      · exact hfree rfl _ hv
  | false =>
      refine ⟨fun {u v} hw hv => ?_, h.counted, fun {u n} hl => ?_⟩
      · rcases ha with hw' | ⟨hw', _⟩
        · have hut : t = u := by simpa [addHold, hw'] using hw
          subst hut
          simpa [addHold, hv] using h.alone hw' hv
        · simp [addHold, hw'] at hw
      · simp only [addHold, Bool.false_eq_true, if_false, Dict.lookup_insert_ite] at hl
        split at hl
        · cases hl; omega
        · exact h.positive hl

theorem holds_addHold {l : RwLock} (h : Held l) {t : Tid} {m : Bool}
    (ha : l.Admits t m) (u : Tid) (k : Bool) :
    (l.addHold t m).holds u k = l.holds u k + [Waiter.mk t m].count ⟨u, k⟩ := by
  cases m with
  | true =>
      cases k with
      | false => simp [addHold, holds]
      | true =>
          have hw : l.writerTid = some t ∨ (l.writerTid = none ∧ l.writerCount = 0) :=
            ha.imp_right fun hn => ⟨hn.1, h.writerCount_eq_zero hn.1⟩
          by_cases hut : u = t
          · subst hut
            rcases hw with hw | ⟨hw, h0⟩ <;> simp [addHold, holds, *]
          · rcases hw with hw | ⟨hw, h0⟩ <;> simp [addHold, holds, Ne.symm hut, *]
  | false =>
      cases k with
      | true => simp [addHold, holds]
      | false =>
          simp only [addHold, holds, Bool.false_eq_true, if_false, Dict.getD_insert]
          by_cases hut : u = t
          · simp [hut]
          · simp [hut, Ne.symm hut]

theorem entitled_of_addHold {l : RwLock} {t : Tid} {m : Bool} {w : Waiter}
    (he : (l.addHold t m).entitled w = true) : l.entitled w = true := by
  rw [entitled_iff] at he ⊢
  cases m with
  | true => simp [addHold] at he
  | false =>
      refine ⟨by simpa [addHold] using he.1, fun hx u hu hm => he.2 hx u hu ?_⟩
      simp [addHold, hm]

/-! ## What `_dispatch` does -/

def Settled (l : RwLock) : Prop := ∀ w, l.queue.head? = some w → l.entitled w = false

/-- `l'` is `l` with the waiters `gs` granted, in that order, and nothing else
changed but the queue. -/
structure Grants (l l' : RwLock) (gs : List Waiter) : Prop where
  modeStacks : l'.modeStacks = l.modeStacks
  granted : l'.granted = gs.reverse ++ l.granted
  holds : ∀ t m, l'.holds t m = l.holds t m + gs.count ⟨t, m⟩

theorem Grants.refl (l : RwLock) (q : List Waiter) : Grants l { l with queue := q } [] where
  modeStacks := rfl
  granted := rfl
  holds _ m := by cases m <;> rfl

theorem Grants.trans {l l₁ l₂ : RwLock} {gs hs : List Waiter} (h₁ : Grants l l₁ gs)
    (h₂ : Grants l₁ l₂ hs) : Grants l l₂ (gs ++ hs) where
  modeStacks := h₂.modeStacks.trans h₁.modeStacks
  granted := by rw [h₂.granted, h₁.granted]; simp
  holds t m := by rw [h₂.holds, h₁.holds, List.count_append]; omega

theorem grants_grant {l : RwLock} (h : Held l) {w : Waiter} (he : l.entitled w = true) :
    Grants l (l.grant w) [w] where
  modeStacks := by simp [grant]
  granted := by simp [grant]
  holds t m := by
    rw [← holds_addHold h (admits_of_entitled he) t m]
    cases m <;> rfl

theorem held_grant {l : RwLock} (h : Held l) {w : Waiter} (he : l.entitled w = true) :
    Held (l.grant w) := by
  have hh := held_addHold h (admits_of_entitled he)
  exact ⟨hh.alone, hh.counted, hh.positive⟩

theorem dispatchLoop_grants : ∀ {q : List Waiter} {l : RwLock}, Held l →
    Held (dispatchLoop q l) ∧ Settled (dispatchLoop q l) ∧
      ∃ gs, q = gs ++ (dispatchLoop q l).queue ∧ Grants l (dispatchLoop q l) gs
  | [], l, h => by
      simp only [dispatchLoop]
      exact ⟨⟨h.alone, h.counted, h.positive⟩, by simp [Settled], [], rfl,
        Grants.refl l []⟩
  | w :: rest, l, h => by
      simp only [dispatchLoop]
      split
      · rename_i he
        obtain ⟨hh, hs, gs, hq, hg⟩ := dispatchLoop_grants (q := rest) (held_grant h he)
        refine ⟨hh, hs, w :: gs, ?_, (grants_grant h he).trans hg⟩
        rw [List.cons_append, ← hq]
      · rename_i he
        refine ⟨⟨h.alone, h.counted, h.positive⟩, ?_, [], rfl, Grants.refl l _⟩
        intro v hv
        simp only [List.head?_cons, Option.some.injEq] at hv
        subst hv
        exact Bool.eq_false_iff.mpr he

theorem dispatch_grants {l : RwLock} (h : Held l) :
    Held l.dispatch ∧ Settled l.dispatch ∧
      ∃ gs, l.queue = gs ++ l.dispatch.queue ∧ Grants l l.dispatch gs :=
  dispatchLoop_grants h

/-- The specification of `_drop`: the waiter's place goes, the waiters behind it
move up. -/
theorem drop_grants {l : RwLock} (h : Held l) (hs : Settled l) (w : Waiter) :
    Held (l.drop w) ∧ Settled (l.drop w) ∧
      ∃ gs, l.queue.erase w = gs ++ (l.drop w).queue ∧ Grants l (l.drop w) gs := by
  unfold drop
  split
  · have h' : Held { l with queue := l.queue.erase w } :=
      ⟨h.alone, h.counted, h.positive⟩
    obtain ⟨hh, hs', gs, hq, hg⟩ := dispatch_grants h'
    refine ⟨hh, hs', gs, hq, hg.modeStacks, hg.granted, fun t m => (hg.holds t m).trans ?_⟩
    cases m <;> rfl
  · rename_i hw
    exact ⟨h, hs, [], by simp [List.erase_of_not_mem hw], Grants.refl l l.queue⟩

/-! ## The mode stacks -/

/-- The holds counted for a thread are those on its stack and those granted to
its waiter before it has woken. -/
def Balanced (l : RwLock) : Prop :=
  ∀ t m, (l.stack t).count m + l.granted.count ⟨t, m⟩ = l.holds t m

theorem Grants.balanced {l l' : RwLock} {gs : List Waiter} (h : Grants l l' gs)
    (hb : Balanced l) : Balanced l' := by
  intro t m
  have hl := hb t m
  rw [h.holds, h.granted]
  simp only [stack, h.modeStacks, List.count_append, List.count_reverse] at hl ⊢
  omega

theorem stack_pushMode (l : RwLock) (t u : Tid) (m : Bool) :
    (l.pushMode t m).stack u = if u = t then l.stack t ++ [m] else l.stack u := by
  simp only [pushMode, stack, Dict.getD_insert]

theorem count_stack_pushMode (l : RwLock) (t u : Tid) (m k : Bool) :
    ((l.pushMode t m).stack u).count k
      = (l.stack u).count k + [Waiter.mk t m].count ⟨u, k⟩ := by
  rw [stack_pushMode]
  by_cases hut : u = t
  · subst hut
    by_cases hkm : m = k <;> simp [hkm]
  · simp [hut, Ne.symm hut]

theorem holds_pushMode (l : RwLock) (t u : Tid) (m k : Bool) :
    (l.pushMode t m).holds u k = l.holds u k := by cases k <;> rfl

theorem balanced_take {l : RwLock} (h : Held l) (hb : Balanced l) {t : Tid} {m : Bool}
    (ha : l.Admits t m) : Balanced (l.take t m) := by
  intro u k
  have hl := hb u k
  have hs : (l.addHold t m).stack u = l.stack u := by simp [stack]
  rw [take, holds_pushMode, count_stack_pushMode, holds_addHold h ha, hs]
  simp only [pushMode, addHold_granted]
  omega

theorem held_take {l : RwLock} (h : Held l) {t : Tid} {m : Bool} (ha : l.Admits t m) :
    Held (l.take t m) := by
  have hh := held_addHold h ha
  exact ⟨hh.alone, hh.counted, hh.positive⟩

theorem settled_take {l : RwLock} (hs : Settled l) (t : Tid) (m : Bool) :
    Settled (l.take t m) := by
  intro w hw
  rw [Bool.eq_false_iff]
  intro he
  have hq : l.queue.head? = some w := by simpa [take, pushMode] using hw
  have he' : (l.addHold t m).entitled w = true := he
  exact absurd (entitled_of_addHold he') (Bool.eq_false_iff.mp (hs w hq))

@[simp] theorem dropHold_queue (l : RwLock) (t : Tid) (m : Bool) :
    (l.dropHold t m).queue = l.queue := by
  unfold dropHold; split <;> split <;> rfl

@[simp] theorem dropHold_stacks (l : RwLock) (t : Tid) (m : Bool) :
    (l.dropHold t m).modeStacks = l.modeStacks := by
  unfold dropHold; split <;> split <;> rfl

@[simp] theorem dropHold_granted (l : RwLock) (t : Tid) (m : Bool) :
    (l.dropHold t m).granted = l.granted := by
  unfold dropHold; split <;> split <;> rfl

theorem dropHold_spec {l : RwLock} (h : Held l) {t : Tid} {m : Bool}
    (hpos : 0 < l.holds t m) :
    Held (l.dropHold t m) ∧
      ∀ u k, (l.dropHold t m).holds u k + [Waiter.mk t m].count ⟨u, k⟩ = l.holds u k := by
  cases m with
  | true =>
      have hw : l.writerTid = some t := by
        by_contra hw
        simp [holds, hw] at hpos
      simp only [holds, hw, if_true] at hpos
      simp only [dropHold, if_true]
      split
      · rename_i h1
        refine ⟨⟨by simp, by simp, h.positive⟩, fun u k => ?_⟩
        cases k with
        | false => simp [holds]
        | true =>
            by_cases hut : u = t
            · subst hut; simp [holds, hw]; omega
            · simp [holds, hw, Ne.symm hut]
      · rename_i h1
        refine ⟨⟨h.alone, ?_, h.positive⟩, fun u k => ?_⟩
        · simp only [hw, Option.isSome_some, iff_true]; omega
        · cases k with
          | false => simp [holds]
          | true =>
              by_cases hut : u = t
              · subst hut; simp [holds, hw]; omega
              · simp [holds, hw, Ne.symm hut]
  | false =>
      simp only [holds] at hpos
      simp only [dropHold, Bool.false_eq_true, if_false]
      split
      · rename_i h1
        refine ⟨⟨fun {u v} hw hv => ?_, h.counted, fun {u n} hl => ?_⟩, fun u k => ?_⟩
        · have hvt : v ≠ t := by
            intro hvt
            subst hvt
            exact h.alone hw hv ((getD_shared_pos h).mp hpos)
          simpa [hvt] using h.alone hw hv
        · simp only [Dict.lookup_insert_ite] at hl
          split at hl
          · cases hl; exact h1
          · exact h.positive hl
        · cases k with
          | true => simp [holds]
          | false =>
              simp only [holds, Dict.getD_insert]
              by_cases hut : u = t
              · subst hut; simp; omega
              · simp [hut, Ne.symm hut]
      · rename_i h1
        refine ⟨⟨fun {u v} hw hv => ?_, h.counted, fun {u n} hl => ?_⟩, fun u k => ?_⟩
        · simp only [AList.mem_erase, not_and]
          exact fun _ => h.alone hw hv
        · simp only [Dict.lookup_erase_ite] at hl
          split at hl
          · cases hl
          · exact h.positive hl
        · cases k with
          | true => simp [holds]
          | false =>
              simp only [holds, Dict.getD_erase]
              by_cases hut : u = t
              · subst hut; simp; omega
              · simp [hut, Ne.symm hut]

theorem stack_popMode (l : RwLock) (t u : Tid) :
    (l.popMode t).stack u = if u = t then (l.stack t).dropLast else l.stack u := by
  have hpop : (l.popMode t).modeStacks = if (l.stack t).dropLast = [] then l.modeStacks.erase t
      else l.modeStacks.insert t (l.stack t).dropLast := rfl
  unfold stack at hpop ⊢
  rw [hpop]
  split
  · rename_i h0
    rw [Dict.getD_erase, h0]
  · rw [Dict.getD_insert]

theorem release_grants {l l' : RwLock} (h : Held l) (hb : Balanced l) {t : Tid}
    (hr : l.release t = .ok l') :
    Held l' ∧ Settled l' ∧ ∃ m gs, (l.stack t).getLast? = some m ∧
      l.queue = gs ++ l'.queue ∧ Grants ((l.popMode t).dropHold t m) l' gs ∧
      Balanced l' := by
  unfold release at hr
  cases hm : (l.stack t).getLast? with
  | none => simp [hm] at hr
  | some m =>
      simp only [hm, Except.ok.injEq] at hr
      subst hr
      have hstack : l.stack t = (l.stack t).dropLast ++ [m] := by
        rw [List.dropLast_append_getLast? m hm]
      have hh : Held (l.popMode t) := ⟨h.alone, h.counted, h.positive⟩
      have hholds : ∀ u k, (l.popMode t).holds u k = l.holds u k := by
        intro u k; cases k <;> rfl
      have hpos : 0 < (l.popMode t).holds t m := by
        rw [hholds, ← hb t m, hstack]
        simp only [List.count_append, List.count_singleton_self]
        omega
      obtain ⟨hd, hcount⟩ := dropHold_spec hh hpos
      obtain ⟨hg, hs, gs, hq, hgs⟩ := dispatch_grants hd
      refine ⟨hg, hs, m, gs, rfl, ?_, hgs, hgs.balanced fun u k => ?_⟩
      · rw [← hq, dropHold_queue]; rfl
      have hbu := hb u k
      have hcu := hcount u k
      rw [hholds] at hcu
      have hsu : ((l.popMode t).dropHold t m).stack u
          = if u = t then (l.stack t).dropLast else l.stack u := by
        rw [← stack_popMode]; simp only [stack, dropHold_stacks]
      have hgr : ((l.popMode t).dropHold t m).granted = l.granted := by
        rw [dropHold_granted]; rfl
      rw [hsu, hgr]
      by_cases hut : u = t
      · subst hut
        rw [hstack] at hbu
        by_cases hkm : m = k <;> simp [hkm] at hbu hcu ⊢ <;> omega
      · simp [hut, Ne.symm hut] at hcu ⊢
        omega

/-! ## One turn of the wait loop -/

theorem poll_failed {l : RwLock} {w : Waiter} {blocking : Bool} {d : Option Int}
    {now : Int} (hf : (l.poll w blocking d now).2 = .failed) :
    w ∉ l.granted ∧ (l.poll w blocking d now).1 = l.drop w := by
  unfold poll at hf ⊢
  split at hf
  · cases hf
  · rename_i hw
    refine ⟨hw, ?_⟩
    split at hf
    · rename_i hb; rw [if_neg hw, if_pos hb]
    · rename_i hb
      rw [if_neg hw, if_neg hb]
      split at hf
      · rename_i d'
        split at hf
        · rename_i hd; simp only [hd, if_true]
        · cases hf
      · cases hf

theorem poll_waiting {l : RwLock} {w : Waiter} {blocking : Bool} {d : Option Int}
    {now : Int} (hf : (l.poll w blocking d now).2 = .waiting) :
    w ∉ l.granted ∧ (l.poll w blocking d now).1 = l := by
  unfold poll at hf ⊢
  split at hf
  · cases hf
  · rename_i hw
    refine ⟨hw, ?_⟩
    split at hf
    · cases hf
    · rename_i hb
      rw [if_neg hw, if_neg hb]
      split at hf
      · rename_i d'
        split at hf
        · cases hf
        · rename_i hd; simp only [hd, if_false]
      · rfl

theorem poll_acquired {l : RwLock} {w : Waiter} {blocking : Bool} {d : Option Int}
    {now : Int} (hf : (l.poll w blocking d now).2 = .acquired) :
    w ∈ l.granted ∧ (l.poll w blocking d now).1 =
      ({ l with granted := l.granted.erase w }).pushMode w.tid w.exclusive := by
  unfold poll at hf ⊢
  split at hf
  · rename_i hw
    exact ⟨hw, by rw [if_pos hw]⟩
  · split at hf
    · cases hf
    · split at hf
      · split at hf <;> cases hf
      · cases hf

/-- The three record-keeping facts that every step maintains. -/
structure Sound (l : RwLock) : Prop where
  held : Held l
  balanced : Balanced l
  settled : Settled l

theorem poll_sound {l : RwLock} (h : Sound l) (w : Waiter) (blocking : Bool)
    (d : Option Int) (now : Int) : Sound (l.poll w blocking d now).1 := by
  cases hp : (l.poll w blocking d now).2 with
  | acquired =>
      obtain ⟨hw, he⟩ := poll_acquired hp
      rw [he]
      refine ⟨⟨h.held.alone, h.held.counted, h.held.positive⟩, fun u k => ?_, h.settled⟩
      have hb := h.balanced u k
      rw [count_stack_pushMode, holds_pushMode]
      have hst : ({ l with granted := l.granted.erase w } : RwLock).stack u = l.stack u := rfl
      have hho : ({ l with granted := l.granted.erase w } : RwLock).holds u k = l.holds u k := by
        cases k <;> rfl
      rw [hst, hho]
      simp only [pushMode]
      by_cases hwu : w = ⟨u, k⟩
      · have hpos := List.count_pos_iff.mpr hw
        subst hwu
        rw [List.count_erase_self]
        simp only [List.count_singleton_self]
        omega
      · rw [List.count_erase_of_ne (Ne.symm hwu)]
        have hne : Waiter.mk w.tid w.exclusive ≠ ⟨u, k⟩ := hwu
        simp only [List.count_singleton, beq_iff_eq, hne, if_false]
        omega
  | failed =>
      obtain ⟨-, he⟩ := poll_failed hp
      obtain ⟨hh, hs, gs, -, hg⟩ := drop_grants h.held h.settled w
      rw [he]
      exact ⟨hh, hg.balanced h.balanced, hs⟩
  | waiting =>
      rw [(poll_waiting hp).2]
      exact h

/-! ## `acquire` -/

theorem enqueue_same (l : RwLock) (w : Waiter) :
    (l.enqueue w).shared = l.shared ∧ (l.enqueue w).writerTid = l.writerTid ∧
      (l.enqueue w).writerCount = l.writerCount ∧ (l.enqueue w).modeStacks = l.modeStacks ∧
      (l.enqueue w).granted = l.granted := by
  unfold enqueue
  split <;> exact ⟨rfl, rfl, rfl, rfl, rfl⟩

theorem enqueue_count (l : RwLock) (w v : Waiter) :
    (l.enqueue w).queue.count v = l.queue.count v + [w].count v := by
  unfold enqueue
  split
  · rw [← List.singleton_append, List.count_append]; exact Nat.add_comm _ _
  · exact List.count_append

theorem holds_enqueue (l : RwLock) (w : Waiter) (t : Tid) (m : Bool) :
    (l.enqueue w).holds t m = l.holds t m := by
  obtain ⟨hs, hw, hc, -, -⟩ := enqueue_same l w
  cases m <;> simp only [holds, hs, hw, hc]

theorem held_enqueue {l : RwLock} (h : Held l) (w : Waiter) : Held (l.enqueue w) := by
  obtain ⟨hsh, hw, hc, -, -⟩ := enqueue_same l w
  refine ⟨?_, ?_, ?_⟩
  · rw [hsh, hw]; exact h.alone
  · rw [hc, hw]; exact h.counted
  · rw [hsh]; exact h.positive

theorem enqueue_dispatch_grants {l : RwLock} (h : Sound l) (w : Waiter) :
    Sound (l.enqueue w).dispatch ∧ ∃ gs,
      (l.enqueue w).queue = gs ++ (l.enqueue w).dispatch.queue ∧
      Grants l (l.enqueue w).dispatch gs := by
  obtain ⟨-, -, -, hst, hgr⟩ := enqueue_same l w
  obtain ⟨hd, hs, gs, hq, hg⟩ := dispatch_grants (held_enqueue h.held w)
  have hg' : Grants l (l.enqueue w).dispatch gs :=
    ⟨hg.modeStacks.trans hst, hg.granted.trans (by rw [hgr]),
      fun t m => (hg.holds t m).trans (by rw [holds_enqueue])⟩
  exact ⟨⟨hd, hg'.balanced h.balanced, hs⟩, gs, hq, hg'⟩

theorem acquire_sound {l : RwLock} (h : Sound l) (t : Tid) (exclusive blocking : Bool)
    (d : Option Int) (now : Int) : Sound (l.acquire t exclusive blocking d now).1 := by
  unfold acquire
  split
  · rename_i hn
    have ha := admits_of_nests h.held hn
    exact ⟨held_take h.held ha, balanced_take h.held h.balanced ha,
      settled_take h.settled t exclusive⟩
  · exact poll_sound (enqueue_dispatch_grants h _).1 _ _ _ _

theorem poll_stack {l : RwLock} (h : Sound l) (w : Waiter) (blocking : Bool)
    (d : Option Int) (now : Int) (u : Tid) :
    (l.poll w blocking d now).1.stack u
      = if u = w.tid ∧ (l.poll w blocking d now).2 = .acquired
        then l.stack u ++ [w.exclusive] else l.stack u := by
  cases hp : (l.poll w blocking d now).2 with
  | acquired =>
      rw [(poll_acquired hp).2, stack_pushMode]
      by_cases hu : u = w.tid
      · subst hu; simp only [and_self, if_true]; rfl
      · simp only [hu, false_and, if_false]; rfl
  | failed =>
      obtain ⟨-, -, gs, -, hg⟩ := drop_grants h.held h.settled w
      rw [(poll_failed hp).2]
      simp [stack, hg.modeStacks]
  | waiting =>
      rw [(poll_waiting hp).2]
      simp

theorem acquire_stack {l : RwLock} (h : Sound l) (t : Tid) (exclusive blocking : Bool)
    (d : Option Int) (now : Int) (u : Tid) :
    (l.acquire t exclusive blocking d now).1.stack u
      = if u = t ∧ (l.acquire t exclusive blocking d now).2 = .acquired
        then l.stack u ++ [exclusive] else l.stack u := by
  unfold acquire
  split
  · rw [take, stack_pushMode]
    by_cases hu : u = t <;> simp [hu, stack]
  · obtain ⟨hs, gs, -, hg⟩ := enqueue_dispatch_grants h ⟨t, exclusive⟩
    have hst : (l.enqueue ⟨t, exclusive⟩).dispatch.stack u = l.stack u := by
      simp only [stack, hg.modeStacks]
    rw [poll_stack hs, hst]

theorem dispatch_of_settled {l : RwLock} (hs : Settled l) : l.dispatch = l := by
  obtain ⟨sh, wt, wc, q, st, gr⟩ := l
  cases q with
  | nil => rfl
  | cons w rest =>
      have hw := hs w rfl
      simp only [dispatch, dispatchLoop, hw, Bool.false_eq_true, if_false]

theorem enqueue_head {l : RwLock} (hs : Settled l) {w v : Waiter}
    (hv : (l.enqueue w).queue.head? = some v) (he : (l.enqueue w).entitled v = true) :
    v = w := by
  unfold enqueue at hv he
  split at hv
  · simpa using hv.symm
  · rename_i hup
    rw [if_neg hup] at he
    cases hq : l.queue with
    | nil => simpa [hq] using hv.symm
    | cons u rest =>
        have huv : u = v := by simpa [hq] using hv
        have hu := hs u (by rw [hq]; rfl)
        subst huv
        exact absurd he (Bool.eq_false_iff.mp hu)

theorem enqueue_erase {l : RwLock} {w : Waiter} (hw : w ∉ l.queue) :
    ({ l.enqueue w with queue := (l.enqueue w).queue.erase w } : RwLock) = l := by
  unfold enqueue
  split
  · simp
  · rw [List.erase_append_right _ hw]
    simp

theorem mem_granted_dispatch {l : RwLock} (h : Held l) {w : Waiter} {rest : List Waiter}
    (hq : l.queue = w :: rest) (he : l.entitled w = true) : w ∈ l.dispatch.granted := by
  obtain ⟨-, -, gs, -, hg⟩ := dispatchLoop_grants (q := rest) (held_grant h he)
  have hd : l.dispatch = dispatchLoop rest (l.grant w) := by
    simp only [dispatch, hq, dispatchLoop, he, if_true]
  rw [hd, hg.granted]
  simp [grant]

/-- An `acquire` that fails at once leaves the lock exactly as it found it: its
place was never ahead of a waiter that could move. -/
theorem acquire_failed {l : RwLock} (h : Sound l) {t : Tid} {exclusive blocking : Bool}
    {d : Option Int} {now : Int} (hw : (⟨t, exclusive⟩ : Waiter) ∉ l.queue)
    (hf : (l.acquire t exclusive blocking d now).2 = .failed) :
    (l.acquire t exclusive blocking d now).1 = l := by
  unfold acquire at hf ⊢
  split at hf
  · cases hf
  rename_i hn
  rw [if_neg hn]
  obtain ⟨hng, hdrop⟩ := poll_failed hf
  have hset : Settled (l.enqueue ⟨t, exclusive⟩) := by
    intro v hv
    rw [Bool.eq_false_iff]
    intro he
    have hvw := enqueue_head h.settled hv he
    subst hvw
    obtain ⟨rest, hq⟩ : ∃ rest, (l.enqueue ⟨t, exclusive⟩).queue = ⟨t, exclusive⟩ :: rest := by
      cases hq : (l.enqueue ⟨t, exclusive⟩).queue with
      | nil => simp [hq] at hv
      | cons u rest => exact ⟨rest, by simpa [hq] using hv⟩
    exact hng (mem_granted_dispatch (held_enqueue h.held _) hq he)
  have hmem : (⟨t, exclusive⟩ : Waiter) ∈ (l.enqueue ⟨t, exclusive⟩).queue := by
    rw [← List.count_pos_iff, enqueue_count, List.count_singleton_self]
    omega
  rw [hdrop, dispatch_of_settled hset, drop, if_pos hmem, enqueue_erase hw,
    dispatch_of_settled h.settled]

/-! ## Waiters come and go one at a time -/

/-- How often a waiter is known to the lock: queued, or granted and asleep. -/
def waiterCount (l : RwLock) (w : Waiter) : Nat := l.queue.count w + l.granted.count w

theorem Grants.waiterCount {l l' : RwLock} {gs q : List Waiter} (h : Grants l l' gs)
    (hq : q = gs ++ l'.queue) (w : Waiter) :
    l'.waiterCount w = q.count w + l.granted.count w := by
  unfold RwLock.waiterCount
  rw [h.granted, hq, List.count_append, List.count_append, List.count_reverse]
  omega

theorem drop_waiterCount {l : RwLock} (h : Sound l) {w : Waiter}
    (hw : w ∉ l.granted) (hpos : 0 < l.waiterCount w) (v : Waiter) :
    (l.drop w).waiterCount v + [w].count v = l.waiterCount v := by
  obtain ⟨-, -, gs, hq, hg⟩ := drop_grants h.held h.settled w
  rw [hg.waiterCount hq]
  have h0 : l.granted.count w = 0 := List.count_eq_zero_of_not_mem hw
  unfold waiterCount at hpos ⊢
  by_cases hvw : v = w
  · subst hvw
    rw [List.count_erase_self, List.count_singleton_self]
    omega
  · rw [List.count_erase_of_ne hvw]
    simp [Ne.symm hvw]

theorem poll_waiterCount {l : RwLock} (h : Sound l) {w : Waiter}
    (hpos : 0 < l.waiterCount w) (blocking : Bool) (d : Option Int) (now : Int)
    (v : Waiter) :
    (l.poll w blocking d now).1.waiterCount v
        + (if (l.poll w blocking d now).2 = .waiting then 0 else [w].count v)
      = l.waiterCount v := by
  cases hp : (l.poll w blocking d now).2 with
  | acquired =>
      obtain ⟨hw, he⟩ := poll_acquired hp
      have hc := List.count_pos_iff.mpr hw
      rw [he]
      simp only [waiterCount, pushMode, reduceCtorEq, if_false]
      by_cases hvw : v = w
      · subst hvw
        rw [List.count_erase_self, List.count_singleton_self]
        omega
      · rw [List.count_erase_of_ne hvw]
        simp [Ne.symm hvw]
  | failed =>
      obtain ⟨hw, he⟩ := poll_failed hp
      rw [he]
      simpa using drop_waiterCount h hw hpos v
  | waiting =>
      rw [(poll_waiting hp).2]
      simp

theorem acquire_waiterCount {l : RwLock} (h : Sound l) (t : Tid)
    (exclusive blocking : Bool) (d : Option Int) (now : Int) (v : Waiter) :
    (l.acquire t exclusive blocking d now).1.waiterCount v
      = l.waiterCount v + (if (l.acquire t exclusive blocking d now).2 = .waiting
          then [Waiter.mk t exclusive].count v else 0) := by
  unfold acquire
  split
  · simp [waiterCount, take, pushMode]
  · obtain ⟨hs, gs, hq, hg⟩ := enqueue_dispatch_grants h ⟨t, exclusive⟩
    have hcount : ∀ v, (l.enqueue ⟨t, exclusive⟩).dispatch.waiterCount v
        = l.waiterCount v + [Waiter.mk t exclusive].count v := by
      intro v
      rw [hg.waiterCount hq, enqueue_count]
      unfold waiterCount
      omega
    have hpos : 0 < (l.enqueue ⟨t, exclusive⟩).dispatch.waiterCount ⟨t, exclusive⟩ := by
      rw [hcount, List.count_singleton_self]
      omega
    have hp := poll_waiterCount hs hpos blocking d now v
    rw [hcount] at hp
    split at hp <;> rename_i hcase <;> simp only [hcase, if_true, if_false] <;> omega

end RwLock

/-! ## The invariant of the system -/

namespace RwSys

open RwLock

/-- The lock's records agree, and its waiters are the blocked threads' own, one
each. -/
structure Inv (s : RwSys) : Prop where
  sound : Sound s.lock
  waits : ∀ w, s.lock.waiterCount w
    = if (s.blocked.lookup w.tid).map Blocked.waiter = some w then 1 else 0
  own : ∀ {t : Tid} {b : Blocked}, s.blocked.lookup t = some b → b.waiter.tid = t

theorem inv_start : Inv {} where
  sound := ⟨⟨by simp, by simp, by simp⟩,
    fun t m => by cases m <;> simp [stack, holds], by simp [Settled]⟩
  waits w := by simp [waiterCount]
  own h := by simp at h

theorem settle_lookup (s : RwSys) (b : Blocked) (r : RwLock × Poll) (u : Tid) :
    (s.settle b r).blocked.lookup u
      = if u = b.waiter.tid then (if r.2 = .waiting then some b else none)
        else s.blocked.lookup u := by
  unfold settle
  cases hr : r.2 <;>
    simp only [Dict.lookup_insert_ite, Dict.lookup_erase_ite, reduceCtorEq, if_true, if_false]

theorem inv_settle {s : RwSys} (h : Inv s) {b : Blocked} {r : RwLock × Poll}
    (hs : Sound r.1)
    (hcount : ∀ w, r.1.waiterCount w = if w.tid = b.waiter.tid then
      (if r.2 = .waiting ∧ b.waiter = w then 1 else 0) else s.lock.waiterCount w) :
    Inv (s.settle b r) where
  sound := hs
  waits w := by
    rw [settle_lookup]
    have hc : (s.settle b r).lock.waiterCount w = r.1.waiterCount w := rfl
    rw [hc, hcount w]
    by_cases hw : w.tid = b.waiter.tid
    · by_cases hr : r.2 = .waiting
      · simp [hw, hr]
      · simp [hw, hr]
    · simp only [hw, if_false]
      exact h.waits w
  own {t b'} hl := by
    rw [settle_lookup] at hl
    split at hl
    · rename_i ht
      split at hl
      · cases hl; exact ht.symm
      · cases hl
    · exact h.own hl

theorem waiterCount_eq_zero {s : RwSys} (h : Inv s) {t : Tid} (ht : t ∉ s.blocked)
    {w : Waiter} (hw : w.tid = t) : s.lock.waiterCount w = 0 := by
  rw [h.waits w, hw, AList.lookup_eq_none.mpr ht]
  rfl

theorem waiterCount_blocked {s : RwSys} (h : Inv s) {t : Tid} {b : Blocked}
    (hb : s.blocked.lookup t = some b) {w : Waiter} (hw : w.tid = t) :
    s.lock.waiterCount w = if b.waiter = w then 1 else 0 := by
  rw [h.waits w, hw, hb]
  simp

theorem inv_exec {s s' : RwSys} {a : RwAct} {o : RwOut} (h : Inv s)
    (he : s.exec a = some (o, s')) : Inv s' := by
  cases a with
  | acquire t exclusive blocking timeout start now =>
      simp only [exec] at he
      split at he
      · cases he
      · rename_i ht
        simp only [Option.some.injEq, Prod.mk.injEq] at he
        rw [← he.2]
        refine inv_settle h (acquire_sound h.sound _ _ _ _ _) fun w => ?_
        rw [acquire_waiterCount h.sound]
        by_cases hw : w.tid = t
        · rw [waiterCount_eq_zero h ht hw]
          simp only [hw, if_true, List.count_singleton, beq_iff_eq]
          split <;> simp [*]
        · have hne : Waiter.mk t exclusive ≠ w := fun heq => hw (heq ▸ rfl)
          simp [hw, hne]
  | wake t now =>
      simp only [exec] at he
      split at he
      · cases he
      · rename_i b hb
        simp only [Option.some.injEq, Prod.mk.injEq] at he
        rw [← he.2]
        have hbt := h.own hb
        have hone := waiterCount_blocked h hb hbt
        refine inv_settle h (poll_sound h.sound _ _ _ _) fun w => ?_
        have hp := poll_waiterCount h.sound (w := b.waiter) (by simp [hone]) true
          b.deadline now w
        by_cases hw : w.tid = b.waiter.tid
        · rw [waiterCount_blocked h hb (hw.trans hbt), List.count_singleton] at hp
          simp only [hw, if_true]
          by_cases hr : (s.lock.poll b.waiter true b.deadline now).2 = .waiting
          · simpa [hr] using hp
          · simpa [hr] using hp
        · have hne : b.waiter ≠ w := fun heq => hw (heq ▸ rfl)
          simpa [hw, hne] using hp
  | release t =>
      simp only [exec] at he
      split at he
      · cases he
      · split at he
        · simp only [Option.some.injEq, Prod.mk.injEq] at he
          exact he.2 ▸ h
        · rename_i l hl
          simp only [Option.some.injEq, Prod.mk.injEq] at he
          rw [← he.2]
          obtain ⟨hh, hs, m, gs, -, hq, hg, hb⟩ :=
            release_grants h.sound.held h.sound.balanced hl
          refine ⟨⟨hh, hb, hs⟩, fun w => ?_, h.own⟩
          rw [hg.waiterCount hq, dropHold_granted]
          exact h.waits w

theorem inv_reachable {s : RwSys} (h : Reachable s) : Inv s := by
  refine Reach.invariant (I := Inv) ?_ ?_ h
  · rintro s rfl
    exact inv_start
  intro s a s' _ hi _ hs
  simp only [step, Option.map_eq_some_iff] at hs
  obtain ⟨⟨o, s₁⟩, he, rfl⟩ := hs
  exact inv_exec hi he

/-! ## What callers see -/

theorem stack_eq_nil_of_exclusive {s : RwSys} (h : Inv s) {t u : Tid}
    (ht : true ∈ s.lock.stack t) (hu : u ≠ t) : s.lock.stack u = [] := by
  have hpos : 0 < s.lock.holds t true := by
    have hb := h.sound.balanced t true
    have hc := List.count_pos_iff.mpr ht
    omega
  have hw : s.lock.writerTid = some t := by
    by_contra hw
    simp [holds, hw] at hpos
  have hzero : ∀ m, s.lock.holds u m = 0 := by
    intro m
    cases m with
    | true => simp [holds, hw, Ne.symm hu]
    | false =>
        have hn := h.sound.held.alone hw hu
        by_contra h0
        exact hn ((getD_shared_pos h.sound.held).mp (Nat.pos_of_ne_zero h0))
  cases hs : s.lock.stack u with
  | nil => rfl
  | cons m rest =>
      have hb := h.sound.balanced u m
      rw [hzero, hs, List.count_cons_self] at hb
      omega

theorem exec_acquire_stack {s s' : RwSys} (h : Inv s) {t : Tid} {x b : Bool}
    {timeout start now : Int} {p : Poll}
    (he : s.exec (.acquire t x b timeout start now) = some (.poll p, s')) (u : Tid) :
    s'.lock.stack u = if u = t ∧ p = .acquired then s.lock.stack u ++ [x]
      else s.lock.stack u := by
  simp only [exec] at he
  split at he
  · cases he
  · simp only [Option.some.injEq, Prod.mk.injEq, RwOut.poll.injEq] at he
    obtain ⟨rfl, rfl⟩ := he
    exact acquire_stack h.sound t x b _ now u

theorem exec_wake_stack {s s' : RwSys} (h : Inv s) {t : Tid} {now : Int} {p : Poll}
    (he : s.exec (.wake t now) = some (.poll p, s')) :
    ∃ b, s.blocked.lookup t = some b ∧ ∀ u, s'.lock.stack u
      = if u = t ∧ p = .acquired then s.lock.stack u ++ [b.waiter.exclusive]
        else s.lock.stack u := by
  simp only [exec] at he
  split at he
  · cases he
  · rename_i b hb
    simp only [Option.some.injEq, Prod.mk.injEq, RwOut.poll.injEq] at he
    obtain ⟨rfl, rfl⟩ := he
    refine ⟨b, hb, fun u => ?_⟩
    have hs := poll_stack h.sound b.waiter true b.deadline now u
    rw [h.own hb] at hs
    exact hs

theorem exec_release_stack {s s' : RwSys} (h : Inv s) {t : Tid} {o : RwOut}
    (he : s.exec (.release t) = some (o, s')) (u : Tid) :
    s'.lock.stack u = if u = t then (s.lock.stack t).dropLast else s.lock.stack u := by
  simp only [exec] at he
  split at he
  · cases he
  · split at he
    · rename_i e hr
      simp only [Option.some.injEq, Prod.mk.injEq] at he
      obtain ⟨-, rfl⟩ := he
      have hnil : s.lock.stack t = [] := by
        unfold release at hr
        split at hr
        · rename_i hl; exact List.getLast?_eq_none_iff.mp hl
        · cases hr
      by_cases hu : u = t <;> simp [hu, hnil]
    · rename_i l hr
      simp only [Option.some.injEq, Prod.mk.injEq] at he
      obtain ⟨-, rfl⟩ := he
      obtain ⟨-, -, m, gs, -, -, hg, -⟩ := release_grants h.sound.held h.sound.balanced hr
      rw [← stack_popMode]
      simp only [stack, hg.modeStacks, dropHold_stacks]

/-- A call that fails, at once or by its deadline, only withdraws: the grants it
makes room for go to waiters of other threads. -/
theorem exec_failed {s s' : RwSys} {a : RwAct} (h : Inv s)
    (he : s.exec a = some (.poll .failed, s')) :
    Settled s'.lock ∧ (∀ w ∈ s'.lock.queue, w.tid ≠ a.tid) ∧
      ∃ gs, (∀ w ∈ gs, w ∈ s.lock.queue ∧ w.tid ≠ a.tid) ∧ Grants s.lock s'.lock gs := by
  cases a with
  | acquire t exclusive blocking timeout start now =>
      simp only [exec] at he
      split at he
      · cases he
      rename_i ht
      simp only [Option.some.injEq, Prod.mk.injEq, RwOut.poll.injEq] at he
      obtain ⟨hf, rfl⟩ := he
      have hfree : ∀ w ∈ s.lock.queue, w.tid ≠ t := by
        intro w hw hwt
        have h0 := waiterCount_eq_zero h ht hwt
        have hpos := List.count_pos_iff.mpr hw
        unfold waiterCount at h0
        omega
      have hsame := acquire_failed h.sound (fun hm => hfree _ hm rfl) hf
      simp only [settle, hsame]
      exact ⟨h.sound.settled, hfree, [], by simp, Grants.refl s.lock s.lock.queue⟩
  | wake t now =>
      simp only [exec] at he
      split at he
      · cases he
      rename_i b hb
      simp only [Option.some.injEq, Prod.mk.injEq, RwOut.poll.injEq] at he
      obtain ⟨hf, rfl⟩ := he
      have hbt := h.own hb
      obtain ⟨hw, hdrop⟩ := poll_failed hf
      obtain ⟨hh, hs, gs, hq, hg⟩ := drop_grants h.sound.held h.sound.settled b.waiter
      have hown : ∀ w ∈ s.lock.queue.erase b.waiter, w.tid ≠ t := by
        intro w hm hwt
        have hone := waiterCount_blocked h hb hwt
        have hpos := List.count_pos_iff.mpr hm
        unfold waiterCount at hone
        by_cases hbw : b.waiter = w
        · subst hbw
          rw [List.count_erase_self] at hpos
          simp only [if_true] at hone
          omega
        · rw [List.count_erase_of_ne (Ne.symm hbw)] at hpos
          simp only [hbw, if_false] at hone
          omega
      simp only [settle, hdrop]
      refine ⟨hs, fun w hm => hown w ?_, gs, fun w hm => ⟨?_, hown w ?_⟩, hg⟩
      · rw [hq]; simp [hm]
      · refine List.mem_of_mem_erase (a := w) (b := b.waiter) ?_
        rw [hq]; simp [hm]
      · rw [hq]; simp [hm]
  | release t =>
      simp only [exec] at he
      split at he
      · cases he
      · split at he <;> simp at he

theorem exec_blocked {s s' : RwSys} (h : Inv s) {a : RwAct} {o : RwOut}
    (he : s.exec a = some (o, s')) {u : Tid} (hu : u ≠ a.tid) :
    s'.blocked.lookup u = s.blocked.lookup u := by
  cases a with
  | acquire t exclusive blocking timeout start now =>
      simp only [exec] at he
      split at he
      · cases he
      · simp only [Option.some.injEq, Prod.mk.injEq] at he
        rw [← he.2, settle_lookup]
        exact if_neg hu
  | wake t now =>
      simp only [exec] at he
      split at he
      · cases he
      · rename_i b hb
        simp only [Option.some.injEq, Prod.mk.injEq] at he
        rw [← he.2, settle_lookup, h.own hb]
        exact if_neg hu
  | release t =>
      simp only [exec] at he
      split at he
      · cases he
      · split at he <;> simp only [Option.some.injEq, Prod.mk.injEq] at he <;> rw [← he.2]

theorem exec_acquire_waiting {s s' : RwSys} {t : Tid} {x b : Bool}
    {timeout start now : Int}
    (he : s.exec (.acquire t x b timeout start now) = some (.poll .waiting, s')) :
    ∃ d, s'.blocked.lookup t = some ⟨⟨t, x⟩, d⟩ := by
  simp only [exec] at he
  split at he
  · cases he
  · simp only [Option.some.injEq, Prod.mk.injEq, RwOut.poll.injEq] at he
    refine ⟨deadlineOf b timeout start, ?_⟩
    rw [← he.2, settle_lookup, he.1]
    simp

theorem exec_wake_waiting {s s' : RwSys} (h : Inv s) {t : Tid} {now : Int}
    (he : s.exec (.wake t now) = some (.poll .waiting, s')) :
    s'.blocked.lookup t = s.blocked.lookup t := by
  simp only [exec] at he
  split at he
  · cases he
  · rename_i b hb
    simp only [Option.some.injEq, Prod.mk.injEq, RwOut.poll.injEq] at he
    rw [← he.2, settle_lookup, he.1, h.own hb, hb]
    simp

/-- In every state the lock can reach: a writer shares the field with nobody, the
exclusive count and the writer go together, every thread's stack and its holds
granted but not yet noticed add up to what is counted for it, and a call that
fails or times out leaves all holds in place, hands its room only to waiters of
other threads, and leaves a queue whose head is owed nothing. -/
theorem rwThreadLock_safe {s : RwSys} (h : Reachable s) :
    (∀ t, s.lock.writerTid = some t → ∀ u, u ≠ t → u ∉ s.lock.shared) ∧
    (0 < s.lock.writerCount ↔ s.lock.writerTid.isSome) ∧
    (∀ t m, (s.lock.stack t).count m + s.lock.granted.count ⟨t, m⟩ = s.lock.holds t m) ∧
    ∀ a s', s.exec a = some (.poll .failed, s') →
      s'.lock.modeStacks = s.lock.modeStacks ∧
      (∃ gs : List Waiter, (∀ w ∈ gs, w ∈ s.lock.queue ∧ w.tid ≠ a.tid) ∧
        s'.lock.granted = gs.reverse ++ s.lock.granted ∧
        ∀ t m, s'.lock.holds t m = s.lock.holds t m + gs.count ⟨t, m⟩) ∧
      (∀ w ∈ s'.lock.queue, w.tid ≠ a.tid) ∧
      ∀ w, s'.lock.queue.head? = some w → s'.lock.entitled w = false := by
  have hi := inv_reachable h
  refine ⟨fun t ht u hu => hi.sound.held.alone ht hu, hi.sound.held.counted,
    hi.sound.balanced, fun a s' he => ?_⟩
  obtain ⟨hs, hgone, gs, hgs, hg⟩ := exec_failed hi he
  exact ⟨hg.modeStacks, ⟨gs, hgs, hg.granted, hg.holds⟩, hgone, hs⟩

/-- A reader inside the lock, a writer queued behind it and a second reader behind
the writer; the writer times out and the second reader is granted in its sleep. -/
def timeoutRun : List RwAct :=
  [.acquire 1 false true 10 0 0, .acquire 2 true true 5 0 0, .acquire 3 false true 10 0 1,
    .wake 2 6]

theorem rwThreadLock_safe_timeout :
    ∃ s, Reachable s ∧ s.lock.holds 3 false = 1 ∧ s.lock.stack 3 = [] ∧
      (s.lock.stack 3).count false + s.lock.granted.count ⟨3, false⟩
        = s.lock.holds 3 false := by
  obtain ⟨s, hr, hs⟩ := exists_reach_of_run (· = {}) step
    anyStep {} timeoutRun
    (fun s => s.lock.holds 3 false = 1 && s.lock.stack 3 = []) rfl (by decide)
  simp only [Bool.and_eq_true, decide_eq_true_eq] at hs
  exact ⟨s, hr, hs.1, hs.2, (rwThreadLock_safe hr).2.2.1 3 false⟩

end RwSys

end Dagayn
