import Mathlib

/-!
# Replacing stretches of a list

`substitute n new S l` writes `new` over the `n` elements at each position of `S`. A
program that does it in place goes from the last position to the first, so that the
positions in front stay valid; `spliceAll_eq` says this comes to the same.
-/

namespace Dagayn

variable {α : Type}

/-- `l` starts at position `start`; so do the positions count. -/
def substituteFrom (n : Nat) (new : List α) : Nat → List Nat → List α → List α
  | _, [], l => l
  | start, s :: S, l =>
      l.take (s - start) ++ (new ++ substituteFrom n new (s + n) S (l.drop (s - start + n)))

def substitute (n : Nat) (new : List α) (S : List Nat) (l : List α) : List α :=
  substituteFrom n new 0 S l

def splice (n : Nat) (new l : List α) (s : Nat) : List α :=
  l.take s ++ (new ++ l.drop (s + n))

def spliceAll (n : Nat) (new : List α) (S : List Nat) (l : List α) : List α :=
  S.reverse.foldl (splice n new) l

/-- Stretches of `n` elements that follow one another inside `l`. -/
structure Apart (n start : Nat) (S : List Nat) (l : List α) : Prop where
  pairwise : S.Pairwise fun s t => s + n ≤ t
  ge : ∀ s ∈ S, start ≤ s
  le : ∀ s ∈ S, s + n ≤ start + l.length

theorem Apart.tail {n start s : Nat} {S : List Nat} {l : List α}
    (h : Apart n start (s :: S) l) : Apart n (s + n) S (l.drop (s - start + n)) := by
  have hpair := List.pairwise_cons.mp h.pairwise
  have hge := h.ge s List.mem_cons_self
  have hle := h.le s List.mem_cons_self
  refine ⟨hpair.2, fun t ht => hpair.1 t ht, fun t ht => ?_⟩
  have hlt := h.le t (List.mem_cons_of_mem _ ht)
  rw [List.length_drop]
  omega

variable {n start : Nat} {new : List α} {S : List Nat} {l : List α}

theorem spliceAll_from (h : Apart n start S l) {pre : List α} (hpre : pre.length = start) :
    spliceAll n new S (pre ++ l) = pre ++ substituteFrom n new start S l := by
  induction S generalizing start pre l with
  | nil => rfl
  | cons s S ih =>
      have hge := h.ge s List.mem_cons_self
      have hle := h.le s List.mem_cons_self
      have hsplit : pre ++ l = (pre ++ l.take (s - start + n)) ++ l.drop (s - start + n) := by
        rw [List.append_assoc, List.take_append_drop]
      have hlen : (pre ++ l.take (s - start + n)).length = s + n := by
        rw [List.length_append, List.length_take]
        omega
      have hrest := ih h.tail hlen
      have htake : (pre ++ l.take (s - start + n)).take s = pre ++ l.take (s - start) := by
        rw [List.take_append, List.take_of_length_le (by omega), List.take_take, hpre,
          Nat.min_eq_left (by omega)]
      unfold spliceAll at hrest ⊢
      rw [List.reverse_cons, List.foldl_append, hsplit, hrest, List.foldl_cons, List.foldl_nil,
        splice, List.take_append_of_le_length (by omega), htake, List.drop_append,
        List.drop_of_length_le (by omega), hlen, Nat.sub_self, List.drop_zero, List.nil_append,
        substituteFrom, List.append_assoc]

theorem spliceAll_eq (h : Apart n 0 S l) : spliceAll n new S l = substitute n new S l :=
  spliceAll_from h (rfl : ([] : List α).length = 0)

theorem substituteFrom_append (h : Apart n start S l) (e : List α) :
    substituteFrom n new start S (l ++ e) = substituteFrom n new start S l ++ e := by
  induction S generalizing start l with
  | nil => rfl
  | cons s S ih =>
      have hge := h.ge s List.mem_cons_self
      have hle := h.le s List.mem_cons_self
      rw [substituteFrom, substituteFrom, List.take_append_of_le_length (by omega),
        List.drop_append_of_le_length (by omega), ih h.tail]
      simp only [List.append_assoc]

theorem mem_substituteFrom {a : α} (h : a ∈ substituteFrom n new start S l) :
    a ∈ l ∨ a ∈ new := by
  induction S generalizing start l with
  | nil => exact .inl h
  | cons s S ih =>
      rw [substituteFrom, List.mem_append, List.mem_append] at h
      rcases h with h | h | h
      · exact .inl (List.mem_of_mem_take h)
      · exact .inr h
      · rcases ih h with h | h
        · exact .inl (List.mem_of_mem_drop h)
        · exact .inr h

variable (new) in
theorem substituteFrom_at {s : Nat} (hs : s ∈ S) (h : Apart n start S l) :
    ∃ A S' , Apart n (s + n) S' (l.drop (s - start + n)) ∧
      substituteFrom n new start S l =
        A ++ (new ++ substituteFrom n new (s + n) S' (l.drop (s - start + n))) := by
  induction S generalizing start l with
  | nil => cases hs
  | cons t S ih =>
      have hge := h.ge t List.mem_cons_self
      rcases List.mem_cons.mp hs with rfl | hs
      · exact ⟨_, S, h.tail, rfl⟩
      · have hts := (List.pairwise_cons.mp h.pairwise).1 s hs
        obtain ⟨A, S', hapart, heq⟩ := ih hs h.tail
        have hdrop : (l.drop (t - start + n)).drop (s - (t + n) + n) = l.drop (s - start + n) := by
          rw [List.drop_drop]
          congr 1
          omega
        rw [hdrop] at hapart heq
        refine ⟨l.take (t - start) ++ (new ++ A), S', hapart, ?_⟩
        rw [substituteFrom, heq]
        simp only [List.append_assoc]

theorem substituteFrom_ne_nil (hnew : new ≠ []) (hl : l ≠ []) :
    substituteFrom n new start S l ≠ [] := by
  cases S with
  | nil => exact hl
  | cons s S => simp [substituteFrom, hnew]

/-- The elements at every position of `S` are `old`. -/
def AllAt (old : List α) (start : Nat) (S : List Nat) (l : List α) : Prop :=
  ∀ s ∈ S, old <+: l.drop (s - start)

theorem AllAt.head {old : List α} {s : Nat} (h : AllAt old start (s :: S) l) :
    l = l.take (s - start) ++ (old ++ l.drop (s - start + old.length)) := by
  obtain ⟨t, ht⟩ := h s List.mem_cons_self
  have hdrop : l.drop (s - start + old.length) = t := by
    rw [← List.drop_drop, ← ht, List.drop_left]
  rw [hdrop, ht, List.take_append_drop]

theorem AllAt.tail {old : List α} {s : Nat} (h : AllAt old start (s :: S) l)
    (hapart : Apart old.length start (s :: S) l) :
    AllAt old (s + old.length) S (l.drop (s - start + old.length)) := by
  intro t ht
  have hst := (List.pairwise_cons.mp hapart.pairwise).1 t ht
  have hge := hapart.ge s List.mem_cons_self
  have hsum : s - start + old.length + (t - (s + old.length)) = t - start := by omega
  rw [List.drop_drop, hsum]
  exact h t (List.mem_cons_of_mem _ ht)

theorem substituteFrom_self {old : List α} (hapart : Apart old.length start S l)
    (hat : AllAt old start S l) : substituteFrom old.length old start S l = l := by
  induction S generalizing start l with
  | nil => rfl
  | cons s S ih =>
      rw [substituteFrom, ih hapart.tail (hat.tail hapart)]
      exact hat.head.symm

variable (new) in
theorem length_substituteFrom (hapart : Apart n start S l) :
    (substituteFrom n new start S l).length + S.length * n = l.length + S.length * new.length := by
  induction S generalizing start l with
  | nil => simp [substituteFrom]
  | cons s S ih =>
      have hge := hapart.ge s List.mem_cons_self
      have hle := hapart.le s List.mem_cons_self
      have hrest := ih hapart.tail
      rw [List.length_drop] at hrest
      rw [substituteFrom, List.length_append, List.length_append, List.length_take,
        List.length_cons, Nat.add_one_mul, Nat.add_one_mul, Nat.min_eq_left (by omega)]
      omega

theorem Apart.sublist {T : List Nat} (h : Apart n start T l) (hsub : S.Sublist T) :
    Apart n start S l :=
  ⟨h.pairwise.sublist hsub, fun s hs => h.ge s (hsub.subset hs),
    fun s hs => h.le s (hsub.subset hs)⟩

theorem substituteFrom_skip {old : List α} {t : Nat} (hhead : AllAt old start (t :: S) l)
    (hge : start ≤ t)
    (hS : Apart old.length (t + old.length) S (l.drop (t - start + old.length))) :
    substituteFrom old.length new start S l =
      l.take (t - start) ++ (old ++ substituteFrom old.length new (t + old.length) S
        (l.drop (t - start + old.length))) := by
  have hsplit := hhead.head
  cases S with
  | nil => exact hsplit
  | cons s S =>
      have hs := hS.ge s List.mem_cons_self
      have hsum : s - start = t - start + old.length + (s - (t + old.length)) := by omega
      have htake : l.take (t - start + old.length) = l.take (t - start) ++ old := by
        obtain ⟨r, hr⟩ := hhead t List.mem_cons_self
        rw [List.take_add, ← hr, List.take_left]
      rw [substituteFrom, substituteFrom, hsum, List.take_add, htake, List.drop_drop, Nat.add_assoc]
      simp only [List.append_assoc]

theorem eq_of_substituteFrom_eq {old : List α} {T : List Nat} (hne : old ≠ new)
    (hapart : Apart old.length start T l) (hat : AllAt old start T l) (hsub : S.Sublist T)
    (heq : substituteFrom old.length new start S l = substituteFrom old.length new start T l) :
    S = T := by
  induction T generalizing start l S with
  | nil => exact List.sublist_nil.mp hsub
  | cons t T ih =>
      have hge := hapart.ge t List.mem_cons_self
      rcases List.sublist_cons_iff.mp hsub with hsub' | ⟨S', rfl, hsub'⟩
      · -- `t` is left out: the lengths leave room only for a name as long as the old one
        have hS := hapart.tail.sublist hsub'
        have hatS : AllAt old start (t :: S) l :=
          fun s hs => hat s ((hsub'.cons_cons t).subset hs)
        rw [substituteFrom_skip hatS hge hS, substituteFrom] at heq
        have hrest := List.append_cancel_left heq
        have hlenS := length_substituteFrom new hS
        have hlenT := length_substituteFrom new hapart.tail
        have hlen := congrArg List.length hrest
        obtain ⟨d, hd⟩ := Nat.exists_eq_add_of_le hsub'.length_le
        rw [List.length_append, List.length_append] at hlen
        rw [hd, Nat.add_mul, Nat.add_mul] at hlenT
        have hscaled : (d + 1) * old.length = (d + 1) * new.length := by
          rw [Nat.add_one_mul, Nat.add_one_mul]
          omega
        have hsame := Nat.eq_of_mul_eq_mul_left (Nat.succ_pos d) hscaled
        exact absurd (List.append_inj hrest hsame).1 hne
      · have heq' := heq
        rw [substituteFrom, substituteFrom] at heq'
        have hrest := List.append_cancel_left (List.append_cancel_left heq')
        rw [ih hapart.tail (hat.tail hapart) hsub' hrest]

end Dagayn
