import Mathlib

/-!
# Depth-first walks

A recursive walk over entries with one list of the nodes that were seen. An entry either gives
values or opens a node, and what is behind a node is walked when the node is opened for the first
time. A walk that ends has found what the entries within reach of its root give and nothing else
(`mem_found_iff`), and where there are finitely many nodes it ends (`exists_walk`).
-/

namespace Dagayn

/-- A graph of entries: each gives values or opens a node, with the entries behind it. -/
structure DepthFirst (ε ν α : Type) where
  place : ε → ν ⊕ List α
  next : ν → List ε

namespace DepthFirst

variable {ε ν α : Type} (w : DepthFirst ε ν α)

/-- What a walk leaves: the nodes seen and the values found. -/
structure Trail (ν α : Type) where
  seen : List ν
  found : List α

/-- One entry is behind the node of another. -/
def Leads (e e' : ε) : Prop := ∃ n, w.place e = .inl n ∧ e' ∈ w.next n

def Reaches : ε → ε → Prop := Relation.ReflTransGen w.Leads

def Gives (e : ε) (a : α) : Prop := ∃ found, w.place e = .inr found ∧ a ∈ found

section Walk

variable [DecidableEq ν]

/-- The walk at one entry, with what it does behind a node. -/
def enter (deeper : List ε → Trail ν α → Option (Trail ν α)) (e : ε) (t : Trail ν α) :
    Option (Trail ν α) :=
  match w.place e with
  | .inr found => some { t with found := t.found ++ found }
  | .inl n => if n ∈ t.seen then some t else deeper (w.next n) { t with seen := n :: t.seen }

/-- `none`: the recursion would go deeper than the bound. -/
def walk : Nat → ε → Trail ν α → Option (Trail ν α)
  | 0 => w.enter fun _ _ => none
  | depth + 1 => w.enter fun es t => es.foldlM (fun t e => walk depth e t) t

end Walk

/-! ## What a walk leaves -/

/-- Nothing is left to do for the entry. -/
def Done (t : Trail ν α) (e : ε) : Prop :=
  (∀ n, w.place e = .inl n → n ∈ t.seen) ∧ ∀ a, w.Gives e a → a ∈ t.found

/-- Some entries have been walked. -/
structure Walked (es : List ε) (t t' : Trail ν α) : Prop where
  seen : t.seen ⊆ t'.seen
  found : t.found ⊆ t'.found
  done : ∀ e ∈ es, w.Done t' e
  closed : ∀ n ∈ t'.seen, n ∉ t.seen → ∀ e ∈ w.next n, w.Done t' e
  origin : ∀ a ∈ t'.found, a ∈ t.found ∨ ∃ e ∈ es, ∃ e', w.Reaches e e' ∧ w.Gives e' a

variable {w} {t t' t'' : Trail ν α} {e : ε} {es : List ε}

theorem Done.mono (h : w.Done t e) (hseen : t.seen ⊆ t'.seen) (hfound : t.found ⊆ t'.found) :
    w.Done t' e := ⟨fun n hn => hseen (h.1 n hn), fun a ha => hfound (h.2 a ha)⟩

theorem Walked.nil : w.Walked [] t t where
  seen := List.Subset.refl _
  found := List.Subset.refl _
  done _ he := absurd he List.not_mem_nil
  closed _ hn hnot := absurd hn hnot
  origin _ ha := .inl ha

theorem Walked.cons (h : w.Walked [e] t t') (h' : w.Walked es t' t'') :
    w.Walked (e :: es) t t'' where
  seen := List.Subset.trans h.seen h'.seen
  found := List.Subset.trans h.found h'.found
  done a ha := by
    rcases List.mem_cons.mp ha with rfl | ha
    · exact (h.done a List.mem_cons_self).mono h'.seen h'.found
    · exact h'.done a ha
  closed n hn hnot a ha := by
    by_cases hmem : n ∈ t'.seen
    · exact (h.closed n hmem hnot a ha).mono h'.seen h'.found
    · exact h'.closed n hn hmem a ha
  origin a ha := by
    rcases h'.origin a ha with ha | ⟨b, hb, hreach⟩
    · refine (h.origin a ha).imp_right fun ⟨b, hb, hreach⟩ => ⟨b, ?_, hreach⟩
      exact List.mem_singleton.mp hb ▸ List.mem_cons_self
    · exact .inr ⟨b, List.mem_cons_of_mem e hb, hreach⟩

theorem Walked.opened {n : ν} (hplace : w.place e = .inl n)
    (h : w.Walked (w.next n) { t with seen := n :: t.seen } t') : w.Walked [e] t t' where
  seen := List.Subset.trans (List.subset_cons_self n t.seen) h.seen
  found := h.found
  done a ha := by
    obtain rfl := List.mem_singleton.mp ha
    refine ⟨fun m hm => ?_, fun b ⟨found, hfound, _⟩ => ?_⟩
    · obtain rfl := Sum.inl.inj (hplace.symm.trans hm)
      exact h.seen List.mem_cons_self
    · exact absurd (hplace.symm.trans hfound) Sum.inl_ne_inr
  closed m hm hnot a ha := by
    by_cases heq : m = n
    · subst heq
      exact h.done a ha
    · exact h.closed m hm (fun hmem => (List.mem_cons.mp hmem).elim heq hnot) a ha
  origin a ha := by
    refine (h.origin a ha).imp_right fun ⟨b, hb, e', hreach, hgives⟩ => ?_
    exact ⟨e, List.mem_singleton_self e, e', hreach.head ⟨n, hplace, hb⟩, hgives⟩

theorem walked_enter [DecidableEq ν] {deeper : List ε → Trail ν α → Option (Trail ν α)}
    (hdeeper : ∀ es t t', deeper es t = some t' → w.Walked es t t')
    (h : w.enter deeper e t = some t') : w.Walked [e] t t' := by
  unfold enter at h
  split at h
  · rename_i found hplace
    obtain rfl := Option.some.inj h
    refine ⟨List.Subset.refl _, List.subset_append_left _ _, fun a ha => ?_,
      fun n hn hnot => absurd hn hnot, fun a ha => ?_⟩
    · obtain rfl := List.mem_singleton.mp ha
      refine ⟨fun n hn => absurd (hn.symm.trans hplace) Sum.inl_ne_inr, fun b ⟨_, heq, hb⟩ => ?_⟩
      obtain rfl := Sum.inr.inj (hplace.symm.trans heq)
      exact List.mem_append_right _ hb
    · exact (List.mem_append.mp ha).imp_right fun ha =>
        ⟨e, List.mem_singleton_self e, e, .refl, found, hplace, ha⟩
  · rename_i n hplace
    split at h
    · rename_i hseen
      obtain rfl := Option.some.inj h
      refine ⟨List.Subset.refl _, List.Subset.refl _, fun a ha => ?_,
        fun n hn hnot => absurd hn hnot, fun a ha => .inl ha⟩
      obtain rfl := List.mem_singleton.mp ha
      refine ⟨fun m hm => ?_, fun b ⟨_, heq, _⟩ => ?_⟩
      · exact Sum.inl.inj (hplace.symm.trans hm) ▸ hseen
      · exact absurd (hplace.symm.trans heq) Sum.inl_ne_inr
    · exact .opened hplace (hdeeper _ _ _ h)

theorem walked_foldlM {f : Trail ν α → ε → Option (Trail ν α)}
    (hf : ∀ t e t', f t e = some t' → w.Walked [e] t t') (h : es.foldlM f t = some t') :
    w.Walked es t t' := by
  induction es generalizing t with
  | nil => exact Option.some.inj h ▸ .nil
  | cons e es ih =>
      rw [List.foldlM_cons] at h
      obtain ⟨t₁, h₁, h⟩ := Option.bind_eq_some_iff.mp h
      exact (hf t e t₁ h₁).cons (ih h)

section Walk

variable [DecidableEq ν]

theorem walked_walk {depth : Nat} (h : w.walk depth e t = some t') : w.Walked [e] t t' := by
  induction depth generalizing e t t' with
  | zero => exact walked_enter (fun _ _ _ h => absurd h (Option.some_ne_none _).symm) h
  | succ depth ih => exact walked_enter (fun _ _ _ h => walked_foldlM (fun _ _ _ h => ih h) h) h

theorem mem_found_iff {depth : Nat} (h : w.walk depth e ⟨[], []⟩ = some t) {a : α} :
    a ∈ t.found ↔ ∃ e', w.Reaches e e' ∧ w.Gives e' a := by
  have hwalked := walked_walk h
  constructor
  · intro ha
    obtain ⟨b, hb, hreach⟩ := (hwalked.origin a ha).resolve_left List.not_mem_nil
    exact List.mem_singleton.mp hb ▸ hreach
  · rintro ⟨e', hreach, hgives⟩
    have hdone : w.Done t e' := by
      clear hgives
      induction hreach with
      | refl => exact hwalked.done e List.mem_cons_self
      | tail _ hleads ih =>
          obtain ⟨n, hplace, hmem⟩ := hleads
          exact hwalked.closed n (ih.1 n hplace) List.not_mem_nil _ hmem
    exact hdone.2 a hgives

/-! ## A walk ends -/

/-- The nodes that are left to open. -/
def unseen (bound seen : List ν) : List ν := bound.filter (· ∉ seen)

theorem length_unseen_lt {bound seen : List ν} {n : ν} (hbound : n ∈ bound) (hseen : n ∉ seen) :
    (unseen bound (n :: seen)).length < (unseen bound seen).length := by
  have hsub : unseen bound (n :: seen) = (unseen bound seen).filter (· ≠ n) := by
    rw [unseen, unseen, List.filter_filter]
    refine List.filter_congr fun m _ => ?_
    simp only [List.mem_cons, not_or, ne_eq, Bool.decide_and]
  rw [hsub]
  exact List.length_filter_lt_length_iff_exists.mpr
    ⟨n, List.mem_filter.mpr ⟨hbound, decide_eq_true hseen⟩, by simp⟩

theorem length_unseen_le {bound seen seen' : List ν} (h : seen ⊆ seen') :
    (unseen bound seen').length ≤ (unseen bound seen).length := by
  refine (List.monotone_filter_right bound fun n hn => ?_).length_le
  exact decide_eq_true fun hmem => of_decide_eq_true hn (h hmem)

theorem exists_walk (bound : List ν) (hnext : ∀ n ∈ bound, ∀ e ∈ w.next n, ∀ m,
    w.place e = .inl m → m ∈ bound) {depth : Nat} (hdepth : (unseen bound t.seen).length ≤ depth)
    (he : ∀ n, w.place e = .inl n → n ∈ bound) : ∃ t', w.walk depth e t = some t' := by
  induction depth generalizing e t with
  | zero =>
      unfold walk enter
      split
      · exact ⟨_, rfl⟩
      · rename_i n hplace
        by_cases hseen : n ∈ t.seen
        · exact ⟨t, if_pos hseen⟩
        · exact absurd (length_unseen_lt (he n hplace) hseen) (by omega)
  | succ depth ih =>
      unfold walk enter
      split
      · exact ⟨_, rfl⟩
      · rename_i n hplace
        by_cases hseen : n ∈ t.seen
        · exact ⟨t, if_pos hseen⟩
        · rw [if_neg hseen]
          have hlt := length_unseen_lt (he n hplace) hseen
          have hall : ∀ es : List ε, (∀ e ∈ es, ∀ m, w.place e = .inl m → m ∈ bound) →
              ∀ t : Trail ν α, (unseen bound t.seen).length ≤ depth →
                ∃ t', es.foldlM (fun t e => w.walk depth e t) t = some t' := by
            intro es
            induction es with
            | nil => exact fun _ t _ => ⟨t, rfl⟩
            | cons e es ihes =>
                intro hes t ht
                obtain ⟨t₁, h₁⟩ := ih ht (hes e List.mem_cons_self)
                obtain ⟨t₂, h₂⟩ := ihes (fun e he => hes e (List.mem_cons_of_mem _ he)) t₁
                  (Nat.le_trans (length_unseen_le (walked_walk h₁).seen) ht)
                exact ⟨t₂, by rw [List.foldlM_cons, h₁]; exact h₂⟩
          exact hall (w.next n) (hnext n (he n hplace)) ⟨n :: t.seen, t.found⟩
            (Nat.le_of_lt_succ (Nat.lt_of_lt_of_le hlt hdepth))

end Walk

end DepthFirst

end Dagayn
