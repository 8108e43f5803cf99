import Mathlib

/-!
# Wildcard expressions

What file-name patterns compile to: one symbol out of a set, any string, and sequence, over
an arbitrary alphabet. `run` matches an expression against the front of a word and hands
what is left to a continuation, so that a sequence is composition and equations between
expressions are equations between functions.

An expression over an alphabet and one over its code agree (`Agrees.seqAll`) where each part
of the one agrees with that part of the other.
-/

namespace Dagayn

inductive Wildcard (α : Type) where
  | empty
  | sym (p : α → Bool)
  | many
  | seq (r s : Wildcard α)

namespace Wildcard

variable {α β γ : Type}

def someTail (k : List α → Bool) : List α → Bool
  | [] => k []
  | c :: w => k (c :: w) || someTail k w

def run : Wildcard α → (List α → Bool) → List α → Bool
  | empty, k => k
  | sym p, k => fun
    | [] => false
    | c :: w => p c && k w
  | many, k => someTail k
  | seq r s, k => r.run (s.run k)

def accepts (r : Wildcard α) (w : List α) : Bool := r.run List.isEmpty w

def seqAll (rs : List (Wildcard α)) : Wildcard α := rs.foldr seq empty

def word [DecidableEq α] (w : List α) : Wildcard α := seqAll (w.map fun c => sym (· = c))

theorem run_seqAll_cons (r : Wildcard α) (rs : List (Wildcard α)) (k : List α → Bool) :
    (seqAll (r :: rs)).run k = r.run ((seqAll rs).run k) := rfl

theorem run_word [DecidableEq α] {k : List α → Bool} {w u : List α} :
    (word w).run k u = true ↔ ∃ v, u = w ++ v ∧ k v = true := by
  induction w generalizing u with
  | nil => exact ⟨fun h => ⟨u, rfl, h⟩, fun ⟨v, hu, hk⟩ => hu ▸ hk⟩
  | cons c w ih =>
      cases u with
      | nil => exact ⟨nofun, fun ⟨v, hu, _⟩ => absurd hu (List.cons_ne_nil _ _).symm⟩
      | cons d u =>
          have hstep : (word (c :: w)).run k (d :: u) = (decide (d = c) && (word w).run k u) := rfl
          rw [hstep, Bool.and_eq_true, decide_eq_true_eq, ih]
          simp only [List.cons_append, List.cons.injEq, and_assoc, exists_and_left]

theorem someTail_of {k : List α → Bool} {w : List α} (h : k w = true) : someTail k w = true := by
  cases w with
  | nil => exact h
  | cons c w => simp [someTail, h]

/-! ## Codes -/

/-- A code whose words start with a symbol that is in the tail of none, and can be cut off the
front of a text. `ok` are the letters that a text may have. -/
structure Encodes (enc : α → List β) (ok : α → Prop) (tail : β → Bool) : Prop where
  lead : ∀ a, ∃ b t, enc a = b :: t ∧ tail b = false ∧ (ok a → ∀ x ∈ t, tail x = true)
  cut : ∀ {a c x y}, enc a ++ x = enc c ++ y → a = c

/-- On codes the one answers as the other does, and it accepts no more behind the tail of a
code word. -/
structure Agrees (enc : α → List β) (ok : α → Prop) (tail : β → Bool) (kb : List β → Bool)
    (ka : List α → Bool) : Prop where
  same : ∀ w, (∀ a ∈ w, ok a) → kb (w.flatMap enc) = ka w
  behind : ∀ t w, (∀ x ∈ t, tail x = true) → (∀ a ∈ w, ok a) → kb (t ++ w.flatMap enc) = true →
    ka w = true

section

variable {enc : α → List β} {ok : α → Prop} {tail : β → Bool} {kb : List β → Bool}
  {ka : List α → Bool}

theorem Encodes.agrees_isEmpty (h : Encodes enc ok tail) :
    Agrees enc ok tail List.isEmpty List.isEmpty := by
  have hne : ∀ a, enc a ≠ [] := fun a => by
    obtain ⟨b, t, hcode, -⟩ := h.lead a
    exact hcode ▸ List.cons_ne_nil b t
  constructor
  · rintro (_ | ⟨a, w⟩) _
    · rfl
    · simp [hne a]
  · rintro t (_ | ⟨a, w⟩) _ _ hk
    · rfl
    · simp [hne a] at hk

theorem Agrees.someTail_append (hk : Agrees enc ok tail kb ka) {w : List α}
    (hw : ∀ a ∈ w, ok a) (hsame : someTail kb (w.flatMap enc) = someTail ka w) (t : List β)
    (ht : ∀ x ∈ t, tail x = true) : someTail kb (t ++ w.flatMap enc) = someTail ka w := by
  induction t with
  | nil => exact hsame
  | cons x t ih =>
      rw [List.cons_append, someTail, ih fun y hy => ht y (List.mem_cons_of_mem x hy)]
      cases hx : kb (x :: (t ++ w.flatMap enc)) with
      | false => rfl
      | true => rw [someTail_of (hk.behind (x :: t) w ht hw hx), Bool.true_or]

theorem Agrees.many (h : Encodes enc ok tail) (hk : Agrees enc ok tail kb ka) :
    Agrees enc ok tail (Wildcard.many.run kb) (Wildcard.many.run ka) := by
  have hsame : ∀ w : List α, (∀ a ∈ w, ok a) →
      someTail kb (w.flatMap enc) = someTail ka w := by
    intro w
    induction w with
    | nil => exact fun hw => hk.same [] hw
    | cons a w ih =>
        intro hw
        obtain ⟨ha, hrest⟩ := List.forall_mem_cons.mp hw
        obtain ⟨b, t, hcode, -, htail⟩ := h.lead a
        have hfront := hk.same (a :: w) hw
        rw [List.flatMap_cons, hcode, List.cons_append] at hfront ⊢
        rw [someTail, someTail, hfront, hk.someTail_append hrest (ih hrest) t (htail ha)]
  refine ⟨hsame, fun t w ht hw hrun => ?_⟩
  exact (hk.someTail_append hw (hsame w hw) t ht).symm.trans hrun

/-- A letter, and the word of its code. -/
theorem Agrees.word [DecidableEq α] [DecidableEq β] (h : Encodes enc ok tail)
    (hk : Agrees enc ok tail kb ka) (c : α) :
    Agrees enc ok tail ((Wildcard.word (enc c)).run kb) ((sym (· = c)).run ka) := by
  obtain ⟨b, t, hcode, hlead, -⟩ := h.lead c
  have hsame : ∀ w : List α, (∀ a ∈ w, ok a) →
      (Wildcard.word (enc c)).run kb (w.flatMap enc) = (sym (· = c)).run ka w := by
    rintro (_ | ⟨a, w⟩) hw
    · rw [hcode]
      rfl
    · rw [Bool.eq_iff_iff, run_word]
      show _ ↔ (decide (a = c) && ka w) = true
      rw [Bool.and_eq_true, decide_eq_true_eq, List.flatMap_cons,
        ← hk.same w fun d hd => hw d (List.mem_cons_of_mem a hd)]
      constructor
      · rintro ⟨v, hsplit, hv⟩
        obtain rfl := h.cut hsplit
        exact ⟨rfl, List.append_cancel_left hsplit ▸ hv⟩
      · rintro ⟨rfl, hv⟩
        exact ⟨_, rfl, hv⟩
  refine ⟨hsame, fun x w hx hw hrun => ?_⟩
  cases x with
  | nil => exact (hsame w hw).symm.trans hrun
  | cons y x =>
      obtain ⟨v, hsplit, -⟩ := run_word.mp hrun
      rw [hcode] at hsplit
      have hy := hx y List.mem_cons_self
      rw [(List.cons.inj hsplit).1, hlead] at hy
      cases hy

/-- A set of letters that are coded by one symbol each. -/
theorem Agrees.sym {pb : β → Bool} {pa : α → Bool} (hk : Agrees enc ok tail kb ka)
    (hcode : ∀ a, ok a → ∃ b t, enc a = b :: t ∧ pb b = pa a ∧ (pa a = true → t = []))
    (htail : ∀ x, tail x = true → pb x = false) :
    Agrees enc ok tail ((Wildcard.sym pb).run kb) ((Wildcard.sym pa).run ka) := by
  have hsame : ∀ w : List α, (∀ a ∈ w, ok a) →
      (Wildcard.sym pb).run kb (w.flatMap enc) = (Wildcard.sym pa).run ka w := by
    rintro (_ | ⟨a, w⟩) hw
    · rfl
    · obtain ⟨ha, hrest⟩ := List.forall_mem_cons.mp hw
      obtain ⟨b, t, heq, hp, hone⟩ := hcode a ha
      rw [List.flatMap_cons, heq]
      show (pb b && kb (t ++ w.flatMap enc)) = (pa a && ka w)
      rw [hp]
      cases hpa : pa a with
      | false => rfl
      | true => rw [hone hpa, List.nil_append, hk.same w hrest]
  refine ⟨hsame, fun x w hx hw hrun => ?_⟩
  cases x with
  | nil => exact (hsame w hw).symm.trans hrun
  | cons y x =>
      have hy : (pb y && kb (x ++ w.flatMap enc)) = true := hrun
      rw [htail y (hx y List.mem_cons_self)] at hy
      cases hy

theorem Agrees.seqAll {ps : List γ} {f : γ → Wildcard β} {g : γ → Wildcard α}
    (h : ∀ p ∈ ps, ∀ kb ka, Agrees enc ok tail kb ka →
      Agrees enc ok tail ((f p).run kb) ((g p).run ka)) (hk : Agrees enc ok tail kb ka) :
    Agrees enc ok tail ((Wildcard.seqAll (ps.map f)).run kb)
      ((Wildcard.seqAll (ps.map g)).run ka) := by
  induction ps with
  | nil => exact hk
  | cons p ps ih =>
      rw [List.map_cons, List.map_cons, run_seqAll_cons, run_seqAll_cons]
      exact h p List.mem_cons_self _ _ (ih fun q hq => h q (List.mem_cons_of_mem p hq))

end

end Wildcard

end Dagayn
