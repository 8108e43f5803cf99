import Mathlib

/-!
# Records that announce their length

A flat list of fields holds records one after another. The first field of a record says how
many more it has, so a reader that trusts it needs no separator; it also means that one
record misread shifts every later one. `Reader.loop` is the `while index < fields.len()`
loop of such a reader, with a bound on its rounds so that a loop that does not advance would
be seen as `unfinished`. Every loop ends (`loop_ne_unfinished`), and on records whose first
fields tell the truth it sees each record as it was written (`loop_encode`).
-/

namespace Dagayn

namespace Records

/-- How a loop ends. -/
inductive LoopEnd (σ : Type) where
  | returned (state : σ)
  | panicked
  | unfinished
deriving DecidableEq, Repr

def LoopEnd.map {σ τ : Type} (f : σ → τ) : LoopEnd σ → LoopEnd τ
  | .returned s => .returned (f s)
  | .panicked => .panicked
  | .unfinished => .unfinished

variable {α σ ρ : Type}

structure Reader (α σ : Type) where
  /-- The number of fields that belong to the record behind its first one. -/
  wanted : α → Nat
  /-- One round, over the fields of the record that are there; `none` is a panic. -/
  consume : σ → α → List α → Option σ

namespace Reader

variable (r : Reader α σ)

def loop (fields : List α) : Nat → Nat → σ → LoopEnd σ
  | 0, _, _ => .unfinished
  | fuel + 1, index, s =>
      match fields[index]? with
      | none => .returned s
      | some first =>
          match r.consume s first ((fields.drop (index + 1)).take (r.wanted first)) with
          | none => .panicked
          | some s' => loop fields fuel (index + r.wanted first + 1) s'

/-- The loop from the first field, with one round for each field and one to see the end. -/
def run (fields : List α) (s : σ) : LoopEnd σ := r.loop fields (fields.length + 1) 0 s

theorem loop_ne_unfinished (fields : List α) : ∀ {fuel index : Nat} {s : σ},
    0 < fuel → fields.length < fuel + index → r.loop fields fuel index s ≠ .unfinished
  | fuel + 1, index, s, _, h => by
      unfold loop
      cases hf : fields[index]? with
      | none => simp
      | some first =>
          have hlt : index < fields.length := (List.getElem?_eq_some_iff.mp hf).1
          cases hc : r.consume s first ((fields.drop (index + 1)).take (r.wanted first)) with
          | none => simp [hc]
          | some s' =>
              simp only [hc]
              exact loop_ne_unfinished fields (by omega) (by omega)

theorem run_ne_unfinished (fields : List α) (s : σ) : r.run fields s ≠ .unfinished :=
  r.loop_ne_unfinished fields (Nat.succ_pos _) (by omega)

theorem exists_run_eq (hc : ∀ s first rest, (r.consume s first rest).isSome) (fields : List α)
    (s : σ) : ∃ s', r.run fields s = .returned s' := by
  have hp : ∀ (fuel index : Nat) (s : σ), r.loop fields fuel index s ≠ .panicked := by
    intro fuel
    induction fuel with
    | zero => simp [loop]
    | succ fuel ih =>
        intro index s
        unfold loop
        cases fields[index]? with
        | none => simp
        | some first =>
            obtain ⟨s', hs'⟩ := Option.isSome_iff_exists.mp
              (hc s first ((fields.drop (index + 1)).take (r.wanted first)))
            simp only [hs']
            exact ih _ s'
  cases h : r.run fields s with
  | returned s' => exact ⟨s', rfl⟩
  | panicked => exact absurd h (hp _ _ _)
  | unfinished => exact absurd h (r.run_ne_unfinished fields s)

section Encode

variable (first : ρ → α) (rest : ρ → List α)

def encode (records : List ρ) : List α := records.flatMap fun x => first x :: rest x

variable {first rest}

theorem loop_step {fields tail : List α} {index : Nat} {x : ρ} (fuel : Nat) {s s' : σ}
    (hdrop : fields.drop index = first x :: rest x ++ tail)
    (hw : (rest x).length = r.wanted (first x))
    (hc : r.consume s (first x) (rest x) = some s') :
    r.loop fields (fuel + 1) index s =
      r.loop fields fuel (index + r.wanted (first x) + 1) s' := by
  have hfirst : fields[index]? = some (first x) := by
    rw [← List.head?_drop, hdrop]
    rfl
  have hrest : (fields.drop (index + 1)).take (r.wanted (first x)) = rest x := by
    rw [← List.drop_drop, hdrop, ← hw]
    simp
  rw [loop, hfirst]
  simp only [hrest, hc]

theorem drop_step {fields tail : List α} {index : Nat} {x : ρ}
    (hdrop : fields.drop index = first x :: rest x ++ tail)
    (hw : (rest x).length = r.wanted (first x)) :
    fields.drop (index + r.wanted (first x) + 1) = tail := by
  have hsplit : index + r.wanted (first x) + 1 = index + (first x :: rest x).length := by
    rw [List.length_cons, hw]
    omega
  rw [hsplit, ← List.drop_drop, hdrop, List.drop_left]

theorem loop_encode (hw : ∀ x, (rest x).length = r.wanted (first x)) {step : σ → ρ → σ}
    (hc : ∀ s x, r.consume s (first x) (rest x) = some (step s x)) {fields : List α} :
    ∀ (records : List ρ) {fuel index : Nat} (s : σ),
      fields.drop index = encode first rest records → fields.length < fuel + index →
      index ≤ fields.length → r.loop fields fuel index s = .returned (records.foldl step s) := by
  intro records
  induction records with
  | nil =>
      intro fuel index s hdrop hfuel hindex
      have hend : fields.length ≤ index := List.drop_eq_nil_iff.mp hdrop
      obtain ⟨fuel, rfl⟩ : ∃ k, fuel = k + 1 := ⟨fuel - 1, by omega⟩
      rw [loop, List.getElem?_eq_none hend]
      rfl
  | cons x records ih =>
      intro fuel index s hdrop hfuel hindex
      have hcons : fields.drop index = first x :: rest x ++ encode first rest records := hdrop
      have hlen : fields.length - index =
          (rest x).length + 1 + (encode first rest records).length := by
        rw [← List.length_drop, hcons]
        simp only [List.length_append, List.length_cons]
      obtain ⟨fuel, rfl⟩ : ∃ k, fuel = k + 1 := ⟨fuel - 1, by omega⟩
      rw [r.loop_step fuel hcons (hw x) (hc s x), List.foldl_cons]
      have hwx := hw x
      exact ih _ (r.drop_step hcons (hw x)) (by omega) (by omega)

theorem run_encode (first : ρ → α) (rest : ρ → List α) (step : σ → ρ → σ)
    (hw : ∀ x, (rest x).length = r.wanted (first x))
    (hc : ∀ s x, r.consume s (first x) (rest x) = some (step s x)) (records : List ρ) (s : σ) :
    r.run (encode first rest records) s = .returned (records.foldl step s) :=
  r.loop_encode hw hc records s rfl (by omega) (Nat.zero_le _)

end Encode

end Reader

end Records

end Dagayn
