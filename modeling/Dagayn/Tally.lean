import Dagayn.Dict
import Dagayn.Sorted
import Mathlib

/-!
# Counting keys

`*counts.entry(key).or_default() += 1` over a list, and what is read from such a map: its
highest count and its keys by falling count. A hash map gives its entries in an order of
its own. `HashOrders` names that order at each place a program reads one; what is ranked by
a key that tells the entries apart is the same in every order.
-/

namespace Dagayn

/-- The order in which the elements of a hash map or set come, at each place where a program
goes through one. -/
structure HashOrders where
  order : {α : Type} → List Nat → List α → List α
  perm : ∀ {α : Type} (place : List Nat) (l : List α), (order place l).Perm l

theorem HashOrders.perm_order (o o' : HashOrders) (place place' : List Nat) {α : Type}
    (l : List α) : (o.order place l).Perm (o'.order place' l) :=
  (o.perm place l).trans (o'.perm place' l).symm

namespace Tally

variable {κ : Type} [LinearOrder κ]

def tally (keys : List κ) : Dict κ Nat :=
  keys.foldl (fun counts key => counts.insert key (counts.getD key 0 + 1)) ∅

def entries (counts : Dict κ Nat) : List (κ × Nat) :=
  counts.keys.map fun key => (key, counts.getD key 0)

/-- Higher counts come first, and of one count the smaller key. -/
def rank (entry : κ × Nat) : Natᵒᵈ ×ₗ κ := toLex (OrderDual.toDual entry.2, entry.1)

def better (best entry : κ × Nat) : κ × Nat := if rank best < rank entry then best else entry

/-- `max_by` the count, then the smaller key. -/
def mostCommon : List (κ × Nat) → Option (κ × Nat)
  | [] => none
  | entry :: entries => some (entries.foldl better entry)

/-- `sort_by` the falling count, then the key. -/
def ranked (entries : List (κ × Nat)) : List (κ × Nat) := sortBy rank entries

omit [LinearOrder κ] in
theorem rank_injective {a b : κ × Nat} (h : rank a = rank b) : a = b := by
  obtain ⟨hcount, hkey⟩ := Prod.mk.inj (toLex.injective h)
  exact Prod.ext hkey (OrderDual.toDual.injective hcount)

theorem foldl_better (entries : List (κ × Nat)) : ∀ best : κ × Nat,
    entries.foldl better best ∈ best :: entries ∧
      ∀ entry ∈ best :: entries, rank (entries.foldl better best) ≤ rank entry := by
  induction entries with
  | nil => exact fun best => ⟨List.mem_singleton_self _, by simp⟩
  | cons e entries ih =>
      intro best
      obtain ⟨hmem, hle⟩ := ih (better best e)
      have hfirst : rank (better best e) ≤ rank best ∧ rank (better best e) ≤ rank e ∧
          (better best e = best ∨ better best e = e) := by
        unfold better
        split
        · rename_i hlt
          exact ⟨le_rfl, le_of_lt hlt, .inl rfl⟩
        · rename_i hnot
          exact ⟨le_of_not_gt hnot, le_rfl, .inr rfl⟩
      obtain ⟨hbest, he, heq⟩ := hfirst
      rw [List.foldl_cons]
      refine ⟨?_, fun entry hentry => ?_⟩
      · rcases List.mem_cons.mp hmem with htop | htop
        · rw [htop]
          rcases heq with heq | heq <;> rw [heq] <;> simp
        · exact List.mem_cons_of_mem _ (List.mem_cons_of_mem _ htop)
      · have htop := hle _ List.mem_cons_self
        rcases List.mem_cons.mp hentry with rfl | hentry
        · exact htop.trans hbest
        · rcases List.mem_cons.mp hentry with rfl | hentry
          · exact htop.trans he
          · exact hle entry (List.mem_cons_of_mem _ hentry)

theorem mostCommon_of_perm {l l' : List (κ × Nat)} (h : l.Perm l') :
    mostCommon l = mostCommon l' := by
  cases l with
  | nil => rw [h.nil_eq]
  | cons e l =>
      cases l' with
      | nil => exact absurd h.eq_nil (List.cons_ne_nil e l)
      | cons e' l' =>
          obtain ⟨hmem, hle⟩ := foldl_better l e
          obtain ⟨hmem', hle'⟩ := foldl_better l' e'
          exact congrArg some (rank_injective
            (le_antisymm (hle _ (h.mem_iff.mpr hmem')) (hle' _ (h.mem_iff.mp hmem))))

theorem ranked_of_perm {l l' : List (κ × Nat)} (h : l.Perm l') : ranked l = ranked l' :=
  sortBy_of_perm h fun _ _ _ _ => rank_injective

end Tally

end Dagayn
