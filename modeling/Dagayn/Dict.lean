import Mathlib

/-!
# Dictionaries

The dictionaries of the source programs are association lists without duplicate
keys. Mathlib's `AList` carries that fact as a field; here are the case forms of
its lookup lemmas and the default-valued lookup `getD`, which is how the sources
read a missing entry.
-/

namespace Dagayn

/-- A dictionary from `κ` to `ν`. -/
abbrev Dict (κ ν : Type) := AList (fun _ : κ => ν)

namespace Dict

variable {κ ν : Type} [DecidableEq κ]

/-- `d.get(k, default)`. -/
def getD (d : Dict κ ν) (k : κ) (default : ν) : ν := (d.lookup k).getD default

theorem lookup_insert_ite (d : Dict κ ν) (k k' : κ) (v : ν) :
    (AList.insert k v d).lookup k' = if k' = k then some v else d.lookup k' := by
  split
  · rename_i h; subst h; exact AList.lookup_insert d
  · rename_i h; exact AList.lookup_insert_ne h

theorem lookup_erase_ite (d : Dict κ ν) (k k' : κ) :
    (AList.erase k d).lookup k' = if k' = k then none else d.lookup k' := by
  split
  · rename_i h; subst h; exact AList.lookup_erase _ d
  · rename_i h; exact AList.lookup_erase_ne h

theorem lookup_of_insert {d : Dict κ ν} {k a : κ} {v w : ν}
    (h : (AList.insert k v d).lookup a = some w) :
    (a = k ∧ w = v) ∨ (a ≠ k ∧ d.lookup a = some w) := by
  rw [lookup_insert_ite] at h
  split at h
  · rename_i heq
    exact .inl ⟨heq, (Option.some.inj h).symm⟩
  · rename_i hne
    exact .inr ⟨hne, h⟩

theorem lookup_of_erase {d : Dict κ ν} {k a : κ} {w : ν}
    (h : (AList.erase k d).lookup a = some w) : a ≠ k ∧ d.lookup a = some w := by
  rw [lookup_erase_ite] at h
  split at h
  · cases h
  · rename_i hne
    exact ⟨hne, h⟩

@[simp] theorem getD_empty (k : κ) (v : ν) : getD (∅ : Dict κ ν) k v = v := by
  simp [getD]

theorem getD_insert (d : Dict κ ν) (k k' : κ) (v v' : ν) :
    getD (AList.insert k v d) k' v' = if k' = k then v else getD d k' v' := by
  simp only [getD, lookup_insert_ite]
  split <;> rfl

theorem getD_erase (d : Dict κ ν) (k k' : κ) (v : ν) :
    getD (AList.erase k d) k' v = if k' = k then v else getD d k' v := by
  simp only [getD, lookup_erase_ite]
  split <;> rfl

/-- `into_values()`, in the order of insertion. -/
def values (d : Dict κ ν) : List ν := d.entries.map Sigma.snd

theorem mem_values {d : Dict κ ν} {v : ν} : v ∈ values d ↔ ∃ k, d.lookup k = some v := by
  rw [values, List.mem_map]
  constructor
  · rintro ⟨⟨k, w⟩, hmem, rfl⟩
    exact ⟨k, AList.mem_lookup_iff.mpr hmem⟩
  · rintro ⟨k, hmem⟩
    exact ⟨⟨k, v⟩, AList.mem_lookup_iff.mp hmem, rfl⟩

theorem values_insert_of_notMem {d : Dict κ ν} {k : κ} (v : ν) (h : k ∉ d) :
    values (AList.insert k v d) = v :: values d := by
  rw [values, AList.entries_insert_of_notMem h]
  rfl

theorem isEmpty_entries_iff {d : Dict κ ν} :
    d.entries.isEmpty = true ↔ ∀ k, d.lookup k = none := by
  rw [List.isEmpty_iff]
  constructor
  · intro h k
    rw [AList.lookup_eq_none, AList.mem_keys, AList.keys, h]
    exact List.not_mem_nil
  · intro h
    refine List.eq_nil_iff_forall_not_mem.mpr fun e he => ?_
    have hmem := AList.mem_lookup_iff.mpr (show ⟨e.1, e.2⟩ ∈ d.entries from he)
    rw [Option.mem_def, h] at hmem
    cases hmem

theorem values_perm {d d' : Dict κ ν} (h : ∀ k, d.lookup k = d'.lookup k) :
    (values d).Perm (values d') := by
  refine List.Perm.map _ (List.lookup_ext d.nodupKeys d'.nodupKeys fun k v => ?_)
  exact Iff.of_eq (congrArg (v ∈ ·) (h k))

end Dict

end Dagayn
