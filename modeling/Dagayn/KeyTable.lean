import Mathlib

/-!
# Tables with a unique key

A table is a list of rows with the ids they were given; one column, or a function
of the columns, is unique. `upsert` is `INSERT … ON CONFLICT(key) DO UPDATE`: a row
whose key is there already takes the new columns and keeps its id.

`get` reads a table by key. A run of upserts is described by it: the last row of a
key wins (`get_upsertAll`), every other key is left alone. `mapRows` changes columns
other than the key, and upserts commute with it.
-/

namespace Dagayn

variable {ρ ρ' κ : Type} [DecidableEq κ]

def lastOf (key : ρ → κ) (k : κ) (rs : List ρ) : Option ρ :=
  (rs.filter fun r => key r = k).getLast?

theorem lastOf_append_singleton (key : ρ → κ) (k : κ) (rs : List ρ) (r : ρ) :
    lastOf key k (rs ++ [r]) = if key r = k then some r else lastOf key k rs := by
  unfold lastOf
  rw [List.filter_append]
  by_cases hk : key r = k
  · rw [if_pos hk, List.filter_cons_of_pos (by simpa using hk), List.filter_nil,
      List.getLast?_concat]
  · rw [if_neg hk, List.filter_cons_of_neg (by simpa using hk), List.filter_nil,
      List.append_nil]

theorem key_of_lastOf {key : ρ → κ} {k : κ} {rs : List ρ} {r : ρ}
    (h : lastOf key k rs = some r) : key r = k := by
  have hmem := List.mem_of_getLast? h
  simpa using (List.mem_filter.mp hmem).2

theorem mem_of_lastOf {key : ρ → κ} {k : κ} {rs : List ρ} {r : ρ}
    (h : lastOf key k rs = some r) : r ∈ rs :=
  List.mem_of_mem_filter (List.mem_of_getLast? h)

theorem lastOf_eq_none {key : ρ → κ} {k : κ} {rs : List ρ} :
    lastOf key k rs = none ↔ ∀ r ∈ rs, key r ≠ k := by
  unfold lastOf
  rw [List.getLast?_eq_none_iff, List.filter_eq_nil_iff]
  simp

theorem lastOf_map {key : ρ → κ} {key' : ρ' → κ} (f : ρ → ρ') (hf : ∀ r, key' (f r) = key r)
    (k : κ) (rs : List ρ) : lastOf key' k (rs.map f) = (lastOf key k rs).map f := by
  unfold lastOf
  rw [List.filter_map, List.getLast?_map]
  simp only [Function.comp_def, hf]

/-- The rows a sequence of inserts appends to a table without a unique column. -/
def numberFrom (seq : Nat) : List ρ → List (Nat × ρ)
  | [] => []
  | r :: rs => (seq + 1, r) :: numberFrom (seq + 1) rs

theorem map_snd_numberFrom : ∀ (seq : Nat) (rs : List ρ),
    (numberFrom seq rs).map Prod.snd = rs
  | _, [] => rfl
  | seq, r :: rs => by
      rw [numberFrom, List.map_cons, map_snd_numberFrom (seq + 1) rs]

/-- The keys of a table after upserts of rows with the keys `new`. -/
def addKeys (keys new : List κ) : List κ :=
  new.foldl (fun keys k => if k ∈ keys then keys else keys ++ [k]) keys

theorem addKeys_cons (keys new : List κ) (k : κ) :
    addKeys keys (k :: new) = addKeys (if k ∈ keys then keys else keys ++ [k]) new := rfl

theorem mem_addKeys {k : κ} : ∀ {new keys : List κ}, k ∈ addKeys keys new ↔ k ∈ keys ∨ k ∈ new
  | [], keys => by simp [addKeys]
  | n :: new, keys => by
      rw [addKeys_cons, mem_addKeys]
      split
      · rename_i hn
        constructor
        · rintro (h | h)
          · exact .inl h
          · exact .inr (List.mem_cons_of_mem _ h)
        · rintro (h | h)
          · exact .inl h
          · rcases List.mem_cons.mp h with rfl | h
            · exact .inl hn
            · exact .inr h
      · simp [or_assoc]

structure KeyTable (key : ρ → κ) where
  rows : List (Nat × ρ)
  seq : Nat
  keys_nodup : (rows.map fun r => key r.2).Nodup

namespace KeyTable

variable {key : ρ → κ}

def empty : KeyTable key := ⟨[], 0, List.nodup_nil⟩

def get (t : KeyTable key) (k : κ) : Option (Nat × ρ) := t.rows.find? fun r => key r.2 = k

theorem get_eq_some {t : KeyTable key} {k : κ} {r : Nat × ρ} :
    t.get k = some r ↔ r ∈ t.rows ∧ key r.2 = k := by
  constructor
  · intro h
    exact ⟨List.mem_of_find?_eq_some h, by simpa using List.find?_some h⟩
  · rintro ⟨hr, rfl⟩
    cases hf : t.get (key r.2) with
    | none =>
        have hne : key r.2 ≠ key r.2 := by simpa using List.find?_eq_none.mp hf r hr
        exact absurd rfl hne
    | some r' =>
        have hr' : r' ∈ t.rows := List.mem_of_find?_eq_some hf
        have hk : key r'.2 = key r.2 := by simpa using List.find?_some hf
        rw [List.inj_on_of_nodup_map t.keys_nodup hr' hr hk]

theorem get_eq_none {t : KeyTable key} {k : κ} :
    t.get k = none ↔ ∀ r ∈ t.rows, key r.2 ≠ k := by
  unfold get
  rw [List.find?_eq_none]
  simp

/-- `DELETE … WHERE`. -/
def deleteWhere (t : KeyTable key) (p : ρ → Bool) : KeyTable key where
  rows := t.rows.filter fun r => !p r.2
  seq := t.seq
  keys_nodup := t.keys_nodup.sublist (List.filter_sublist.map _)

omit [DecidableEq κ] in
theorem mem_deleteWhere {t : KeyTable key} {p : ρ → Bool} {r : Nat × ρ} :
    r ∈ (t.deleteWhere p).rows ↔ r ∈ t.rows ∧ p r.2 = false := by
  change r ∈ t.rows.filter (fun r => !p r.2) ↔ _
  rw [List.mem_filter, Bool.not_eq_true']

def replaced (rows : List (Nat × ρ)) (key : ρ → κ) (r : ρ) : List (Nat × ρ) :=
  rows.map fun e => if key e.2 = key r then (e.1, r) else e

theorem map_key_replaced (rows : List (Nat × ρ)) (r : ρ) :
    (replaced rows key r).map (fun e => key e.2) = rows.map fun e => key e.2 := by
  unfold replaced
  rw [List.map_map]
  refine List.map_congr_left fun e _ => ?_
  simp only [Function.comp]
  split
  · rename_i hk
    exact hk.symm
  · rfl

/-- `INSERT … ON CONFLICT(key) DO UPDATE`. -/
def upsert (t : KeyTable key) (r : ρ) : KeyTable key :=
  if h : key r ∈ t.rows.map (fun e => key e.2) then
    { rows := replaced t.rows key r, seq := t.seq
      keys_nodup := by
        rw [map_key_replaced]
        exact t.keys_nodup }
  else
    { rows := t.rows ++ [(t.seq + 1, r)], seq := t.seq + 1
      keys_nodup := by
        rw [List.map_append, List.nodup_append]
        refine ⟨t.keys_nodup, by simp, ?_⟩
        intro a ha b hb
        obtain rfl : b = key r := by simpa using hb
        exact fun hab => h (hab ▸ ha) }

theorem mem_upsert {t : KeyTable key} {r : ρ} {e : Nat × ρ} :
    e ∈ (t.upsert r).rows ↔ (key e.2 ≠ key r ∧ e ∈ t.rows) ∨
      (e.2 = r ∧ e.1 = ((t.get (key r)).map Prod.fst).getD (t.seq + 1)) := by
  unfold upsert
  split
  · rename_i h
    obtain ⟨o, ho, hk⟩ := List.mem_map.mp h
    have hget : t.get (key r) = some o := get_eq_some.mpr ⟨ho, hk⟩
    rw [hget]
    simp only [Option.map_some, Option.getD_some, replaced, List.mem_map]
    constructor
    · rintro ⟨e', he', rfl⟩
      split
      · rename_i hk'
        obtain rfl := List.inj_on_of_nodup_map t.keys_nodup he' ho (hk'.trans hk.symm)
        exact .inr ⟨rfl, rfl⟩
      · rename_i hk'
        exact .inl ⟨hk', he'⟩
    · rintro (⟨hk', he⟩ | ⟨he, hid⟩)
      · exact ⟨e, he, if_neg hk'⟩
      · refine ⟨o, ho, ?_⟩
        rw [if_pos hk]
        exact Prod.ext hid.symm he.symm
  · rename_i h
    have hget : t.get (key r) = none :=
      get_eq_none.mpr fun o ho hk => h (List.mem_map.mpr ⟨o, ho, hk⟩)
    rw [hget]
    simp only [Option.map_none, Option.getD_none, List.mem_append, List.mem_singleton]
    constructor
    · rintro (he | rfl)
      · exact .inl ⟨fun hk => h (List.mem_map.mpr ⟨e, he, hk⟩), he⟩
      · exact .inr ⟨rfl, rfl⟩
    · rintro (⟨-, he⟩ | ⟨he, hid⟩)
      · exact .inl he
      · exact .inr (Prod.ext hid he)

def upsertAll (t : KeyTable key) (rs : List ρ) : KeyTable key := rs.foldl upsert t

theorem upsertAll_append (t : KeyTable key) (rs rs' : List ρ) :
    t.upsertAll (rs ++ rs') = (t.upsertAll rs).upsertAll rs' := List.foldl_append

/-- The rows after a run of upserts: the last row of each key upserted, and the
rows of the other keys. -/
theorem mem_upsertAll {t : KeyTable key} {rs : List ρ} {e : Nat × ρ} :
    e ∈ (t.upsertAll rs).rows →
      (lastOf key (key e.2) rs = some e.2) ∨
      (lastOf key (key e.2) rs = none ∧ e ∈ t.rows) := by
  induction rs using List.reverseRecOn with
  | nil => exact fun h => .inr ⟨rfl, h⟩
  | append_singleton rs r ih =>
      rw [upsertAll_append, lastOf_append_singleton]
      intro h
      rcases mem_upsert.mp h with ⟨hk, he⟩ | ⟨he, -⟩
      · rw [if_neg (Ne.symm hk)]
        exact ih he
      · rw [he, if_pos rfl]
        exact .inl rfl

theorem mem_upsertAll_of_last {t : KeyTable key} {rs : List ρ} {k : κ} {r : ρ}
    (h : lastOf key k rs = some r) : ∃ id, (id, r) ∈ (t.upsertAll rs).rows := by
  induction rs using List.reverseRecOn with
  | nil => cases h
  | append_singleton rs r' ih =>
      rw [lastOf_append_singleton] at h
      rw [upsertAll_append]
      split at h
      · obtain rfl : r' = r := by simpa using h
        exact ⟨_, mem_upsert.mpr (.inr ⟨rfl, rfl⟩)⟩
      · rename_i hk
        obtain ⟨id, hid⟩ := ih h
        refine ⟨id, mem_upsert.mpr (.inl ⟨?_, hid⟩)⟩
        rw [key_of_lastOf h]
        exact Ne.symm hk

theorem mem_upsertAll_of_mem {t : KeyTable key} {rs : List ρ} {e : Nat × ρ}
    (h : e ∈ t.rows) (hk : lastOf key (key e.2) rs = none) : e ∈ (t.upsertAll rs).rows := by
  induction rs using List.reverseRecOn with
  | nil => exact h
  | append_singleton rs r ih =>
      rw [lastOf_append_singleton] at hk
      rw [upsertAll_append]
      split at hk
      · cases hk
      · rename_i hne
        exact mem_upsert.mpr (.inl ⟨Ne.symm hne, ih hk⟩)

theorem keys_upsertAll (t : KeyTable key) (rs : List ρ) :
    (t.upsertAll rs).rows.map (fun e => key e.2)
      = addKeys (t.rows.map fun e => key e.2) (rs.map key) := by
  induction rs generalizing t with
  | nil => rfl
  | cons r rs ih =>
      change ((t.upsert r).upsertAll rs).rows.map _ = _
      rw [ih, List.map_cons, addKeys_cons]
      congr 1
      unfold upsert
      split
      · exact map_key_replaced t.rows r
      · rw [List.map_append]
        rfl

/-! ## Changing the other columns -/

section MapRows

variable {key' : ρ' → κ} (f : ρ → ρ') (hf : ∀ r, key' (f r) = key r)

/-- The table with `f` applied to the columns of each row. -/
def mapRows (t : KeyTable key) : KeyTable key' where
  rows := t.rows.map fun e => (e.1, f e.2)
  seq := t.seq
  keys_nodup := by
    rw [List.map_map]
    have h : ((fun r : Nat × ρ' => key' r.2) ∘ fun e : Nat × ρ => (e.1, f e.2))
        = fun e => key e.2 := funext fun e => hf e.2
    rw [h]
    exact t.keys_nodup

omit [DecidableEq κ] in
theorem ext {t t' : KeyTable key} (hrows : t.rows = t'.rows) (hseq : t.seq = t'.seq) :
    t = t' := by
  cases t
  cases t'
  simp only at hrows hseq
  subst hrows hseq
  rfl

theorem mapRows_upsert (t : KeyTable key) (r : ρ) :
    (t.upsert r).mapRows f hf = (t.mapRows f hf).upsert (f r) := by
  have hkeys : (t.mapRows f hf).rows.map (fun e => key' e.2) = t.rows.map fun e => key e.2 := by
    change (t.rows.map fun e => (e.1, f e.2)).map (fun e => key' e.2) = _
    rw [List.map_map]
    exact List.map_congr_left fun e _ => hf e.2
  by_cases h : key r ∈ t.rows.map fun e => key e.2
  · have h' : key' (f r) ∈ (t.mapRows f hf).rows.map fun e => key' e.2 := by
      rw [hkeys, hf]
      exact h
    unfold upsert
    rw [dif_pos h, dif_pos h']
    refine ext ?_ rfl
    change (replaced t.rows key r).map _ = replaced (t.rows.map _) key' (f r)
    unfold replaced
    rw [List.map_map, List.map_map]
    refine List.map_congr_left fun e _ => ?_
    simp only [Function.comp, hf]
    split <;> rfl
  · have h' : key' (f r) ∉ (t.mapRows f hf).rows.map fun e => key' e.2 := by
      rw [hkeys, hf]
      exact h
    unfold upsert
    rw [dif_neg h, dif_neg h']
    refine ext ?_ rfl
    change (t.rows ++ [(t.seq + 1, r)]).map _ = (t.rows.map _) ++ [(t.seq + 1, f r)]
    rw [List.map_append]
    rfl

theorem mapRows_upsertAll (t : KeyTable key) (rs : List ρ) :
    (t.upsertAll rs).mapRows f hf = (t.mapRows f hf).upsertAll (rs.map f) := by
  induction rs generalizing t with
  | nil => rfl
  | cons r rs ih =>
      change ((t.upsert r).upsertAll rs).mapRows f hf
        = ((t.mapRows f hf).upsert (f r)).upsertAll (rs.map f)
      rw [ih, mapRows_upsert]

omit [DecidableEq κ] in
theorem eq_of_mapRows_eq {t t' : KeyTable key} (h : t.mapRows f hf = t'.mapRows f hf)
    (heq : ∀ e ∈ t.rows, ∀ e' ∈ t'.rows, key e.2 = key e'.2 → e.1 = e'.1 → e = e') :
    t = t' := by
  have hrows : (t.rows.map fun e => (e.1, f e.2)) = t'.rows.map fun e => (e.1, f e.2) :=
    congrArg KeyTable.rows h
  have hseq : (t.mapRows f hf).seq = (t'.mapRows f hf).seq := congrArg KeyTable.seq h
  refine ext ?_ hseq
  have hlen : t.rows.length = t'.rows.length := by simpa using congrArg List.length hrows
  refine List.ext_getElem hlen fun i hi hi' => ?_
  have hpair : (t.rows[i].1, f t.rows[i].2) = (t'.rows[i].1, f t'.rows[i].2) := by
    have hget := congrArg (fun l => l[i]?) hrows
    simpa [hi, hi'] using hget
  obtain ⟨hid, hcols⟩ := Prod.mk.inj hpair
  refine heq _ (List.getElem_mem hi) _ (List.getElem_mem hi') ?_ hid
  rw [← hf, hcols, hf]

include hf in
/-- Upserting rows changed by a `norm` that keeps the key and what `f` keeps gives
the same table exactly if it changes no row that is stored. -/
theorem upsertAll_map_eq_iff (norm : ρ → ρ) (hkey : ∀ r, key (norm r) = key r)
    (hnorm : ∀ r, f (norm r) = f r) (t : KeyTable key) (rs : List ρ) :
    t.upsertAll (rs.map norm) = t.upsertAll rs ↔
      ∀ k r, lastOf key k rs = some r → norm r = r := by
  constructor
  · intro h k r hr
    obtain ⟨id, hid⟩ := mem_upsertAll_of_last (t := t) hr
    rw [← h] at hid
    have hlast : lastOf key (key r) (rs.map norm) = some (norm r) := by
      rw [lastOf_map norm hkey, key_of_lastOf hr, hr]
      rfl
    rcases mem_upsertAll hid with hsome | ⟨hnone, -⟩
    · exact Option.some.inj (hlast.symm.trans hsome)
    · rw [hlast] at hnone
      cases hnone
  · intro h
    refine eq_of_mapRows_eq f hf ?_ fun e he e' he' hk hid => ?_
    · rw [mapRows_upsertAll, mapRows_upsertAll, List.map_map]
      simp only [Function.comp_def, hnorm]
    · have hmap := lastOf_map norm hkey (key e.2) rs
      rcases mem_upsertAll he with hsome | ⟨hnone, hold⟩ <;>
        rcases mem_upsertAll he' with hsome' | ⟨hnone', hold'⟩
      · rw [← hk] at hsome'
        rw [hmap, hsome', Option.map_some, h _ _ hsome'] at hsome
        exact Prod.ext hid (Option.some.inj hsome).symm
      · rw [← hk] at hnone'
        rw [hmap, hnone'] at hsome
        cases hsome
      · rw [← hk] at hsome'
        rw [hmap, hsome'] at hnone
        cases hnone
      · exact List.inj_on_of_nodup_map t.keys_nodup hold hold' hk

end MapRows

end KeyTable

end Dagayn
