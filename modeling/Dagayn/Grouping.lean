import Dagayn.Dict
import Dagayn.Distinct
import Mathlib

/-!
# Rows filed under several keys

A map from keys to rows, with a set of the ids each key has: a row goes to every key it is
routed to, once. `lookup_fileRows` says what a key has in the end: the rows routed to it,
the first of each id.
-/

namespace Dagayn

namespace Grouping

variable {κ ρ ι : Type} [DecidableEq κ] [DecidableEq ι]

/-- The two maps: the rows of a key and the ids seen there. -/
structure Groups (κ ρ ι : Type) where
  rows : Dict κ (List ρ)
  seen : Dict κ (List ι)

def start (keys : List κ) : Groups κ ρ ι where
  rows := keys.foldl (fun d k => d.insert k []) ∅
  seen := keys.foldl (fun d k => d.insert k []) ∅

section File

variable (id : ρ → ι) (route : ρ → List κ)

def push (r : ρ) (g : Groups κ ρ ι) (k : κ) : Groups κ ρ ι :=
  match g.seen.lookup k with
  | some ids =>
      if id r ∈ ids then g
      else
        { rows := g.rows.insert k (g.rows.getD k [] ++ [r])
          seen := g.seen.insert k (id r :: ids) }
  | none => g

def fileRow (g : Groups κ ρ ι) (r : ρ) : Groups κ ρ ι := (route r).foldl (push id r) g

def fileRows (g : Groups κ ρ ι) (rows : List ρ) : Groups κ ρ ι := rows.foldl (fileRow id route) g

def addRow (rows : List ρ) (r : ρ) : List ρ := if id r ∈ rows.map id then rows else rows ++ [r]

theorem addRow_addRow (rows : List ρ) (r : ρ) :
    addRow id (addRow id rows r) r = addRow id rows r := by
  by_cases h : id r ∈ rows.map id
  · simp only [addRow, if_pos h]
  · have hmem : id r ∈ (rows ++ [r]).map id := List.mem_map_of_mem (by simp)
    simp only [addRow, if_neg h, if_pos hmem]

theorem addRow_keepFirst (rows : List ρ) (r : ρ) :
    addRow id (keepFirst id rows) r = keepFirst id (rows ++ [r]) := by
  have hmem : ∀ seen, id r ∈ seenAfter id seen rows ↔ id r ∈ seen ∨ id r ∈ rows.map id := by
    induction rows with
    | nil => simp [seenAfter]
    | cons a rows ih =>
        intro seen
        rw [seenAfter, List.map_cons, List.mem_cons]
        split
        · rename_i ha
          rw [ih]
          constructor
          · rintro (h | h)
            · exact .inl h
            · exact .inr (.inr h)
          · rintro (h | h | h)
            · exact .inl h
            · exact .inl (h ▸ ha)
            · exact .inr h
        · rw [ih, List.mem_cons]
          tauto
  have hkept : id r ∈ (keepFirst id rows).map id ↔ id r ∈ rows.map id := by
    simp only [List.mem_map]
    constructor
    · rintro ⟨a, ha, heq⟩
      exact ⟨a, mem_of_mem_keepFirst ha, heq⟩
    · rintro ⟨a, ha, heq⟩
      obtain ⟨b, hb, hba⟩ : ∃ b ∈ keepFirst id rows, id b = id a := exists_mem_keepFirst ha
      exact ⟨b, hb, hba.trans heq⟩
  rw [← freshOf_nil id (rows ++ [r]), freshOf_append, freshOf_nil, addRow]
  by_cases h : id r ∈ rows.map id
  · rw [if_pos (hkept.mpr h), freshOf, if_pos ((hmem []).mpr (.inr h)), freshOf, List.append_nil]
  · have hnot : id r ∉ seenAfter id [] rows := fun hin =>
      h (((hmem []).mp hin).resolve_left List.not_mem_nil)
    rw [if_neg fun hin => h (hkept.mp hin), freshOf, if_neg hnot, freshOf]

structure Filed (keys : List κ) (rows : κ → List ρ) (g : Groups κ ρ ι) : Prop where
  rows_of : ∀ k ∈ keys, g.rows.lookup k = some (rows k)
  seen_of : ∀ k ∈ keys, ∃ ids, g.seen.lookup k = some ids ∧ ∀ i, i ∈ ids ↔ i ∈ (rows k).map id
  no_rows : ∀ k ∉ keys, g.rows.lookup k = none
  no_seen : ∀ k ∉ keys, g.seen.lookup k = none

theorem lookup_foldl_insert {ν : Type} (v : ν) (keys : List κ) : ∀ (d : Dict κ ν) (k : κ),
    (keys.foldl (fun d k => d.insert k v) d).lookup k =
      if k ∈ keys then some v else d.lookup k := by
  induction keys with
  | nil => simp
  | cons a keys ih =>
      intro d k
      rw [List.foldl_cons, ih, Dict.lookup_insert_ite]
      by_cases hmem : k ∈ keys
      · simp [hmem]
      · by_cases hka : k = a
        · simp [hka]
        · simp [hmem, hka]

omit [DecidableEq ι] in
theorem filed_start (keys : List κ) :
    Filed id keys (fun _ => ([] : List ρ)) (start keys : Groups κ ρ ι) := by
  refine ⟨fun k hk => ?_, fun k hk => ⟨[], ?_, fun i => Iff.rfl⟩, fun k hk => ?_, fun k hk => ?_⟩
  · exact (lookup_foldl_insert _ keys ∅ k).trans (if_pos hk)
  · exact (lookup_foldl_insert _ keys ∅ k).trans (if_pos hk)
  · exact (lookup_foldl_insert _ keys ∅ k).trans (if_neg hk)
  · exact (lookup_foldl_insert _ keys ∅ k).trans (if_neg hk)

variable {id} {keys : List κ} {rows : κ → List ρ} {g : Groups κ ρ ι}

theorem Filed.push (h : Filed id keys rows g) (r : ρ) (k : κ) :
    Filed id keys (fun k' => if k' = k then addRow id (rows k) r else rows k')
      (push id r g k) := by
  by_cases hk : k ∈ keys
  · obtain ⟨ids, hids, hmem⟩ := h.seen_of k hk
    by_cases hin : id r ∈ ids
    · have hrows : (fun k' => if k' = k then addRow id (rows k) r else rows k') = rows := by
        funext k'
        split
        · rename_i heq
          rw [addRow, if_pos ((hmem _).mp hin), heq]
        · rfl
      rw [hrows, Grouping.push, hids]
      simp only [if_pos hin]
      exact h
    · have hadd : addRow id (rows k) r = rows k ++ [r] := if_neg fun h => hin ((hmem _).mpr h)
      have hgetD : Dict.getD g.rows k [] = rows k := by
        rw [Dict.getD, h.rows_of k hk]
        rfl
      have hne : ∀ k' ∉ keys, k' ≠ k := fun k' hk' heq => hk' (heq ▸ hk)
      rw [Grouping.push, hids]
      simp only [if_neg hin, hgetD, hadd]
      refine ⟨fun k' hk' => ?_, fun k' hk' => ?_, fun k' hk' => ?_, fun k' hk' => ?_⟩
      · simp only [Dict.lookup_insert_ite]
        split
        · rfl
        · exact h.rows_of k' hk'
      · simp only [Dict.lookup_insert_ite]
        split
        · refine ⟨id r :: ids, rfl, fun i => ?_⟩
          rw [List.mem_cons, hmem, List.map_append, List.mem_append, List.map_singleton,
            List.mem_singleton, or_comm]
        · exact h.seen_of k' hk'
      · rw [Dict.lookup_insert_ite, if_neg (hne k' hk')]
        exact h.no_rows k' hk'
      · rw [Dict.lookup_insert_ite, if_neg (hne k' hk')]
        exact h.no_seen k' hk'
  · rw [Grouping.push, h.no_seen k hk]
    have hne : ∀ k' ∈ keys, k' ≠ k := fun k' hk' heq => hk (heq ▸ hk')
    refine ⟨fun k' hk' => ?_, fun k' hk' => ?_, h.no_rows, h.no_seen⟩
    · simp only [if_neg (hne k' hk')]
      exact h.rows_of k' hk'
    · simp only [if_neg (hne k' hk')]
      exact h.seen_of k' hk'

theorem Filed.fileRow (h : Filed id keys rows g) (r : ρ) :
    Filed id keys (fun k => if k ∈ route r then addRow id (rows k) r else rows k)
      (fileRow id route g r) := by
  unfold Grouping.fileRow
  generalize route r = routed
  induction routed generalizing g rows with
  | nil => simpa using h
  | cons k routed ih =>
      have hstep := ih (h.push r k)
      rw [List.foldl_cons]
      refine cast (congrArg (Filed id keys · _) (funext fun k' => ?_)) hstep
      by_cases hto : k' ∈ routed
      · by_cases heq : k' = k
        · subst heq
          rw [if_pos hto, if_pos rfl, addRow_addRow, if_pos List.mem_cons_self]
        · rw [if_pos hto, if_neg heq, if_pos (List.mem_cons_of_mem _ hto)]
      · by_cases heq : k' = k
        · subst heq
          rw [if_neg hto, if_pos rfl, if_pos List.mem_cons_self]
        · rw [if_neg hto, if_neg heq, if_neg fun hin => (List.mem_cons.mp hin).elim heq hto]

theorem filed_fileRows (id : ρ → ι) (keys : List κ) (all : List ρ) :
    Filed id keys (fun k => keepFirst id (all.filter fun r => decide (k ∈ route r)))
      (fileRows id route (start keys) all) := by
  induction all using List.reverseRecOn with
  | nil => exact filed_start id keys
  | append_singleton all r ih =>
      have hstep := Filed.fileRow route ih r
      rw [fileRows, List.foldl_append, List.foldl_cons, List.foldl_nil]
      refine cast (congrArg (Filed id keys · _) (funext fun k => ?_)) hstep
      rw [List.filter_append, List.filter_singleton]
      split
      · rename_i hk
        rw [decide_eq_true hk, addRow_keepFirst]
        rfl
      · rename_i hk
        rw [decide_eq_false hk]
        exact (congrArg _ (List.append_nil _)).symm

theorem lookup_fileRows (id : ρ → ι) (route : ρ → List κ) (keys : List κ) (all : List ρ) (k : κ) :
    (fileRows id route (start keys) all).rows.lookup k =
      if k ∈ keys then some (keepFirst id (all.filter fun r => decide (k ∈ route r)))
        else none := by
  have h := filed_fileRows route id keys all
  split
  · rename_i hk
    exact h.rows_of k hk
  · rename_i hk
    exact h.no_rows k hk

end File

/-! ## Values under a key -/

/-- `entry(key).or_default().push(value)` for each pair. -/
def multimap {ν : Type} (pairs : List (κ × ν)) : Dict κ (List ν) :=
  pairs.foldl (fun d p => d.insert p.1 (d.getD p.1 [] ++ [p.2])) ∅

theorem lookup_multimap {ν : Type} (pairs : List (κ × ν)) (k : κ) :
    (multimap pairs).lookup k =
      if k ∈ pairs.map Prod.fst then some ((pairs.filter fun p => p.1 = k).map Prod.snd)
      else none := by
  induction pairs using List.reverseRecOn with
  | nil => rfl
  | append_singleton pairs p ih =>
      rw [multimap, List.foldl_append, List.foldl_cons, List.foldl_nil, ← multimap,
        Dict.lookup_insert_ite, List.filter_append, List.filter_singleton]
      by_cases hk : k = p.1
      · subst hk
        have hvalues : Dict.getD (multimap pairs) p.1 [] =
            (pairs.filter fun q => q.1 = p.1).map Prod.snd := by
          rw [Dict.getD, ih]
          split
          · rfl
          · rename_i hnone
            have hnil : (pairs.filter fun q => decide (q.1 = p.1)) = [] :=
              List.filter_eq_nil_iff.mpr fun q hq heq =>
                hnone (List.mem_map.mpr ⟨q, hq, of_decide_eq_true heq⟩)
            rw [hnil]
            rfl
        simp [hvalues]
      · have hkeys : k ∈ (pairs ++ [p]).map Prod.fst ↔ k ∈ pairs.map Prod.fst := by simp [hk]
        rw [if_neg hk, ih, decide_eq_false (Ne.symm hk), cond_false, List.append_nil]
        simp only [hkeys]

theorem getD_multimap {ν : Type} (pairs : List (κ × ν)) (k : κ) :
    (multimap pairs).getD k [] = (pairs.filter fun p => p.1 = k).map Prod.snd := by
  rw [Dict.getD, lookup_multimap]
  split
  · rfl
  · rename_i hnone
    have hnil : (pairs.filter fun p => decide (p.1 = k)) = [] :=
      List.filter_eq_nil_iff.mpr fun p hp heq =>
        hnone (List.mem_map.mpr ⟨p, hp, of_decide_eq_true heq⟩)
    rw [hnil]
    rfl

theorem mem_keys_multimap {ν : Type} {pairs : List (κ × ν)} {k : κ} :
    k ∈ (multimap pairs).keys ↔ k ∈ pairs.map Prod.fst := by
  rw [← AList.mem_keys, ← AList.lookup_isSome, lookup_multimap]
  split <;> simp [*]

theorem multimap_perm {ν : Type} (pairs : List (κ × ν)) {keys : List κ}
    (h : keys.Perm (multimap pairs).keys) :
    (keys.flatMap fun k => (multimap pairs).getD k []).Perm (pairs.map Prod.snd) := by
  have hnodup : keys.Nodup := h.nodup_iff.mpr (AList.keys_nodup _)
  have hgroups : (keys.flatMap fun k => (multimap pairs).getD k []) =
      (keys.flatMap fun k => pairs.filter fun p => p.1 == k).map Prod.snd := by
    rw [List.map_flatMap]
    exact List.flatMap_congr fun k _ => getD_multimap pairs k
  rw [hgroups]
  exact (perm_flatMap_filter Prod.fst hnodup pairs fun p hp => h.mem_iff.mpr
    (mem_keys_multimap.mpr (List.mem_map_of_mem hp))).map Prod.snd

/-- `entry(key).or_default().insert(value)` for each pair, the values in a set. -/
def setMap {ν : Type} [DecidableEq ν] (pairs : List (κ × ν)) : Dict κ (List ν) :=
  pairs.foldl (fun d p => d.insert p.1 ((d.getD p.1 []).insert p.2)) ∅

section SetMap

variable {ν : Type} [DecidableEq ν]

theorem setMap_append (pairs : List (κ × ν)) (p : κ × ν) :
    setMap (pairs ++ [p]) =
      (setMap pairs).insert p.1 ((Dict.getD (setMap pairs) p.1 []).insert p.2) := by
  rw [setMap, List.foldl_append, List.foldl_cons, List.foldl_nil, ← setMap]

theorem mem_getD_setMap (pairs : List (κ × ν)) (k : κ) (v : ν) :
    v ∈ Dict.getD (setMap pairs) k [] ↔ (k, v) ∈ pairs := by
  induction pairs using List.reverseRecOn generalizing v with
  | nil => simp [setMap]
  | append_singleton pairs p ih =>
      rw [setMap_append, Dict.getD_insert, List.mem_append, List.mem_singleton]
      split
      · rename_i hk
        subst hk
        rw [List.mem_insert_iff, ih, or_comm, Prod.ext_iff, and_iff_right rfl]
      · rename_i hk
        rw [ih]
        exact ⟨.inl, fun h => h.resolve_right fun heq => hk (congrArg Prod.fst heq)⟩

theorem nodup_getD_setMap (pairs : List (κ × ν)) (k : κ) :
    (Dict.getD (setMap pairs) k []).Nodup := by
  induction pairs using List.reverseRecOn with
  | nil => simp [setMap]
  | append_singleton pairs p ih =>
      rw [setMap_append, Dict.getD_insert]
      split
      · rename_i hk
        subst hk
        exact ih.insert
      · exact ih

theorem mem_setMap (pairs : List (κ × ν)) (k : κ) : k ∈ setMap pairs ↔ k ∈ pairs.map Prod.fst := by
  induction pairs using List.reverseRecOn with
  | nil => simp [setMap]
  | append_singleton pairs p ih =>
      rw [setMap_append, AList.mem_insert, ih, List.map_append, List.mem_append,
        List.map_singleton, List.mem_singleton, or_comm]

end SetMap

end Grouping

end Dagayn
