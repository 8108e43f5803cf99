import Mathlib

/-!
# Entries in insertion order

The entries of a `dict`, or of the Rust vector that stands for one: setting a key that
is there keeps its position, a new key goes to the end. The operations commute with a
change of values and an injective change of keys (`Prod.map f g`), which is how the
entries of two representations are compared.
-/

namespace Dagayn

namespace Entries

variable {κ κ' ν ν' : Type} [DecidableEq κ] [DecidableEq κ']

/-- `d[key] = value`. -/
def set (key : κ) (value : ν) : List (κ × ν) → List (κ × ν)
  | [] => [(key, value)]
  | e :: es => if e.1 = key then (e.1, value) :: es else e :: set key value es

/-- `d.pop(key, None)`. -/
def remove (key : κ) (es : List (κ × ν)) : List (κ × ν) := es.filter fun e => e.1 ≠ key

/-- `d.get(key)`. -/
def get (key : κ) (es : List (κ × ν)) : Option ν :=
  (es.find? fun e => e.1 = key).map Prod.snd

/-- `{**es, **new}`. -/
def setAll (es new : List (κ × ν)) : List (κ × ν) :=
  new.foldl (fun acc e => set e.1 e.2 acc) es

theorem mem_keys_set {key k : κ} {value : ν} : ∀ {es : List (κ × ν)},
    k ∈ (set key value es).map Prod.fst ↔ k ∈ es.map Prod.fst ∨ k = key
  | [] => by simp [set]
  | e :: es => by
      rw [set]
      split
      · rename_i h
        simp only [List.map_cons, List.mem_cons]
        constructor
        · exact .inl
        · rintro (h' | rfl)
          · exact h'
          · exact .inl h.symm
      · simp only [List.map_cons, List.mem_cons, mem_keys_set, or_assoc]

theorem nodup_set {key : κ} {value : ν} : ∀ {es : List (κ × ν)},
    (es.map Prod.fst).Nodup → ((set key value es).map Prod.fst).Nodup
  | [], _ => by simp [set]
  | e :: es, h => by
      rw [List.map_cons, List.nodup_cons] at h
      rw [set]
      split
      · exact List.nodup_cons.mpr h
      · rename_i hne
        refine List.nodup_cons.mpr ⟨fun hmem => ?_, nodup_set h.2⟩
        rcases mem_keys_set.mp hmem with hmem | heq
        · exact h.1 hmem
        · exact hne heq

omit [DecidableEq κ'] in
theorem nodup_setAll {es : List (κ × ν)} (h : (es.map Prod.fst).Nodup) (new : List (κ × ν)) :
    ((setAll es new).map Prod.fst).Nodup := by
  induction new generalizing es with
  | nil => exact h
  | cons e new ih => exact ih (nodup_set h)

theorem nodup_setAll_nil (new : List (κ × ν)) : ((setAll [] new).map Prod.fst).Nodup :=
  nodup_setAll (by simp) new

theorem nodup_remove {key : κ} {es : List (κ × ν)} (h : (es.map Prod.fst).Nodup) :
    ((remove key es).map Prod.fst).Nodup :=
  h.sublist (List.filter_sublist.map Prod.fst)

theorem forall_set {P : κ × ν → Prop} {key : κ} {value : ν} (hnew : P (key, value)) :
    ∀ {es : List (κ × ν)}, (∀ e ∈ es, P e) → ∀ e ∈ set key value es, P e
  | [], _ => by
      intro e he
      rw [List.mem_singleton.mp he]
      exact hnew
  | e :: es, h => by
      rw [set]
      split
      · rename_i hkey
        rw [hkey]
        exact List.forall_mem_cons.mpr ⟨hnew, fun x hx => h x (List.mem_cons_of_mem e hx)⟩
      · exact List.forall_mem_cons.mpr ⟨h e List.mem_cons_self,
          forall_set hnew fun x hx => h x (List.mem_cons_of_mem e hx)⟩

theorem forall_setAll {P : κ × ν → Prop} {es new : List (κ × ν)} (h : ∀ e ∈ es, P e)
    (hnew : ∀ e ∈ new, P e) : ∀ e ∈ setAll es new, P e := by
  induction new generalizing es with
  | nil => exact h
  | cons e new ih =>
      exact ih (forall_set (hnew e List.mem_cons_self) h)
        fun x hx => hnew x (List.mem_cons_of_mem e hx)

theorem forall_setAll_nil {P : κ × ν → Prop} {new : List (κ × ν)} (hnew : ∀ e ∈ new, P e) :
    ∀ e ∈ setAll [] new, P e :=
  forall_setAll (fun _ he => absurd he List.not_mem_nil) hnew

theorem mem_keys_setAll {k : κ} {es new : List (κ × ν)} :
    k ∈ (setAll es new).map Prod.fst ↔ k ∈ es.map Prod.fst ∨ k ∈ new.map Prod.fst := by
  induction new generalizing es with
  | nil => simp [setAll]
  | cons e new ih =>
      have hstep : setAll es (e :: new) = setAll (set e.1 e.2 es) new := rfl
      rw [hstep, ih, mem_keys_set, List.map_cons, List.mem_cons, or_assoc]

theorem map_key_values (key : ν → κ) (rows : List ν) :
    ((setAll [] (rows.map fun r => (key r, r))).map Prod.snd).map key =
      (setAll [] (rows.map fun r => (key r, r))).map Prod.fst := by
  rw [List.map_map]
  refine List.map_congr_left fun e he => ?_
  have hkey : ∀ e ∈ setAll [] (rows.map fun r => (key r, r)), key e.2 = e.1 :=
    forall_setAll_nil fun e he => by
      obtain ⟨r, -, rfl⟩ := List.mem_map.mp he
      rfl
  exact hkey e he

theorem mem_values {key : ν → κ} {rows : List ν} {r : ν}
    (hinj : ∀ a ∈ rows, ∀ b ∈ rows, key a = key b → a = b) :
    r ∈ (setAll [] (rows.map fun r => (key r, r))).map Prod.snd ↔ r ∈ rows := by
  have hrow : ∀ e ∈ setAll [] (rows.map fun r => (key r, r)), e.2 ∈ rows :=
    forall_setAll_nil fun e he => by
      obtain ⟨r, hr, rfl⟩ := List.mem_map.mp he
      exact hr
  constructor
  · intro hr
    obtain ⟨e, he, rfl⟩ := List.mem_map.mp hr
    exact hrow e he
  · intro hr
    have hkey : key r ∈ ((setAll [] (rows.map fun r => (key r, r))).map Prod.snd).map key := by
      rw [map_key_values, mem_keys_setAll, List.map_map]
      exact .inr (List.mem_map_of_mem hr)
    obtain ⟨r', hr', heq⟩ := List.mem_map.mp hkey
    obtain ⟨e, he, rfl⟩ := List.mem_map.mp hr'
    exact hinj _ (hrow e he) r hr heq ▸ List.mem_map_of_mem he

theorem setAll_append : ∀ (new es : List (κ × ν)), ((es ++ new).map Prod.fst).Nodup →
    setAll es new = es ++ new
  | [], es, _ => (List.append_nil es).symm
  | e :: new, es, h => by
      have hset : ∀ es : List (κ × ν), e.1 ∉ es.map Prod.fst → set e.1 e.2 es = es ++ [e] := by
        intro es hfresh
        induction es with
        | nil => rfl
        | cons x es ih =>
            simp only [List.map_cons, List.mem_cons, not_or] at hfresh
            rw [set, if_neg (Ne.symm hfresh.1), ih hfresh.2]
            rfl
      have hfresh : e.1 ∉ es.map Prod.fst := by
        rw [List.map_append, List.map_cons] at h
        exact fun hmem => (List.nodup_append.mp h).2.2 e.1 hmem e.1 List.mem_cons_self rfl
      show setAll (set e.1 e.2 es) new = es ++ e :: new
      rw [hset es hfresh, setAll_append new (es ++ [e]) (by rwa [List.append_assoc]),
        List.append_assoc]
      rfl

theorem set_ne_nil (key : κ) (value : ν) (es : List (κ × ν)) : set key value es ≠ [] := by
  cases es with
  | nil => exact List.cons_ne_nil _ _
  | cons e es =>
      rw [set]
      split <;> exact List.cons_ne_nil _ _

theorem setAll_ne_nil {es : List (κ × ν)} (h : es ≠ []) (new : List (κ × ν)) :
    setAll es new ≠ [] := by
  induction new generalizing es with
  | nil => exact h
  | cons e new ih => exact ih (set_ne_nil e.1 e.2 es)

theorem isEmpty_setAll_nil (new : List (κ × ν)) : (setAll [] new).isEmpty = new.isEmpty := by
  cases new with
  | nil => rfl
  | cons e new =>
      have hne : setAll [] (e :: new) ≠ [] := setAll_ne_nil (set_ne_nil e.1 e.2 []) new
      simpa using hne

/-! ## Another representation of keys and values -/

section Map

variable {f : κ → κ'} (hf : Function.Injective f) (g : ν → ν')
include hf

theorem map_set (key : κ) (value : ν) : ∀ es : List (κ × ν),
    (set key value es).map (Prod.map f g) = set (f key) (g value) (es.map (Prod.map f g))
  | [] => rfl
  | e :: es => by
      rw [List.map_cons, set, set]
      by_cases hkey : e.1 = key
      · have heq : (Prod.map f g e).1 = f key := congrArg f hkey
        rw [if_pos hkey, if_pos heq]
        rfl
      · have hne : (Prod.map f g e).1 ≠ f key := fun h => hkey (hf h)
        rw [if_neg hkey, if_neg hne, List.map_cons, map_set key value es]

theorem map_remove (key : κ) (es : List (κ × ν)) :
    (remove key es).map (Prod.map f g) = remove (f key) (es.map (Prod.map f g)) := by
  unfold remove
  rw [List.filter_map]
  congr 2
  funext e
  exact decide_eq_decide.mpr (hf.ne_iff (x := e.1) (y := key)).symm

theorem get_map (key : κ) (es : List (κ × ν)) :
    get (f key) (es.map (Prod.map f g)) = (get key es).map g := by
  induction es with
  | nil => rfl
  | cons e es ih =>
      unfold get at ih ⊢
      by_cases hkey : e.1 = key
      · have heq : (Prod.map f g e).1 = f key := congrArg f hkey
        rw [List.map_cons, List.find?_cons_of_pos (by simpa using heq),
          List.find?_cons_of_pos (by simpa using hkey)]
        rfl
      · have hne : (Prod.map f g e).1 ≠ f key := fun h => hkey (hf h)
        rw [List.map_cons, List.find?_cons_of_neg (by simpa using hne),
          List.find?_cons_of_neg (by simpa using hkey), ih]

theorem map_setAll (es new : List (κ × ν)) :
    (setAll es new).map (Prod.map f g)
      = setAll (es.map (Prod.map f g)) (new.map (Prod.map f g)) := by
  induction new generalizing es with
  | nil => rfl
  | cons e new ih =>
      show (setAll (set e.1 e.2 es) new).map (Prod.map f g) = _
      rw [ih, map_set hf]
      rfl

end Map

end Entries

end Dagayn
