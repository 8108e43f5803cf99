import Dagayn.JsonFields

/-!
# Paths in a JSON value

The value that a path of keys leads to, and what cutting the list at one path leaves to be seen at
another.
-/

namespace Dagayn

namespace Json

/-- `Value::as_u64`. -/
def asNat : Json → Option Nat
  | .int n => if 0 ≤ n then some n.toNat else none
  | _ => none

def valueAt : List String → Json → Option Json
  | [], v => some v
  | key :: keys, v => (v.get key).bind (valueAt keys)

def listAt (path : List String) (v : Json) : Option (List Json) := (valueAt path v).bind asList

def modifyKey (key : String) (f : Json → Json) (fields : List (String × Json)) :
    List (String × Json) :=
  fields.map fun e => if e.1 = key then (e.1, f e.2) else e

/-- `items.truncate(kept)`, of the list at a path. -/
def truncateAt (kept : Nat) : List String → Json → Json
  | [], .arr items => .arr (items.take kept)
  | key :: keys, .obj fields => .obj (modifyKey key (truncateAt kept keys) fields)
  | _, v => v

theorem lookup_modifyKey (key key' : String) (f : Json → Json) (fields : List (String × Json)) :
    (modifyKey key f fields).lookup key' =
      if key' = key then (fields.lookup key).map f else fields.lookup key' := by
  induction fields with
  | nil => simp [modifyKey]
  | cons e fields ih =>
      obtain ⟨k, v⟩ := e
      have hcons : modifyKey key f ((k, v) :: fields) =
          (k, if k = key then f v else v) :: modifyKey key f fields := by
        simp only [modifyKey, List.map_cons]
        split <;> rfl
      rw [hcons, List.lookup_cons, List.lookup_cons, List.lookup_cons, ih]
      by_cases hk : key' = k
      · subst hk
        by_cases hkey : key' = key
        · subst hkey
          simp
        · simp [hkey]
      · by_cases hkey : key' = key
        · subst hkey
          simp [beq_eq_false_iff_ne.mpr hk]
        · simp [beq_eq_false_iff_ne.mpr hk, hkey]

theorem valueAt_truncateAt_append (kept : Nat) (path rest : List String) (v : Json) :
    valueAt path (truncateAt kept (path ++ rest) v) =
      (valueAt path v).map (truncateAt kept rest) := by
  induction path generalizing v with
  | nil => rfl
  | cons key path ih =>
      cases v with
      | obj fields =>
          simp only [List.cons_append, truncateAt, valueAt, get, lookup_modifyKey, if_true]
          cases fields.lookup key with
          | none => rfl
          | some x => exact ih x
      | _ => rfl

theorem valueAt_truncateAt_of_not_prefix (kept : Nat) {path other : List String}
    (h : ¬other <+: path) (v : Json) :
    valueAt other (truncateAt kept path v) = valueAt other v := by
  induction path generalizing other v with
  | nil =>
      cases other with
      | nil => exact absurd (List.prefix_refl []) h
      | cons key keys => cases v <;> rfl
  | cons key path ih =>
      cases other with
      | nil => exact absurd List.nil_prefix h
      | cons key' other =>
          cases v with
          | obj fields =>
              simp only [truncateAt, valueAt, get, lookup_modifyKey]
              by_cases hkey : key' = key
              · subst hkey
                have hrest : ¬other <+: path := fun hin => h (List.prefix_cons_inj key' |>.mpr hin)
                rw [if_pos rfl]
                cases fields.lookup key' with
                | none => rfl
                | some x => exact ih hrest x
              · rw [if_neg hkey]
          | _ => rfl

theorem asList_truncateAt_cons (kept : Nat) (key : String) (keys : List String) (v : Json) :
    (truncateAt kept (key :: keys) v).asList = v.asList := by
  cases v <;> rfl

theorem listAt_truncateAt (kept : Nat) (path other : List String) (v : Json) :
    listAt other (truncateAt kept path v) =
      if other = path then (listAt path v).map (List.take kept) else listAt other v := by
  by_cases hprefix : other <+: path
  · obtain ⟨rest, rfl⟩ := hprefix
    rw [listAt, valueAt_truncateAt_append]
    cases rest with
    | nil =>
        rw [if_pos (List.append_nil other).symm, List.append_nil, listAt]
        rcases valueAt other v with - | x
        · rfl
        · cases x <;> rfl
    | cons key keys =>
        rw [if_neg (by simp), listAt]
        rcases valueAt other v with - | x
        · rfl
        · exact asList_truncateAt_cons kept key keys x
  · have hne : other ≠ path := fun heq => hprefix (heq ▸ List.prefix_refl _)
    rw [if_neg hne, listAt, listAt, valueAt_truncateAt_of_not_prefix kept hprefix]

theorem truncateAt_truncateAt {kept kept' : Nat} (h : kept' ≤ kept) (path : List String)
    (v : Json) : truncateAt kept' path (truncateAt kept path v) = truncateAt kept' path v := by
  induction path generalizing v with
  | nil =>
      cases v with
      | arr items => simp [truncateAt, List.take_take, h]
      | _ => rfl
  | cons key path ih =>
      cases v with
      | obj fields =>
          simp only [truncateAt, modifyKey, List.map_map]
          refine congrArg obj (List.map_congr_left fun e _ => ?_)
          by_cases hkey : e.1 = key
          · simp [hkey, ih]
          · simp [hkey]
      | _ => rfl

end Json

end Dagayn
