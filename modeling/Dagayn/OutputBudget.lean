import Dagayn.JsonPaths
import Mathlib

/-!
# Cutting a reply to a budget

`apply_output_budget`: the named lists of a reply are halved, the one of the lowest priority first,
until the reply is short enough. Its length is that of Python's `json.dumps`. `press` is a list cut
to one element; as long as the reply is too long, the lists done with are pressed, and
`cutLists_outcome` says so of the whole loop.
-/

namespace Dagayn

/-- A JSON object that keeps its keys in insertion order. -/
structure Ordered where
  entries : List (String × Json)
  nodup : (entries.map Prod.fst).Nodup

namespace Ordered

open Json

def value (o : Ordered) : Json := .obj o.entries

def get (o : Ordered) (key : String) : Option Json := o.entries.lookup key

theorem map_fst_replace (key : String) (v : Json) (entries : List (String × Json)) :
    (entries.map fun e => if e.1 = key then (key, v) else e).map Prod.fst =
      entries.map Prod.fst := by
  rw [List.map_map]
  refine List.map_congr_left fun e _ => ?_
  simp only [Function.comp]
  split
  · rename_i heq
    exact heq.symm
  · rfl

theorem map_fst_modifyKey (key : String) (f : Json → Json) (entries : List (String × Json)) :
    (modifyKey key f entries).map Prod.fst = entries.map Prod.fst := by
  rw [modifyKey, List.map_map]
  refine List.map_congr_left fun e _ => ?_
  simp only [Function.comp]
  split <;> rfl

def set (o : Ordered) (key : String) (v : Json) : Ordered :=
  if h : o.entries.any (·.1 = key) then
    ⟨o.entries.map fun e => if e.1 = key then (key, v) else e, by
      rw [map_fst_replace]
      exact o.nodup⟩
  else
    ⟨o.entries ++ [(key, v)], by
      have hnew : key ∉ o.entries.map Prod.fst := by simpa using h
      rw [List.map_append, List.map_singleton, ← List.concat_eq_append]
      exact o.nodup.concat hnew⟩

/-- `put`, of a key that is not there yet. -/
def put (o : Ordered) (key : String) (v : Json) : Ordered := o.set key v

/-- `field.split('.')`: the key of the object, and the keys in its value. -/
def fieldPath (field : String) : List String := (field.toList.splitOn '.').map String.ofList

def listAt (o : Ordered) (field : String) : Option (List Json) :=
  Json.listAt (fieldPath field) o.value

def truncate (o : Ordered) (field : String) (kept : Nat) : Ordered :=
  match fieldPath field with
  | [] => o
  | key :: keys =>
      ⟨modifyKey key (truncateAt kept keys) o.entries, by
        rw [map_fst_modifyKey]
        exact o.nodup⟩

theorem value_set (o : Ordered) (key : String) (v : Json) :
    (o.set key v).value = o.value.insert key v := by
  rw [set, value, value, Json.insert]
  split <;> rfl

theorem value_truncate (o : Ordered) (field : String) (kept : Nat) :
    (o.truncate field kept).value = truncateAt kept (fieldPath field) o.value := by
  rw [truncate]
  cases fieldPath field <;> rfl

theorem ext_value {o o' : Ordered} (h : o.value = o'.value) : o = o' := by
  cases o
  cases o'
  obtain rfl := Json.obj.inj h
  rfl

end Ordered

namespace OutputBudget

open Json Ordered

/-! ## The length of a reply -/

/-- `python_string_len` of a character. -/
def charLen (c : Char) : Nat :=
  if c ∈ ['"', '\\', '\n', '\r', '\t', '\x08', '\x0c'] then 2
  else if ' ' ≤ c ∧ c ≤ '~' then 1
  else if 0xFFFF < c.toNat then 12
  else 6

def pythonStringLen (text : String) : Nat := 2 + (text.toList.map charLen).sum

mutual

/-- `python_dumps_len`; how long a double is written is a parameter. -/
def pythonDumpsLen (floatLen : Float → Nat) : Json → Nat
  | .null => 4
  | .bool true => 4
  | .bool false => 5
  | .int n => (toString n).length
  | .float x => floatLen x
  | .str text => pythonStringLen text
  | .arr items => 2 + itemsLen floatLen items + 2 * (items.length - 1)
  | .obj fields => 2 + fieldsLen floatLen fields + 2 * (fields.length - 1)

def itemsLen (floatLen : Float → Nat) : List Json → Nat
  | [] => 0
  | item :: items => pythonDumpsLen floatLen item + itemsLen floatLen items

def fieldsLen (floatLen : Float → Nat) : List (String × Json) → Nat
  | [] => 0
  | (key, item) :: fields =>
      pythonStringLen key + 2 + pythonDumpsLen floatLen item + fieldsLen floatLen fields

end

/-! ## The cut -/

section Cut

variable (floatLen : Float → Nat) (budget : Nat)

/-- `over`: four characters make a token. -/
def Over (o : Ordered) : Prop := budget < pythonDumpsLen floatLen o.value / 4

instance (o : Ordered) : Decidable (Over floatLen budget o) := inferInstanceAs (Decidable (_ < _))

/-- `while kept > 1 && over(&self)`. -/
def halve (field : String) (kept : Nat) (o : Ordered) : Nat × Ordered :=
  if 1 < kept ∧ Over floatLen budget o then halve field (kept / 2) (o.truncate field (kept / 2))
  else (kept, o)
termination_by kept

/-- The loop over the fields, the one of the lowest priority first, with the truncations so far. -/
def cutLists : List String → Ordered → List (String × Nat × Nat) →
    Ordered × List (String × Nat × Nat)
  | [], o, truncation => (o, truncation)
  | field :: fields, o, truncation =>
      match o.listAt field with
      | none => cutLists fields o truncation
      | some items =>
          let total := items.length
          let (kept, o) := halve floatLen budget field total o
          let (o, truncation) :=
            if kept < total then
              (o.set "truncated" (.bool true), truncation ++ [(field, kept, total)])
            else (o, truncation)
          if Over floatLen budget o then cutLists fields o truncation else (o, truncation)

/-- `json!({"kept": kept, "total": total})`. -/
def recordOf (kept total : Nat) : Json := .obj [("kept", .int kept), ("total", .int total)]

/-- `record.extend(truncation)`. -/
def extend (record : Json) (truncation : List (String × Nat × Nat)) : Json :=
  truncation.foldl (fun record e => record.insert e.1 (recordOf e.2.1 e.2.2)) record

def recordIn (o : Ordered) : Json :=
  match o.get "_truncation" with
  | some (.obj fields) => .obj fields
  | _ => .obj []

def applyOutputBudget (o : Ordered) (priorities : List String) : Ordered :=
  if Over floatLen budget o then
    let (o, truncation) := cutLists floatLen budget priorities.reverse o []
    if !truncation.isEmpty then o.set "_truncation" (extend (recordIn o) truncation)
    else if Over floatLen budget o then o.set "truncated" (.bool true)
    else o
  else o

end Cut

/-! ## The condition -/

section Condition

variable (floatLen : Float → Nat) (budget : Nat)

def size (o : Ordered) (field : String) : Nat := (o.listAt field).elim 0 List.length

/-- The list cut to one element, where it has more. -/
def press (o : Ordered) (field : String) : Ordered :=
  if 1 < size o field then (o.truncate field 1).set "truncated" (.bool true) else o

/-- What halving a number again and again goes through. -/
def Halved (total kept : Nat) : Prop := ∃ j, kept = total / 2 ^ (j + 1)

/-- A name of the reply's own fields: neither of the two that say what was cut. -/
def Plain (field : String) : Prop :=
  (fieldPath field).head? ≠ some "truncated" ∧ (fieldPath field).head? ≠ some "_truncation"

instance (field : String) : Decidable (Plain field) := inferInstanceAs (Decidable (_ ∧ _))

/-- The state before a call, and the call: no list is to be cut that is not as it was at first, and
`truncated` does not make a reply too long again that is short enough with more than one element of
a list, where there is another list to cut. The fields come lowest priority first. -/
structure Meets (first o : Ordered) (priorities : List String) : Prop where
  plain : ∀ field ∈ priorities, Plain field
  whole : ∀ done field rest, priorities.reverse = done ++ field :: rest →
    Over floatLen budget (done.foldl press o) → 1 < size (done.foldl press o) field →
    o.listAt field = first.listAt field
  settled : ∀ done field rest, priorities.reverse = done ++ field :: rest →
    Over floatLen budget (done.foldl press o) →
    ∀ kept, Halved (size (done.foldl press o) field) kept → 1 < kept →
      ¬Over floatLen budget ((done.foldl press o).truncate field kept) →
      ¬Over floatLen budget
        (((done.foldl press o).truncate field kept).set "truncated" (.bool true)) ∨
      ∀ other ∈ rest, size (done.foldl press o) other ≤ 1

end Condition

/-! ## What an operation leaves to be seen -/

theorem fieldPath_ne_nil (field : String) : fieldPath field ≠ [] := by
  simp [fieldPath, List.splitOn_ne_nil]

theorem fieldPath_inj {field other : String} (h : fieldPath field = fieldPath other) :
    field = other := by
  have hsplit : field.toList.splitOn '.' = other.toList.splitOn '.' :=
    List.map_injective_iff.mpr (fun _ _ heq => String.ofList_injective heq) h
  have hlist := congrArg ([('.' : Char)].intercalate) hsplit
  rw [List.intercalate_splitOn, List.intercalate_splitOn] at hlist
  exact String.toList_injective hlist

def IsMarker (key : String) : Prop := key = "truncated" ∨ key = "_truncation"

theorem Plain.head {field key : String} {keys : List String} (h : Plain field)
    (hpath : fieldPath field = key :: keys) : ¬IsMarker key := by
  rintro (rfl | rfl)
  · exact h.1 (by rw [hpath, List.head?_cons])
  · exact h.2 (by rw [hpath, List.head?_cons])

theorem get_set (o : Ordered) (key key' : String) (v : Json) :
    (o.set key v).get key' = if key' = key then some v else o.get key' := by
  have h := get_insert o.value key key' v
  rw [← value_set] at h
  exact h

theorem valueAt_set {key head : String} (hne : head ≠ key) (o : Ordered) (v : Json)
    (keys : List String) :
    valueAt (head :: keys) (o.set key v).value = valueAt (head :: keys) o.value := by
  rw [value_set, valueAt, valueAt, get_insert, if_neg hne]

theorem listAt_set {key field : String} (h : IsMarker key) (hplain : Plain field) (o : Ordered)
    (v : Json) : (o.set key v).listAt field = o.listAt field := by
  rw [Ordered.listAt, Ordered.listAt]
  cases hpath : fieldPath field with
  | nil => exact absurd hpath (fieldPath_ne_nil field)
  | cons head keys =>
      have hne : head ≠ key := by
        rintro rfl
        exact hplain.head hpath h
      rw [Json.listAt, Json.listAt, valueAt_set hne]

theorem listAt_truncate (o : Ordered) (field other : String) (kept : Nat) :
    (o.truncate field kept).listAt other =
      if other = field then (o.listAt field).map (List.take kept) else o.listAt other := by
  rw [Ordered.listAt, value_truncate, listAt_truncateAt]
  by_cases heq : other = field
  · rw [if_pos heq, if_pos (heq ▸ rfl)]
    rfl
  · rw [if_neg heq, if_neg fun hpath => heq (fieldPath_inj hpath)]
    rfl

theorem valueAt_truncate {field : String} {path : List String} (h : ¬path <+: fieldPath field)
    (o : Ordered) (kept : Nat) :
    valueAt path (o.truncate field kept).value = valueAt path o.value := by
  rw [value_truncate, valueAt_truncateAt_of_not_prefix kept h]

theorem truncate_truncate {kept kept' : Nat} (h : kept' ≤ kept) (o : Ordered) (field : String) :
    (o.truncate field kept).truncate field kept' = o.truncate field kept' := by
  refine ext_value ?_
  rw [value_truncate, value_truncate, value_truncate, truncateAt_truncateAt h]

theorem size_congr {o o' : Ordered} {field : String} (h : o.listAt field = o'.listAt field) :
    size o field = size o' field := congrArg (·.elim 0 List.length) h

theorem size_truncate {o : Ordered} {field : String} {kept : Nat} (h : kept ≤ size o field) :
    size (o.truncate field kept) field = kept := by
  rw [size, listAt_truncate, if_pos rfl]
  rw [size] at h
  cases hlist : o.listAt field with
  | none =>
      rw [hlist] at h
      exact (Nat.le_zero.mp h).symm
  | some items =>
      rw [hlist] at h
      exact List.length_take.trans (min_eq_left h)

theorem size_truncate_of_ne {field other : String} (h : other ≠ field) (o : Ordered) (kept : Nat) :
    size (o.truncate field kept) other = size o other := by
  rw [size, size, listAt_truncate, if_neg h]

theorem size_set {key field : String} (h : IsMarker key) (hplain : Plain field) (o : Ordered)
    (v : Json) : size (o.set key v) field = size o field := by
  rw [size, size, listAt_set h hplain]

/-- One name's list cut to a length, or one of the reply's own keys set. -/
inductive Edit (names : List String) (o : Ordered) : Ordered → Prop
  | cut {field : String} {kept : Nat} : field ∈ names → 1 ≤ kept →
      Edit names o (o.truncate field kept)
  | mark {key : String} (v : Json) : IsMarker key → Edit names o (o.set key v)

abbrev Edits (names : List String) : Ordered → Ordered → Prop := Relation.ReflTransGen (Edit names)

variable {names : List String} {o o' : Ordered}

theorem Edits.mono {names' : List String} (hsub : ∀ field ∈ names, field ∈ names')
    (h : Edits names o o') : Edits names' o o' := by
  refine Relation.ReflTransGen.mono (fun a b hedit => ?_) _ _ h
  cases hedit with
  | cut hfield hone => exact .cut (hsub _ hfield) hone
  | mark v hkey => exact .mark v hkey

theorem Edits.valueAt_eq (h : Edits names o o') {head : String} {keys : List String}
    (hhead : ¬IsMarker head) (hout : ∀ field ∈ names, ¬(head :: keys) <+: fieldPath field) :
    valueAt (head :: keys) o'.value = valueAt (head :: keys) o.value := by
  induction h with
  | refl => rfl
  | tail _ hedit ih =>
      rw [← ih]
      cases hedit with
      | cut hfield _ => exact valueAt_truncate (hout _ hfield) _ _
      | @mark key v hkey =>
          refine valueAt_set ?_ _ v keys
          rintro rfl
          exact hhead hkey

theorem Edits.listAt_eq (h : Edits names o o') {field : String} (hplain : Plain field) :
    ∃ kept, 1 ≤ kept ∧ o'.listAt field = (o.listAt field).map (List.take kept) := by
  induction h with
  | refl =>
      refine ⟨size o field + 1, Nat.succ_pos _, ?_⟩
      rw [size]
      cases o.listAt field with
      | none => rfl
      | some items => exact congrArg some (List.take_of_length_le (Nat.le_succ _)).symm
  | @tail b c _ hedit ih =>
      obtain ⟨kept, hkept, heq⟩ := ih
      cases hedit with
      | @cut other kept' hother hkept' =>
          rw [listAt_truncate]
          split
          · rename_i hsame
            refine ⟨min kept' kept, le_min hkept' hkept, ?_⟩
            rw [← hsame, heq, Option.map_map]
            congr 1
            funext items
            exact List.take_take
          · exact ⟨kept, hkept, heq⟩
      | mark v hkey => exact ⟨kept, hkept, (listAt_set hkey hplain b v).trans heq⟩

theorem Edits.size_le (h : Edits names o o') {field : String} (hplain : Plain field) :
    size o' field ≤ size o field := by
  obtain ⟨kept, -, heq⟩ := h.listAt_eq hplain
  rw [size, size, heq]
  cases o.listAt field with
  | none => exact le_rfl
  | some items => exact List.length_take_le' kept items

/-! ## Pressed lists -/

theorem press_of_le {field : String} (h : size o field ≤ 1) : press o field = o :=
  if_neg (not_lt_of_ge h)

theorem press_of_lt {field : String} (h : 1 < size o field) :
    press o field = (o.truncate field 1).set "truncated" (.bool true) := if_pos h

theorem edits_press {field : String} (h : field ∈ names) : Edits names o (press o field) := by
  rw [press]
  split
  · exact .tail (.single (.cut h le_rfl)) (.mark _ (.inl rfl))
  · exact .refl

theorem edits_pressed {fields : List String} (h : ∀ field ∈ fields, field ∈ names) :
    Edits names o (fields.foldl press o) := by
  induction fields generalizing o with
  | nil => exact .refl
  | cons field fields ih =>
      exact (edits_press (h field List.mem_cons_self)).trans
        (ih fun f hf => h f (List.mem_cons_of_mem _ hf))

theorem size_press_self {field : String} (hplain : Plain field) :
    size (press o field) field ≤ 1 := by
  by_cases hlt : 1 < size o field
  · rw [press_of_lt hlt, size_set (.inl rfl) hplain, size_truncate hlt.le]
  · rw [press_of_le (not_lt.mp hlt)]
    exact not_lt.mp hlt

theorem listAt_press_of_ne {field other : String} (hplain : Plain other) (h : other ≠ field) :
    (press o field).listAt other = o.listAt other := by
  rw [press]
  split
  · rw [listAt_set (.inl rfl) hplain, listAt_truncate, if_neg h]
  · rfl

theorem pressed_spec {fields : List String} (hplain : ∀ field ∈ fields, Plain field) :
    (∀ field ∈ fields, size (fields.foldl press o) field ≤ 1) ∧
      ∀ other, Plain other → other ∉ fields →
        (fields.foldl press o).listAt other = o.listAt other := by
  induction fields generalizing o with
  | nil => exact ⟨fun _ h => (List.not_mem_nil h).elim, fun _ _ _ => rfl⟩
  | cons field fields ih =>
      obtain ⟨hone, hother⟩ := ih (o := press o field)
        fun f hf => hplain f (List.mem_cons_of_mem _ hf)
      constructor
      · intro f hf
        rcases List.mem_cons.mp hf with rfl | hf
        · have hrest : Edits fields (press o f) (fields.foldl press (press o f)) :=
            edits_pressed fun _ h => h
          have hf' := hplain f List.mem_cons_self
          exact (hrest.size_le hf').trans (size_press_self hf')
        · exact hone f hf
      · intro f hf hnot
        rw [List.mem_cons, not_or] at hnot
        exact (hother f hf hnot.2).trans (listAt_press_of_ne hf hnot.1)

/-! ## One call -/

section Call

variable {floatLen : Float → Nat} {budget : Nat}

theorem listAt_of_one_lt {field : String} (h : 1 < size o field) :
    ∃ items, o.listAt field = some items ∧ items.length = size o field := by
  rw [size] at h ⊢
  cases hlist : o.listAt field with
  | none =>
      rw [hlist] at h
      exact absurd h (Nat.not_lt_zero _)
  | some items => exact ⟨items, rfl, rfl⟩

/-- The list is left as it is, or halved until the reply is short enough or one element is left. -/
theorem halve_spec (field : String) (kept : Nat) (o : Ordered) :
    (halve floatLen budget field kept o = (kept, o) ∧ ¬(1 < kept ∧ Over floatLen budget o)) ∨
      ∃ kept', halve floatLen budget field kept o = (kept', o.truncate field kept') ∧
        (1 < kept ∧ Over floatLen budget o) ∧ Halved kept kept' ∧ 1 ≤ kept' ∧ kept' < kept ∧
        (kept' ≤ 1 ∨ ¬Over floatLen budget (o.truncate field kept')) := by
  induction kept using Nat.strong_induction_on generalizing o with
  | _ kept ih =>
      rw [halve]
      split
      · rename_i hcut
        have hlt : kept / 2 < kept := Nat.div_lt_self (by omega) Nat.one_lt_two
        have hone : 1 ≤ kept / 2 := by omega
        refine .inr ?_
        rcases ih (kept / 2) hlt (o.truncate field (kept / 2)) with
          ⟨heq, hstop⟩ | ⟨kept', heq, hcut', ⟨j, hj⟩, hone', hlt', hstop⟩
        · refine ⟨kept / 2, heq, hcut, ⟨0, by simp⟩, hone, hlt, ?_⟩
          rcases not_and_or.mp hstop with hle | hfits
          · exact .inl (not_lt.mp hle)
          · exact .inr hfits
        · rw [truncate_truncate hlt'.le] at heq hstop
          refine ⟨kept', heq, hcut, ⟨j + 1, ?_⟩, hone', hlt'.trans hlt, hstop⟩
          rw [hj, Nat.div_div_eq_div_mul, Nat.pow_succ 2 (j + 1), Nat.mul_comm]
      · rename_i hstop
        exact .inl ⟨rfl, hstop⟩

theorem cutLists_cons_short {field : String} (h : size o field ≤ 1) (fields : List String)
    (truncation : List (String × Nat × Nat)) (hover : Over floatLen budget o) :
    cutLists floatLen budget (field :: fields) o truncation =
      cutLists floatLen budget fields o truncation := by
  rw [cutLists]
  cases hlist : o.listAt field with
  | none => rfl
  | some items =>
      have hlen : items.length ≤ 1 := by
        rw [size, hlist] at h
        exact h
      have hhalve : halve floatLen budget field items.length o = (items.length, o) := by
        rw [halve, if_neg fun hcut => absurd hcut.1 (not_lt_of_ge hlen)]
      simp only [hhalve, lt_irrefl, if_false, hover, if_true]

theorem cutLists_short {fields : List String} (h : ∀ field ∈ fields, size o field ≤ 1)
    (truncation : List (String × Nat × Nat)) (hover : Over floatLen budget o) :
    cutLists floatLen budget fields o truncation = (o, truncation) := by
  induction fields with
  | nil => rfl
  | cons field fields ih =>
      rw [cutLists_cons_short (h field List.mem_cons_self) _ _ hover]
      exact ih fun f hf => h f (List.mem_cons_of_mem _ hf)

/-- A list with more elements is halved, and the others are cut only when the reply is still too
long. -/
theorem cutLists_cons_long {field : String} (h : 1 < size o field) (fields : List String)
    (truncation : List (String × Nat × Nat)) (hover : Over floatLen budget o) :
    ∃ kept, Halved (size o field) kept ∧ 1 ≤ kept ∧ kept < size o field ∧
      (kept ≤ 1 ∨ ¬Over floatLen budget (o.truncate field kept)) ∧
      cutLists floatLen budget (field :: fields) o truncation =
        let o' := (o.truncate field kept).set "truncated" (.bool true)
        let truncation' := truncation ++ [(field, kept, size o field)]
        if Over floatLen budget o' then cutLists floatLen budget fields o' truncation'
        else (o', truncation') := by
  obtain ⟨items, hlist, hlen⟩ := listAt_of_one_lt h
  have hhalve : (halve floatLen budget field items.length o = (items.length, o) ∧ _) ∨ _ :=
    halve_spec field items.length o
  rcases hhalve with
    ⟨-, hstop⟩ | ⟨kept, heq, -, hhalved, hone, hlt, hstop⟩
  · exact absurd ⟨hlen ▸ h, hover⟩ hstop
  · rw [hlen] at heq hlt hhalved
    refine ⟨kept, hhalved, hone, hlt, hstop, ?_⟩
    rw [cutLists, hlist]
    simp only [hlen, heq, hlt, if_true]

theorem edits_cutLists {fields : List String} (hnames : ∀ field ∈ fields, field ∈ names)
    (o : Ordered) (truncation : List (String × Nat × Nat)) :
    Edits names o (cutLists floatLen budget fields o truncation).1 := by
  induction fields generalizing o truncation with
  | nil => exact .refl
  | cons field fields ih =>
      have ih := ih fun f hf => hnames f (List.mem_cons_of_mem _ hf)
      rw [cutLists]
      cases hlist : o.listAt field with
      | none => exact ih o truncation
      | some items =>
          have hhalve : (halve floatLen budget field items.length o = (items.length, o) ∧ _) ∨ _ :=
            halve_spec field items.length o
          rcases hhalve with ⟨heq, -⟩ | ⟨kept, heq, -, -, hone, hlt, -⟩
          · simp only [heq, lt_irrefl, if_false]
            split
            · exact ih o truncation
            · exact .refl
          · simp only [heq, hlt, if_true]
            have hcut : Edits names o ((o.truncate field kept).set "truncated" (.bool true)) :=
              .tail (.single (.cut (hnames field List.mem_cons_self) hone)) (.mark _ (.inl rfl))
            split
            · exact hcut.trans (ih _ _)
            · exact hcut

theorem edits_apply (o : Ordered) (priorities : List String) :
    Edits priorities o (applyOutputBudget floatLen budget o priorities) := by
  have hcut : Edits priorities o (cutLists floatLen budget priorities.reverse o []).1 :=
    edits_cutLists (fun f hf => List.mem_reverse.mp hf) o []
  rw [applyOutputBudget]
  split_ifs
  · dsimp only
    split_ifs
    · exact hcut.tail (.mark _ (.inr rfl))
    · exact hcut.tail (.mark _ (.inl rfl))
    · exact hcut
  · exact .refl

theorem get_truncate_marker {field key : String} (hplain : Plain field) (h : IsMarker key)
    (o : Ordered) (kept : Nat) : (o.truncate field kept).get key = o.get key := by
  have hout : ¬[key] <+: fieldPath field := by
    intro hin
    obtain ⟨keys, hkeys⟩ := hin
    exact hplain.head hkeys.symm h
  have hvalue := valueAt_truncate hout o kept
  have hget : (o.truncate field kept).value.get key = o.value.get key := by
    simpa [valueAt] using hvalue
  exact hget

theorem cutLists_cons (field : String) (fields : List String) (o : Ordered)
    (truncation : List (String × Nat × Nat)) :
    cutLists floatLen budget (field :: fields) o truncation =
        cutLists floatLen budget fields o truncation ∨
      cutLists floatLen budget (field :: fields) o truncation = (o, truncation) ∧
        ¬Over floatLen budget o ∨
      ∃ kept, Over floatLen budget o ∧ kept < size o field ∧
        let o' := (o.truncate field kept).set "truncated" (.bool true)
        let truncation' := truncation ++ [(field, kept, size o field)]
        cutLists floatLen budget (field :: fields) o truncation =
          if Over floatLen budget o' then cutLists floatLen budget fields o' truncation'
          else (o', truncation') := by
  by_cases hover : Over floatLen budget o
  · rcases Nat.lt_or_ge 1 (size o field) with hlong | hshort
    · obtain ⟨kept, -, -, hlt, -, heq⟩ := cutLists_cons_long hlong fields truncation hover
      exact .inr (.inr ⟨kept, hover, hlt, heq⟩)
    · exact .inl (cutLists_cons_short hshort fields truncation hover)
  · rw [cutLists]
    cases hlist : o.listAt field with
    | none => exact .inl rfl
    | some items =>
        have hhalve : halve floatLen budget field items.length o = (items.length, o) := by
          rw [halve, if_neg fun hcut => hover hcut.2]
        refine .inr (.inl ⟨?_, hover⟩)
        simp only [hhalve, lt_irrefl, if_false, if_neg hover]

theorem cutLists_frame {fields : List String} (hplain : ∀ field ∈ fields, Plain field)
    (o : Ordered) (truncation : List (String × Nat × Nat)) :
    (∀ field, Plain field → field ∉ fields →
      (cutLists floatLen budget fields o truncation).1.listAt field = o.listAt field) ∧
    (cutLists floatLen budget fields o truncation).1.get "_truncation" = o.get "_truncation" := by
  induction fields generalizing o truncation with
  | nil => exact ⟨fun _ _ _ => rfl, rfl⟩
  | cons field fields ih =>
      have ih := ih fun f hf => hplain f (List.mem_cons_of_mem _ hf)
      have hfield := hplain field List.mem_cons_self
      have htruncated : IsMarker "truncated" := .inl rfl
      rcases @cutLists_cons floatLen budget field fields o truncation with
        heq | ⟨heq, -⟩ | ⟨kept, -, -, heq⟩
      · rw [heq]
        refine ⟨fun f hf hnot => (ih o truncation).1 f hf ?_, (ih o truncation).2⟩
        exact fun hin => hnot (List.mem_cons_of_mem _ hin)
      · rw [heq]
        exact ⟨fun _ _ _ => rfl, rfl⟩
      · have hget : ((o.truncate field kept).set "truncated" (.bool true)).get "_truncation" =
            o.get "_truncation" := by
          rw [get_set, if_neg (by decide), get_truncate_marker hfield (.inr rfl)]
        have hlist : ∀ f, Plain f → f ∉ field :: fields →
            ((o.truncate field kept).set "truncated" (.bool true)).listAt f = o.listAt f := by
          intro f hf hnot
          rw [listAt_set htruncated hf, listAt_truncate,
            if_neg fun hsame => hnot (List.mem_cons.mpr (.inl hsame))]
        rw [heq]
        split
        · refine ⟨fun f hf hnot => ((ih _ _).1 f hf ?_).trans (hlist f hf hnot),
            (ih _ _).2.trans hget⟩
          exact fun hin => hnot (List.mem_cons_of_mem _ hin)
        · exact ⟨hlist, hget⟩

theorem cutLists_entries {fields : List String} (hplain : ∀ field ∈ fields, Plain field)
    (hnodup : fields.Nodup) {field : String} (hfield : Plain field) (o : Ordered)
    (truncation : List (String × Nat × Nat)) :
    let out := cutLists floatLen budget fields o truncation
    out.2.filter (·.1 = field) = truncation.filter (·.1 = field) ++
      if size out.1 field < size o field then [(field, size out.1 field, size o field)]
      else [] := by
  dsimp only
  induction fields generalizing o truncation with
  | nil => simp [cutLists]
  | cons f fields ih =>
      rw [List.nodup_cons] at hnodup
      have ih := ih (fun g hg => hplain g (List.mem_cons_of_mem _ hg)) hnodup.2
      have hf := hplain f List.mem_cons_self
      rcases @cutLists_cons floatLen budget f fields o truncation with
        heq | ⟨heq, -⟩ | ⟨kept, -, hlt, heq⟩
      · rw [heq]
        exact ih o truncation
      · rw [heq, if_neg (lt_irrefl _), List.append_nil]
      · have hself : size ((o.truncate f kept).set "truncated" (.bool true)) f = kept := by
          rw [size_set (.inl rfl) hf, size_truncate hlt.le]
        by_cases hname : f = field
        · -- the entry written here is the only one
          subst hname
          have hentry : (truncation ++ [(f, kept, size o f)]).filter (·.1 = f) =
              truncation.filter (·.1 = f) ++ [(f, kept, size o f)] := by simp
          rw [heq]
          split
          · have hsame := (@cutLists_frame floatLen budget _
              (fun g hg => hplain g (List.mem_cons_of_mem _ hg))
              ((o.truncate f kept).set "truncated" (.bool true))
              (truncation ++ [(f, kept, size o f)])).1 f hf hnodup.1
            have hrest := ih ((o.truncate f kept).set "truncated" (.bool true))
              (truncation ++ [(f, kept, size o f)])
            have hsize := size_congr hsame
            rw [hsize, hentry, if_neg (lt_irrefl _), List.append_nil] at hrest
            rw [hrest, hsize, hself, if_pos hlt]
          · rw [hentry, hself, if_pos hlt]
        · have hentry : (truncation ++ [(f, kept, size o f)]).filter (·.1 = field) =
              truncation.filter (·.1 = field) := by simp [hname]
          have hother : size ((o.truncate f kept).set "truncated" (.bool true)) field =
              size o field := by
            rw [size_set (.inl rfl) hfield, size_truncate_of_ne fun heq => hname heq.symm]
          rw [heq]
          split
          · rw [ih, hentry, hother]
          · rw [hentry, hother, if_neg (lt_irrefl _), List.append_nil]

/-- What the loop may end with: all lists pressed, or one cut behind those that are. -/
inductive Outcome (floatLen : Float → Nat) (budget : Nat) (fields : List String) (o : Ordered) :
    Ordered → Prop
  | pressed : Outcome floatLen budget fields o (fields.foldl press o)
  | settled {done rest : List String} {field : String} {kept : Nat} :
      fields = done ++ field :: rest → 1 ≤ kept → kept < size (done.foldl press o) field →
      (¬Over floatLen budget
          (((done.foldl press o).truncate field kept).set "truncated" (.bool true)) ∨
        ¬Over floatLen budget ((done.foldl press o).truncate field kept) ∧
          ∀ other ∈ rest, size (done.foldl press o) other ≤ 1) →
      Outcome floatLen budget fields o
        (((done.foldl press o).truncate field kept).set "truncated" (.bool true))

/-- What is written down of the lists cut so far. -/
structure Recorded (floatLen : Float → Nat) (budget : Nat) (fields : List String) (o s : Ordered)
    (truncation : List (String × Nat × Nat)) : Prop where
  entry : ∀ e ∈ truncation, size s e.1 = e.2.1 ∧ size o e.1 = e.2.2 ∧ e.2.1 < e.2.2 ∧
    ∃ done rest, fields = done ++ e.1 :: rest ∧ Over floatLen budget (done.foldl press o) ∧
      1 < size (done.foldl press o) e.1
  all : ∀ field, Plain field → size s field ≠ size o field → ∃ e ∈ truncation, e.1 = field
  flag : truncation ≠ [] → s.get "truncated" = some (.bool true)
  start : truncation = [] → s = o
  record : s.get "_truncation" = o.get "_truncation"

theorem Recorded.cut {fields done rest : List String} {s : Ordered}
    {truncation : List (String × Nat × Nat)} {field : String} {kept : Nat}
    (h : Recorded floatLen budget fields o s truncation) (hplain : ∀ f ∈ fields, Plain f)
    (hsplit : fields = done ++ field :: rest) (hs : s = done.foldl press o)
    (hover : Over floatLen budget s) (hlong : 1 < size s field) (hkept : kept < size s field) :
    Recorded floatLen budget fields o ((s.truncate field kept).set "truncated" (.bool true))
      (truncation ++ [(field, kept, size s field)]) := by
  have hfield : field ∈ fields := hsplit ▸ List.mem_append_right _ List.mem_cons_self
  have hdone : ∀ f ∈ done, Plain f := fun f hf => hplain f (hsplit ▸ List.mem_append_left _ hf)
  obtain ⟨hone, hsame⟩ := pressed_spec (o := o) hdone
  have hnew : field ∉ done := fun hin => absurd (hone field hin) (hs ▸ not_le_of_gt hlong)
  have hfirst : size o field = size s field := by
    rw [size, size, hs, hsame field (hplain field hfield) hnew]
  have hsize : ∀ f, Plain f → f ≠ field →
      size ((s.truncate field kept).set "truncated" (.bool true)) f = size s f := fun f hf hne => by
    rw [size_set (.inl rfl) hf, size_truncate_of_ne hne]
  have hself : size ((s.truncate field kept).set "truncated" (.bool true)) field = kept := by
    rw [size_set (.inl rfl) (hplain field hfield), size_truncate hkept.le]
  constructor
  · intro e he
    rcases List.mem_append.mp he with he | he
    · obtain ⟨hnow, hthen, hlt, done', rest', hsplit', hreach⟩ := h.entry e he
      have hne : e.1 ≠ field := by
        rintro heq
        rw [heq] at hnow hthen
        omega
      have hplain' : Plain e.1 := hplain e.1 (hsplit' ▸ List.mem_append_right _ List.mem_cons_self)
      exact ⟨(hsize _ hplain' hne).trans hnow, hthen, hlt, done', rest', hsplit', hreach⟩
    · obtain rfl := List.mem_singleton.mp he
      exact ⟨hself, hfirst, hkept, done, rest, hsplit, hs ▸ hover, hs ▸ hlong⟩
  · intro f hf hne
    by_cases heq : f = field
    · exact ⟨_, List.mem_append_right _ List.mem_cons_self, heq.symm⟩
    · rw [hsize f hf heq] at hne
      obtain ⟨e, he, hname⟩ := h.all f hf hne
      exact ⟨e, List.mem_append_left _ he, hname⟩
  · intro _
    rw [get_set, if_pos rfl]
  · intro hnil
    simp at hnil
  · rw [get_set, if_neg (by decide), get_truncate_marker (hplain field hfield) (.inr rfl)]
    exact h.record

theorem cutLists_outcome {fields done rest : List String} {first s : Ordered}
    {priorities : List String} {truncation : List (String × Nat × Nat)}
    (hmeets : Meets floatLen budget first o priorities) (hfields : fields = priorities.reverse)
    (hsplit : fields = done ++ rest) (hs : s = done.foldl press o) (hover : Over floatLen budget s)
    (hrecorded : Recorded floatLen budget fields o s truncation) :
    Outcome floatLen budget fields o (cutLists floatLen budget rest s truncation).1 ∧
      Recorded floatLen budget fields o (cutLists floatLen budget rest s truncation).1
        (cutLists floatLen budget rest s truncation).2 := by
  have hplain : ∀ f ∈ fields, Plain f := fun f hf =>
    hmeets.plain f (List.mem_reverse.mp (hfields ▸ hf))
  induction rest generalizing done s truncation with
  | nil =>
      rw [List.append_nil] at hsplit
      rw [cutLists]
      exact ⟨by rw [hs, ← hsplit]; exact .pressed, hrecorded⟩
  | cons field rest ih =>
      have hfield : Plain field :=
        hplain field (hsplit ▸ List.mem_append_right _ List.mem_cons_self)
      have hsplit' : fields = (done ++ [field]) ++ rest := by rw [hsplit]; simp
      have hpress : (done ++ [field]).foldl press o = press s field := by
        rw [List.foldl_append, ← hs]
        rfl
      by_cases hlong : 1 < size s field
      · obtain ⟨kept, hhalved, hone, hlt, hstop, heq⟩ :=
          cutLists_cons_long hlong rest truncation hover
        have hcut := hrecorded.cut hplain hsplit hs hover hlong hlt
        rw [heq]
        dsimp only
        by_cases hover' : Over floatLen budget
            ((s.truncate field kept).set "truncated" (.bool true))
        · rw [if_pos hover']
          rcases Nat.lt_or_ge 1 kept with hmore | hless
          · -- `truncated` made it too long again
            have hfits := hstop.resolve_left (not_le_of_gt hmore)
            subst hs
            have hothers := (hmeets.settled done field rest (hfields ▸ hsplit) hover kept hhalved
              hmore hfits).resolve_left (not_not.mpr hover')
            have hshort : ∀ other ∈ rest, size (((done.foldl press o).truncate field kept).set
                "truncated" (.bool true)) other ≤ 1 := by
              intro other hother
              have hmem : other ∈ fields :=
                hsplit ▸ List.mem_append_right _ (List.mem_cons_of_mem _ hother)
              have hne : other ≠ field := by
                rintro rfl
                exact absurd (hothers other hother) (not_le_of_gt hlong)
              rw [size_set (.inl rfl) (hplain other hmem), size_truncate_of_ne hne]
              exact hothers other hother
            rw [cutLists_short hshort _ hover']
            exact ⟨.settled hsplit hone hlt (.inr ⟨hfits, hothers⟩), hcut⟩
          · obtain rfl : kept = 1 := le_antisymm hless hone
            have hs' : (s.truncate field 1).set "truncated" (.bool true) =
                (done ++ [field]).foldl press o := by rw [hpress, press_of_lt hlong]
            exact ih hsplit' hs' hover' hcut
        · rw [if_neg hover']
          subst hs
          exact ⟨.settled hsplit hone hlt (.inl hover'), hcut⟩
      · have hle := not_lt.mp hlong
        rw [cutLists_cons_short hle rest truncation hover]
        exact ih hsplit' (by rw [hpress, press_of_le hle]) hover hrecorded

end Call

/-! ## What a call keeps -/

section Runs

variable {floatLen : Float → Nat} {budget : Nat}

/-- The reply without the keys that say what was cut. -/
def bare (o : Ordered) : Json :=
  .obj (o.entries.filter fun e => e.1 ≠ "truncated" ∧ e.1 ≠ "_truncation")

/-- A call keeps the order of priorities, and its result is short enough unless nothing is left to
cut; what says that it was cut is not counted. -/
structure CallHolds (floatLen : Float → Nat) (budget : Nat) (o o' : Ordered)
    (priorities : List String) : Prop where
  lowest_first : ∀ higher field lower, priorities = higher ++ field :: lower → field ∉ lower →
    size o' field < size o field → ∀ other ∈ lower, size o' other ≤ 1
  fits : pythonDumpsLen floatLen (bare o') / 4 ≤ budget ∨
    ∀ field ∈ priorities, size o' field ≤ 1

/-- What has become of the first reply, after calls with some names. -/
structure Faithful (first o : Ordered) (names : List String) : Prop where
  others : ∀ head keys, ¬IsMarker head → (∀ field ∈ names, ¬(head :: keys) <+: fieldPath field) →
    valueAt (head :: keys) o.value = valueAt (head :: keys) first.value
  lists : ∀ field ∈ names,
    ∃ kept, 1 ≤ kept ∧ o.listAt field = (first.listAt field).map (List.take kept)
  recorded : ∀ field ∈ names, size o field < size first field →
    o.get "truncated" = some (.bool true) ∧
      (o.get "_truncation").bind (·.get field) =
        some (recordOf (size o field) (size first field))

theorem fieldsLen_filter_le (floatLen : Float → Nat) (p : String × Json → Bool)
    (fields : List (String × Json)) :
    fieldsLen floatLen (fields.filter p) ≤ fieldsLen floatLen fields := by
  induction fields with
  | nil => exact le_rfl
  | cons e fields ih =>
      rw [List.filter_cons]
      split
      · rw [fieldsLen, fieldsLen]
        omega
      · rw [fieldsLen]
        omega

theorem pythonStringLen_replicate (n : Nat) (c : Char) :
    pythonStringLen (String.ofList (List.replicate n c)) = 2 + n * charLen c := by
  rw [pythonStringLen, String.toList_ofList, List.map_replicate, List.sum_replicate_nat]

theorem fieldsLen_append (floatLen : Float → Nat) (fields fields' : List (String × Json)) :
    fieldsLen floatLen (fields ++ fields') =
      fieldsLen floatLen fields + fieldsLen floatLen fields' := by
  induction fields with
  | nil => rw [List.nil_append, fieldsLen, Nat.zero_add]
  | cons e fields ih =>
      rw [List.cons_append, fieldsLen, fieldsLen, ih]
      omega

theorem le_fieldsLen {key : String} {v : Json} {fields : List (String × Json)}
    (h : fields.lookup key = some v) (floatLen : Float → Nat) :
    pythonDumpsLen floatLen v ≤ fieldsLen floatLen fields := by
  induction fields with
  | nil => cases h
  | cons e fields ih =>
      obtain ⟨k, x⟩ := e
      rw [List.lookup_cons] at h
      rw [fieldsLen]
      split at h
      · obtain rfl := Option.some.inj h
        omega
      · exact (ih h).trans (Nat.le_add_left _ _)

theorem le_len_of_get {o : Ordered} {key : String} {v : Json} (h : o.get key = some v)
    (floatLen : Float → Nat) : pythonDumpsLen floatLen v ≤ pythonDumpsLen floatLen o.value := by
  have hle := le_fieldsLen h floatLen
  rw [Ordered.value, pythonDumpsLen]
  omega

/-- A new entry is as long as its key and its value, and four characters at most between them. -/
theorem len_set_of_new {o : Ordered} {key : String} (h : o.get key = none) (v : Json)
    (floatLen : Float → Nat) :
    pythonDumpsLen floatLen o.value + pythonDumpsLen floatLen v ≤
        pythonDumpsLen floatLen (o.set key v).value ∧
      pythonDumpsLen floatLen (o.set key v).value ≤
        pythonDumpsLen floatLen o.value + pythonStringLen key + pythonDumpsLen floatLen v + 4 := by
  have hnew : o.entries.any (·.1 = key) = false := by
    rw [List.any_eq_false]
    intro e he heq
    exact bne_iff_ne.mp (List.lookup_eq_none_iff.mp h e he) (of_decide_eq_true heq).symm
  have hvalue : (o.set key v).value = .obj (o.entries ++ [(key, v)]) := by
    rw [value_set, Ordered.value, Json.insert, if_neg (by rw [hnew]; exact Bool.false_ne_true)]
  rw [hvalue, Ordered.value, pythonDumpsLen, pythonDumpsLen, fieldsLen_append, List.length_append,
    List.length_singleton, fieldsLen, fieldsLen]
  omega

theorem len_bare_le (floatLen : Float → Nat) (o : Ordered) :
    pythonDumpsLen floatLen (bare o) ≤ pythonDumpsLen floatLen o.value := by
  rw [bare, Ordered.value, pythonDumpsLen, pythonDumpsLen]
  have hlen := List.length_filter_le
    (fun e : String × Json => decide (e.1 ≠ "truncated" ∧ e.1 ≠ "_truncation")) o.entries
  have hfields := fieldsLen_filter_le floatLen
    (fun e : String × Json => decide (e.1 ≠ "truncated" ∧ e.1 ≠ "_truncation")) o.entries
  omega

theorem bare_fits {o : Ordered} (h : ¬Over floatLen budget o) :
    pythonDumpsLen floatLen (bare o) / 4 ≤ budget :=
  (Nat.div_le_div_right (len_bare_le floatLen o)).trans (not_lt.mp h)

theorem filter_replace {p : String × Json → Bool} {key : String} {v : Json}
    (h : ∀ x, p (key, x) = false) (entries : List (String × Json)) :
    (entries.map fun e => if e.1 = key then (key, v) else e).filter p = entries.filter p := by
  induction entries with
  | nil => rfl
  | cons e entries ih =>
      rw [List.map_cons, List.filter_cons, List.filter_cons, ih]
      obtain ⟨k, x⟩ := e
      by_cases hkey : k = key
      · subst hkey
        rw [if_pos rfl, h, h, if_neg Bool.false_ne_true, if_neg Bool.false_ne_true]
      · rw [if_neg hkey]

theorem bare_set {key : String} (h : IsMarker key) (o : Ordered) (v : Json) :
    bare (o.set key v) = bare o := by
  have hout : ∀ x : Json, decide ((key, x).1 ≠ "truncated" ∧ (key, x).1 ≠ "_truncation") = false :=
    fun x => by rcases h with rfl | rfl <;> simp
  rw [bare, bare, Ordered.set]
  refine congrArg obj ?_
  split
  · exact filter_replace hout o.entries
  · rw [List.filter_append, List.filter_cons_of_neg (by rw [hout]; exact Bool.false_ne_true),
      List.filter_nil, List.append_nil]

theorem get_extend {truncation : List (String × Nat × Nat)} {field : String} {kept total : Nat}
    (h : ∀ e ∈ truncation, e.1 = field → e.2 = (kept, total)) (record : Json) :
    (extend record truncation).get field =
      if ∃ e ∈ truncation, e.1 = field then some (recordOf kept total) else record.get field := by
  induction truncation generalizing record with
  | nil => simp [extend]
  | cons e truncation ih =>
      have hrest := ih (fun e' he' => h e' (List.mem_cons_of_mem _ he'))
        (record.insert e.1 (recordOf e.2.1 e.2.2))
      rw [extend, List.foldl_cons, ← extend, hrest, get_insert]
      by_cases hin : ∃ e' ∈ truncation, e'.1 = field
      · obtain ⟨e', he', hname⟩ := hin
        rw [if_pos ⟨e', he', hname⟩, if_pos ⟨e', List.mem_cons_of_mem _ he', hname⟩]
      · rw [if_neg hin]
        by_cases hname : e.1 = field
        · have hvalue := h e List.mem_cons_self hname
          rw [if_pos hname.symm, if_pos ⟨e, List.mem_cons_self, hname⟩, hvalue]
        · rw [if_neg fun heq => hname heq.symm, if_neg]
          rintro ⟨e', he', hname'⟩
          rcases List.mem_cons.mp he' with rfl | he'
          · exact hname hname'
          · exact hin ⟨e', he', hname'⟩

theorem get_recordIn (o : Ordered) (field : String) :
    (recordIn o).get field = (o.get "_truncation").bind (·.get field) := by
  rw [recordIn]
  cases o.get "_truncation" with
  | none => rfl
  | some v => cases v <;> rfl

theorem record_apply {priorities : List String} (hplain : ∀ field ∈ priorities, Plain field)
    (hnodup : priorities.Nodup) (hnone : o.get "_truncation" = none) {field : String}
    (hfield : Plain field) :
    let o' := applyOutputBudget floatLen budget o priorities
    (o'.get "_truncation").bind (·.get field) =
      if size o' field < size o field then some (recordOf (size o' field) (size o field))
      else none := by
  dsimp only
  by_cases hover : Over floatLen budget o
  · have hplain' : ∀ f ∈ priorities.reverse, Plain f := fun f hf =>
      hplain f (List.mem_reverse.mp hf)
    have hget := (@cutLists_frame floatLen budget _ hplain' o []).2
    have hentries := @cutLists_entries floatLen budget _ hplain'
      (List.nodup_reverse.mpr hnodup) field hfield o []
    rw [hnone] at hget
    dsimp only at hentries
    rw [List.filter_nil, List.nil_append] at hentries
    have happly : applyOutputBudget floatLen budget o priorities =
        let (s, truncation) := cutLists floatLen budget priorities.reverse o []
        if !truncation.isEmpty then s.set "_truncation" (extend (recordIn s) truncation)
        else if Over floatLen budget s then s.set "truncated" (.bool true)
        else s := by rw [applyOutputBudget, if_pos hover]
    revert hget hentries happly
    rcases cutLists floatLen budget priorities.reverse o [] with ⟨s, truncation⟩
    intro hget hentries happly
    dsimp only at hget hentries happly
    have hrecord : (recordIn s).get field = none := by rw [get_recordIn, hget]; rfl
    by_cases hshort : size s field < size o field
    · rw [if_pos hshort] at hentries
      have hmem : ∀ e ∈ truncation, e.1 = field → e.2 = (size s field, size o field) := by
        intro e he hname
        have hin : e ∈ truncation.filter (·.1 = field) :=
          List.mem_filter.mpr ⟨he, decide_eq_true hname⟩
        rw [hentries, List.mem_singleton] at hin
        rw [hin]
      have hin : (field, size s field, size o field) ∈ truncation.filter (·.1 = field) :=
        hentries ▸ List.mem_singleton_self _
      have hne : (!truncation.isEmpty) = true := by
        cases truncation with
        | nil => exact absurd hin List.not_mem_nil
        | cons => rfl
      rw [if_pos hne] at happly
      rw [happly, size_set (.inr rfl) hfield, if_pos hshort, get_set, if_pos rfl,
        Option.bind_some, get_extend hmem, if_pos ⟨_, (List.mem_filter.mp hin).1, rfl⟩]
    · rw [if_neg hshort, List.filter_eq_nil_iff] at hentries
      have hout : ¬∃ e ∈ truncation, e.1 = field := by
        rintro ⟨e, he, hname⟩
        exact hentries e he (decide_eq_true hname)
      have hmem : ∀ e ∈ truncation, e.1 = field → e.2 = (0, 0) :=
        fun e he hname => absurd ⟨e, he, hname⟩ hout
      split_ifs at happly
      · rw [happly, size_set (.inr rfl) hfield, if_neg hshort, get_set, if_pos rfl,
          Option.bind_some, get_extend hmem, if_neg hout, hrecord]
      · rw [happly, size_set (.inl rfl) hfield, if_neg hshort, get_set, if_neg (by decide), hget]
        rfl
      · rw [happly, if_neg hshort, hget]
        rfl
  · rw [applyOutputBudget, if_neg hover, if_neg (lt_irrefl _), hnone]
    rfl

theorem applyOutputBudget_spec {first : Ordered} {priorities : List String}
    (hmeets : Meets floatLen budget first o priorities) (hover : Over floatLen budget o) :
    ∃ s truncation, Outcome floatLen budget priorities.reverse o s ∧
      Recorded floatLen budget priorities.reverse o s truncation ∧
      applyOutputBudget floatLen budget o priorities =
        if !truncation.isEmpty then s.set "_truncation" (extend (recordIn s) truncation)
        else if Over floatLen budget s then s.set "truncated" (.bool true)
        else s := by
  have hstart : Recorded floatLen budget priorities.reverse o o [] :=
    { entry := fun e he => absurd he List.not_mem_nil
      all := fun _ _ hne => absurd rfl hne
      flag := fun hne => absurd rfl hne
      start := fun _ => rfl
      record := rfl }
  have hrun := cutLists_outcome (s := o) hmeets rfl (List.nil_append _).symm rfl hover hstart
  refine ⟨_, _, hrun.1, hrun.2, ?_⟩
  rw [applyOutputBudget, if_pos hover]

theorem Outcome.callHolds {priorities : List String} {s : Ordered}
    (hplain : ∀ field ∈ priorities, Plain field)
    (h : Outcome floatLen budget priorities.reverse o s) :
    CallHolds floatLen budget o s priorities := by
  have hplain' : ∀ field ∈ priorities.reverse, Plain field := fun f hf =>
    hplain f (List.mem_reverse.mp hf)
  cases h with
  | pressed =>
      have hone := (pressed_spec (o := o) hplain').1
      constructor
      · rintro higher field lower rfl - - other hother
        exact hone other (by simp [hother])
      · exact .inr fun field hfield => hone field (List.mem_reverse.mpr hfield)
  | @settled done rest field kept hsplit hkept hlt hend =>
      have hdone : ∀ f ∈ done, Plain f := fun f hf => hplain' f (hsplit ▸ List.mem_append_left _ hf)
      have hfield : Plain field :=
        hplain' field (hsplit ▸ List.mem_append_right _ List.mem_cons_self)
      obtain ⟨hone, hsame⟩ := pressed_spec (o := o) hdone
      have hsize : ∀ f, Plain f → f ≠ field → size (((done.foldl press o).truncate field kept).set
          "truncated" (.bool true)) f = size (done.foldl press o) f := fun f hf hne => by
        rw [size_set (.inl rfl) hf, size_truncate_of_ne hne]
      constructor
      · intro higher cut lower hpriorities hnew hshort other hother
        -- what was cut is among the lists done with, so all below it are
        have hlower : other ∈ done := by
          have hcut : Plain cut := hplain cut (by simp [hpriorities])
          have hdone' : cut ∈ done ∨ cut = field := by
            by_contra hnot
            rw [not_or] at hnot
            rw [hsize cut hcut hnot.2, size, size, hsame cut hcut hnot.1] at hshort
            exact lt_irrefl _ hshort
          have hboth : lower.reverse ++ cut :: higher.reverse = done ++ field :: rest := by
            rw [← hsplit, hpriorities]
            simp
          have hnew' : cut ∉ lower.reverse := fun hin => hnew (List.mem_reverse.mp hin)
          have hother' := List.mem_reverse.mpr hother
          rcases List.append_eq_append_iff.mp hboth with ⟨mid, hmid, -⟩ | ⟨mid, hmid, hrest⟩
          · rw [hmid]
            exact List.mem_append_left _ hother'
          · cases mid with
            | nil =>
                rw [List.append_nil] at hmid
                exact hmid ▸ hother'
            | cons f mid =>
                obtain ⟨rfl, -⟩ := List.cons.inj hrest
                rw [hmid] at hnew'
                rcases hdone' with hin | heq
                · exact absurd (List.mem_append_left _ hin) hnew'
                · exact absurd (List.mem_append_right _ (heq ▸ List.mem_cons_self)) hnew'
        have hne : other ≠ field := by
          rintro rfl
          exact absurd ((hkept.trans_lt hlt)) (not_lt_of_ge (hone other hlower))
        rw [hsize other (hdone other hlower) hne]
        exact hone other hlower
      · rw [bare_set (.inl rfl)]
        rcases hend with hfits | ⟨hfits, -⟩
        · have htruncated : IsMarker "truncated" := .inl rfl
          rw [← bare_set htruncated _ (.bool true)]
          exact .inl (bare_fits hfits)
        · exact .inl (bare_fits hfits)

theorem CallHolds.set {s : Ordered} {priorities : List String} {key : String}
    (h : CallHolds floatLen budget o s priorities) (hkey : IsMarker key)
    (hplain : ∀ field ∈ priorities, Plain field) (v : Json) :
    CallHolds floatLen budget o (s.set key v) priorities := by
  have hsize : ∀ f ∈ priorities, size (s.set key v) f = size s f := fun f hf =>
    size_set hkey (hplain f hf) s v
  constructor
  · intro higher field lower hsplit hnew hshort other hother
    rw [hsize field (by simp [hsplit])] at hshort
    rw [hsize other (by simp [hsplit, hother])]
    exact h.lowest_first higher field lower hsplit hnew hshort other hother
  · rw [bare_set hkey]
    refine h.fits.imp_right fun hall field hfield => ?_
    exact (hsize field hfield).trans_le (hall field hfield)

theorem callHolds_apply {first : Ordered} {priorities : List String}
    (hmeets : Meets floatLen budget first o priorities) :
    CallHolds floatLen budget o (applyOutputBudget floatLen budget o priorities) priorities := by
  by_cases hover : Over floatLen budget o
  · obtain ⟨s, truncation, houtcome, -, heq⟩ := applyOutputBudget_spec hmeets hover
    have hcall := houtcome.callHolds hmeets.plain
    rw [heq]
    split
    · exact hcall.set (.inr rfl) hmeets.plain _
    · split
      · exact hcall.set (.inl rfl) hmeets.plain _
      · exact hcall
  · rw [applyOutputBudget, if_neg hover]
    exact ⟨fun _ field _ _ _ hshort => absurd hshort (lt_irrefl _), .inl (bare_fits hover)⟩

theorem recorded_apply {first : Ordered} {priorities : List String}
    (hmeets : Meets floatLen budget first o priorities) {field : String} (hplain : Plain field) :
    let o' := applyOutputBudget floatLen budget o priorities
    (size o' field = size o field ∧
        (o.get "truncated" = some (.bool true) → o'.get "truncated" = some (.bool true)) ∧
        (o'.get "_truncation").bind (·.get field) = (o.get "_truncation").bind (·.get field)) ∨
      (size o field = size first field ∧ o'.get "truncated" = some (.bool true) ∧
        (o'.get "_truncation").bind (·.get field) =
          some (recordOf (size o' field) (size o field))) := by
  dsimp only
  by_cases hover : Over floatLen budget o
  · obtain ⟨s, truncation, houtcome, hrecorded, heq⟩ := applyOutputBudget_spec hmeets hover
    rw [heq]
    cases truncation with
    | nil =>
        have hs := hrecorded.start rfl
        subst hs
        refine .inl ?_
        rw [if_neg (by simp), if_pos hover, size_set (.inl rfl) hplain, get_set, if_pos rfl,
          get_set, if_neg (by decide)]
        exact ⟨rfl, fun _ => rfl, rfl⟩
    | cons e truncation =>
        have hflag := hrecorded.flag (List.cons_ne_nil e truncation)
        rw [if_pos (by simp), size_set (.inr rfl) hplain, get_set, if_neg (by decide), get_set,
          if_pos rfl, Option.bind_some]
        have hagree : ∀ e' ∈ e :: truncation, e'.1 = field →
            e'.2 = (size s field, size o field) := by
          intro e' he' hname
          obtain ⟨hnow, hthen, -⟩ := hrecorded.entry e' he'
          rw [← hname, hnow, hthen]
        rw [get_extend hagree]
        by_cases hin : ∃ e' ∈ e :: truncation, e'.1 = field
        · rw [if_pos hin]
          obtain ⟨e', he', rfl⟩ := hin
          obtain ⟨-, -, -, done, rest, hsplit, hreach, hlong⟩ := hrecorded.entry e' he'
          refine .inr ⟨?_, hflag, rfl⟩
          rw [size, size, hmeets.whole done e'.1 rest hsplit hreach hlong]
        · rw [if_neg hin]
          refine .inl ⟨?_, fun _ => hflag, ?_⟩
          · by_contra hne
            exact hin (hrecorded.all field hplain hne)
          · rw [get_recordIn, hrecorded.record]
  · rw [applyOutputBudget, if_neg hover]
    exact .inl ⟨rfl, fun h => h, rfl⟩

theorem cutLists_cons_of_over (hover : Over floatLen budget o) (field : String)
    (fields : List String) (truncation : List (String × Nat × Nat)) :
    cutLists floatLen budget (field :: fields) o truncation =
      let s := cutLists floatLen budget [field] o truncation
      if Over floatLen budget s.1 then cutLists floatLen budget fields s.1 s.2 else s := by
  rw [cutLists, cutLists]
  cases o.listAt field with
  | none =>
      dsimp only
      rw [cutLists, if_pos hover]
  | some items =>
      dsimp only
      by_cases hcut : (halve floatLen budget field items.length o).1 < items.length
      · simp only [if_pos hcut]
        split
        · rename_i hover'
          rw [cutLists]
          exact (if_pos hover').symm
        · rfl
      · simp only [if_neg hcut]
        split
        · rename_i hover'
          rw [cutLists]
          exact (if_pos hover').symm
        · rfl

/-- Of two lists the one of the higher priority is left whole where it has no second element, or
where cutting the other is enough, and is halved else. -/
theorem size_apply_cases {field low : String} (hfield : Plain field) (hlow : Plain low)
    (hne : field ≠ low) :
    let kept := size (applyOutputBudget floatLen budget o [field, low]) field
    ((size o field ≤ 1 ∨ ¬Over floatLen budget (cutLists floatLen budget [low] o []).1) ∧
        kept = size o field) ∨
      (¬(size o field ≤ 1 ∨ ¬Over floatLen budget (cutLists floatLen budget [low] o []).1) ∧
        kept ≤ size o field / 2) := by
  intro kept
  by_cases hover : Over floatLen budget o
  · have hplain : ∀ f ∈ [low], Plain f := fun f hf => List.mem_singleton.mp hf ▸ hlow
    have hsame := size_congr ((@cutLists_frame floatLen budget _ hplain o
      []).1 field hfield fun hin => hne (List.mem_singleton.mp hin))
    have hkept : kept = size (cutLists floatLen budget [low, field] o []).1 field := by
      dsimp only [kept]
      rw [applyOutputBudget, if_pos hover]
      dsimp only [List.reverse_cons, List.reverse_nil, List.nil_append, List.cons_append]
      split_ifs
      · exact size_set (.inr rfl) hfield _ _
      · exact size_set (.inl rfl) hfield _ _
      · rfl
    rw [hkept, cutLists_cons_of_over hover low [field] []]
    dsimp only
    revert hsame
    rcases cutLists floatLen budget [low] o [] with ⟨s, truncation⟩
    intro hsame
    dsimp only at hsame ⊢
    by_cases hover' : Over floatLen budget s
    · rw [if_pos hover', ← hsame]
      rcases Nat.lt_or_ge 1 (size s field) with hlong | hshort
      · obtain ⟨half, ⟨j, hj⟩, -, hlt, -, heq⟩ := cutLists_cons_long hlong [] truncation hover'
        have hhalf : size (cutLists floatLen budget [field] s truncation).1 field = half := by
          rw [heq]
          dsimp only [cutLists]
          split_ifs <;> rw [size_set (.inl rfl) hfield, size_truncate hlt.le]
        refine .inr ⟨?_, ?_⟩
        · rintro (hle | hfits)
          · exact absurd hle (not_le_of_gt hlong)
          · exact hfits hover'
        · rw [hhalf, hj, Nat.pow_succ', ← Nat.div_div_eq_div_mul]
          exact Nat.div_le_self _ _
      · rw [cutLists_cons_short hshort [] truncation hover', cutLists]
        exact .inl ⟨.inl hshort, rfl⟩
    · rw [if_neg hover']
      exact .inl ⟨.inr hover', hsame⟩
  · have hcut : (cutLists floatLen budget [low] o []).1 = o := by
      rcases @cutLists_cons floatLen budget low [] o [] with
        heq | ⟨heq, -⟩ | ⟨half, hover', -⟩
      · rw [heq, cutLists]
      · rw [heq]
      · exact absurd hover' hover
    have hkept : kept = size o field := by
      dsimp only [kept]
      rw [applyOutputBudget, if_neg hover]
    rw [hcut]
    exact .inl ⟨.inr hover, hkept⟩

/-! ## Any number of calls -/

/-- The replies that calls which meet the condition make of a first one, with the names so far. -/
inductive Reached (floatLen : Float → Nat) (first : Ordered) : List String → Ordered → Prop
  | start : Reached floatLen first [] first
  | call {names priorities : List String} {o : Ordered} {budget : Nat} :
      Reached floatLen first names o → Meets floatLen budget first o priorities →
      Reached floatLen first (names ++ priorities) (applyOutputBudget floatLen budget o priorities)

variable {first : Ordered}

theorem Reached.edits (h : Reached floatLen first names o) :
    (∀ field ∈ names, Plain field) ∧ Edits names first o := by
  induction h with
  | start => exact ⟨fun _ h => (List.not_mem_nil h).elim, .refl⟩
  | @call names priorities o budget _ hmeets ih =>
      obtain ⟨hplain, hedits⟩ := ih
      refine ⟨fun f hf => ?_, ?_⟩
      · exact (List.mem_append.mp hf).elim (hplain f) (hmeets.plain f)
      · exact (Edits.mono (fun f hf => List.mem_append_left _ hf) hedits).trans
          (Edits.mono (fun f hf => List.mem_append_right _ hf) (edits_apply o priorities))

theorem Reached.recorded (h : Reached floatLen first names o) {field : String}
    (hplain : Plain field) (hshort : size o field < size first field) :
    o.get "truncated" = some (.bool true) ∧
      (o.get "_truncation").bind (·.get field) =
        some (recordOf (size o field) (size first field)) := by
  induction h with
  | start => exact absurd hshort (lt_irrefl _)
  | @call names priorities o budget _ hmeets ih =>
      rcases recorded_apply hmeets hplain with ⟨hsize, hflag, hrecord⟩ | ⟨hsize, hflag, hrecord⟩
      · rw [hsize] at hshort ⊢
        obtain ⟨hflag', hrecord'⟩ := ih hshort
        exact ⟨hflag hflag', hrecord.trans hrecord'⟩
      · rw [← hsize]
        exact ⟨hflag, hrecord⟩

theorem Reached.faithful (h : Reached floatLen first names o) : Faithful first o names := by
  obtain ⟨hplain, hedits⟩ := h.edits
  exact ⟨fun head keys hhead hout => hedits.valueAt_eq hhead hout,
    fun field hfield => hedits.listAt_eq (hplain field hfield),
    fun field hfield hshort => h.recorded (hplain field hfield) hshort⟩

/-- In every run of calls that meet the condition, each reply is the first one with lists cut to
first parts, with a record of each, and each call keeps to the order of priorities and the
budget. -/
theorem reached_holds (h : Reached floatLen first names o) :
    Faithful first o names ∧
      ∀ budget priorities, Meets floatLen budget first o priorities →
        CallHolds floatLen budget o (applyOutputBudget floatLen budget o priorities) priorities ∧
          Faithful first (applyOutputBudget floatLen budget o priorities) (names ++ priorities) :=
  ⟨h.faithful, fun _ _ hmeets => ⟨callHolds_apply hmeets, (h.call hmeets).faithful⟩⟩

/-! ## Calls that do not meet the condition -/

def twoLists (results edges : Nat) : Ordered :=
  ⟨[("results", .arr (List.replicate results .null)), ("edges", .arr (List.replicate edges .null))],
    by simp⟩

def oneList (results : Nat) : Ordered :=
  ⟨[("results", .arr (List.replicate results .null))], by simp⟩

def noFloats : Float → Nat := fun _ => 0

/-- The record of one list, written at its first cut. -/
theorem reached_holds_oneList :
    ((applyOutputBudget noFloats 12 (oneList 8) ["results"]).get "_truncation").bind
      (·.get "results") = some (recordOf 4 8) := by
  have hplain : Plain "results" := by decide +kernel
  have hmeets : Meets noFloats 12 (oneList 8) (oneList 8) ["results"] := by
    have hone : ∀ {done rest : List String} {field : String},
        ["results"].reverse = done ++ field :: rest → done = [] ∧ rest = [] := by
      intro done rest field hsplit
      cases done with
      | nil => exact ⟨rfl, (List.cons.inj hsplit).2.symm⟩
      | cons f done => simp at hsplit
    refine ⟨fun field hfield => List.mem_singleton.mp hfield ▸ hplain, ?_, ?_⟩
    · intro done field rest hsplit _ _
      rfl
    · intro done field rest hsplit _ kept _ _ _
      rw [(hone hsplit).2]
      exact .inr fun _ h => absurd h List.not_mem_nil
  have hstart : Reached noFloats (oneList 8) [] (oneList 8) := .start
  have hreached := (reached_holds hstart).2 12 _ hmeets
  have hnow : size (applyOutputBudget noFloats 12 (oneList 8) ["results"]) "results" = 4 := by
    decide +kernel
  have hfirst : size (oneList 8) "results" = 8 := by decide +kernel
  have hrecord := (hreached.2.recorded "results" (by simp) (by rw [hnow, hfirst]; decide)).2
  rw [hnow, hfirst] at hrecord
  exact hrecord

/-- With `truncated` in it the reply is too long again, and the list of the higher priority is cut
with two elements left in the other; and the second of two cuts takes the first one's rest for the
whole list. -/
theorem not_holds_twice :
    ¬CallHolds noFloats 22 (twoLists 8 4)
        (applyOutputBudget noFloats 22 (twoLists 8 4) ["results", "edges"]) ["results", "edges"] ∧
      ¬Faithful (oneList 8)
        (applyOutputBudget noFloats 10 (applyOutputBudget noFloats 12 (oneList 8) ["results"])
          ["results"]) ["results"] := by
  constructor
  · intro h
    have hcut := h.lowest_first [] "results" ["edges"] rfl (by simp) (by decide +kernel) "edges"
      (by simp)
    revert hcut
    decide +kernel
  · intro h
    have hrecord := (h.recorded "results" (by simp) (by decide +kernel)).2
    have htotal := congrArg (fun v => (v.bind (·.get "total")).bind asNat) hrecord
    revert htotal
    decide +kernel

end Runs

end OutputBudget

end Dagayn
