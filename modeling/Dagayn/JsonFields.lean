import Dagayn.Markdown

/-!
# Editing the fields of an object

What `insert` and `erase` on a JSON object leave to be read, and when they change nothing.
`Fixed extra key value` is the second: all entries of the key hold the value.
-/

namespace Dagayn

namespace Json

variable {extra : Json} {key key' : String} {value value' : Json}

theorem lookup_map_entry (key key' : String) (value : Json) (fields : List (String × Json)) :
    (fields.map fun f => if f.1 = key then (key, value) else f).lookup key' =
      if key' = key then (if fields.any (·.1 = key) then some value else none)
      else fields.lookup key' := by
  induction fields with
  | nil => simp
  | cons f fields ih =>
      obtain ⟨k, v⟩ := f
      rw [List.map_cons]
      by_cases hk : k = key
      · subst hk
        by_cases hk' : key' = k
        · subst hk'
          simp
        · have hne : (key' == k) = false := beq_eq_false_iff_ne.mpr hk'
          rw [if_pos rfl, List.lookup_cons, hne, ih, if_neg hk', if_neg hk', List.lookup_cons, hne]
      · have hany : ((k, v) :: fields).any (·.1 = key) = fields.any (·.1 = key) := by
          rw [List.any_cons, decide_eq_false hk, Bool.false_or]
        rw [if_neg hk, hany, List.lookup_cons, List.lookup_cons]
        by_cases hk' : key' = k
        · have hne : ¬ key' = key := fun heq => hk (hk'.symm.trans heq)
          rw [hk', beq_self_eq_true, if_neg (hk' ▸ hne)]
        · rw [beq_eq_false_iff_ne.mpr hk', ih]

theorem lookup_append_entry (key key' : String) (value : Json) (fields : List (String × Json))
    (hany : fields.any (·.1 = key) = false) :
    (fields ++ [(key, value)]).lookup key' =
      if key' = key then some value else fields.lookup key' := by
  induction fields with
  | nil =>
      by_cases hk' : key' = key
      · subst hk'
        simp
      · simp [List.lookup_cons, hk', beq_eq_false_iff_ne.mpr hk']
  | cons f fields ih =>
      obtain ⟨k, v⟩ := f
      rw [List.any_cons, Bool.or_eq_false_iff, decide_eq_false_iff_not] at hany
      rw [List.cons_append, List.lookup_cons, List.lookup_cons, ih hany.2]
      by_cases hk' : key' = k
      · subst hk'
        rw [beq_self_eq_true]
        exact (if_neg hany.1).symm
      · rw [beq_eq_false_iff_ne.mpr hk']

theorem get_insert (extra : Json) (key key' : String) (value : Json) :
    (extra.insert key value).get key' = if key' = key then some value else extra.get key' := by
  cases extra with
  | obj fields =>
      rw [insert]
      split
      · rename_i hany
        exact (lookup_map_entry key key' value fields).trans (by rw [if_pos hany]; rfl)
      · rename_i hany
        exact lookup_append_entry key key' value fields (Bool.not_eq_true _ ▸ hany)
  | _ => exact lookup_append_entry key key' value [] rfl

theorem get_erase (extra : Json) (key key' : String) :
    (extra.erase key).get key' = if key' = key then none else extra.get key' := by
  cases extra with
  | obj fields =>
      rw [erase]
      induction fields with
      | nil => simp [get]
      | cons f fields ih =>
          obtain ⟨k, v⟩ := f
          simp only [get] at ih ⊢
          rw [List.lookup_cons]
          by_cases hk : k = key
          · rw [List.filter_cons_of_neg (by simp [hk]), ih, hk]
            by_cases hk' : key' = key
            · rw [if_pos hk', if_pos hk']
            · rw [if_neg hk', if_neg hk', beq_eq_false_iff_ne.mpr hk']
          · rw [List.filter_cons_of_pos (by simp [hk]), List.lookup_cons, ih]
            by_cases hk' : key' = k
            · subst hk'
              rw [beq_self_eq_true]
              exact (if_neg hk).symm
            · rw [beq_eq_false_iff_ne.mpr hk']
  | _ => exact (ite_self _).symm

theorem getStr_insert (extra : Json) (key key' : String) (value : Json) :
    (extra.insert key value).getStr key' =
      if key' = key then value.asStr else extra.getStr key' := by
  rw [getStr, getStr, get_insert]
  split <;> rfl

theorem getStr_erase (extra : Json) (key key' : String) :
    (extra.erase key).getStr key' = if key' = key then none else extra.getStr key' := by
  rw [getStr, getStr, get_erase]
  split <;> rfl

theorem has_congr {extra' : Json} (h : extra.get key = extra'.get key) :
    extra.has key = extra'.has key := by
  rw [has, has, h]

/-! ## Edits that change nothing -/

/-- The value is an object in which the key is there and holds the value wherever it stands. -/
def Fixed (extra : Json) (key : String) (value : Json) : Prop :=
  ∃ fields, extra = .obj fields ∧ fields.any (·.1 = key) = true ∧
    ∀ f ∈ fields, f.1 = key → f = (key, value)

theorem Fixed.insert_eq (h : Fixed extra key value) : extra.insert key value = extra := by
  obtain ⟨fields, rfl, hany, hall⟩ := h
  rw [insert, if_pos hany]
  refine congrArg obj ((List.map_congr_left fun f hf => ?_).trans (List.map_id _))
  split
  · rename_i hk
    exact (hall f hf hk).symm
  · rfl

theorem fixed_insert (extra : Json) (key : String) (value : Json) :
    Fixed (extra.insert key value) key value := by
  cases extra with
  | obj fields =>
      rw [insert]
      split
      · rename_i hany
        refine ⟨_, rfl, ?_, fun f hf hk => ?_⟩
        · obtain ⟨f, hf, hk⟩ := List.any_eq_true.mp hany
          exact List.any_eq_true.mpr ⟨_, List.mem_map_of_mem hf, by simp [of_decide_eq_true hk]⟩
        · obtain ⟨g, -, rfl⟩ := List.mem_map.mp hf
          split
          · rfl
          · rename_i hg
            rw [if_neg hg] at hk
            exact absurd hk hg
      · rename_i hany
        refine ⟨_, rfl, by simp, fun f hf hk => ?_⟩
        rcases List.mem_append.mp hf with hf | hf
        · exact absurd (List.any_eq_true.mpr ⟨f, hf, decide_eq_true hk⟩) hany
        · exact List.mem_singleton.mp hf
  | _ => exact ⟨_, rfl, by simp, fun f hf _ => List.mem_singleton.mp hf⟩

theorem Fixed.insert (h : Fixed extra key value) (hne : key ≠ key') (value' : Json) :
    Fixed (extra.insert key' value') key value := by
  obtain ⟨fields, rfl, hany, hall⟩ := h
  rw [Json.insert]
  split
  · refine ⟨_, rfl, ?_, fun f hf hk => ?_⟩
    · obtain ⟨f, hf, hk⟩ := List.any_eq_true.mp hany
      have hk' : ¬ f.1 = key' := fun heq => hne ((of_decide_eq_true hk).symm.trans heq)
      exact List.any_eq_true.mpr ⟨f, List.mem_map.mpr ⟨f, hf, if_neg hk'⟩, hk⟩
    · obtain ⟨g, hg, rfl⟩ := List.mem_map.mp hf
      split at hk
      · exact absurd hk.symm hne
      · rename_i hg'
        rw [if_neg hg']
        exact hall g hg hk
  · refine ⟨_, rfl, ?_, fun f hf hk => ?_⟩
    · rw [List.any_append, hany, Bool.true_or]
    · rcases List.mem_append.mp hf with hf | hf
      · exact hall f hf hk
      · rw [List.mem_singleton.mp hf] at hk
        exact absurd hk.symm hne

theorem Fixed.erase (h : Fixed extra key value) (hne : key ≠ key') :
    Fixed (extra.erase key') key value := by
  obtain ⟨fields, rfl, hany, hall⟩ := h
  refine ⟨_, rfl, ?_, fun f hf => hall f (List.mem_of_mem_filter hf)⟩
  obtain ⟨f, hf, hk⟩ := List.any_eq_true.mp hany
  have hk' : f.1 ≠ key' := fun heq => hne ((of_decide_eq_true hk).symm.trans heq)
  exact List.any_eq_true.mpr ⟨f, List.mem_filter.mpr ⟨hf, decide_eq_true hk'⟩, hk⟩

theorem erase_eq_self (h : extra.get key = none) : extra.erase key = extra := by
  cases extra with
  | obj fields =>
      refine congrArg obj (List.filter_eq_self.mpr fun f hf => ?_)
      refine decide_eq_true fun hk => ?_
      have hsome := List.lookup_eq_none_iff.mp h f hf
      rw [hk, bne_self_eq_false] at hsome
      cases hsome
  | _ => rfl

/-! ## What the text mentions -/

theorem mentionsField_eq_any (needle : List Char) (fields : List (String × Json)) :
    mentionsField needle fields =
      fields.any fun f => (splitFirst needle f.1.toList).isSome || mentions needle f.2 := by
  induction fields with
  | nil => rfl
  | cons f fields ih =>
      obtain ⟨k, v⟩ := f
      rw [mentionsField, List.any_cons, ih]

theorem mentions_insert {needle : List Char} (hextra : extra.mentions needle = false)
    (hkey : (splitFirst needle key.toList).isSome = false)
    (hvalue : value.mentions needle = false) :
    (extra.insert key value).mentions needle = false := by
  have hentry : ((splitFirst needle (key, value).1.toList).isSome ||
      mentions needle (key, value).2) = false := by rw [hkey, hvalue]; rfl
  cases extra with
  | obj fields =>
      rw [mentions, mentionsField_eq_any, List.any_eq_false] at hextra
      rw [insert]
      split
      · rw [mentions, mentionsField_eq_any, List.any_eq_false]
        intro f hf
        obtain ⟨g, hg, rfl⟩ := List.mem_map.mp hf
        split
        · rw [hentry]
          exact Bool.false_ne_true
        · exact hextra g hg
      · rw [mentions, mentionsField_eq_any, List.any_eq_false]
        intro f hf
        rcases List.mem_append.mp hf with hf | hf
        · exact hextra f hf
        · rw [List.mem_singleton.mp hf, hentry]
          exact Bool.false_ne_true
  | _ =>
      rw [insert, mentions, mentionsField, mentionsField, hkey, hvalue]
      · rfl
      · intro fields hfields
        cases hfields

end Json

end Dagayn
