import Dagayn.RustBlanks
import Dagayn.Text

/-!
# `cfg` predicates that hold only under test

`cfg_implies_test` reads a predicate as text. `Cfg` is what such a text says, `eval` whether it
holds of a configuration, and `ImpliesTest` that it holds only where `test` does. The check takes
only such predicates where no value has a mark in it (`cfgImpliesTest_sound`), and all of them
where there is no `not` and no empty `any` either (`cfgImpliesTest_iff`).
-/

namespace Dagayn

namespace RustModules

/-! ## The check -/

/-- The texts between the commas outside parentheses, the first one apart. -/
def splitTerms (depth : Int) : List Char → List Char × List (List Char)
  | [] => ([], [])
  | c :: rest =>
      if c = ',' ∧ depth = 0 then
        let s := splitTerms depth rest
        ([], s.1 :: s.2)
      else
        let s := splitTerms
          (if c = '(' then depth + 1 else if c = ')' then depth - 1 else depth) rest
        (c :: s.1, s.2)

def termsOf (inner : List Char) : List (List Char) :=
  let s := splitTerms 0 inner
  (s.1 :: s.2).filter fun t => trim t ≠ []

/-- The head of a predicate and what is between its parentheses. -/
def application (predicate : List Char) : Option (List Char × List Char) :=
  match splitFirst ['('] predicate with
  | none => none
  | some (head, rest) =>
      match (rest.rdropWhile isWhitespace).reverse with
      | ')' :: inner => some (head, inner.reverse)
      | _ => none

theorem length_splitTerms {depth : Int} {text : List Char} :
    (splitTerms depth text).1.length ≤ text.length ∧
      ∀ t ∈ (splitTerms depth text).2, t.length ≤ text.length := by
  induction text generalizing depth with
  | nil => exact ⟨Nat.le_refl _, fun t ht => absurd ht List.not_mem_nil⟩
  | cons c rest ih =>
      rw [splitTerms, List.length_cons]
      split
      · refine ⟨Nat.zero_le _, fun t ht => ?_⟩
        rcases List.mem_cons.mp ht with rfl | ht
        · exact Nat.le_succ_of_le ih.1
        · exact Nat.le_succ_of_le (ih.2 t ht)
      · exact ⟨Nat.succ_le_succ ih.1, fun t ht => Nat.le_succ_of_le (ih.2 t ht)⟩

theorem length_of_mem_termsOf {inner t : List Char} (h : t ∈ termsOf inner) :
    t.length ≤ inner.length := by
  rcases List.mem_cons.mp (List.mem_filter.mp h).1 with rfl | ht
  · exact length_splitTerms.1
  · exact length_splitTerms.2 t ht

theorem length_splitFirst {sep text : List Char} {p : List Char × List Char} (hsep : sep ≠ [])
    (h : splitFirst sep text = some p) : p.2.length < text.length := by
  induction text generalizing p with
  | nil => cases h
  | cons c text ih =>
      have hpos : 0 < sep.length := List.length_pos_iff.mpr hsep
      rw [splitFirst] at h
      split at h
      · obtain rfl := Option.some.inj h
        rw [List.length_drop, List.length_cons]
        omega
      · obtain ⟨q, hq, rfl⟩ := Option.map_eq_some_iff.mp h
        have hlt := ih hq
        exact Nat.lt_succ_of_lt hlt

theorem length_application {predicate head inner : List Char}
    (h : application predicate = some (head, inner)) : inner.length < predicate.length := by
  unfold application at h
  split at h
  · cases h
  · rename_i rest hsplit
    have hrest := length_splitFirst (List.cons_ne_nil _ _) hsplit
    have hend := (List.rdropWhile_prefix isWhitespace rest).length_le
    split at h
    · rename_i back hback
      obtain ⟨-, rfl⟩ := Prod.mk.inj (Option.some.inj h)
      have hlength := congrArg List.length hback
      rw [List.length_reverse, List.length_cons] at hlength
      rw [List.length_reverse]
      dsimp only at hrest
      omega
    · cases h

def cfgImpliesTest (predicate : List Char) : Bool :=
  if trim predicate = "test".toList then true
  else
    match _h : application (trim predicate) with
    | none => false
    | some (head, inner) =>
        if trim head = "all".toList then
          (termsOf inner).attach.any fun t => cfgImpliesTest t.1
        else if trim head = "any".toList then
          !(termsOf inner).isEmpty && (termsOf inner).attach.all fun t => cfgImpliesTest t.1
        else false
termination_by predicate.length
decreasing_by
  all_goals
    have hterm := length_of_mem_termsOf t.2
    have hinner := length_application _h
    have htrim := length_trim_le predicate
    omega

/-! ## What a predicate says -/

/-- A `cfg` predicate. -/
inductive Cfg where
  | flag (name : List Char) (value : Option (List Char))
  | all (terms : List Cfg)
  | any (terms : List Cfg)
  | not (term : Cfg)

mutual

/-- Whether a predicate holds of a configuration. -/
def Cfg.eval (env : List Char → Option (List Char) → Bool) : Cfg → Bool
  | .flag name value => env name value
  | .all terms => Cfg.evalAll env terms
  | .any terms => Cfg.evalAny env terms
  | .not term => !Cfg.eval env term

def Cfg.evalAll (env : List Char → Option (List Char) → Bool) : List Cfg → Bool
  | [] => true
  | c :: cs => Cfg.eval env c && Cfg.evalAll env cs

def Cfg.evalAny (env : List Char → Option (List Char) → Bool) : List Cfg → Bool
  | [] => false
  | c :: cs => Cfg.eval env c || Cfg.evalAny env cs

end

def Blank (text : List Char) : Prop := ∀ c ∈ text, isWhitespace c = true

def IsName (name : List Char) : Prop :=
  name ≠ [] ∧ ∀ c ∈ name, RustCode.isWordChar c = true

instance (name : List Char) : Decidable (IsName name) :=
  decidable_of_iff (name ≠ [] ∧ name.all RustCode.isWordChar = true)
    (and_congr_right fun _ => List.all_eq_true)

mutual

/-- A text of a predicate. -/
inductive Writes : Cfg → List Char → Prop
  | flag {name front back : List Char} (h : IsName name) (hfront : Blank front)
      (hback : Blank back) : Writes (.flag name none) (front ++ (name ++ back))
  | value {name value front mid mid' back : List Char} (h : IsName name) (hvalue : '"' ∉ value)
      (hfront : Blank front) (hmid : Blank mid) (hmid' : Blank mid') (hback : Blank back) :
      Writes (.flag name (some value))
        (front ++ ((name ++ (mid ++ '=' :: (mid' ++ '"' :: (value ++ ['"'])))) ++ back))
  | all {cs : List Cfg} {front mid inner back : List Char} (hfront : Blank front)
      (hmid : Blank mid) (hback : Blank back) (h : WritesTerms cs inner) :
      Writes (.all cs) (front ++ (("all".toList ++ mid ++ '(' :: (inner ++ [')'])) ++ back))
  | any {cs : List Cfg} {front mid inner back : List Char} (hfront : Blank front)
      (hmid : Blank mid) (hback : Blank back) (h : WritesTerms cs inner) :
      Writes (.any cs) (front ++ (("any".toList ++ mid ++ '(' :: (inner ++ [')'])) ++ back))
  | not {c : Cfg} {front mid inner back : List Char} (hfront : Blank front)
      (hmid : Blank mid) (hback : Blank back) (h : Writes c inner) :
      Writes (.not c) (front ++ (("not".toList ++ mid ++ '(' :: (inner ++ [')'])) ++ back))

/-- Predicates with commas between them, and perhaps one behind. -/
inductive WritesTerms : List Cfg → List Char → Prop
  | nil {text : List Char} (h : Blank text) : WritesTerms [] text
  | one {c : Cfg} {text : List Char} (h : Writes c text) : WritesTerms [c] text
  | more {c : Cfg} {cs : List Cfg} {text text' : List Char} (h : Writes c text)
      (h' : WritesTerms cs text') : WritesTerms (c :: cs) (text ++ ',' :: text')

end

/-- A text that neither begins nor ends with a blank. -/
def Trimmed (core : List Char) : Prop :=
  (∃ c rest, core = c :: rest ∧ isWhitespace c = false) ∧
    ∃ rest c, core = rest ++ [c] ∧ isWhitespace c = false

def MarkFree (text : List Char) : Prop := ∀ c ∈ text, c ≠ ',' ∧ c ≠ '(' ∧ c ≠ ')'

mutual

/-- A text of a predicate whose names and values have no marks in them. -/
inductive Spells : Cfg → List Char → Prop
  | flag {name front back : List Char} (h : Trimmed name) (hname : MarkFree name)
      (hfront : Blank front) (hback : Blank back) :
      Spells (.flag name none) (front ++ (name ++ back))
  | value {name value front mid mid' back : List Char} (h : Trimmed name)
      (hname : MarkFree name) (hvalue : MarkFree value) (hfront : Blank front)
      (hmid : Blank mid) (hmid' : Blank mid') (hback : Blank back) :
      Spells (.flag name (some value))
        (front ++ ((name ++ (mid ++ '=' :: (mid' ++ '"' :: (value ++ ['"'])))) ++ back))
  | all {cs : List Cfg} {front mid inner back : List Char} (hfront : Blank front)
      (hmid : Blank mid) (hback : Blank back) (h : SpellsTerms cs inner) :
      Spells (.all cs) (front ++ (("all".toList ++ mid ++ '(' :: (inner ++ [')'])) ++ back))
  | any {cs : List Cfg} {front mid inner back : List Char} (hfront : Blank front)
      (hmid : Blank mid) (hback : Blank back) (h : SpellsTerms cs inner) :
      Spells (.any cs) (front ++ (("any".toList ++ mid ++ '(' :: (inner ++ [')'])) ++ back))
  | not {c : Cfg} {front mid inner back : List Char} (hfront : Blank front)
      (hmid : Blank mid) (hback : Blank back) (h : SpellsTerms [c] inner) :
      Spells (.not c) (front ++ (("not".toList ++ mid ++ '(' :: (inner ++ [')'])) ++ back))

/-- Such predicates with commas between them, and perhaps one behind. -/
inductive SpellsTerms : List Cfg → List Char → Prop
  | nil {text : List Char} (h : Blank text) : SpellsTerms [] text
  | one {c : Cfg} {text : List Char} (h : Spells c text) : SpellsTerms [c] text
  | more {c : Cfg} {cs : List Cfg} {text text' : List Char} (h : Spells c text)
      (h' : SpellsTerms cs text') : SpellsTerms (c :: cs) (text ++ ',' :: text')

end

/-- The text is a predicate that holds only where `test` does. -/
def ImpliesTest (text : List Char) : Prop :=
  ∃ c, Writes c text ∧ ∀ env, c.eval env = true → env "test".toList none = true

/-! ## The terms of a text -/

def Skips (depth : Int) (text : List Char) : Prop :=
  ∀ rest, splitTerms depth (text ++ rest) =
    (text ++ (splitTerms depth rest).1, (splitTerms depth rest).2)

theorem Skips.nil (depth : Int) : Skips depth [] := fun _ => rfl

theorem Skips.append {depth : Int} {text text' : List Char} (h : Skips depth text)
    (h' : Skips depth text') : Skips depth (text ++ text') := by
  intro rest
  rw [List.append_assoc, h, h', List.append_assoc]

theorem Skips.comma {depth : Int} (h : depth ≠ 0) : Skips depth [','] := fun rest => by
  rw [List.cons_append, List.nil_append, splitTerms, if_neg fun hzero => h hzero.2]
  rfl

theorem Skips.char {c : Char} (hcomma : c ≠ ',') (hopen : c ≠ '(') (hclose : c ≠ ')')
    (depth : Int) : Skips depth [c] := fun rest => by
  rw [List.cons_append, List.nil_append, splitTerms, if_neg fun hzero => hcomma hzero.1,
    if_neg hopen, if_neg hclose]
  rfl

theorem Skips.plain {text : List Char} (h : ∀ c ∈ text, c ≠ ',' ∧ c ≠ '(' ∧ c ≠ ')')
    (depth : Int) : Skips depth text := by
  induction text with
  | nil => exact .nil depth
  | cons c text ih =>
      obtain ⟨hcomma, hopen, hclose⟩ := h c List.mem_cons_self
      exact (Skips.char hcomma hopen hclose depth).append
        (ih fun d hd => h d (List.mem_cons_of_mem _ hd))

theorem Skips.parens {depth : Int} {inner : List Char} (h : Skips (depth + 1) inner) :
    Skips depth ('(' :: (inner ++ [')'])) := by
  intro rest
  have hsub : depth + 1 - 1 = depth := by omega
  have hclose : splitTerms (depth + 1) (')' :: rest) =
      (')' :: (splitTerms depth rest).1, (splitTerms depth rest).2) := by
    rw [splitTerms, if_neg fun hzero => absurd hzero.1 (by decide), if_neg (by decide),
      if_pos rfl, hsub]
  rw [List.cons_append, splitTerms, if_neg fun hzero => absurd hzero.1 (by decide), if_pos rfl,
    List.append_assoc, h, List.cons_append, List.nil_append, hclose]
  simp only [List.cons_append, List.append_assoc, List.nil_append]

/-- A flag's value has none of the marks of a predicate. -/
def PlainValue (value : Option (List Char)) : Prop :=
  ∀ text ∈ value, ∀ c ∈ text, c ≠ ',' ∧ c ≠ '(' ∧ c ≠ ')'

mutual

/-- No `not`, no `any()`, no mark in a value. -/
def Cfg.Plain : Cfg → Prop
  | .flag _ value => PlainValue value
  | .all terms => Cfg.AllPlain terms
  | .any terms => terms ≠ [] ∧ Cfg.AllPlain terms
  | .not _ => False

def Cfg.AllPlain : List Cfg → Prop
  | [] => True
  | c :: cs => c.Plain ∧ Cfg.AllPlain cs

end

theorem Blank.plain {text : List Char} (h : Blank text) :
    ∀ c ∈ text, c ≠ ',' ∧ c ≠ '(' ∧ c ≠ ')' := fun c hc => by
  have hblank := h c hc
  refine ⟨?_, ?_, ?_⟩ <;> rintro rfl <;> exact absurd hblank (by decide)

theorem IsName.plain {name : List Char} (h : IsName name) :
    ∀ c ∈ name, c ≠ ',' ∧ c ≠ '(' ∧ c ≠ ')' := fun c hc => by
  have hname := h.2 c hc
  refine ⟨?_, ?_, ?_⟩ <;> rintro rfl <;> exact absurd hname (by decide)

theorem Skips.applied {depth : Int} {head mid inner : List Char}
    (hhead : ∀ c ∈ head, c ≠ ',' ∧ c ≠ '(' ∧ c ≠ ')') (hmid : Blank mid)
    (h : Skips (depth + 1) inner) : Skips depth (head ++ mid ++ '(' :: (inner ++ [')'])) :=
  ((Skips.plain hhead depth).append (.plain hmid.plain depth)).append h.parens

theorem Skips.padded {depth : Int} {front core back : List Char} (hfront : Blank front)
    (hback : Blank back) (h : Skips depth core) : Skips depth (front ++ (core ++ back)) :=
  (Skips.plain hfront.plain depth).append (h.append (.plain hback.plain depth))

theorem not_mem_head {head : String} (h : head.toList.all fun c => c ≠ ',' ∧ c ≠ '(' ∧ c ≠ ')') :
    ∀ c ∈ head.toList, c ≠ ',' ∧ c ≠ '(' ∧ c ≠ ')' := forall_mem_of_all h

theorem isWhitespace_of_isWordChar {c : Char} (h : RustCode.isWordChar c = true) :
    isWhitespace c = false := by
  rcases Nat.lt_or_ge c.toNat 0x80 with hlow | hhigh
  · have hall : ∀ n, n < 0x80 → RustCode.isWordChar (Char.ofNat n) = true →
        isWhitespace (Char.ofNat n) = false := by decide
    have hone := hall c.toNat hlow
    rw [Char.ofNat_toNat] at hone
    exact hone h
  · rw [RustCode.isWordChar_of_high hhigh] at h
    cases h

theorem trimmed_name {name : List Char} (h : IsName name) : Trimmed name := by
  obtain ⟨c, rest, rfl⟩ := List.exists_cons_of_ne_nil h.1
  refine ⟨⟨c, rest, rfl, isWhitespace_of_isWordChar (h.2 c List.mem_cons_self)⟩, ?_⟩
  refine ⟨(c :: rest).dropLast, (c :: rest).getLast h.1, (List.dropLast_append_getLast h.1).symm,
    isWhitespace_of_isWordChar (h.2 _ (List.getLast_mem h.1))⟩

mutual

theorem Writes.spells : ∀ {c : Cfg} {text : List Char}, Writes c text → c.Plain → Spells c text
  | _, _, .flag h hfront hback, _ => .flag (trimmed_name h) h.plain hfront hback
  | _, _, .value h _ hfront hmid hmid' hback, hplain =>
      .value (trimmed_name h) h.plain (hplain _ rfl) hfront hmid hmid' hback
  | _, _, .all hfront hmid hback h, hplain => .all hfront hmid hback (h.spells hplain)
  | _, _, .any hfront hmid hback h, hplain => .any hfront hmid hback (h.spells hplain.2)
  | _, _, .not _ _ _ _, hplain => hplain.elim

theorem WritesTerms.spells : ∀ {cs : List Cfg} {text : List Char}, WritesTerms cs text →
    Cfg.AllPlain cs → SpellsTerms cs text
  | _, _, .nil h, _ => .nil h
  | _, _, .one h, hplain => .one (h.spells hplain.1)
  | _, _, .more h h', hplain => .more (h.spells hplain.1) (h'.spells hplain.2)

end

mutual

theorem Spells.skips : ∀ {c : Cfg} {text : List Char}, Spells c text →
    ∀ depth : Int, 0 ≤ depth → Skips depth text
  | _, _, .flag _ hname hfront hback, depth, _ => .padded hfront hback (.plain hname depth)
  | _, _, .value _ hname hvalue hfront hmid hmid' hback, depth, _ => by
      refine .padded hfront hback ((Skips.plain hname depth).append ?_)
      refine (Skips.plain hmid.plain depth).append ?_
      refine (Skips.char (c := '=') (by decide) (by decide) (by decide) depth).append ?_
      refine (Skips.plain hmid'.plain depth).append ?_
      refine (Skips.char (c := '"') (by decide) (by decide) (by decide) depth).append ?_
      exact (Skips.plain hvalue depth).append (.char (by decide) (by decide) (by decide) depth)
  | _, _, .all hfront hmid hback h, depth, hdepth =>
      .padded hfront hback (.applied (not_mem_head (by decide)) hmid
        (h.skips (depth + 1) (by omega)))
  | _, _, .any hfront hmid hback h, depth, hdepth =>
      .padded hfront hback (.applied (not_mem_head (by decide)) hmid
        (h.skips (depth + 1) (by omega)))
  | _, _, .not hfront hmid hback h, depth, hdepth =>
      .padded hfront hback (.applied (not_mem_head (by decide)) hmid
        (h.skips (depth + 1) (by omega)))

theorem SpellsTerms.skips : ∀ {cs : List Cfg} {text : List Char}, SpellsTerms cs text →
    ∀ depth : Int, 0 < depth → Skips depth text
  | _, _, .nil h, depth, _ => .plain h.plain depth
  | _, _, .one h, depth, hdepth => h.skips depth (by omega)
  | _, _, .more h h', depth, hdepth =>
      (h.skips depth (by omega)).append
        ((Skips.comma (by omega)).append (h'.skips depth hdepth))

end

/-! ## The check is right on plain predicates -/

theorem Blank.dropWhile {text : List Char} (h : Blank text) (rest : List Char) :
    (text ++ rest).dropWhile isWhitespace = rest.dropWhile isWhitespace :=
  List.dropWhile_append_of_pos h

theorem trim_padded {front core back : List Char} (hfront : Blank front) (hback : Blank back)
    (h : Trimmed core) : trim (front ++ (core ++ back)) = core := by
  obtain ⟨⟨c, rest, hcore, hc⟩, rest', c', hcore', hc'⟩ := h
  have hdrop : (front ++ (core ++ back)).dropWhile isWhitespace = core ++ back := by
    rw [hfront.dropWhile, hcore, List.cons_append, List.dropWhile_cons_of_neg (by simp [hc])]
  have hreverse : Blank back.reverse := fun d hd => hback d (List.mem_reverse.mp hd)
  rw [trim, hdrop, List.rdropWhile, List.reverse_append, hreverse.dropWhile, hcore',
    List.reverse_append, List.reverse_singleton, List.singleton_append,
    List.dropWhile_cons_of_neg (by simp [hc']), List.reverse_cons, List.reverse_reverse]

theorem Trimmed.append {core : List Char} (h : Trimmed core) {last : Char}
    (hlast : isWhitespace last = false) (mid : List Char) :
    Trimmed (core ++ (mid ++ [last])) := by
  obtain ⟨⟨c, rest, rfl, hc⟩, -⟩ := h
  exact ⟨⟨c, rest ++ (mid ++ [last]), rfl, hc⟩, c :: rest ++ mid, last,
    (List.append_assoc _ _ _).symm, hlast⟩

theorem splitFirst_open {head rest : List Char} (h : ∀ c ∈ head, c ≠ ',' ∧ c ≠ '(' ∧ c ≠ ')') :
    splitFirst ['('] (head ++ '(' :: rest) = some (head, rest) := by
  induction head with
  | nil => rfl
  | cons c head ih =>
      have hopen : c ≠ '(' := (h c List.mem_cons_self).2.1
      have htail := ih fun d hd => h d (List.mem_cons_of_mem _ hd)
      rw [List.cons_append, splitFirst, htail, if_neg (by simpa using hopen.symm)]
      rfl

theorem splitFirst_plain {text : List Char} (h : ∀ c ∈ text, c ≠ ',' ∧ c ≠ '(' ∧ c ≠ ')') :
    splitFirst ['('] text = none := by
  induction text with
  | nil => rfl
  | cons c text ih =>
      have hopen : c ≠ '(' := (h c List.mem_cons_self).2.1
      rw [splitFirst, ih fun d hd => h d (List.mem_cons_of_mem _ hd),
        if_neg (by simpa using hopen.symm)]
      rfl

theorem application_applied {head inner : List Char}
    (h : ∀ c ∈ head, c ≠ ',' ∧ c ≠ '(' ∧ c ≠ ')') :
    application (head ++ '(' :: (inner ++ [')'])) = some (head, inner) := by
  have hend : (inner ++ [')']).rdropWhile isWhitespace = inner ++ [')'] :=
    List.rdropWhile_concat_neg _ _ _ (by decide)
  rw [application, splitFirst_open h]
  dsimp only
  rw [hend, List.reverse_append]
  exact congrArg (fun t => some (head, t)) (List.reverse_reverse inner)

theorem cfgImpliesTest_eq (predicate : List Char) : cfgImpliesTest predicate =
    if trim predicate = "test".toList then true
    else
      match application (trim predicate) with
      | none => false
      | some (head, inner) =>
          if trim head = "all".toList then (termsOf inner).any cfgImpliesTest
          else if trim head = "any".toList then
            !(termsOf inner).isEmpty && (termsOf inner).all cfgImpliesTest
          else false := by
  rw [cfgImpliesTest]
  split
  · rfl
  · split
    · rename_i h
      rw [h]
    · rename_i h
      rw [h]
      simp

mutual

/-- What `cfg_implies_test` makes of a predicate. -/
def Cfg.tested : Cfg → Bool
  | .flag name value => name = "test".toList ∧ value = none
  | .all terms => Cfg.anyTested terms
  | .any terms => !terms.isEmpty && Cfg.allTested terms
  | .not _ => false

def Cfg.anyTested : List Cfg → Bool
  | [] => false
  | c :: cs => c.tested || Cfg.anyTested cs

def Cfg.allTested : List Cfg → Bool
  | [] => true
  | c :: cs => c.tested && Cfg.allTested cs

end

theorem trimmed_applied {head : List Char} (h : IsName head) (mid inner : List Char) :
    Trimmed (head ++ mid ++ '(' :: (inner ++ [')'])) := by
  have hclose : isWhitespace ')' = false := by decide
  have hcore := (trimmed_name h).append hclose (mid ++ '(' :: inner)
  rwa [List.append_assoc mid, List.cons_append, ← List.append_assoc] at hcore

theorem trimmed_value {name : List Char} (h : Trimmed name) (mid mid' value : List Char) :
    Trimmed (name ++ (mid ++ '=' :: (mid' ++ '"' :: (value ++ ['"'])))) := by
  have hclose : isWhitespace '"' = false := by decide
  have hcore := h.append hclose (mid ++ '=' :: (mid' ++ '"' :: value))
  simpa only [List.append_assoc, List.cons_append] using hcore

theorem Spells.trimmed {c : Cfg} {text : List Char} (h : Spells c text) :
    ∃ front core back, text = front ++ (core ++ back) ∧ Blank front ∧ Blank back ∧
      Trimmed core := by
  cases h with
  | flag h _ hfront hback => exact ⟨_, _, _, rfl, hfront, hback, h⟩
  | @value name value front mid mid' back h _ _ hfront _ _ hback =>
      exact ⟨_, _, _, rfl, hfront, hback, trimmed_value h mid mid' value⟩
  | all hfront _ hback _ =>
      exact ⟨_, _, _, rfl, hfront, hback, trimmed_applied (by decide) _ _⟩
  | any hfront _ hback _ =>
      exact ⟨_, _, _, rfl, hfront, hback, trimmed_applied (by decide) _ _⟩
  | not hfront _ hback _ =>
      exact ⟨_, _, _, rfl, hfront, hback, trimmed_applied (by decide) _ _⟩

theorem Spells.trim_ne_nil {c : Cfg} {text : List Char} (h : Spells c text) : trim text ≠ [] := by
  obtain ⟨front, core, back, rfl, hfront, hback, hcore⟩ := h.trimmed
  rw [trim_padded hfront hback hcore]
  obtain ⟨⟨c, rest, rfl, -⟩, -⟩ := hcore
  exact List.cons_ne_nil _ _

theorem trim_blank {text : List Char} (h : Blank text) : trim text = [] := by
  have hdrop := h.dropWhile []
  rw [List.append_nil] at hdrop
  rw [trim, hdrop]
  rfl

theorem splitTerms_skips {text : List Char} (h : Skips 0 text) :
    splitTerms 0 text = (text, []) := by
  have hall := h []
  rwa [List.append_nil, splitTerms, List.append_nil] at hall

theorem cfgImpliesTest_applied {head front mid inner back : List Char} (hhead : IsName head)
    (hfront : Blank front) (hmid : Blank mid) (hback : Blank back) :
    cfgImpliesTest (front ++ ((head ++ mid ++ '(' :: (inner ++ [')'])) ++ back)) =
      if head = "all".toList then (termsOf inner).any cfgImpliesTest
      else if head = "any".toList then
        !(termsOf inner).isEmpty && (termsOf inner).all cfgImpliesTest
      else false := by
  have hplain : ∀ c ∈ head ++ mid, c ≠ ',' ∧ c ≠ '(' ∧ c ≠ ')' := fun c hc =>
    (List.mem_append.mp hc).elim (hhead.plain c) (hmid.plain c)
  have htest : head ++ mid ++ '(' :: (inner ++ [')']) ≠ "test".toList := fun heq => by
    have hmem : '(' ∈ "test".toList := heq ▸ by simp
    exact absurd hmem (by decide)
  have htrim : trim (head ++ mid) = head := by
    have hnil : Blank [] := fun c hc => absurd hc List.not_mem_nil
    exact trim_padded hnil hmid (trimmed_name hhead)
  rw [cfgImpliesTest_eq, trim_padded hfront hback (trimmed_applied hhead mid inner), if_neg htest,
    application_applied hplain]
  dsimp only
  rw [htrim]

mutual

theorem Spells.cfgImpliesTest : ∀ {c : Cfg} {text : List Char}, Spells c text →
    cfgImpliesTest text = c.tested
  | _, _, .flag h hname hfront hback => by
      rw [cfgImpliesTest_eq, trim_padded hfront hback h, application, splitFirst_plain hname,
        Cfg.tested]
      split <;> simp_all
  | _, _, @Spells.value name value _ mid mid' _ h hname hvalue hfront hmid hmid' hback => by
      have hcore : MarkFree (name ++ (mid ++ '=' :: (mid' ++ '"' :: (value ++ ['"'])))) := by
        simp only [MarkFree, List.forall_mem_append, List.forall_mem_cons]
        exact ⟨hname, hmid.plain, by decide, hmid'.plain, by decide, hvalue, by decide,
          fun c hc => absurd hc List.not_mem_nil⟩
      have htest : name ++ (mid ++ '=' :: (mid' ++ '"' :: (value ++ ['"']))) ≠ "test".toList :=
        fun heq => by
          have hmem : '=' ∈ "test".toList := heq ▸ by simp
          exact absurd hmem (by decide)
      rw [cfgImpliesTest_eq, trim_padded hfront hback (trimmed_value h mid mid' value),
        if_neg htest, application, splitFirst_plain hcore, Cfg.tested]
      simp
  | _, _, .all hfront hmid hback h => by
      rw [cfgImpliesTest_applied (by decide) hfront hmid hback, if_pos rfl, Cfg.tested]
      exact h.terms.1
  | _, _, .any hfront hmid hback h => by
      obtain ⟨-, hall, hempty⟩ := h.terms
      rw [cfgImpliesTest_applied (by decide) hfront hmid hback, if_neg (by decide), if_pos rfl,
        Cfg.tested, hall, hempty]
  | _, _, .not hfront hmid hback _ => by
      rw [cfgImpliesTest_applied (by decide) hfront hmid hback, if_neg (by decide),
        if_neg (by decide), Cfg.tested]

theorem SpellsTerms.terms : ∀ {cs : List Cfg} {text : List Char}, SpellsTerms cs text →
    (termsOf text).any RustModules.cfgImpliesTest = Cfg.anyTested cs ∧
      (termsOf text).all RustModules.cfgImpliesTest = Cfg.allTested cs ∧
      (termsOf text).isEmpty = cs.isEmpty
  | _, _, .nil h => by
      rw [termsOf, splitTerms_skips (.plain h.plain 0)]
      simp [trim_blank h, Cfg.anyTested, Cfg.allTested]
  | _, _, .one h => by
      rw [termsOf, splitTerms_skips (h.skips 0 (Int.le_refl _))]
      simp [h.trim_ne_nil, Cfg.anyTested, Cfg.allTested, h.cfgImpliesTest]
  | _, _, @SpellsTerms.more _ _ text text' h h' => by
      have hterms : termsOf (text ++ ',' :: text') = text :: termsOf text' := by
        rw [termsOf, h.skips 0 (Int.le_refl _), splitTerms, if_pos ⟨rfl, rfl⟩]
        simp [h.trim_ne_nil, termsOf]
      obtain ⟨hany, hall, hempty⟩ := h'.terms
      rw [hterms, List.any_cons, List.all_cons, hany, hall, h.cfgImpliesTest]
      exact ⟨rfl, rfl, rfl⟩

end

mutual

theorem Cfg.test_of_tested {env : List Char → Option (List Char) → Bool} : ∀ (c : Cfg),
    c.tested = true → c.eval env = true → env "test".toList none = true
  | .flag name value, htested, heval => by
      obtain ⟨rfl, rfl⟩ := of_decide_eq_true htested
      exact heval
  | .all terms, htested, heval => Cfg.test_of_anyTested terms htested heval
  | .any terms, htested, heval => by
      rw [Cfg.tested, Bool.and_eq_true] at htested
      exact Cfg.test_of_allTested terms htested.2 heval
  | .not _, htested, _ => by cases htested

theorem Cfg.test_of_anyTested {env : List Char → Option (List Char) → Bool} : ∀ (cs : List Cfg),
    Cfg.anyTested cs = true → Cfg.evalAll env cs = true → env "test".toList none = true
  | [], htested, _ => by cases htested
  | c :: cs, htested, heval => by
      rw [Cfg.evalAll, Bool.and_eq_true] at heval
      rw [Cfg.anyTested, Bool.or_eq_true] at htested
      exact htested.elim (fun h => Cfg.test_of_tested c h heval.1)
        fun h => Cfg.test_of_anyTested cs h heval.2

theorem Cfg.test_of_allTested {env : List Char → Option (List Char) → Bool} : ∀ (cs : List Cfg),
    Cfg.allTested cs = true → Cfg.evalAny env cs = true → env "test".toList none = true
  | [], _, heval => by cases heval
  | c :: cs, htested, heval => by
      rw [Cfg.evalAny, Bool.or_eq_true] at heval
      rw [Cfg.allTested, Bool.and_eq_true] at htested
      exact heval.elim (fun h => Cfg.test_of_tested c htested.1 h)
        fun h => Cfg.test_of_allTested cs htested.2 h

end

/-- Everything but `test`. -/
def notTest (name : List Char) (value : Option (List Char)) : Bool :=
  !decide (name = "test".toList ∧ value = none)

mutual

theorem Cfg.eval_notTest : ∀ (c : Cfg), c.Plain → c.eval notTest = !c.tested
  | .flag _ _, _ => rfl
  | .all terms, hplain => Cfg.evalAll_notTest terms hplain
  | .any terms, hplain => by
      have hne : terms.isEmpty = false := List.isEmpty_eq_false_iff.mpr hplain.1
      rw [Cfg.tested, hne]
      exact Cfg.evalAny_notTest terms hplain.2
  | .not _, hplain => hplain.elim

theorem Cfg.evalAll_notTest : ∀ (cs : List Cfg), Cfg.AllPlain cs →
    Cfg.evalAll notTest cs = !Cfg.anyTested cs
  | [], _ => rfl
  | c :: cs, hplain => by
      rw [Cfg.evalAll, Cfg.anyTested, c.eval_notTest hplain.1, Cfg.evalAll_notTest cs hplain.2,
        Bool.not_or]

theorem Cfg.evalAny_notTest : ∀ (cs : List Cfg), Cfg.AllPlain cs →
    Cfg.evalAny notTest cs = !Cfg.allTested cs
  | [], _ => rfl
  | c :: cs, hplain => by
      rw [Cfg.evalAny, Cfg.allTested, c.eval_notTest hplain.1, Cfg.evalAny_notTest cs hplain.2,
        Bool.not_and]

end

/-- Of a plain predicate the check says exactly whether it holds only where `test` does. -/
theorem cfgImpliesTest_iff {c : Cfg} {text : List Char} (h : Writes c text) (hplain : c.Plain) :
    cfgImpliesTest text = true ↔ ∀ env, c.eval env = true → env "test".toList none = true := by
  rw [(h.spells hplain).cfgImpliesTest]
  refine ⟨fun htested env => c.test_of_tested htested, fun himplies => ?_⟩
  cases htested : c.tested with
  | true => rfl
  | false =>
      have heval := c.eval_notTest hplain
      rw [htested] at heval
      exact absurd (himplies notTest heval) (by decide)

theorem cfgImpliesTest_iff_all :
    cfgImpliesTest "all( test,unix)".toList = true ↔
      ∀ env, (Cfg.all [.flag "test".toList none, .flag "unix".toList none]).eval env = true →
        env "test".toList none = true := by
  have htext : "all( test,unix)".toList = [] ++ (("all".toList ++ [] ++ '(' ::
      ((([' '] ++ ("test".toList ++ [])) ++ ',' :: ([] ++ ("unix".toList ++ []))) ++ [')'])) ++
        []) := by decide
  have hblank : Blank [] := fun c hc => absurd hc List.not_mem_nil
  refine cfgImpliesTest_iff (htext ▸ .all hblank hblank hblank (.more (.flag ?_ ?_ hblank)
    (.one (.flag ?_ hblank hblank)))) ⟨nofun, nofun, trivial⟩
  · decide
  · exact fun c hc => List.mem_singleton.mp hc ▸ rfl
  · decide

/-! ## The check is sound and ends -/

/-- `cfg_implies_test` to a bounded depth. -/
def cfgImpliesTestWithin : Nat → List Char → Option Bool
  | 0, _ => none
  | depth + 1, predicate =>
      if trim predicate = "test".toList then some true
      else
        match application (trim predicate) with
        | none => some false
        | some (head, inner) =>
            if trim head = "all".toList then (termsOf inner).anyM (cfgImpliesTestWithin depth)
            else if trim head = "any".toList then
              if (termsOf inner).isEmpty then some false
              else (termsOf inner).allM (cfgImpliesTestWithin depth)
            else some false

theorem anyM_eq_some {α : Type} {f : α → Option Bool} {g : α → Bool} {l : List α}
    (h : ∀ a ∈ l, f a = some (g a)) : l.anyM f = some (l.any g) := by
  induction l with
  | nil => rfl
  | cons a l ih =>
      have htail := ih fun b hb => h b (List.mem_cons_of_mem _ hb)
      rw [List.anyM, h a List.mem_cons_self, List.any_cons, htail]
      cases g a <;> rfl

theorem allM_eq_some {α : Type} {f : α → Option Bool} {g : α → Bool} {l : List α}
    (h : ∀ a ∈ l, f a = some (g a)) : l.allM f = some (l.all g) := by
  induction l with
  | nil => rfl
  | cons a l ih =>
      have htail := ih fun b hb => h b (List.mem_cons_of_mem _ hb)
      rw [List.allM, h a List.mem_cons_self, List.all_cons, htail]
      cases g a <;> rfl

theorem cfgImpliesTestWithin_eq {depth : Nat} {predicate : List Char}
    (h : predicate.length < depth) :
    cfgImpliesTestWithin depth predicate = some (cfgImpliesTest predicate) := by
  induction depth generalizing predicate with
  | zero => exact absurd h (Nat.not_lt_zero _)
  | succ depth ih =>
      have htrim := length_trim_le predicate
      rw [cfgImpliesTestWithin, cfgImpliesTest_eq]
      split
      · rfl
      · split
        · rfl
        · rename_i head inner happlication
          have hinner := length_application happlication
          have hterms : ∀ t ∈ termsOf inner,
              cfgImpliesTestWithin depth t = some (cfgImpliesTest t) := fun t ht => by
            have hterm := length_of_mem_termsOf ht
            exact ih (by omega)
          rw [anyM_eq_some hterms, allM_eq_some hterms]
          split
          · rfl
          · split
            · cases (termsOf inner).isEmpty <;> rfl
            · rfl

/-- The check ends on every text, and a predicate that it takes holds only where `test` does. -/
theorem cfgImpliesTest_sound (text : List Char) :
    cfgImpliesTestWithin (text.length + 1) text = some (cfgImpliesTest text) ∧
      ∀ c, Spells c text → cfgImpliesTest text = true →
        ∀ env, c.eval env = true → env "test".toList none = true := by
  refine ⟨cfgImpliesTestWithin_eq (Nat.lt_succ_self _), fun c h htest env => ?_⟩
  rw [h.cfgImpliesTest] at htest
  exact c.test_of_tested htest

end RustModules

end Dagayn
