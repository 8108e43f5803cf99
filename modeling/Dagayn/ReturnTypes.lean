import Dagayn.ByteSlices
import Dagayn.Text
import Mathlib

/-!
# Return types

`parse_type` reads the type that a return annotation names, in the syntax of any language. It looks
at one text after another, each inside the one before it: `parseStep` is one look, and
`parseStep_slice_iff` says which texts it cannot cut.
-/

namespace Dagayn

namespace ReturnTypes

/-- A slice out of range or inside a character. -/
inductive Panic
  | slice
deriving DecidableEq

/-! ## Arguments -/

def opens (c : Char) : Bool := c ∈ ['<', '[', '(']

def closes (c : Char) : Bool := c ∈ ['>', ']', ')']

/-- The loop of `split_arguments`. -/
def splitFrom (depth : Int) (current : List Char) : List Char → List (List Char)
  | [] => if trim current = [] then [] else [trim current]
  | c :: text =>
      if c = ',' ∧ depth = 0 then trim current :: splitFrom depth [] text
      else
        let depth := if opens c then depth + 1 else if closes c then depth - 1 else depth
        splitFrom depth (current ++ [c]) text

def splitArguments (text : List Char) : List (List Char) := splitFrom 0 [] text

/-! ## The words around a type -/

def typeModifiers : List String :=
  ["const", "final", "static", "mut", "volatile", "struct", "class", "enum", "unsigned", "signed",
    "readonly", "inline", "virtual", "public", "private", "protected", "override", "async",
    "__strong", "__weak", "nonnull", "nullable", "_Nonnull", "_Nullable"]

def opaqueTypes : List String :=
  ["Any", "None", "object", "void", "Void", "Unit", "any", "unknown", "never", "dynamic", "id",
    "auto", "var", "interface\x7b\x7d", "Object", "Nothing", "noreturn", "null", "undefined",
    "mixed"]

def pointers : List String := ["unique_ptr", "shared_ptr", "weak_ptr", "Ref", "RefPtr"]

def trimStart (text : List Char) : List Char := text.dropWhile isWhitespace

def trimEnd (text : List Char) : List Char := text.rdropWhile isWhitespace

/-- `text.trim_start_matches("->")`. -/
def dropArrows : List Char → List Char
  | '-' :: '>' :: text => dropArrows text
  | text => text

def isQuote (c : Char) : Bool := c ∈ ['"', '\x27', '\x60']

/-- The annotation without its mark, its quotes and its blanks. -/
def header (text : List Char) : List Char :=
  let text := trim ((dropArrows (trim text)).dropWhile (· = ':'))
  trim ((text.dropWhile isQuote).rdropWhile isQuote)

def errorValue (text : List Char) : List Char :=
  if '!' ∈ text ∧ text.getLast? ≠ some '!' then trim (text.rtakeWhile (· ≠ '!')) else text

def isStar (c : Char) : Bool := c ∈ [' ', '*', '&']

/-- A modifier at the front, and one at the end. -/
def stripModifier (text : List Char) (modifier : String) : List Char :=
  let text :=
    match text.dropPrefix? modifier.toList with
    | some rest => if rest.head?.any isStar then trimStart rest else text
    | none => text
  match text.dropSuffix? modifier.toList with
  | some rest => if rest.getLast?.any isStar then trimEnd rest else text
  | none => text

/-- The text without the marks of pointers and of optional values. -/
def stripMarks (text : List Char) : List Char :=
  trim ((text.dropWhile (· ∈ ['&', '*', '?', '^', '@'])).rdropWhile (· ∈ ['&', '*', '?', '!']))

def stripLifetime (text : List Char) : List Char :=
  if text.head? = some '\x27' then
    match splitFirst [' '] text with
    | some (_, rest) => trimStart rest
    | none => text
  else text

@[irreducible] def stripRound (text : List Char) : List Char :=
  typeModifiers.foldl stripModifier (stripLifetime (stripMarks text))

/-! ## What is left of a text -/

theorem dropArrows_sublist (text : List Char) : (dropArrows text).Sublist text := by
  induction text using dropArrows.induct with
  | case1 text ih =>
      rw [dropArrows]
      exact (ih.cons _).cons _
  | case2 text h =>
      rw [dropArrows]
      exact h

theorem header_sublist (text : List Char) : (header text).Sublist text := by
  refine (trim_sublist _).trans ((List.rdropWhile_prefix _ _).sublist.trans ?_)
  refine (List.dropWhile_sublist _).trans ((trim_sublist _).trans ?_)
  exact (List.dropWhile_sublist _).trans ((dropArrows_sublist _).trans (trim_sublist _))

theorem errorValue_sublist (text : List Char) : (errorValue text).Sublist text := by
  rw [errorValue]
  split
  · exact (trim_sublist _).trans (List.rtakeWhile_suffix _ _).sublist
  · exact List.Sublist.refl text

theorem stripModifier_sublist (text : List Char) (modifier : String) :
    (stripModifier text modifier).Sublist text := by
  have hfront : (match text.dropPrefix? modifier.toList with
      | some rest => if rest.head?.any isStar then trimStart rest else text
      | none => text).Sublist text := by
    split
    · rename_i rest hrest
      split
      · obtain ⟨pre, rfl, -⟩ := List.dropPrefix?_eq_some_iff.mp hrest
        exact (List.dropWhile_sublist _).trans (List.sublist_append_right _ _)
      · exact List.Sublist.refl text
    · exact List.Sublist.refl text
  rw [stripModifier]
  refine List.Sublist.trans ?_ hfront
  generalize (match text.dropPrefix? modifier.toList with
      | some rest => if rest.head?.any isStar then trimStart rest else text
      | none => text) = front
  split
  · rename_i rest hrest
    split
    · obtain ⟨suf, heq, -⟩ := List.dropSuffix?_eq_some_iff.mp hrest
      rw [heq]
      exact (List.rdropWhile_prefix _ _).sublist.trans (List.sublist_append_left _ _)
    · exact List.Sublist.refl front
  · exact List.Sublist.refl front

theorem splitFirst_sublist {sep text : List Char} {p : List Char × List Char}
    (h : splitFirst sep text = some p) : p.2.Sublist text := by
  induction text generalizing p with
  | nil => cases h
  | cons c text ih =>
      rw [splitFirst] at h
      split at h
      · obtain rfl := Option.some.inj h
        exact List.drop_sublist _ _
      · obtain ⟨q, hq, rfl⟩ := Option.map_eq_some_iff.mp h
        exact (ih hq).cons c

theorem stripLifetime_sublist (text : List Char) : (stripLifetime text).Sublist text := by
  rw [stripLifetime]
  split
  · split
    · rename_i hsplit
      exact (List.dropWhile_sublist _).trans (splitFirst_sublist hsplit)
    · exact List.Sublist.refl text
  · exact List.Sublist.refl text

theorem foldl_stripModifier_sublist (modifiers : List String) (text : List Char) :
    (modifiers.foldl stripModifier text).Sublist text := by
  induction modifiers generalizing text with
  | nil => exact List.Sublist.refl text
  | cons modifier modifiers ih => exact (ih _).trans (stripModifier_sublist text modifier)

theorem stripRound_sublist (text : List Char) : (stripRound text).Sublist text := by
  have hmarks : (stripMarks text).Sublist text :=
    (trim_sublist _).trans ((List.rdropWhile_prefix _ _).sublist.trans (List.dropWhile_sublist _))
  unfold stripRound
  exact (foldl_stripModifier_sublist typeModifiers _).trans
    ((stripLifetime_sublist _).trans hmarks)

def stripLoop (text : List Char) : List Char :=
  if _h : stripRound text = text then text else stripLoop (stripRound text)
termination_by text.length
decreasing_by
  have hsub := stripRound_sublist text
  exact lt_of_le_of_ne hsub.length_le fun heq => _h (hsub.eq_of_length heq)

theorem stripLoop_sublist (text : List Char) : (stripLoop text).Sublist text := by
  induction text using stripLoop.induct with
  | case1 text h => rw [stripLoop, dif_pos h]
  | case2 text h ih =>
      rw [stripLoop, dif_neg h]
      exact ih.trans (stripRound_sublist text)

/-- The text that the type is read from, without the words around it. -/
def body (text : List Char) : List Char := stripLoop (errorValue (header text))

/-! ## One text after another -/

/-- What a look at a text comes to: a type or none, or another text. -/
inductive Step
  | done (result : Option (List Char × List (List Char)))
  | again (text : List Char)

/-- The first element, without an index that is out of range. -/
def firstOf (texts : List (List Char)) : Step :=
  match texts.head? with
  | some text => .again text
  | none => .done none

def isBracket (c : Char) : Bool := c ∈ ['<', '[']

/-- `text.find(['<', '['])`, in bytes. -/
def findBracket (text : List Char) : Option Nat :=
  if text.any isBracket then some (byteLen (text.takeWhile fun c => !isBracket c)) else none

def lastPart (base : List Char) : List Char := base.rtakeWhile fun c => c ≠ '.' ∧ c ≠ ':'

/-- `slice`, or a panic. -/
def sliceOf (start stop : Nat) (text : List Char) : Except Panic (List Char) :=
  match slice start stop text with
  | some part => .ok part
  | none => .error .slice

def unionParts (text : List Char) : List (List Char) :=
  ((text.splitOn '|').map trim).filter fun part =>
    part ∉ ["None".toList, "null".toList, "undefined".toList]

/-- The name in front of the first bracket, and the arguments behind it. -/
def named (text : List Char) : Except Panic (List Char × List (List Char)) :=
  match findBracket text with
  | some index =>
      if 0 < index then do
        let base ← sliceOf 0 index text
        let arguments ← sliceOf (index + 1) (byteLen text - 1) text
        return (trim base, splitArguments arguments)
      else .ok (text, [])
  | none => .ok (text, [])

def resultOf (base : List Char) (arguments : List (List Char)) : Step :=
  let last := String.ofList (lastPart base)
  if (last = "Optional" ∨ last ∈ pointers) ∧ arguments ≠ [] then firstOf arguments
  else if last ∈ opaqueTypes ∨ String.ofList base ∈ opaqueTypes then .done none
  else .done (some (base, arguments))

/-- `(NSString *)`, `(*Store, error)`. -/
def InParens (text : List Char) : Prop := text.head? = some '(' ∧ text.getLast? = some ')'

instance (text : List Char) : Decidable (InParens text) := inferInstanceAs (Decidable (_ ∧ _))

def NoType (text : List Char) : Prop :=
  "impl ".toList <+: text ∨ "dyn ".toList <+: text ∨ text = []

instance (text : List Char) : Decidable (NoType text) := inferInstanceAs (Decidable (_ ∨ _ ∨ _))

/-- `parse_type` up to the next text it is called with. -/
def parseStep (text : List Char) : Except Panic Step :=
  let head := header text
  if InParens head then
    (sliceOf 1 (byteLen head - 1) head).map fun inner => firstOf (splitArguments inner)
  else
    let text := body text
    if NoType text then .ok (.done none)
    else if '|' ∈ text then
      .ok (match unionParts text with
        | [single] => .again single
        | _ => .done none)
    else
      match text.dropPrefix? ['[', ']'] with
      | some element => .ok (.done (some (['[', ']'], [element])))
      | none => (named text).map fun p => resultOf p.1 p.2

/-! ## Shorter texts -/

theorem length_of_mem_splitFrom {depth : Int} {current text part : List Char}
    (h : part ∈ splitFrom depth current text) : part.length ≤ current.length + text.length := by
  induction text generalizing depth current with
  | nil =>
      rw [splitFrom] at h
      split at h
      · cases h
      · rw [List.mem_singleton.mp h]
        exact length_trim_le current
  | cons c text ih =>
      rw [splitFrom] at h
      split at h
      · rcases List.mem_cons.mp h with rfl | h
        · exact (length_trim_le current).trans (Nat.le_add_right _ _)
        · have hle := ih h
          rw [List.length_nil] at hle
          rw [List.length_cons]
          omega
      · have hle := ih h
        rw [List.length_append, List.length_singleton] at hle
        rw [List.length_cons]
        omega

theorem length_of_mem_splitArguments {text part : List Char} (h : part ∈ splitArguments text) :
    part.length ≤ text.length := by
  have hle := length_of_mem_splitFrom h
  rw [List.length_nil, Nat.zero_add] at hle
  exact hle

theorem length_of_mem_splitOn {a : Char} {text part : List Char} (h : part ∈ text.splitOn a) :
    part.length + (if a ∈ text then 1 else 0) ≤ text.length := by
  induction text generalizing part with
  | nil =>
      rw [List.splitOn_nil, List.mem_singleton] at h
      simp [h]
  | cons c text ih =>
      rw [List.splitOn_cons_eq_if_modifyHead] at h
      split at h
      · rcases List.mem_cons.mp h with rfl | h
        · rw [List.length_nil, List.length_cons]
          split <;> omega
        · have hle := ih h
          rw [List.length_cons]
          split <;> split at hle <;> omega
      · rename_i hne
        obtain ⟨first, rest, hsplit⟩ := List.exists_cons_of_ne_nil (List.splitOn_ne_nil a text)
        rw [hsplit, List.modifyHead_cons] at h
        have hmem : (a ∈ c :: text) ↔ a ∈ text := by
          rw [List.mem_cons]
          refine or_iff_right fun heq => hne ?_
          rw [heq]
          exact beq_self_eq_true c
        simp only [hmem, List.length_cons]
        rcases List.mem_cons.mp h with rfl | h
        · have hle := @ih first (by rw [hsplit]; exact List.mem_cons_self)
          rw [List.length_cons]
          omega
        · have hle := @ih part (by rw [hsplit]; exact List.mem_cons_of_mem _ h)
          omega

theorem again_of_firstOf {texts : List (List Char)} {inner : List Char}
    (h : firstOf texts = .again inner) : inner ∈ texts := by
  rw [firstOf] at h
  split at h
  · rename_i text hhead
    obtain rfl := Step.again.inj h
    exact List.mem_of_mem_head? hhead
  · cases h

/-! ## The brackets of a name -/

/-- The first bracket stands behind other characters, and the text ends with it or with a character
of more than one byte. -/
def BreaksOff (text : List Char) : Prop :=
  ∃ base bracket rest, text = base ++ bracket :: rest ∧ base ≠ [] ∧
    (∀ c ∈ base, isBracket c = false) ∧ isBracket bracket = true ∧
      ∀ c ∈ rest.getLast?, 1 < c.utf8Size

theorem utf8Size_bracket {c : Char} (h : isBracket c = true) : c.utf8Size = 1 := by
  have hmem : c ∈ ['<', '['] := of_decide_eq_true h
  rcases List.mem_pair.mp hmem with rfl | rfl <;> rfl

theorem takeWhile_bracket {base rest : List Char} {bracket : Char}
    (hbase : ∀ c ∈ base, isBracket c = false) (hbracket : isBracket bracket = true) :
    (base ++ bracket :: rest).takeWhile (fun c => !isBracket c) = base := by
  rw [List.takeWhile_append_of_pos fun c hc => by rw [hbase c hc]; rfl,
    List.takeWhile_cons_of_neg (by rw [hbracket]; exact Bool.false_ne_true), List.append_nil]

theorem findBracket_append {base rest : List Char} {bracket : Char}
    (hbase : ∀ c ∈ base, isBracket c = false) (hbracket : isBracket bracket = true) :
    findBracket (base ++ bracket :: rest) = some (byteLen base) := by
  have hany : (base ++ bracket :: rest).any isBracket = true :=
    List.any_eq_true.mpr ⟨bracket, List.mem_append_right _ List.mem_cons_self, hbracket⟩
  rw [findBracket, if_pos hany, takeWhile_bracket hbase hbracket]

theorem named_append {base : List Char} {bracket : Char} (hne : base ≠ [])
    (hbase : ∀ c ∈ base, isBracket c = false) (hbracket : isBracket bracket = true)
    (rest : List Char) :
    named (base ++ bracket :: rest) =
      (sliceOf (byteLen (base ++ [bracket])) (byteLen ((base ++ [bracket]) ++ rest) - 1)
        ((base ++ [bracket]) ++ rest)).map fun arguments =>
          (trim base, splitArguments arguments) := by
  have hfront := slice_append [] base (bracket :: rest)
  rw [byteLen_nil, Nat.zero_add, List.nil_append] at hfront
  have hslice : sliceOf 0 (byteLen base) (base ++ bracket :: rest) = .ok base := by
    rw [sliceOf, hfront]
  have hindex : byteLen base + 1 = byteLen (base ++ [bracket]) := by
    rw [byteLen_append, byteLen_cons, byteLen_nil, utf8Size_bracket hbracket]
  have htext : base ++ bracket :: rest = (base ++ [bracket]) ++ rest := by simp
  rw [named, findBracket_append hbase hbracket]
  dsimp only
  rw [if_pos (byteLen_pos hne), hslice, hindex, ← htext]
  rfl

theorem exists_bracket {text : List Char} (h : text.any isBracket = true) :
    ∃ base bracket rest, text = base ++ bracket :: rest ∧
      (∀ c ∈ base, isBracket c = false) ∧ isBracket bracket = true := by
  induction text with
  | nil => cases h
  | cons c text ih =>
      cases hc : isBracket c with
      | true => exact ⟨[], c, text, rfl, fun c hc => absurd hc List.not_mem_nil, hc⟩
      | false =>
          rw [List.any_cons, hc, Bool.false_or] at h
          obtain ⟨base, bracket, rest, rfl, hbase, hbracket⟩ := ih h
          refine ⟨c :: base, bracket, rest, rfl, ?_, hbracket⟩
          rintro x (_ | ⟨_, hx⟩)
          · exact hc
          · exact hbase x hx

theorem named_eq_self {text : List Char}
    (h : ∀ base bracket rest, text = base ++ bracket :: rest → (∀ c ∈ base, isBracket c = false) →
      isBracket bracket = true → base = []) :
    named text = .ok (text, []) := by
  cases hany : text.any isBracket with
  | false =>
      rw [named, findBracket, hany]
      rfl
  | true =>
      obtain ⟨base, bracket, rest, rfl, hbase, hbracket⟩ := exists_bracket hany
      obtain rfl := h base bracket rest rfl hbase hbracket
      rw [named, findBracket_append hbase hbracket]
      rfl

theorem named_slice_iff (text : List Char) : named text = .error .slice ↔ BreaksOff text := by
  by_cases hself : ∀ base bracket rest, text = base ++ bracket :: rest →
      (∀ c ∈ base, isBracket c = false) → isBracket bracket = true → base = []
  · rw [named_eq_self hself]
    refine iff_of_false (fun h => by cases h) ?_
    rintro ⟨base, bracket, rest, htext, hne, hbase, hbracket, -⟩
    exact hne (hself base bracket rest htext hbase hbracket)
  · push Not at hself
    obtain ⟨base, bracket, rest, rfl, hbase, hbracket, hne⟩ := hself
    rw [named_append hne hbase hbracket]
    rcases List.eq_nil_or_concat rest with rfl | ⟨init, c, rfl⟩
    · have hslice : sliceOf (byteLen (base ++ [bracket])) (byteLen ((base ++ [bracket]) ++ []) - 1)
          ((base ++ [bracket]) ++ []) = .error .slice := by
        rw [List.append_nil, sliceOf, slice_pred_nil (by simp)]
      rw [hslice]
      refine iff_of_true rfl ⟨base, bracket, [], rfl, hne, hbase, hbracket, ?_⟩
      intro c hc
      cases hc
    · rw [List.concat_eq_append, sliceOf, slice_pred_append]
      by_cases hone : c.utf8Size = 1
      · rw [if_pos hone]
        refine iff_of_false (fun h => by cases h) ?_
        rintro ⟨base', bracket', rest', htext, -, hbase', hbracket', hlast⟩
        obtain rfl : base = base' := by
          rw [← @takeWhile_bracket base (init ++ [c]) _ hbase hbracket, htext,
            takeWhile_bracket hbase' hbracket']
        obtain ⟨-, rfl⟩ := List.cons.inj (List.append_cancel_left htext)
        have hlarge := hlast c (by rw [List.getLast?_concat]; rfl)
        omega
      · rw [if_neg hone]
        refine iff_of_true rfl ⟨base, bracket, init ++ [c], rfl, hne, hbase, hbracket, ?_⟩
        intro x hx
        rw [List.getLast?_append, List.getLast?_singleton] at hx
        have hpos := c.utf8Size_pos
        obtain rfl : c = x := Option.some.inj hx
        omega

theorem sliceOf_parens {text : List Char} (h : InParens text) :
    ∃ inner, text = '(' :: (inner ++ [')']) ∧ sliceOf 1 (byteLen text - 1) text = .ok inner := by
  obtain ⟨hhead, hlast⟩ := h
  cases text with
  | nil => cases hhead
  | cons c rest =>
      obtain rfl : c = '(' := Option.some.inj hhead
      rcases List.eq_nil_or_concat rest with rfl | ⟨inner, last, rfl⟩
      · cases hlast
      · rw [List.concat_eq_append, ← List.cons_append, List.getLast?_append,
          List.getLast?_singleton] at hlast
        obtain rfl : last = ')' := Option.some.inj hlast
        refine ⟨inner, by rw [List.concat_eq_append], ?_⟩
        have hslice := slice_pred_append ['('] inner ')'
        rw [if_pos (show (')').utf8Size = 1 from rfl)] at hslice
        have hpart : slice 1 (byteLen ('(' :: (inner ++ [')'])) - 1) ('(' :: (inner ++ [')'])) =
            some inner := hslice
        rw [List.concat_eq_append, sliceOf, hpart]

theorem length_of_mem_named {text : List Char} {p : List Char × List (List Char)}
    (h : named text = .ok p) {argument : List Char} (hmem : argument ∈ p.2) :
    argument.length < text.length := by
  by_cases hself : ∀ base bracket rest, text = base ++ bracket :: rest →
      (∀ c ∈ base, isBracket c = false) → isBracket bracket = true → base = []
  · rw [named_eq_self hself] at h
    obtain rfl := Except.ok.inj h
    cases hmem
  · push Not at hself
    obtain ⟨base, bracket, rest, rfl, hbase, hbracket, hne⟩ := hself
    rw [named_append hne hbase hbracket] at h
    rcases List.eq_nil_or_concat rest with rfl | ⟨init, c, rfl⟩
    · rw [List.append_nil, sliceOf, slice_pred_nil (by simp)] at h
      cases h
    · rw [List.concat_eq_append, sliceOf, slice_pred_append] at h
      split at h
      · rename_i part hpart
        obtain rfl := Except.ok.inj h
        have hle := length_of_mem_splitArguments hmem
        split at hpart
        · obtain rfl := Option.some.inj hpart
          rw [List.length_append, List.length_cons, List.length_concat]
          omega
        · cases hpart
      · cases h

theorem length_lt_of_again {text inner : List Char} (h : parseStep text = .ok (.again inner)) :
    inner.length < text.length := by
  have hheader := (header_sublist text).length_le
  have hbody : (body text).length ≤ text.length :=
    ((stripLoop_sublist _).trans ((errorValue_sublist _).trans (header_sublist text))).length_le
  rw [parseStep] at h
  dsimp only at h
  split at h
  · rename_i hparens
    obtain ⟨part, htext, hslice⟩ := sliceOf_parens hparens
    rw [hslice] at h
    have hle := length_of_mem_splitArguments (again_of_firstOf (Except.ok.inj h))
    rw [htext, List.length_cons, List.length_append] at hheader
    omega
  · split at h
    · cases h
    · split at h
      · rename_i hbar
        split at h
        · rename_i single hsingle
          obtain rfl := Step.again.inj (Except.ok.inj h)
          have hmem : single ∈ unionParts (body text) := by
            rw [hsingle]
            exact List.mem_singleton_self _
          obtain ⟨part, hpart, rfl⟩ := List.mem_map.mp (List.mem_filter.mp hmem).1
          have hle := length_of_mem_splitOn hpart
          rw [if_pos hbar] at hle
          have htrim := length_trim_le part
          omega
        · cases h
      · split at h
        · cases h
        · cases hnamed : named (body text) with
          | error panic =>
              rw [hnamed] at h
              cases h
          | ok p =>
              rw [hnamed] at h
              have hresult : resultOf p.1 p.2 = .again inner := Except.ok.inj h
              rw [resultOf] at hresult
              split_ifs at hresult
              have hlt := length_of_mem_named hnamed (again_of_firstOf hresult)
              omega

/-- Looks at one text after another, each shorter than the one before it. -/
def lookOn (look : List Char → Except Panic Step)
    (hlook : ∀ {text inner}, look text = .ok (.again inner) → inner.length < text.length)
    (text : List Char) : Except Panic (Option (List Char × List (List Char))) :=
  match _h : look text with
  | .error panic => .error panic
  | .ok (.done result) => .ok result
  | .ok (.again inner) => lookOn look hlook inner
termination_by text.length
decreasing_by exact hlook _h

def parseType (text : List Char) : Except Panic (Option (List Char × List (List Char))) :=
  lookOn parseStep length_lt_of_again text

/-! ## Texts that cannot be cut -/

/-- The text is read for the brackets of a name, and breaks off at them. -/
structure Unfinished (text : List Char) : Prop where
  bare : ¬InParens (header text)
  type : ¬NoType (body text)
  single : '|' ∉ body text
  name : (body text).dropPrefix? ['[', ']'] = none
  breaksOff : BreaksOff (body text)

theorem parseStep_slice_iff (text : List Char) :
    parseStep text = .error .slice ↔ Unfinished text := by
  rw [parseStep]
  split
  · rename_i hparens
    obtain ⟨inner, -, hslice⟩ := sliceOf_parens hparens
    rw [hslice]
    exact iff_of_false (fun h => by cases h) fun h => h.bare hparens
  · rename_i hbare
    dsimp only
    split
    · rename_i hnone
      exact iff_of_false (fun h => by cases h) fun h => h.type hnone
    · rename_i htype
      split
      · rename_i hbar
        exact iff_of_false (fun h => by cases h) fun h => h.single hbar
      · rename_i hsingle
        split
        · rename_i element helement
          refine iff_of_false (fun h => by cases h) fun h => ?_
          have hname := h.name
          rw [helement] at hname
          cases hname
        · rename_i hname
          have hmap : ((named (body text)).map fun p => resultOf p.1 p.2) = .error .slice ↔
              named (body text) = .error .slice := by
            cases named (body text) with
            | error panic => exact ⟨fun h => congrArg _ (Except.error.inj h),
              fun h => by rw [h]; rfl⟩
            | ok p => exact iff_of_false (fun h => by cases h) fun h => by cases h
          rw [hmap, named_slice_iff]
          exact ⟨fun h => ⟨hbare, htype, hsingle, hname, h⟩, fun h => h.breaksOff⟩

/-- The text that `parse_type` is called with next. -/
def Again (text inner : List Char) : Prop := parseStep text = .ok (.again inner)

/-- No text that `parse_type` comes to is unfinished. -/
def Finished (text : List Char) : Prop :=
  ∀ inner, Relation.ReflTransGen Again text inner → ¬Unfinished inner

theorem finished_iff_of_again {text inner : List Char} (h : Again text inner) :
    Finished text ↔ Finished inner := by
  constructor
  · exact fun hall other hpath => hall other (.head h hpath)
  · intro hall other hpath
    rcases Relation.ReflTransGen.cases_head hpath with rfl | ⟨next, hnext, hpath⟩
    · intro hunfinished
      rw [Again, (parseStep_slice_iff text).mpr hunfinished] at h
      cases h
    · rw [Again] at h hnext
      rw [h] at hnext
      obtain rfl := Step.again.inj (Except.ok.inj hnext)
      exact hall other hpath

/-- A panic ends the pass over all types, whatever the others are. -/
def parseAll (texts : List (List Char)) :
    Except Panic (List (Option (List Char × List (List Char)))) := texts.mapM parseType

theorem parseType_ok_iff (text : List Char) :
    (∃ result, parseType text = .ok result) ↔ Finished text := by
  induction text using lookOn.induct parseStep length_lt_of_again with
  | case1 text panic h =>
      rw [parseType, lookOn]
      split
      · refine iff_of_false (fun ⟨_, hok⟩ => by cases hok) fun hall => hall text .refl ?_
        cases panic
        exact (parseStep_slice_iff text).mp h
      · rename_i hdone
        rw [h] at hdone
        cases hdone
      · rename_i hagain
        rw [h] at hagain
        cases hagain
  | case2 text result h =>
      have hstop : ∀ inner, ¬Again text inner := by
        intro inner hagain
        rw [Again, h] at hagain
        cases hagain
      rw [parseType, lookOn]
      split
      · rename_i hslice
        rw [h] at hslice
        cases hslice
      · refine iff_of_true ⟨_, rfl⟩ fun inner hpath => ?_
        rcases Relation.ReflTransGen.cases_head hpath with rfl | ⟨next, hnext, -⟩
        · intro hunfinished
          rw [(parseStep_slice_iff text).mpr hunfinished] at h
          cases h
        · exact absurd hnext (hstop next)
      · rename_i inner hagain
        exact absurd hagain (hstop inner)
  | case3 text inner h ih =>
      rw [finished_iff_of_again h, ← ih, parseType, lookOn]
      split
      · rename_i hslice
        rw [h] at hslice
        cases hslice
      · rename_i hdone
        rw [h] at hdone
        cases hdone
      · rename_i inner' hagain
        rw [h] at hagain
        obtain rfl := Step.again.inj (Except.ok.inj hagain)
        rfl

end ReturnTypes

end Dagayn
