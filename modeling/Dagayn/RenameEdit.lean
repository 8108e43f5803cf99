import Dagayn.Json
import Dagayn.Lines
import Dagayn.PyUnicode
import Dagayn.Splice
import Mathlib

/-!
# One edit of a rename

`apply_edit` renames an identifier on the line an edit recorded: the line is scanned
once, text between quotes is passed over, and an occurrence of the old name counts where
no ASCII letter, digit or underscore stands next to it. The scan is related to a quote
automaton over the characters of the line (`quoteState`), under which the places it can
find are the `Candidate`s.

`EditFaithful` is what a user of a rename expects, `EditSafe` for which lines and names
the edit does it. Identifiers are those of `is_valid_identifier`, which knows the letters
of all scripts.
-/

namespace Dagayn

structure Edit where
  file : String
  line : Option Int
  old : List Char
  new : List Char
  raw : Json

namespace Edit

/-- `int(edit["line"])`; `none` where the edit is no edit. -/
def lineOf : Option Json → Option (Option Int)
  | none => some none
  | some .null => some none
  | some (.bool flag) => some (some (if flag then 1 else 0))
  | some (.int n) => if -2 ^ 63 ≤ n ∧ n < 2 ^ 63 then some (some n) else none
  | some (.float x) =>
      -- the bound is on the truncated number; both are below it together
      if x.abs ≥ 9.0e15 then none else some (some x.toInt64.toInt)
  | some _ => none

def parse (value : Json) : Option Edit :=
  match value with
  | .obj _ => do
      let line ← lineOf (value.get "line")
      let file ← value.getStr "file"
      let old ← value.getStr "old"
      let new ← value.getStr "new"
      some { file := file, line := line, old := old.toList, new := new.toList, raw := value }
  | _ => none

/-- `Edit::skipped`: how the edit is reported when it is not applied. -/
def skipped (e : Edit) (reason : String) : Json :=
  let field := fun key => (e.raw.get key).getD .null
  .obj [("file", field "file"), ("line", field "line"), ("old", field "old"),
    ("new", field "new"), ("reason", .str reason)]

end Edit

/-! ## The source's functions -/

def isIdent (c : Char) : Bool := c.isAlphanum || c = '_'

def isQuote (c : Char) : Bool := c = '"' || c = '\''

/-- Nothing that `p` holds of stands right before `i` or right behind the `n` characters
from there. -/
def bounded (p : Char → Bool) (chars : List Char) (i n : Nat) : Bool :=
  (i == 0 || !(chars[i - 1]?.any p)) && !(chars[i + n]?.any p)

/-- The loop of `_identifier_spans` from an index, with the open quote. On a name that is
not empty every round moves on, so the length of the line is rounds enough. -/
def spanLoop (chars name : List Char) : Nat → Option Char → Nat → List Nat
  | 0, _, _ => []
  | fuel + 1, quote, index =>
      match chars[index]? with
      | none => []
      | some c =>
          match quote with
          | some mark =>
              if c = '\\' then spanLoop chars name fuel quote (index + 2)
              else spanLoop chars name fuel (if c = mark then none else quote) (index + 1)
          | none =>
              if isQuote c then spanLoop chars name fuel (some c) (index + 1)
              else if name.isPrefixOf (chars.drop index) &&
                  bounded isIdent chars index name.length then
                index :: spanLoop chars name fuel none (index + name.length)
              else spanLoop chars name fuel none (index + 1)

def identifierSpans (chars name : List Char) : List Nat :=
  spanLoop chars name (chars.length + 1) none 0

/-- `_apply_edit`: the new content, or the reason the edit was skipped. -/
def applyEdit (content : List Char) (e : Edit) : Except String (List Char) :=
  match e.line with
  | none => .error "no_line_recorded"
  | some target =>
      let lines := Difflib.splitlines content
      let index := target - 1
      if index < 0 ∨ lines.length ≤ index.toNat then .error "line_out_of_range"
      else if e.old = [] then .error "line_no_longer_matches"
      else
        let line := lines.getD index.toNat []
        let spans := identifierSpans line e.old
        if spans = [] then .error "line_no_longer_matches"
        else .ok (lines.set index.toNat (spliceAll e.old.length e.new spans line)).flatten

/-- `is_valid_identifier`: as `$` does in Python, a newline at the end is let pass. -/
def isValidIdentifier (name : List Char) : Bool :=
  let name := if name.getLast? = some '\n' then name.dropLast else name
  match name with
  | [] => false
  | c :: rest => PyUnicode.isWord c && !PyUnicode.isDigit c && rest.all PyUnicode.isWord

/-! ## Identifiers and quoted text -/

/-- A letter or underscore, then letters, digits and underscores. -/
def IsIdentifier : List Char → Prop
  | [] => False
  | c :: rest =>
      PyUnicode.isWord c = true ∧ PyUnicode.isDigit c = false ∧ rest.all PyUnicode.isWord = true

/-- Outside quotes, between quotes, or behind a backslash there. -/
inductive QuoteState where
  | out
  | inside (mark : Char)
  | escaped (mark : Char)
deriving DecidableEq

def QuoteState.next : QuoteState → Char → QuoteState
  | out, c => if isQuote c then inside c else out
  | inside mark, c =>
      if c = '\\' then escaped mark else if c = mark then out else inside mark
  | escaped mark, _ => inside mark

/-- The state before index `i`. -/
def quoteState (line : List Char) (i : Nat) : QuoteState := (line.take i).foldl .next .out

/-- The `n` characters from `i` lie outside quoted text. -/
def Unquoted (line : List Char) (i n : Nat) : Prop := ∀ k ≤ n, quoteState line (i + k) = .out

def Occurs (line name : List Char) (i : Nat) : Prop := name <+: line.drop i

/-- The name stands at `i` as an identifier of its own. -/
def WholeIdentifier (line name : List Char) (i : Nat) : Prop :=
  IsIdentifier name ∧ Occurs line name i ∧ bounded PyUnicode.isWord line i name.length = true

/-- What the scan takes for an occurrence. -/
structure Candidate (line name : List Char) (i : Nat) : Prop where
  ne_nil : name ≠ []
  occurs : Occurs line name i
  out : quoteState line i = .out
  out_next : quoteState line (i + 1) = .out
  bounded : bounded isIdent line i name.length = true

/-! ## What is expected -/

/-- The line became `line'` by renaming all whole occurrences outside quotes and nothing
else. -/
def RenamedAll (old new line line' : List Char) : Prop :=
  ∃ S : List Nat, S.Pairwise (fun s t => s + old.length ≤ t) ∧
    (∀ i, i ∈ S ↔ WholeIdentifier line old i ∧ Unquoted line i old.length) ∧
    line' = substitute old.length new S line

/-- An edit keeps the number of lines and every line but its own, and renames there. A
skipped edit found nothing to rename on its line. -/
def EditFaithful (content : List Char) (e : Edit) : Prop :=
  let lines := Difflib.splitlines content
  ∀ (index : Nat) (line : List Char), e.line = some ((index : Int) + 1) →
    lines[index]? = some line →
    match applyEdit content e with
    | .error _ => ∀ i, ¬ (WholeIdentifier line e.old i ∧ Unquoted line i e.old.length)
    | .ok content' =>
        (Difflib.splitlines content').length = lines.length ∧
          (∀ k, k ≠ index → (Difflib.splitlines content')[k]? = lines[k]?) ∧
          ∃ line', (Difflib.splitlines content')[index]? = some line' ∧
            RenamedAll e.old e.new line line'

/-- The names are the same, or wherever the scan of the edit's line stops at the old name,
this is an identifier, no word character of any script stands next to it, and a new name
with a newline at its end gets the last place of the line. -/
def EditSafe (content : List Char) (e : Edit) : Prop :=
  e.old = e.new ∨ ∀ (index : Nat) (line : List Char), e.line = some ((index : Int) + 1) →
    (Difflib.splitlines content)[index]? = some line →
      ∀ i, Candidate line e.old i → IsIdentifier e.old ∧
        bounded PyUnicode.isWord line i e.old.length = true ∧
          ('\n' ∈ e.new → i + e.old.length = line.length)

/-! ## The quote automaton along the scan -/

theorem quoteState_succ {chars : List Char} {i : Nat} {c : Char} (h : chars[i]? = some c) :
    quoteState chars (i + 1) = (quoteState chars i).next c := by
  unfold quoteState
  rw [List.take_add_one, h, List.foldl_append]
  rfl

theorem unquoted_of_occurs {chars name : List Char} {i : Nat}
    (hname : ∀ c ∈ name, isQuote c = false) (hocc : Occurs chars name i)
    (hout : quoteState chars i = .out) : Unquoted chars i name.length := by
  intro k hk
  induction k with
  | zero => exact hout
  | succ k ih =>
      have hlt : k < name.length := by omega
      have hget : chars[i + k]? = some name[k] := by
        obtain ⟨t, ht⟩ := hocc
        rw [← List.getElem?_drop, ← ht, List.getElem?_append_left hlt,
          List.getElem?_eq_getElem hlt]
      have hq := hname _ (List.getElem_mem hlt)
      rw [← Nat.add_assoc, quoteState_succ hget, ih (by omega), QuoteState.next, hq]
      rfl

def stateOf : Option Char → QuoteState
  | none => .out
  | some mark => .inside mark

theorem stateOf_none : stateOf none = .out := rfl

theorem not_candidate_of_state {chars name : List Char} {i : Nat}
    (h : quoteState chars i ≠ .out) : ¬ Candidate chars name i := fun hc => h hc.out

theorem lt_length_of_candidate {chars name : List Char} {i : Nat} (h : Candidate chars name i) :
    i + name.length ≤ chars.length := by
  have hle := h.occurs.length_le
  have hpos := List.length_pos_iff.mpr h.ne_nil
  rw [List.length_drop] at hle
  omega

theorem stops_iff {chars name : List Char} {i : Nat} {c : Char} (hname : name ≠ [])
    (hget : chars[i]? = some c) (hout : quoteState chars i = .out) (hc : isQuote c = false) :
    (name.isPrefixOf (chars.drop i) && bounded isIdent chars i name.length) = true ↔
      Candidate chars name i := by
  have hnext : quoteState chars (i + 1) = .out := by
    rw [quoteState_succ hget, hout, QuoteState.next, hc]
    rfl
  rw [Bool.and_eq_true, List.isPrefixOf_iff_prefix]
  constructor
  · rintro ⟨hocc, hb⟩
    exact ⟨hname, hocc, hout, hnext, hb⟩
  · intro h
    exact ⟨h.occurs, h.bounded⟩

/-- What one scan from index `i` finds: candidates, apart from each other, such that every
other candidate from there on overlaps one found in front of it. -/
structure Finds (chars name : List Char) (i : Nat) (S : List Nat) : Prop where
  candidate : ∀ s ∈ S, i ≤ s ∧ Candidate chars name s
  pairwise : S.Pairwise fun s t => s + name.length ≤ t
  covers : ∀ j, i ≤ j → Candidate chars name j → ∃ s ∈ S, s ≤ j ∧ j < s + name.length

theorem Finds.skip {chars name : List Char} {i j : Nat} {S : List Nat} (h : Finds chars name j S)
    (hij : i ≤ j) (hno : ∀ k, i ≤ k → k < j → ¬ Candidate chars name k) :
    Finds chars name i S := by
  refine ⟨fun s hs => ⟨Nat.le_trans hij (h.candidate s hs).1, (h.candidate s hs).2⟩, h.pairwise,
    fun k hk hc => ?_⟩
  rcases Nat.lt_or_ge k j with hlt | hge
  · exact absurd hc (hno k hk hlt)
  · exact h.covers k hge hc

theorem Finds.cons {chars name : List Char} {i : Nat} {S : List Nat}
    (h : Finds chars name (i + name.length) S) (hc : Candidate chars name i) :
    Finds chars name i (i :: S) := by
  refine ⟨?_, List.pairwise_cons.mpr ⟨fun t ht => (h.candidate t ht).1, h.pairwise⟩, ?_⟩
  · intro s hs
    rcases List.mem_cons.mp hs with rfl | hs
    · exact ⟨Nat.le_refl _, hc⟩
    · exact ⟨Nat.le_trans (Nat.le_add_right _ _) (h.candidate s hs).1, (h.candidate s hs).2⟩
  · intro j hj hcj
    rcases Nat.lt_or_ge j (i + name.length) with hlt | hge
    · exact ⟨i, List.mem_cons_self, hj, hlt⟩
    · obtain ⟨s, hs, hle, hlt⟩ := h.covers j hge hcj
      exact ⟨s, List.mem_cons_of_mem _ hs, hle, hlt⟩

theorem finds_end {chars name : List Char} {i : Nat} (hname : name ≠ [])
    (h : chars.length ≤ i) : Finds chars name i [] := by
  refine ⟨by simp, List.Pairwise.nil, fun j hj hc => ?_⟩
  have hpos := List.length_pos_iff.mpr hname
  have := lt_length_of_candidate hc
  omega

theorem finds_one {chars name : List Char} {i : Nat} {S : List Nat}
    (h : Finds chars name (i + 1) S) (hno : ¬ Candidate chars name i) : Finds chars name i S := by
  refine h.skip (Nat.le_succ i) fun k hk hlt => ?_
  obtain rfl : k = i := by omega
  exact hno

/-! ## The rounds of the loop -/

section Rounds

variable {chars name : List Char} {i : Nat} {c mark : Char} (fuel : Nat)

theorem spanLoop_none (quote : Option Char) (h : chars[i]? = none) :
    spanLoop chars name (fuel + 1) quote i = [] := by
  rw [spanLoop, h]

theorem spanLoop_escape (h : chars[i]? = some '\\') :
    spanLoop chars name (fuel + 1) (some mark) i =
      spanLoop chars name fuel (some mark) (i + 2) := by
  rw [spanLoop, h]
  rfl

theorem spanLoop_inside (h : chars[i]? = some c) (hbs : c ≠ '\\') :
    spanLoop chars name (fuel + 1) (some mark) i =
      spanLoop chars name fuel (if c = mark then none else some mark) (i + 1) := by
  rw [spanLoop, h]
  exact if_neg hbs

theorem spanLoop_quote (h : chars[i]? = some c) (hq : isQuote c = true) :
    spanLoop chars name (fuel + 1) none i = spanLoop chars name fuel (some c) (i + 1) := by
  rw [spanLoop, h]
  exact if_pos hq

theorem spanLoop_out (hname : name ≠ []) (h : chars[i]? = some c) (hq : isQuote c = false)
    (hout : quoteState chars i = .out) :
    (Candidate chars name i ∧ spanLoop chars name (fuel + 1) none i =
        i :: spanLoop chars name fuel none (i + name.length)) ∨
      (¬ Candidate chars name i ∧
        spanLoop chars name (fuel + 1) none i = spanLoop chars name fuel none (i + 1)) := by
  have hstops := stops_iff hname h hout hq
  have hround : spanLoop chars name (fuel + 1) none i =
      if name.isPrefixOf (chars.drop i) && bounded isIdent chars i name.length then
        i :: spanLoop chars name fuel none (i + name.length)
      else spanLoop chars name fuel none (i + 1) := by
    rw [spanLoop, h]
    exact if_neg (by simp [hq])
  by_cases hhere : (name.isPrefixOf (chars.drop i) && bounded isIdent chars i name.length) = true
  · exact .inl ⟨hstops.mp hhere, by rw [hround, if_pos hhere]⟩
  · exact .inr ⟨fun hc => hhere (hstops.mpr hc), by rw [hround, if_neg hhere]⟩

end Rounds

/-- A round between quotes: it stays aligned with the automaton, and no candidate lies
where it passed. -/
theorem round_inside {chars name : List Char} {i : Nat} {mark c : Char} (fuel : Nat)
    (hget : chars[i]? = some c) (hstate : quoteState chars i = .inside mark) :
    ∃ quote j, i < j ∧ (j < chars.length → quoteState chars j = stateOf quote) ∧
      (∀ k, i ≤ k → k < j → ¬ Candidate chars name k) ∧
      spanLoop chars name (fuel + 1) (some mark) i = spanLoop chars name fuel quote j := by
  have hno : ¬ Candidate chars name i := not_candidate_of_state (by rw [hstate]; simp)
  have hsucc := quoteState_succ hget
  rw [hstate, QuoteState.next] at hsucc
  by_cases hbs : c = '\\'
  · subst hbs
    rw [if_pos rfl] at hsucc
    refine ⟨some mark, i + 2, by omega, fun hlt => ?_, fun k hk hlt => ?_,
      spanLoop_escape fuel hget⟩
    · have hget' : chars[i + 1]? = some chars[i + 1] := List.getElem?_eq_getElem (by omega)
      rw [quoteState_succ hget', hsucc]
      rfl
    · rcases (by omega : k = i ∨ k = i + 1) with rfl | rfl
      · exact hno
      · exact not_candidate_of_state (by rw [hsucc]; simp)
  · rw [if_neg hbs] at hsucc
    refine ⟨_, i + 1, by omega, fun _ => ?_, fun k hk hlt => ?_, spanLoop_inside fuel hget hbs⟩
    · rw [hsucc]
      split <;> rfl
    · obtain rfl : k = i := by omega
      exact hno

theorem round_quote {chars name : List Char} {i : Nat} {c : Char} (hget : chars[i]? = some c)
    (hq : isQuote c = true) (hout : quoteState chars i = .out) :
    quoteState chars (i + 1) = stateOf (some c) ∧ ¬ Candidate chars name i := by
  have hsucc := quoteState_succ hget
  rw [hout, QuoteState.next, if_pos hq] at hsucc
  refine ⟨hsucc, fun hc => ?_⟩
  have := hc.out_next
  rw [hsucc] at this
  cases this

/-- The scan of a name without quotes, from a place where it is aligned with the
automaton. -/
theorem spanLoop_finds {chars name : List Char} (hname : name ≠ [])
    (hplain : ∀ c ∈ name, isQuote c = false) (fuel : Nat) (quote : Option Char) (i : Nat)
    (hstate : i < chars.length → quoteState chars i = stateOf quote)
    (hfuel : chars.length < i + fuel) :
    Finds chars name i (spanLoop chars name fuel quote i) := by
  have hpos := List.length_pos_iff.mpr hname
  induction fuel generalizing quote i with
  | zero => exact finds_end hname (by omega)
  | succ fuel ih =>
      cases hget : chars[i]? with
      | none =>
          rw [spanLoop_none fuel quote hget]
          exact finds_end hname (List.getElem?_eq_none_iff.mp hget)
      | some c =>
          have hstate := hstate (List.getElem?_eq_some_iff.mp hget).1
          cases quote with
          | some mark =>
              obtain ⟨quote, j, hij, hj, hno, heq⟩ := round_inside fuel hget hstate
              rw [heq]
              exact (ih quote j hj (by omega)).skip (by omega) hno
          | none =>
              by_cases hq : isQuote c = true
              · obtain ⟨hnext, hno⟩ := round_quote hget hq hstate
                rw [spanLoop_quote fuel hget hq]
                exact finds_one (ih (some c) (i + 1) (fun _ => hnext) (by omega)) hno
              · have hq : isQuote c = false := by simpa using hq
                rcases spanLoop_out fuel hname hget hq hstate with ⟨hc, heq⟩ | ⟨hno, heq⟩
                · have hafter := unquoted_of_occurs hplain hc.occurs hc.out _ (Nat.le_refl _)
                  rw [heq]
                  exact (ih none _ (fun _ => hafter) (by omega)).cons hc
                · have hnext := quoteState_succ hget
                  rw [hstate, stateOf_none, QuoteState.next, hq] at hnext
                  rw [heq]
                  exact finds_one (ih none (i + 1) (fun _ => hnext) (by omega)) hno

theorem spanLoop_eq_nil_iff {chars name : List Char} (hname : name ≠ []) (fuel : Nat)
    (quote : Option Char) (i : Nat)
    (hstate : i < chars.length → quoteState chars i = stateOf quote)
    (hfuel : chars.length < i + fuel) :
    spanLoop chars name fuel quote i = [] ↔ ∀ j, i ≤ j → ¬ Candidate chars name j := by
  have hpos := List.length_pos_iff.mpr hname
  have hend : ∀ i, chars.length ≤ i → ∀ j, i ≤ j → ¬ Candidate chars name j :=
    fun i hi j hj hc => by
    have := lt_length_of_candidate hc
    omega
  -- a stretch without candidates may be left out
  have hskip : ∀ i i', i ≤ i' → (∀ k, i ≤ k → k < i' → ¬ Candidate chars name k) →
      ((∀ j, i' ≤ j → ¬ Candidate chars name j) ↔ ∀ j, i ≤ j → ¬ Candidate chars name j) := by
    intro i i' hle hno
    refine ⟨fun h j hj => ?_, fun h j hj => h j (by omega)⟩
    rcases Nat.lt_or_ge j i' with hlt | hge
    · exact hno j hj hlt
    · exact h j hge
  induction fuel generalizing quote i with
  | zero => exact iff_of_true rfl (hend i (by omega))
  | succ fuel ih =>
      cases hget : chars[i]? with
      | none =>
          rw [spanLoop_none fuel quote hget]
          exact iff_of_true rfl (hend i (List.getElem?_eq_none_iff.mp hget))
      | some c =>
          have hstate := hstate (List.getElem?_eq_some_iff.mp hget).1
          have hone : ∀ {P : Nat → Prop}, P i → ∀ k, i ≤ k → k < i + 1 → P k :=
            fun hP k hk hlt => by obtain rfl : k = i := by omega
                                  exact hP
          cases quote with
          | some mark =>
              obtain ⟨quote, j, hij, hj, hno, heq⟩ := round_inside fuel hget hstate
              have hrest := ih quote j hj (by omega)
              rw [heq]
              exact hrest.trans (hskip i j (by omega) hno)
          | none =>
              by_cases hq : isQuote c = true
              · obtain ⟨hnext, hno⟩ := round_quote hget hq hstate
                have hrest := ih (some c) (i + 1) (fun _ => hnext) (by omega)
                rw [spanLoop_quote fuel hget hq]
                exact hrest.trans (hskip i (i + 1) (by omega) (hone hno))
              · have hq : isQuote c = false := by simpa using hq
                rcases spanLoop_out fuel hname hget hq hstate with ⟨hc, heq⟩ | ⟨hno, heq⟩
                · rw [heq]
                  exact iff_of_false (List.cons_ne_nil _ _) fun h => h i (Nat.le_refl _) hc
                · have hnext := quoteState_succ hget
                  rw [hstate, stateOf_none, QuoteState.next, hq] at hnext
                  have hrest := ih none (i + 1) (fun _ => hnext) (by omega)
                  rw [heq]
                  exact hrest.trans (hskip i (i + 1) (by omega) (hone hno))

theorem identifierSpans_finds (chars : List Char) {name : List Char} (hname : name ≠ [])
    (hplain : ∀ c ∈ name, isQuote c = false) :
    Finds chars name 0 (identifierSpans chars name) :=
  spanLoop_finds hname hplain _ none 0 (fun _ => rfl) (by omega)

theorem identifierSpans_eq_nil_iff {chars name : List Char} (hname : name ≠ []) :
    identifierSpans chars name = [] ↔ ∀ i, ¬ Candidate chars name i := by
  unfold identifierSpans
  rw [spanLoop_eq_nil_iff hname _ none 0 (fun _ => rfl) (by omega)]
  exact ⟨fun h i => h i (Nat.zero_le i), fun h i _ => h i⟩

/-- Places from `i` on that follow one another and where the name stands. -/
structure Follow (chars name : List Char) (i : Nat) (S : List Nat) : Prop where
  ge : ∀ s ∈ S, i ≤ s
  occurs : ∀ s ∈ S, Occurs chars name s
  pairwise : S.Pairwise fun s t => s + name.length ≤ t

theorem follow_nil (chars name : List Char) (i : Nat) : Follow chars name i [] :=
  ⟨by simp, by simp, List.Pairwise.nil⟩

theorem Follow.later {chars name : List Char} {i j : Nat} {S : List Nat}
    (h : Follow chars name j S) (hij : i ≤ j) : Follow chars name i S :=
  ⟨fun s hs => Nat.le_trans hij (h.ge s hs), h.occurs, h.pairwise⟩

theorem Follow.cons {chars name : List Char} {i : Nat} {S : List Nat}
    (h : Follow chars name (i + name.length) S) (hocc : Occurs chars name i) :
    Follow chars name i (i :: S) := by
  refine ⟨fun s hs => ?_, fun s hs => ?_, List.pairwise_cons.mpr ⟨h.ge, h.pairwise⟩⟩
  · rcases List.mem_cons.mp hs with rfl | hs
    · exact Nat.le_refl _
    · exact Nat.le_trans (Nat.le_add_right _ _) (h.ge s hs)
  · rcases List.mem_cons.mp hs with rfl | hs
    · exact hocc
    · exact h.occurs s hs

theorem spanLoop_follow (chars name : List Char) (fuel : Nat) (quote : Option Char) (i : Nat) :
    Follow chars name i (spanLoop chars name fuel quote i) := by
  induction fuel generalizing quote i with
  | zero => exact follow_nil chars name i
  | succ fuel ih =>
      have hone : ∀ quote, Follow chars name i (spanLoop chars name fuel quote (i + 1)) :=
        fun quote => (ih quote (i + 1)).later (Nat.le_succ i)
      rw [spanLoop]
      cases hget : chars[i]? with
      | none => exact follow_nil chars name i
      | some c =>
          cases quote with
          | some mark =>
              simp only
              split
              · exact (ih (some mark) (i + 2)).later (by omega)
              · exact hone _
          | none =>
              simp only
              split
              · exact hone _
              · split
                · rename_i hstop
                  have hocc := List.isPrefixOf_iff_prefix.mp (Bool.and_eq_true_iff.mp hstop).1
                  exact (ih none (i + name.length)).cons hocc
                · exact hone _

theorem add_length_le_of_occurs {chars name : List Char} {i : Nat} (hname : name ≠ [])
    (h : Occurs chars name i) : i + name.length ≤ chars.length := by
  have hle := h.length_le
  have hpos := List.length_pos_iff.mpr hname
  rw [List.length_drop] at hle
  omega

theorem Follow.apart {chars name : List Char} {S : List Nat} (hname : name ≠ [])
    (h : Follow chars name 0 S) : Apart name.length 0 S chars := by
  refine ⟨h.pairwise, h.ge, fun s hs => ?_⟩
  rw [Nat.zero_add]
  exact add_length_le_of_occurs hname (h.occurs s hs)

theorem Follow.allAt {chars name : List Char} {S : List Nat} (h : Follow chars name 0 S) :
    AllAt name 0 S chars := h.occurs

theorem identifierSpans_follow (chars name : List Char) :
    Follow chars name 0 (identifierSpans chars name) :=
  spanLoop_follow chars name _ none 0

/-! ## Characters of identifiers -/

theorem isWord_of_range {c : Char} (lo hi : Nat) (hr : (lo, hi) ∈ PyUnicode.wordTable)
    (hlo : lo ≤ c.toNat) (hhi : c.toNat ≤ hi) : PyUnicode.isWord c = true := by
  refine List.any_eq_true.mpr ⟨(lo, hi), hr, ?_⟩
  simp [hlo, hhi]

theorem isWord_of_isIdent {c : Char} (h : isIdent c = true) : PyUnicode.isWord c = true := by
  unfold isIdent Char.isAlphanum Char.isAlpha Char.isUpper Char.isLower Char.isDigit at h
  simp only [Bool.or_eq_true, Bool.and_eq_true, decide_eq_true_eq] at h
  rcases h with ((h | h) | h) | rfl
  · exact isWord_of_range 0x41 0x5A (by decide) h.1 h.2
  · exact isWord_of_range 0x61 0x7A (by decide) h.1 h.2
  · exact isWord_of_range 0x30 0x39 (by decide) h.1 h.2
  · decide +kernel

theorem not_isWord : ∀ c ∈ ['"', '\'', '\n', '\r', '\x0b', '\x0c', '\x1c', '\x1d', '\x1e',
    '\u0085', '\u2028', '\u2029'], PyUnicode.isWord c = false := by
  have hall : ['"', '\'', '\n', '\r', '\x0b', '\x0c', '\x1c', '\x1d', '\x1e', '\u0085', '\u2028',
      '\u2029'].all (fun c => !PyUnicode.isWord c) = true := by decide +kernel
  intro c hc
  simpa using List.all_eq_true.mp hall c hc

theorem isQuote_of_isWord {c : Char} (h : PyUnicode.isWord c = true) : isQuote c = false := by
  by_contra hq
  have hmem : c = '"' ∨ c = '\'' := by simpa [isQuote, or_iff_not_imp_left] using hq
  have := not_isWord c (by rcases hmem with rfl | rfl <;> simp)
  rw [h] at this
  cases this

theorem isLineBreak_of_isWord {c : Char} (h : PyUnicode.isWord c = true) :
    isLineBreak c = false := by
  by_contra hb
  have hb : isLineBreak c = true := by simpa using hb
  have hmem : c ∈ ['"', '\'', '\n', '\r', '\x0b', '\x0c', '\x1c', '\x1d', '\x1e', '\u0085',
      '\u2028', '\u2029'] := by
    simp only [isLineBreak, Bool.or_eq_true, decide_eq_true_eq] at hb
    simp only [List.mem_cons]
    tauto
  rw [not_isWord c hmem] at h
  cases h

theorem IsIdentifier.isWord {name : List Char} (h : IsIdentifier name) :
    ∀ c ∈ name, PyUnicode.isWord c = true := by
  cases name with
  | nil => exact h.elim
  | cons c rest =>
      intro d hd
      rcases List.mem_cons.mp hd with rfl | hd
      · exact h.1
      · exact List.all_eq_true.mp h.2.2 d hd

theorem IsIdentifier.ne_nil {name : List Char} (h : IsIdentifier name) : name ≠ [] := by
  rintro rfl
  exact h

theorem IsIdentifier.plain {name : List Char} (h : IsIdentifier name) :
    ∀ c ∈ name, isQuote c = false := fun c hc => isQuote_of_isWord (h.isWord c hc)

theorem IsIdentifier.noBreak {name : List Char} (h : IsIdentifier name) : NoBreak name :=
  List.all_eq_true.mpr fun c hc => by rw [isLineBreak_of_isWord (h.isWord c hc)]; rfl

theorem isValidIdentifier_cases {name : List Char} (h : isValidIdentifier name = true) :
    IsIdentifier name ∨ ∃ body, IsIdentifier body ∧ name = body ++ ['\n'] := by
  have hbody : ∀ body : List Char,
      (match body with
        | [] => false
        | c :: rest => PyUnicode.isWord c && !PyUnicode.isDigit c && rest.all PyUnicode.isWord)
        = true → IsIdentifier body := by
    intro body hb
    cases body with
    | nil => cases hb
    | cons c rest => simpa [IsIdentifier, and_assoc] using hb
  unfold isValidIdentifier at h
  by_cases hlast : name.getLast? = some '\n'
  · rw [if_pos hlast] at h
    obtain ⟨body, rfl⟩ := List.getLast?_eq_some_iff.mp hlast
    rw [List.dropLast_concat] at h
    exact .inr ⟨body, hbody _ h, rfl⟩
  · rw [if_neg hlast] at h
    exact .inl (hbody _ h)

/-! ## Whole identifiers among the candidates -/

theorem bounded_mono {p q : Char → Bool} (hpq : ∀ c, p c = true → q c = true) {chars : List Char}
    {i n : Nat} (h : bounded q chars i n = true) : bounded p chars i n = true := by
  have hany : ∀ o : Option Char, o.any q = false → o.any p = false := by
    intro o ho
    cases o with
    | none => rfl
    | some c =>
        rw [Option.any_some] at ho ⊢
        exact Bool.eq_false_iff.mpr fun hp => absurd (hpq c hp) (by rw [ho]; simp)
  simp only [bounded, Bool.and_eq_true, Bool.or_eq_true, Bool.not_eq_true', beq_iff_eq] at h ⊢
  exact ⟨h.1.imp_right (hany _), hany _ h.2⟩

theorem getElem?_of_occurs {chars name : List Char} {i k : Nat} (h : Occurs chars name i)
    (hk : k < name.length) : chars[i + k]? = some name[k] := by
  obtain ⟨t, ht⟩ := h
  rw [← List.getElem?_drop, ← ht, List.getElem?_append_left hk, List.getElem?_eq_getElem hk]

/-- The whole unquoted occurrences are the candidates that stand between no word
characters. -/
theorem whole_iff {chars name : List Char} {i : Nat} (hname : IsIdentifier name) :
    WholeIdentifier chars name i ∧ Unquoted chars i name.length ↔
      Candidate chars name i ∧ bounded PyUnicode.isWord chars i name.length = true := by
  constructor
  · rintro ⟨⟨-, hocc, hb⟩, hun⟩
    have hpos := List.length_pos_iff.mpr hname.ne_nil
    exact ⟨⟨hname.ne_nil, hocc, hun 0 (Nat.zero_le _), hun 1 hpos,
      bounded_mono (fun _ => isWord_of_isIdent) hb⟩, hb⟩
  · rintro ⟨hc, hb⟩
    exact ⟨⟨hname, hc.occurs, hb⟩, unquoted_of_occurs hname.plain hc.occurs hc.out⟩

theorem candidate_of_whole {chars name : List Char} {i : Nat}
    (h : WholeIdentifier chars name i ∧ Unquoted chars i name.length) : Candidate chars name i :=
  ((whole_iff h.1.1).mp h).1

/-- Two occurrences of an identifier that overlap touch each other's insides: neither has a
boundary on the side of the other. -/
theorem apart_of_bounded {chars name : List Char} {i j : Nat} (hname : IsIdentifier name)
    (hi : Occurs chars name i) (hj : Occurs chars name j)
    (hb : bounded PyUnicode.isWord chars i name.length = true ∨
      bounded PyUnicode.isWord chars j name.length = true)
    (hij : i < j) : i + name.length ≤ j := by
  by_contra hlt
  have hword : ∀ k, i ≤ k → k < j + name.length →
      ∃ c, chars[k]? = some c ∧ PyUnicode.isWord c = true := by
    intro k hik hkj
    rcases Nat.lt_or_ge k (i + name.length) with hk | hk
    · have hget := getElem?_of_occurs hi (k := k - i) (by omega)
      rw [Nat.add_sub_cancel' hik] at hget
      exact ⟨_, hget, hname.isWord _ (List.getElem_mem _)⟩
    · have hget := getElem?_of_occurs hj (k := k - j) (by omega)
      rw [Nat.add_sub_cancel' (by omega)] at hget
      exact ⟨_, hget, hname.isWord _ (List.getElem_mem _)⟩
  simp only [bounded, Bool.and_eq_true, Bool.or_eq_true, Bool.not_eq_true', beq_iff_eq] at hb
  rcases hb with ⟨-, hright⟩ | ⟨hleft, -⟩
  · obtain ⟨c, hget, hc⟩ := hword (i + name.length) (by omega) (by omega)
    rw [hget, Option.any_some, hc] at hright
    cases hright
  · obtain ⟨c, hget, hc⟩ := hword (j - 1) (by omega) (by omega)
    rcases hleft with hzero | hleft
    · omega
    · rw [hget, Option.any_some, hc] at hleft
      cases hleft

theorem whole_mem_spans {chars name : List Char} {i : Nat}
    (h : WholeIdentifier chars name i ∧ Unquoted chars i name.length) :
    i ∈ identifierSpans chars name := by
  have hname := h.1.1
  have hfinds := identifierSpans_finds chars hname.ne_nil hname.plain
  obtain ⟨s, hs, hle, hlt⟩ := hfinds.covers i (Nat.zero_le i) (candidate_of_whole h)
  rcases Nat.eq_or_lt_of_le hle with rfl | hsi
  · exact hs
  · have := apart_of_bounded hname (hfinds.candidate s hs).2.occurs h.1.2.1 (.inr h.1.2.2) hsi
    omega

/-- If a place found is whole, so is every candidate, provided all places found are. -/
theorem bounded_of_spans {chars name : List Char} (hname : IsIdentifier name)
    (hspans : ∀ s ∈ identifierSpans chars name,
      bounded PyUnicode.isWord chars s name.length = true)
    {i : Nat} (hc : Candidate chars name i) : i ∈ identifierSpans chars name := by
  have hfinds := identifierSpans_finds chars hname.ne_nil hname.plain
  obtain ⟨s, hs, hle, hlt⟩ := hfinds.covers i (Nat.zero_le i) hc
  rcases Nat.eq_or_lt_of_le hle with rfl | hsi
  · exact hs
  · have := apart_of_bounded hname (hfinds.candidate s hs).2.occurs hc.occurs
      (.inl (hspans s hs)) hsi
    omega

/-! ## The edit on its line -/

theorem splitlines_join {ls : List Line} (h : Proper ls) :
    Difflib.splitlines (join ls) = ls.map Line.text := by
  rw [Difflib.splitlines, breakLines_join h]

theorem join_eq_flatten (ls : List Line) : join ls = (ls.map Line.text).flatten := rfl

section OneLine

variable {content line : List Char} {e : Edit} {index : Nat}

/-- An edit with a line of the content: without a candidate there it is skipped, otherwise
the places found are overwritten. -/
theorem applyEdit_cases (htarget : e.line = some ((index : Int) + 1))
    (hline : (Difflib.splitlines content)[index]? = some line) :
    ((∀ i, ¬ Candidate line e.old i) ∧ applyEdit content e = .error "line_no_longer_matches") ∨
      (e.old ≠ [] ∧ identifierSpans line e.old ≠ [] ∧ applyEdit content e =
        .ok ((Difflib.splitlines content).set index
          (substitute e.old.length e.new (identifierSpans line e.old) line)).flatten) := by
  obtain ⟨hlt, hget⟩ := List.getElem?_eq_some_iff.mp hline
  have hrange : ¬ ((index : Int) + 1 - 1 < 0 ∨ (Difflib.splitlines content).length ≤ index) := by
    omega
  have hindex : ((index : Int) + 1 - 1).toNat = index := by omega
  have hgetD : (Difflib.splitlines content).getD index [] = line := by
    rw [List.getD_eq_getElem?_getD, hline]
    rfl
  unfold applyEdit
  simp only [htarget, hindex, hgetD]
  rw [if_neg hrange]
  by_cases hold : e.old = []
  · exact .inl ⟨fun i hc => hc.ne_nil hold, if_pos hold⟩
  · rw [if_neg hold]
    by_cases hspans : identifierSpans line e.old = []
    · exact .inl ⟨(identifierSpans_eq_nil_iff hold).mp hspans, if_pos hspans⟩
    · have hfollow := identifierSpans_follow line e.old
      rw [if_neg hspans, spliceAll_eq (hfollow.apart hold)]
      exact .inr ⟨hold, hspans, rfl⟩

theorem lines_of_set {ls : List Line} {l : Line} {b end' : List Char} (h : Proper ls)
    (hget : ls[index]? = some l) (hb : NoBreak b) (hne : b ≠ [])
    (hend : end' = l.2 ∨ l.2 = [] ∧ IsEnding end') :
    Difflib.splitlines ((ls.map Line.text).set index (b ++ end')).flatten =
      (ls.map Line.text).set index (b ++ end') := by
  have hset : (ls.map Line.text).set index (b ++ end') =
      (ls.set index (b, end')).map Line.text := by
    rw [List.map_set]
    rfl
  rw [hset, ← join_eq_flatten, splitlines_join (h.set hget hb hne hend)]

theorem le_body_of_occurs {l : Line} {name : List Char} {s : Nat} (hname : IsIdentifier name)
    (hend : IsEnding l.2 ∨ l.2 = []) (hocc : Occurs l.text name s) :
    s + name.length ≤ l.1.length := by
  have hpos := List.length_pos_iff.mpr hname.ne_nil
  have hbreak : ∀ c ∈ l.2, isLineBreak c = true := by
    intro c hc
    rcases hend with (he | ⟨d, hd, he⟩) | he
    · rw [he] at hc
      rcases List.mem_pair.mp hc with rfl | rfl
      · exact isLineBreak_cr
      · exact isLineBreak_nl
    · rw [he, List.mem_singleton] at hc
      rw [hc]
      exact hd
    · rw [he] at hc
      cases hc
  by_contra hlt
  -- the last character of the name would belong to the ending
  have hget := getElem?_of_occurs hocc (k := name.length - 1) (by omega)
  rw [Line.text, List.getElem?_append_right (by omega)] at hget
  have hb := hbreak _ (List.mem_of_getElem? hget)
  have hw := isLineBreak_of_isWord (hname.isWord name[name.length - 1] (List.getElem_mem _))
  rw [hw] at hb
  cases hb

theorem line_after {l : Line} (hbody : NoBreak l.1) (hending : IsEnding l.2 ∨ l.2 = [])
    (hold : IsIdentifier e.old) (hnew : isValidIdentifier e.new = true)
    (hspans : identifierSpans l.text e.old ≠ [])
    (hend : '\n' ∈ e.new → ∀ s ∈ identifierSpans l.text e.old, s + e.old.length = l.text.length) :
    ∃ b end', substitute e.old.length e.new (identifierSpans l.text e.old) l.text = b ++ end' ∧
      NoBreak b ∧ b ≠ [] ∧ (end' = l.2 ∨ l.2 = [] ∧ IsEnding end') := by
  have hfollow := identifierSpans_follow l.text e.old
  generalize identifierSpans l.text e.old = S at *
  have hle : ∀ s ∈ S, s + e.old.length ≤ l.1.length := fun s hs =>
    le_body_of_occurs hold hending (hfollow.occurs s hs)
  have hapart : Apart e.old.length 0 S l.1 :=
    ⟨hfollow.pairwise, hfollow.ge, fun s hs => by rw [Nat.zero_add]; exact hle s hs⟩
  have htext : substitute e.old.length e.new S l.text =
      substitute e.old.length e.new S l.1 ++ l.2 :=
    substituteFrom_append hapart l.2
  obtain ⟨s, hs⟩ := List.exists_mem_of_ne_nil S hspans
  have hpos := List.length_pos_iff.mpr hold.ne_nil
  rcases isValidIdentifier_cases hnew with hnew | ⟨body, hnew, heq⟩
  · have hne : l.1 ≠ [] := by
      have := hle s hs
      exact List.length_pos_iff.mp (by omega)
    refine ⟨_, l.2, htext, ?_, substituteFrom_ne_nil hnew.ne_nil hne, .inl rfl⟩
    refine List.all_eq_true.mpr fun c hc => ?_
    rcases mem_substituteFrom hc with hc | hc
    · rw [hbody.mem hc]
      rfl
    · rw [hnew.noBreak.mem hc]
      rfl
  · -- the newline goes behind the last character of the text
    have hnl : '\n' ∈ e.new := by simp [heq]
    have hlast := hend hnl s hs
    have hlen : l.text.length = l.1.length + l.2.length := List.length_append
    have hnil : l.2 = [] := List.length_eq_zero_iff.mp (by have := hle s hs; omega)
    have hone : S = [s] := by
      rcases S with _ | ⟨t, _ | ⟨u, S⟩⟩
      · cases hs
      · rw [List.mem_singleton.mp hs]
      · have htu := (List.pairwise_cons.mp hfollow.pairwise).1 u List.mem_cons_self
        have ht := hend hnl t List.mem_cons_self
        have hu := hend hnl u (List.mem_cons_of_mem _ List.mem_cons_self)
        omega
    refine ⟨l.1.take s ++ body, ['\n'], ?_, ?_, by simp [hnew.ne_nil],
      .inr ⟨hnil, .inr ⟨'\n', isLineBreak_nl, rfl⟩⟩⟩
    · have hdrop : l.1.drop (s - 0 + e.old.length) = [] := List.drop_of_length_le (by omega)
      rw [htext, hone, hnil, substitute, substituteFrom, substituteFrom, hdrop, heq]
      simp
    · refine noBreak_append.mpr ⟨?_, hnew.noBreak⟩
      exact List.all_eq_true.mpr fun c hc => List.all_eq_true.mp hbody c (List.mem_of_mem_take hc)

/-- The lines of the new content, where no newline gets into the edit's line but at its
end. -/
theorem splitlines_after {new' : List Char}
    (hline : (Difflib.splitlines content)[index]? = some line)
    (hold : IsIdentifier e.old) (hnew : isValidIdentifier e.new = true)
    (hspans : identifierSpans line e.old ≠ [])
    (hend : '\n' ∈ e.new → ∀ s ∈ identifierSpans line e.old, s + e.old.length = line.length)
    (hnew' : new' = substitute e.old.length e.new (identifierSpans line e.old) line) :
    Difflib.splitlines ((Difflib.splitlines content).set index new').flatten =
      (Difflib.splitlines content).set index new' := by
  have hproper := proper_breakLines [] content (by rfl)
  have hget : ((breakLines [] content).map Line.text)[index]? = some line := hline
  rw [List.getElem?_map] at hget
  obtain ⟨l, hl, rfl⟩ := Option.map_eq_some_iff.mp hget
  obtain ⟨hbody, hending⟩ := hproper.mem (List.mem_of_getElem? hl)
  obtain ⟨b, end', heq, hb, hne, hend'⟩ := line_after hbody hending hold hnew hspans hend
  rw [hnew', heq]
  exact lines_of_set hproper hl hb hne hend'

end OneLine

/-! ## When an edit does what is expected -/

theorem renamedAll_self {line name : List Char} : RenamedAll name name line line := by
  classical
  let S := (List.range (line.length + 1)).filter fun i =>
    decide (WholeIdentifier line name i ∧ Unquoted line i name.length)
  have hmem : ∀ i, i ∈ S ↔ WholeIdentifier line name i ∧ Unquoted line i name.length := by
    intro i
    rw [List.mem_filter, List.mem_range, decide_eq_true_eq]
    refine ⟨And.right, fun h => ⟨?_, h⟩⟩
    have := add_length_le_of_occurs h.1.1.ne_nil h.1.2.1
    omega
  have hpair : S.Pairwise fun s t => s + name.length ≤ t := by
    refine (List.pairwise_lt_range.filter _).imp_of_mem fun {s t} hs ht hlt => ?_
    obtain ⟨hs, -⟩ := (hmem s).mp hs
    obtain ⟨ht, -⟩ := (hmem t).mp ht
    exact apart_of_bounded hs.1 hs.2.1 ht.2.1 (.inl hs.2.2) hlt
  refine ⟨S, hpair, hmem, ?_⟩
  have hfollow : Follow line name 0 S :=
    ⟨fun s _ => Nat.zero_le s, fun s hs => ((hmem s).mp hs).1.2.1, hpair⟩
  cases hS : S with
  | nil => rfl
  | cons s S' =>
      have hs := (hmem s).mp (hS ▸ List.mem_cons_self)
      rw [← hS]
      exact (substituteFrom_self (hfollow.apart hs.1.1.ne_nil) hfollow.allAt).symm

theorem editFaithful_of_eq {content : List Char} {e : Edit} (h : e.old = e.new) :
    EditFaithful content e := by
  intro index line htarget hline
  rcases applyEdit_cases htarget hline with ⟨hno, heq⟩ | ⟨hold, hspans, heq⟩
  · rw [heq]
    exact fun i hw => hno i (candidate_of_whole hw)
  · have hfollow := identifierSpans_follow line e.old
    have hself : substitute e.old.length e.new (identifierSpans line e.old) line = line := by
      rw [← h]
      exact substituteFrom_self (hfollow.apart hold) hfollow.allAt
    have hset : (Difflib.splitlines content).set index line = Difflib.splitlines content := by
      obtain ⟨hlt, hget⟩ := List.getElem?_eq_some_iff.mp hline
      rw [← hget, List.set_getElem_self]
    rw [heq, hself, hset, flatten_splitlines]
    exact ⟨rfl, fun _ _ => rfl, line, hline, h ▸ renamedAll_self⟩

theorem editFaithful_of_safe {content : List Char} {e : Edit}
    (hvalid : isValidIdentifier e.new = true) (h : EditSafe content e) :
    EditFaithful content e := by
  rcases h with h | h
  · exact editFaithful_of_eq h
  intro index line htarget hline
  have hsafe := h index line htarget hline
  rcases applyEdit_cases htarget hline with ⟨hno, heq⟩ | ⟨hold, hspans, heq⟩
  · rw [heq]
    exact fun i hw => hno i (candidate_of_whole hw)
  obtain ⟨i, hi⟩ := not_forall_not.mp ((identifierSpans_eq_nil_iff hold).not.mp hspans)
  have hident := (hsafe i hi).1
  have hfinds := identifierSpans_finds line hold hident.plain
  have hafter := splitlines_after hline hident hvalid hspans
    (fun hnl s hs => (hsafe s (hfinds.candidate s hs).2).2.2 hnl) rfl
  rw [heq]
  simp only [hafter]
  obtain ⟨hlt, hget⟩ := List.getElem?_eq_some_iff.mp hline
  refine ⟨List.length_set, fun k hk => List.getElem?_set_ne (Ne.symm hk),
    _, List.getElem?_set_self hlt, identifierSpans line e.old, hfinds.pairwise, fun j => ?_, rfl⟩
  rw [whole_iff hident]
  constructor
  · intro hj
    have hc := (hfinds.candidate j hj).2
    exact ⟨hc, (hsafe j hc).2.1⟩
  · intro hj
    exact whole_mem_spans ((whole_iff hident).mpr hj)

/-- With another name in the places found, they were the whole unquoted occurrences. -/
theorem spans_of_renamedAll {old new line : List Char} (hne : old ≠ new) (hold : old ≠ [])
    (h : RenamedAll old new line (substitute old.length new (identifierSpans line old) line)) :
    ∀ i ∈ identifierSpans line old, WholeIdentifier line old i ∧ Unquoted line i old.length := by
  obtain ⟨S, hpair, hmem, heq⟩ := h
  have hfollow := identifierSpans_follow line old
  have hpos := List.length_pos_iff.mpr hold
  have hlt : ∀ {T : List Nat}, T.Pairwise (fun s t => s + old.length ≤ t) → T.Pairwise (· < ·) :=
    fun hT => hT.imp fun hst => by omega
  have hsub : S.Sublist (identifierSpans line old) := by
    have hsubset : S ⊆ identifierSpans line old := fun s hs => whole_mem_spans ((hmem s).mp hs)
    have hnodup : S.Nodup := (hlt hpair).imp Nat.ne_of_lt
    exact List.sublist_of_subperm_of_pairwise (List.subperm_of_subset hnodup hsubset) (hlt hpair)
      (hlt hfollow.pairwise)
  have hS := eq_of_substituteFrom_eq hne (hfollow.apart hold) hfollow.allAt hsub heq.symm
  intro i hi
  exact (hmem i).mp (hS ▸ hi)

theorem flatten_set_inj {α : Type} {ls : List (List α)} {i : Nat} {a b : List α}
    (hlt : i < ls.length) (h : (ls.set i a).flatten = (ls.set i b).flatten) : a = b := by
  rw [List.set_eq_take_append_cons_drop, List.set_eq_take_append_cons_drop, if_pos hlt,
    if_pos hlt, List.flatten_append, List.flatten_append, List.flatten_cons, List.flatten_cons] at h
  exact List.append_cancel_right (List.append_cancel_left h)

theorem editSafe_of_faithful {content : List Char} {e : Edit}
    (hvalid : isValidIdentifier e.new = true) (h : EditFaithful content e) :
    EditSafe content e := by
  by_cases hsame : e.old = e.new
  · exact .inl hsame
  refine .inr fun index line htarget hline i hi => ?_
  have hfaithful := h index line htarget hline
  rcases applyEdit_cases htarget hline with ⟨hno, -⟩ | ⟨hold, hspans, heq⟩
  · exact absurd hi (hno i)
  rw [heq] at hfaithful
  obtain ⟨hlen, hothers, line', hline', hrenamed⟩ := hfaithful
  obtain ⟨hlt, hget⟩ := List.getElem?_eq_some_iff.mp hline
  -- the other lines stay, so the new line is the one that was written
  have hset : Difflib.splitlines ((Difflib.splitlines content).set index
      (substitute e.old.length e.new (identifierSpans line e.old) line)).flatten =
        (Difflib.splitlines content).set index line' := by
    refine List.ext_getElem? fun k => ?_
    by_cases hk : k = index
    · rw [hk, hline', List.getElem?_set_self hlt]
    · rw [hothers k hk, List.getElem?_set_ne (Ne.symm hk)]
  have hline'eq : substitute e.old.length e.new (identifierSpans line e.old) line = line' := by
    have hflat := congrArg List.flatten hset
    rw [flatten_splitlines] at hflat
    exact flatten_set_inj hlt hflat
  rw [← hline'eq] at hrenamed
  have hwhole := spans_of_renamedAll hsame hold hrenamed
  obtain ⟨s, hs⟩ := List.exists_mem_of_ne_nil _ hspans
  have hident := (hwhole s hs).1.1
  have hmem := bounded_of_spans hident (fun s hs => (hwhole s hs).1.2.2) hi
  refine ⟨hident, (hwhole i hmem).1.2.2, fun hnl => ?_⟩
  -- behind a newline in the middle of the line there would be another line
  have hfollow := identifierSpans_follow line e.old
  have hle := add_length_le_of_occurs hold hi.occurs
  by_contra hshort
  obtain ⟨A, S', -, hat⟩ := substituteFrom_at e.new hmem (hfollow.apart hold)
  rcases isValidIdentifier_cases hvalid with hnew | ⟨body, -, hbody⟩
  · have := hnew.noBreak.mem hnl
    rw [isLineBreak_nl] at this
    cases this
  · have hmem' : line' ∈ Difflib.splitlines ((Difflib.splitlines content).set index
        (substitute e.old.length e.new (identifierSpans line e.old) line)).flatten :=
      List.mem_of_getElem? hline'
    obtain ⟨l, hl, hltext⟩ := List.mem_map.mp hmem'
    have htext : l.text = (A ++ body) ++ '\n' ::
        substituteFrom e.old.length e.new (i + e.old.length) S'
          (line.drop (i - 0 + e.old.length)) := by
      rw [hltext, ← hline'eq, substitute, hat, hbody]
      simp
    refine substituteFrom_ne_nil ?_ ?_ (newline_last (proper_breakLines [] _ (by rfl)) hl htext)
    · rw [hbody]
      simp
    · intro hnil
      have := congrArg List.length hnil
      rw [List.length_drop, List.length_nil] at this
      omega

/-- The edit of a rename to an accepted name does what is expected exactly if it is safe;
the lines it works on make up the content. -/
theorem applyEdit_faithful_iff (content : List Char) (e : Edit)
    (hvalid : isValidIdentifier e.new = true) :
    EditFaithful content e ∧ (Difflib.splitlines content).flatten = content ↔
      EditSafe content e := by
  rw [and_iff_left (flatten_splitlines content)]
  exact ⟨editSafe_of_faithful hvalid, editFaithful_of_safe hvalid⟩

/-- The line `x=foo`, renamed. -/
theorem applyEdit_faithful_foo :
    EditFaithful ['x', '=', 'f', 'o', 'o', '\n']
      (Edit.mk "a.py" (some 1) ['f', 'o', 'o'] ['y'] .null) ∧
      (Difflib.splitlines ['x', '=', 'f', 'o', 'o', '\n']).flatten =
        ['x', '=', 'f', 'o', 'o', '\n'] := by
  refine (applyEdit_faithful_iff _ _ (by decide +kernel)).mpr
    (.inr fun index line htarget hline => ?_)
  have hindex : index = 0 := by
    have : (1 : Int) = index + 1 := Option.some.inj htarget
    omega
  have hget : (Difflib.splitlines ['x', '=', 'f', 'o', 'o', '\n'])[0]? =
      some ['x', '=', 'f', 'o', 'o', '\n'] := by decide +kernel
  rw [hindex, hget] at hline
  cases hline
  intro i hi
  have hle : i + 3 ≤ 6 := lt_length_of_candidate hi
  have hocc := List.isPrefixOf_iff_prefix.mpr hi.occurs
  obtain rfl : i = 2 := by
    rcases i with _ | _ | _ | _ | i
    · cases hocc
    · cases hocc
    · rfl
    · cases hocc
    · omega
  exact ⟨⟨by decide +kernel, by decide +kernel, by decide +kernel⟩, by decide +kernel, by decide⟩

/-- An accepted name may end in a newline, which splits the line; and the `foo` of `éfoo`
is renamed, since `é` is no identifier character of the scan. -/
theorem applyEdit_unfaithful :
    (isValidIdentifier ['x', '\n'] = true ∧ ¬ EditFaithful ['f', 'o', 'o', '(', ')', '\n']
        (Edit.mk "a.py" (some 1) ['f', 'o', 'o'] ['x', '\n'] .null)) ∧
      (isValidIdentifier ['x'] = true ∧ ¬ EditFaithful ['é', 'f', 'o', 'o', '\n']
        (Edit.mk "a.py" (some 1) ['f', 'o', 'o'] ['x'] .null)) := by
  have hx : isValidIdentifier ['x', '\n'] = true := by decide +kernel
  have hx' : isValidIdentifier ['x'] = true := by decide +kernel
  refine ⟨⟨hx, fun h => ?_⟩, hx', fun h => ?_⟩
  · have hget : (Difflib.splitlines ['f', 'o', 'o', '(', ')', '\n'])[0]? =
        some ['f', 'o', 'o', '(', ')', '\n'] := by decide +kernel
    have hc : Candidate ['f', 'o', 'o', '(', ')', '\n'] ['f', 'o', 'o'] 0 :=
      ⟨by decide, ⟨_, rfl⟩, by decide +kernel, by decide +kernel, by decide +kernel⟩
    rcases editSafe_of_faithful hx h with hsame | hsafe
    · exact absurd hsame (by decide)
    · exact absurd ((hsafe 0 _ rfl hget 0 hc).2.2 (by decide)) (by decide)
  · have hget : (Difflib.splitlines ['é', 'f', 'o', 'o', '\n'])[0]? =
        some ['é', 'f', 'o', 'o', '\n'] := by decide +kernel
    have hc : Candidate ['é', 'f', 'o', 'o', '\n'] ['f', 'o', 'o'] 1 :=
      ⟨by decide, ⟨_, rfl⟩, by decide +kernel, by decide +kernel, by decide +kernel⟩
    rcases editSafe_of_faithful hx' h with hsame | hsafe
    · exact absurd hsame (by decide)
    · exact absurd (hsafe 0 _ rfl hget 1 hc).2.1 (by decide +kernel)

end Dagayn
