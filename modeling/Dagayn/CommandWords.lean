import Dagayn.Text

/-!
# The words of a command line

`shlex_split` reads a command line character by character. `Splits` says what its words are: pieces
that stand for characters of their own, escaped or quoted, with blanks between the words. The lexer
finds just these words (`splitCommand_spec`), and `Unfinished` are the texts that it gives up on.
-/

namespace Dagayn

namespace CommandLine

/-! ## The lexer -/

inductive Lex where
  | space
  | word
  | quote (quote : Char)
  | escape
  deriving DecidableEq

def isSpace (ch : Char) : Bool := ch = ' ' || ch = '\t' || ch = '\r' || ch = '\n'

/-- The variables of `shlex_split`. -/
structure Lexer where
  tokens : List (List Char)
  token : List Char
  quoted : Bool
  state : Lex
  escapedFrom : Lex

def Lexer.start : Lexer := ⟨[], [], false, .space, .word⟩

/-- One round of the loop of `shlex_split`. -/
def Lexer.step (l : Lexer) (ch : Char) : Lexer :=
  match l.state with
  | .space =>
      if isSpace ch then l
      else if ch = '\\' then { l with escapedFrom := .word, state := .escape }
      else if ch = '"' ∨ ch = '\'' then { l with state := .quote ch }
      else { l with token := l.token ++ [ch], state := .word }
  | .quote quote =>
      if ch = quote then { l with quoted := true, state := .word }
      else if ch = '\\' ∧ quote = '"' then
        { l with quoted := true, escapedFrom := l.state, state := .escape }
      else { l with quoted := true, token := l.token ++ [ch] }
  | .escape =>
      match l.escapedFrom with
      | .quote quote =>
          let token := if ch ≠ '\\' ∧ ch ≠ quote then l.token ++ ['\\'] else l.token
          { l with token := token ++ [ch], state := l.escapedFrom }
      | _ => { l with token := l.token ++ [ch], state := l.escapedFrom }
  | .word =>
      if isSpace ch then
        if l.token ≠ [] ∨ l.quoted then
          { l with tokens := l.tokens ++ [l.token], token := [], quoted := false, state := .space }
        else { l with state := .space }
      else if ch = '"' ∨ ch = '\'' then { l with state := .quote ch }
      else if ch = '\\' then { l with escapedFrom := .word, state := .escape }
      else { l with token := l.token ++ [ch] }

/-- The end of `shlex_split`. -/
def Lexer.finish (l : Lexer) : Option (List (List Char)) :=
  match l.state with
  | .quote _ | .escape => none
  | .word => if l.token ≠ [] ∨ l.quoted then some (l.tokens ++ [l.token]) else some l.tokens
  | .space => some l.tokens

def shlexSplit (text : List Char) : Option (List (List Char)) :=
  (text.foldl Lexer.step .start).finish

def splitWhitespace (text : List Char) : List (List Char) :=
  (text.splitOnP isWhitespace).filter (· ≠ [])

def splitCommand (text : List Char) : List (List Char) :=
  (shlexSplit text).getD (splitWhitespace text)

/-! ## Words -/

/-- A character between double quotes, alone or behind a backslash. -/
inductive QuotedChar where
  | plain (c : Char)
  | escaped (c : Char)

def QuotedChar.text : QuotedChar → List Char
  | .plain c => [c]
  | .escaped c => ['\\', c]

/-- Between double quotes a backslash goes only in front of another one or a quote. -/
def QuotedChar.value : QuotedChar → List Char
  | .plain c => [c]
  | .escaped c => if c = '\\' ∨ c = '"' then [c] else ['\\', c]

def QuotedChar.Ok : QuotedChar → Prop
  | .plain c => c ≠ '"' ∧ c ≠ '\\'
  | .escaped _ => True

/-- A part of a word. -/
inductive Piece where
  | bare (c : Char)
  | escaped (c : Char)
  | single (body : List Char)
  | double (body : List QuotedChar)

def Piece.text : Piece → List Char
  | .bare c => [c]
  | .escaped c => ['\\', c]
  | .single body => '\'' :: (body ++ ['\''])
  | .double body => '"' :: (body.flatMap QuotedChar.text ++ ['"'])

def Piece.value : Piece → List Char
  | .bare c => [c]
  | .escaped c => [c]
  | .single body => body
  | .double body => body.flatMap QuotedChar.value

def Piece.Ok : Piece → Prop
  | .bare c => isSpace c = false ∧ c ≠ '"' ∧ c ≠ '\'' ∧ c ≠ '\\'
  | .escaped _ => True
  | .single body => '\'' ∉ body
  | .double body => ∀ u ∈ body, u.Ok

def Piece.isQuoted : Piece → Bool
  | .bare _ | .escaped _ => false
  | .single _ | .double _ => true

def wordText (word : List Piece) : List Char := word.flatMap Piece.text

def wordValue (word : List Piece) : List Char := word.flatMap Piece.value

/-- Words with blanks behind each of them, and perhaps in front. -/
inductive Ready : List Char → List (List Char) → Prop
  | nil : Ready [] []
  | blank {text : List Char} {words : List (List Char)} {c : Char} (h : Ready text words)
      (hc : isSpace c = true) : Ready (text ++ [c]) words
  | word {text : List Char} {words : List (List Char)} {word : List Piece} {c : Char}
      (h : Ready text words) (hne : word ≠ []) (hok : ∀ p ∈ word, p.Ok) (hc : isSpace c = true) :
      Ready (text ++ (wordText word ++ [c])) (words ++ [wordValue word])

/-- The words of a text. -/
inductive Splits : List Char → List (List Char) → Prop
  | ready {text : List Char} {words : List (List Char)} (h : Ready text words) : Splits text words
  | last {text : List Char} {words : List (List Char)} {word : List Piece} (h : Ready text words)
      (hne : word ≠ []) (hok : ∀ p ∈ word, p.Ok) :
      Splits (text ++ wordText word) (words ++ [wordValue word])

/-- What a quote or a backslash leaves open. -/
inductive Open : List Char → Prop
  | single {body : List Char} (h : '\'' ∉ body) : Open ('\'' :: body)
  | double {body : List QuotedChar} (h : ∀ u ∈ body, u.Ok) :
      Open ('"' :: body.flatMap QuotedChar.text)
  | doubleEscape {body : List QuotedChar} (h : ∀ u ∈ body, u.Ok) :
      Open ('"' :: (body.flatMap QuotedChar.text ++ ['\\']))
  | escape : Open ['\\']

/-- A quote is not closed, or a backslash stands at the end. -/
def Unfinished (text : List Char) : Prop :=
  ∃ front words word tail, Ready front words ∧ (∀ p ∈ word, p.Ok) ∧ Open tail ∧
    text = front ++ (wordText word ++ tail)

/-! ## The lexer finds the words -/

theorem run_single {body : List Char} (h : '\'' ∉ body) (tokens : List (List Char))
    (token : List Char) (quoted : Bool) (e : Lex) : ∃ quoted',
      body.foldl Lexer.step ⟨tokens, token, quoted, .quote '\'', e⟩ =
        ⟨tokens, token ++ body, quoted', .quote '\'', e⟩ := by
  induction body generalizing token quoted with
  | nil => exact ⟨quoted, by rw [List.append_nil]; rfl⟩
  | cons c body ih =>
      rw [List.mem_cons, not_or] at h
      have hstep : Lexer.step ⟨tokens, token, quoted, .quote '\'', e⟩ c =
          ⟨tokens, token ++ [c], true, .quote '\'', e⟩ := by
        rw [Lexer.step]
        dsimp only
        rw [if_neg (Ne.symm h.1), if_neg fun hc => absurd hc.2 (by decide)]
      obtain ⟨quoted', hrun⟩ := ih h.2 (token ++ [c]) true
      exact ⟨quoted', by rw [List.foldl_cons, hstep, hrun, List.append_assoc]; rfl⟩

theorem run_quotedChar {u : QuotedChar} (h : u.Ok) (tokens : List (List Char))
    (token : List Char) (quoted : Bool) (e : Lex) : ∃ e',
      u.text.foldl Lexer.step ⟨tokens, token, quoted, .quote '"', e⟩ =
        ⟨tokens, token ++ u.value, true, .quote '"', e'⟩ := by
  cases u with
  | plain c =>
      refine ⟨e, ?_⟩
      change Lexer.step ⟨tokens, token, quoted, .quote '"', e⟩ c = _
      rw [Lexer.step]
      dsimp only
      rw [if_neg h.1, if_neg fun hc => h.2 hc.1]
      rfl
  | escaped c =>
      refine ⟨.quote '"', ?_⟩
      change Lexer.step ⟨tokens, token, true, .escape, .quote '"'⟩ c = _
      rw [Lexer.step, QuotedChar.value]
      dsimp only
      by_cases hc : c = '\\' ∨ c = '"'
      · rw [if_pos hc, if_neg fun hne => hc.elim hne.1 hne.2]
      · rw [if_neg hc, if_pos (not_or.mp hc), List.append_assoc]
        rfl

theorem run_double {body : List QuotedChar} (h : ∀ u ∈ body, u.Ok) (tokens : List (List Char))
    (token : List Char) (quoted : Bool) (e : Lex) : ∃ quoted' e',
      (body.flatMap QuotedChar.text).foldl Lexer.step ⟨tokens, token, quoted, .quote '"', e⟩ =
        ⟨tokens, token ++ body.flatMap QuotedChar.value, quoted', .quote '"', e'⟩ := by
  induction body generalizing token quoted e with
  | nil => exact ⟨quoted, e, by rw [List.flatMap_nil, List.flatMap_nil, List.append_nil]; rfl⟩
  | cons u body ih =>
      obtain ⟨hu, hbody⟩ := List.forall_mem_cons.mp h
      obtain ⟨e', hrun⟩ := run_quotedChar hu tokens token quoted e
      obtain ⟨quoted'', e'', hrest⟩ := ih hbody (token ++ u.value) true e'
      refine ⟨quoted'', e'', ?_⟩
      rw [List.flatMap_cons, List.foldl_append, hrun, hrest, List.flatMap_cons, List.append_assoc]

def Lex.Between (s : Lex) : Prop := s = .space ∨ s = .word

theorem step_quote {s : Lex} (hs : s.Between) {quote : Char} (h : quote = '"' ∨ quote = '\'')
    (tokens : List (List Char)) (token : List Char) (quoted : Bool) (e : Lex) :
    Lexer.step ⟨tokens, token, quoted, s, e⟩ quote =
      ⟨tokens, token, quoted, .quote quote, e⟩ := by
  rcases hs with rfl | rfl <;> rcases h with rfl | rfl <;> rfl

theorem step_backslash {s : Lex} (hs : s.Between) (tokens : List (List Char))
    (token : List Char) (quoted : Bool) (e : Lex) :
    Lexer.step ⟨tokens, token, quoted, s, e⟩ '\\' =
      ⟨tokens, token, quoted, .escape, .word⟩ := by
  rcases hs with rfl | rfl <;> rfl

theorem step_bare {s : Lex} (hs : s.Between) {c : Char} (h : (Piece.bare c).Ok)
    (tokens : List (List Char)) (token : List Char) (quoted : Bool) (e : Lex) :
    Lexer.step ⟨tokens, token, quoted, s, e⟩ c = ⟨tokens, token ++ [c], quoted, .word, e⟩ := by
  obtain ⟨hspace, hdouble, hsingle, hback⟩ := h
  have hquote : ¬(c = '"' ∨ c = '\'') := not_or.mpr ⟨hdouble, hsingle⟩
  rcases hs with rfl | rfl <;> rw [Lexer.step] <;> dsimp only
  · rw [hspace, if_neg (by decide), if_neg hback, if_neg hquote]
  · rw [hspace, if_neg (by decide), if_neg hquote, if_neg hback]

theorem run_piece {s : Lex} (hs : s.Between) {p : Piece} (h : p.Ok) (tokens : List (List Char))
    (token : List Char) (quoted : Bool) (e : Lex) : ∃ e',
      p.text.foldl Lexer.step ⟨tokens, token, quoted, s, e⟩ =
        ⟨tokens, token ++ p.value, quoted || p.isQuoted, .word, e'⟩ := by
  cases p with
  | bare c =>
      refine ⟨e, ?_⟩
      rw [Piece.text, List.foldl_cons, List.foldl_nil, step_bare hs h, Piece.isQuoted,
        Bool.or_false]
      rfl
  | escaped c =>
      refine ⟨.word, ?_⟩
      rw [Piece.text, List.foldl_cons, step_backslash hs, Piece.isQuoted, Bool.or_false]
      rfl
  | single body =>
      obtain ⟨quoted', hrun⟩ := run_single h tokens token quoted e
      refine ⟨e, ?_⟩
      rw [Piece.text, List.foldl_cons, step_quote hs (.inr rfl), List.foldl_append, hrun,
        Piece.isQuoted, Bool.or_true]
      rfl
  | double body =>
      obtain ⟨quoted', e', hrun⟩ := run_double h tokens token quoted e
      refine ⟨e', ?_⟩
      rw [Piece.text, List.foldl_cons, step_quote hs (.inl rfl), List.foldl_append, hrun,
        Piece.isQuoted, Bool.or_true]
      rfl

theorem run_word {s : Lex} (hs : s.Between) {word : List Piece} (h : ∀ p ∈ word, p.Ok)
    (tokens : List (List Char)) (token : List Char) (quoted : Bool) (e : Lex) : ∃ s' e',
      (wordText word).foldl Lexer.step ⟨tokens, token, quoted, s, e⟩ =
        ⟨tokens, token ++ wordValue word, quoted || word.any Piece.isQuoted, s', e'⟩ ∧
      s'.Between ∧ (word ≠ [] → s' = .word) := by
  induction word generalizing token quoted s e with
  | nil =>
      refine ⟨s, e, ?_, hs, fun hne => absurd rfl hne⟩
      rw [wordText, wordValue, List.flatMap_nil, List.flatMap_nil, List.append_nil, List.any_nil,
        Bool.or_false]
      rfl
  | cons p word ih =>
      obtain ⟨hp, hword⟩ := List.forall_mem_cons.mp h
      obtain ⟨e', hrun⟩ := run_piece hs hp tokens token quoted e
      obtain ⟨s'', e'', hrest, hbetween, hstate⟩ :=
        ih (.inr rfl) hword (token ++ p.value) (quoted || p.isQuoted) e'
      refine ⟨s'', e'', ?_, hbetween, fun _ => ?_⟩
      · rw [wordText, List.flatMap_cons, List.foldl_append, hrun]
        refine hrest.trans ?_
        rw [wordValue, wordValue, List.flatMap_cons, List.append_assoc, List.any_cons,
          Bool.or_assoc]
      · cases word with
        | nil =>
            have hsame := congrArg Lexer.state hrest
            exact hsame.symm
        | cons q word => exact hstate (List.cons_ne_nil q word)

theorem visible_word {word : List Piece} (hne : word ≠ []) :
    wordValue word ≠ [] ∨ word.any Piece.isQuoted = true := by
  obtain ⟨p, rest, rfl⟩ := List.exists_cons_of_ne_nil hne
  cases p with
  | bare c => exact .inl (List.cons_ne_nil c _)
  | escaped c => exact .inl (List.cons_ne_nil c _)
  | single body => exact .inr rfl
  | double body => exact .inr rfl

theorem run_ready {text : List Char} {words : List (List Char)} (h : Ready text words) :
    ∃ e, text.foldl Lexer.step .start = ⟨words, [], false, .space, e⟩ := by
  induction h with
  | nil => exact ⟨.word, rfl⟩
  | @blank text words c _ hc ih =>
      obtain ⟨e, hrun⟩ := ih
      refine ⟨e, ?_⟩
      rw [List.foldl_append, hrun, List.foldl_cons, List.foldl_nil, Lexer.step]
      dsimp only
      rw [if_pos hc]
  | @word text words word c _ hne hok hc ih =>
      obtain ⟨e, hrun⟩ := ih
      obtain ⟨s', e', hword, -, hstate⟩ := run_word (.inl rfl) hok words [] false e
      obtain rfl := hstate hne
      have hvisible := visible_word hne
      refine ⟨e', ?_⟩
      rw [List.foldl_append, hrun, List.foldl_append, hword, List.foldl_cons, List.foldl_nil,
        Lexer.step, List.nil_append, Bool.false_or]
      dsimp only
      rw [if_pos hc, if_pos hvisible]

theorem shlexSplit_of_splits {text : List Char} {words : List (List Char)}
    (h : Splits text words) : shlexSplit text = some words := by
  cases h with
  | ready h =>
      obtain ⟨e, hrun⟩ := run_ready h
      rw [shlexSplit, hrun]
      rfl
  | @last text words word h hne hok =>
      obtain ⟨e, hrun⟩ := run_ready h
      obtain ⟨s', e', hword, -, hstate⟩ := run_word (.inl rfl) hok words [] false e
      obtain rfl := hstate hne
      rw [shlexSplit, List.foldl_append, hrun, hword, List.nil_append, Bool.false_or]
      exact if_pos (visible_word hne)

theorem shlexSplit_of_unfinished {text : List Char} (h : Unfinished text) :
    shlexSplit text = none := by
  obtain ⟨front, words, word, tail, hready, hok, hopen, rfl⟩ := h
  obtain ⟨e, hrun⟩ := run_ready hready
  obtain ⟨s', e', hword, hs, -⟩ := run_word (.inl rfl) hok words [] false e
  rw [shlexSplit, List.foldl_append, hrun, List.foldl_append, hword]
  cases hopen with
  | single hbody =>
      rw [List.foldl_cons, step_quote hs (.inr rfl)]
      obtain ⟨quoted', hrun'⟩ := run_single hbody words _ _ e'
      rw [hrun']
      rfl
  | double hbody =>
      rw [List.foldl_cons, step_quote hs (.inl rfl)]
      obtain ⟨quoted', e'', hrun'⟩ := run_double hbody words _ _ e'
      rw [hrun']
      rfl
  | doubleEscape hbody =>
      rw [List.foldl_cons, step_quote hs (.inl rfl), List.foldl_append]
      obtain ⟨quoted', e'', hrun'⟩ := run_double hbody words _ _ e'
      rw [hrun']
      rfl
  | escape =>
      rw [List.foldl_cons, step_backslash hs]
      rfl

/-! ## Every text -/

theorem forall_mem_concat {α : Type} {p : α → Prop} {l : List α} {a : α} (h : ∀ b ∈ l, p b)
    (ha : p a) : ∀ b ∈ l ++ [a], p b :=
  List.forall_mem_append.mpr ⟨h, List.forall_mem_singleton.mpr ha⟩

theorem splits_concat {front : List Char} {words : List (List Char)} {word : List Piece}
    {p : Piece} (hready : Ready front words) (hword : ∀ p ∈ word, p.Ok) (hp : p.Ok) :
    ∃ words, Splits (front ++ (wordText word ++ p.text)) words := by
  have hne : word ++ [p] ≠ [] := List.append_ne_nil_of_right_ne_nil word (List.cons_ne_nil p [])
  have hlast := Splits.last hready hne (forall_mem_concat hword hp)
  rw [wordText, List.flatMap_append, List.flatMap_singleton] at hlast
  exact ⟨_, hlast⟩

theorem read_bare {front : List Char} {words : List (List Char)} {word : List Piece}
    (hready : Ready front words) (hword : ∀ p ∈ word, p.Ok) (c : Char) :
    (∃ words, Splits (front ++ (wordText word ++ [c])) words) ∨
      Unfinished (front ++ (wordText word ++ [c])) := by
  by_cases hspace : isSpace c = true
  · refine .inl ?_
    cases word with
    | nil => exact ⟨words, .ready (hready.blank hspace)⟩
    | cons p word => exact ⟨_, .ready (hready.word (List.cons_ne_nil p word) hword hspace)⟩
  by_cases hdouble : c = '"'
  · subst hdouble
    exact .inr ⟨front, words, word, _, hready, hword, @Open.double [] nofun, rfl⟩
  by_cases hsingle : c = '\''
  · subst hsingle
    exact .inr ⟨front, words, word, _, hready, hword, .single List.not_mem_nil, rfl⟩
  by_cases hback : c = '\\'
  · subst hback
    exact .inr ⟨front, words, word, _, hready, hword, .escape, rfl⟩
  · exact .inl (splits_concat (p := .bare c) hready hword
      ⟨Bool.eq_false_iff.mpr hspace, hdouble, hsingle, hback⟩)

theorem read_open {front : List Char} {words : List (List Char)} {word : List Piece}
    {tail : List Char} (hready : Ready front words) (hword : ∀ p ∈ word, p.Ok)
    (hopen : Open tail) (c : Char) :
    (∃ words, Splits (front ++ (wordText word ++ (tail ++ [c]))) words) ∨
      Unfinished (front ++ (wordText word ++ (tail ++ [c]))) := by
  cases hopen with
  | @single body hbody =>
      by_cases hc : c = '\''
      · subst hc
        exact .inl (splits_concat (p := .single body) hready hword hbody)
      · have hnot : '\'' ∉ body ++ [c] := fun hmem =>
          (List.mem_append.mp hmem).elim hbody fun h => hc (List.mem_singleton.mp h).symm
        exact .inr ⟨front, words, word, _, hready, hword, .single hnot, rfl⟩
  | @double body hbody =>
      by_cases hc : c = '"'
      · subst hc
        exact .inl (splits_concat (p := .double body) hready hword hbody)
      by_cases hback : c = '\\'
      · subst hback
        exact .inr ⟨front, words, word, _, hready, hword, .doubleEscape hbody, rfl⟩
      · have hchar : QuotedChar.Ok (.plain c) := ⟨hc, hback⟩
        have hplain := Open.double (forall_mem_concat hbody hchar)
        rw [List.flatMap_append, List.flatMap_singleton] at hplain
        exact .inr ⟨front, words, word, _, hready, hword, hplain, rfl⟩
  | @doubleEscape body hbody =>
      have hchar : QuotedChar.Ok (.escaped c) := trivial
      have hescaped := Open.double (forall_mem_concat hbody hchar)
      rw [List.flatMap_append, List.flatMap_singleton] at hescaped
      refine .inr ⟨front, words, word, _, hready, hword, hescaped, ?_⟩
      rw [List.cons_append, List.append_assoc]
      rfl
  | escape => exact .inl (splits_concat (p := .escaped c) hready hword trivial)

theorem splits_or_unfinished (text : List Char) :
    (∃ words, Splits text words) ∨ Unfinished text := by
  induction text using List.reverseRecOn with
  | nil => exact .inl ⟨[], .ready .nil⟩
  | append_singleton text c ih =>
      rcases ih with ⟨_, hsplits⟩ | ⟨front, words, word, tail, hready, hword, hopen, rfl⟩
      · cases hsplits with
        | ready h =>
            have hread := @read_bare _ _ [] h nofun c
            rwa [wordText, List.flatMap_nil, List.nil_append] at hread
        | last h _ hok =>
            rw [List.append_assoc]
            exact read_bare h hok c
      · rw [List.append_assoc, List.append_assoc]
        exact read_open hready hword hopen c

/-! ## Quoted words -/

/-- The characters that `shlex.quote` leaves alone. -/
def isSafe (c : Char) : Bool :=
  c.isAlphanum || c ∈ ['_', '@', '%', '+', '=', ':', ',', '.', '/', '-']

/-- `shlex.quote`. -/
def quoteWord (word : List Char) : List Char :=
  if word = [] then ['\'', '\'']
  else if word.all isSafe then word
  else '\'' :: (word.flatMap (fun c =>
    if c = '\'' then ['\'', '"', '\'', '"', '\''] else [c]) ++ ['\''])

/-- Quoted words with blanks between them. -/
inductive Joins : List (List Char) → List Char → Prop
  | nil : Joins [] []
  | one (word : List Char) : Joins [word] (quoteWord word)
  | more {word word' : List Char} {words : List (List Char)} {sep text : List Char}
      (hne : sep ≠ []) (hsep : ∀ c ∈ sep, isSpace c = true) (h : Joins (word' :: words) text) :
      Joins (word :: word' :: words) (quoteWord word ++ (sep ++ text))

/-- Single quotes around what is between the single quotes of a word, and those in double ones. -/
def quotedPieces (body : List Char) : List Char → List Piece
  | [] => [.single body]
  | c :: rest =>
      if c = '\'' then .single body :: .double [.plain '\''] :: quotedPieces [] rest
      else quotedPieces (body ++ [c]) rest

theorem ok_quotedPieces {body : List Char} (h : '\'' ∉ body) (rest : List Char) :
    ∀ p ∈ quotedPieces body rest, p.Ok := by
  induction rest generalizing body with
  | nil => exact List.forall_mem_singleton.mpr h
  | cons c rest ih =>
      rw [quotedPieces]
      split
      · have hquote : Piece.Ok (.double [.plain '\'']) :=
          List.forall_mem_singleton.mpr ⟨by decide, by decide⟩
        exact List.forall_mem_cons.mpr ⟨h, List.forall_mem_cons.mpr
          ⟨hquote, ih List.not_mem_nil⟩⟩
      · rename_i hc
        refine ih fun hmem => ?_
        exact (List.mem_append.mp hmem).elim h fun hlast => hc (List.mem_singleton.mp hlast).symm

theorem value_quotedPieces (body rest : List Char) :
    wordValue (quotedPieces body rest) = body ++ rest := by
  induction rest generalizing body with
  | nil =>
      rw [List.append_nil]
      exact List.flatMap_singleton _ _
  | cons c rest ih =>
      rw [quotedPieces]
      split
      · rename_i hc
        have hrest := ih []
        rw [wordValue, List.nil_append] at hrest
        rw [wordValue, List.flatMap_cons, List.flatMap_cons, hrest, hc]
        rfl
      · rw [ih, List.append_assoc]
        rfl

theorem text_quotedPieces (body rest : List Char) :
    wordText (quotedPieces body rest) = '\'' :: (body ++ (rest.flatMap (fun c =>
      if c = '\'' then ['\'', '"', '\'', '"', '\''] else [c]) ++ ['\''])) := by
  induction rest generalizing body with
  | nil => exact List.flatMap_singleton _ _
  | cons c rest ih =>
      rw [quotedPieces, List.flatMap_cons]
      split
      · have hrest := ih []
        rw [wordText, List.nil_append] at hrest
        rw [wordText, List.flatMap_cons, List.flatMap_cons, hrest]
        simp [Piece.text, QuotedChar.text]
      · rw [ih]
        simp

theorem ok_of_isSafe {c : Char} (h : isSafe c = true) : (Piece.bare c).Ok := by
  refine ⟨Bool.eq_false_iff.mpr fun hspace => ?_, ?_, ?_, ?_⟩
  · simp only [isSpace, Bool.or_eq_true, decide_eq_true_eq] at hspace
    rcases hspace with ((rfl | rfl) | rfl) | rfl <;> exact absurd h (by decide)
  all_goals
    rintro rfl
    exact absurd h (by decide)

theorem pieces_quoteWord (word : List Char) : ∃ pieces : List Piece, pieces ≠ [] ∧
    (∀ p ∈ pieces, p.Ok) ∧ wordText pieces = quoteWord word ∧ wordValue pieces = word := by
  rw [quoteWord]
  split
  · rename_i hnil
    exact ⟨[.single []], List.cons_ne_nil _ _, List.forall_mem_singleton.mpr List.not_mem_nil,
      rfl, hnil.symm⟩
  · rename_i hne
    split
    · rename_i hsafe
      refine ⟨word.map .bare, by simpa using hne, fun p hp => ?_, ?_, ?_⟩
      · obtain ⟨c, hc, rfl⟩ := List.mem_map.mp hp
        exact ok_of_isSafe (List.all_eq_true.mp hsafe c hc)
      · rw [wordText, List.flatMap_map]
        exact List.flatMap_singleton' word
      · rw [wordValue, List.flatMap_map]
        exact List.flatMap_singleton' word
    · refine ⟨quotedPieces [] word, ?_, ok_quotedPieces List.not_mem_nil word,
        text_quotedPieces [] word, value_quotedPieces [] word⟩
      intro hnil
      have htext := text_quotedPieces [] word
      rw [hnil] at htext
      cases htext

theorem Ready.blanks {text : List Char} {words : List (List Char)} (h : Ready text words)
    {sep : List Char} (hsep : ∀ c ∈ sep, isSpace c = true) : Ready (text ++ sep) words := by
  induction sep generalizing text with
  | nil => rwa [List.append_nil]
  | cons c sep ih =>
      obtain ⟨hc, hsep⟩ := List.forall_mem_cons.mp hsep
      have hnext := ih (h.blank hc) hsep
      rwa [List.append_assoc] at hnext

theorem splits_joins {words : List (List Char)} {text : List Char} (h : Joins words text)
    {front : List Char} {before : List (List Char)} (hfront : Ready front before) :
    Splits (front ++ text) (before ++ words) := by
  induction h generalizing front before with
  | nil =>
      rw [List.append_nil, List.append_nil]
      exact .ready hfront
  | one word =>
      obtain ⟨pieces, hne, hok, htext, hvalue⟩ := pieces_quoteWord word
      rw [← htext]
      conv => rhs; rw [← hvalue]
      exact .last hfront hne hok
  | @more word word' words sep text hsep hblank _ ih =>
      obtain ⟨pieces, hne, hok, htext, hvalue⟩ := pieces_quoteWord word
      obtain ⟨c, sep, rfl⟩ := List.exists_cons_of_ne_nil hsep
      obtain ⟨hc, hblank⟩ := List.forall_mem_cons.mp hblank
      have hnext := ih ((hfront.word hne hok hc).blanks hblank)
      rw [htext, hvalue] at hnext
      simpa only [List.append_assoc, List.cons_append, List.nil_append] using hnext

/-- Quoted and joined words come back; a text has the words that shell quoting gives it; and only
a text with something left open is split at its white space. -/
theorem splitCommand_spec (text : List Char) :
    (∀ words, Joins words text → splitCommand text = words) ∧
      (∀ words, Splits text words → splitCommand text = words) ∧
      (¬ Unfinished text → ∃ words, Splits text words) ∧
      (Unfinished text → splitCommand text = splitWhitespace text) := by
  have hsplits : ∀ words, Splits text words → splitCommand text = words := fun words h => by
    rw [splitCommand, shlexSplit_of_splits h, Option.getD_some]
  refine ⟨fun words h => hsplits words (splits_joins h .nil), hsplits,
    (splits_or_unfinished text).resolve_right, fun h => ?_⟩
  rw [splitCommand, shlexSplit_of_unfinished h, Option.getD_none]

end CommandLine

end Dagayn
