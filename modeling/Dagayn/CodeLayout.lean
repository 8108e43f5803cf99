import Dagayn.BaseSymbols
import Dagayn.GraphReads
import Mathlib

/-!
# What normalised texts have in common

`normalize_code` looks for comment markers in the characters of a text, wherever they stand.
Where that finds the comments of the text, two texts normalise to one string exactly when their
code differs in white space and in commas in front of a closing bracket (`sameLayout_iff`). The
functions that a review leaves out have such code on both sides.
-/

namespace Dagayn

namespace NormalizeCode

/-! ## Layout -/

def closers : List Char := [')', ']', '\x7d']

/-- One text has a white space character, or a comma in front of a closing bracket, more. -/
inductive LayoutStep : List Char → List Char → Prop where
  | blank (front back : List Char) {c : Char} : isWhitespace c = true →
      LayoutStep (front ++ back) (front ++ c :: back)
  | comma (front back : List Char) {close : Char} : close ∈ closers →
      LayoutStep (front ++ close :: back) (front ++ ',' :: close :: back)

/-- Texts that differ in white space and in commas in front of a closing bracket. -/
def SameLayout : List Char → List Char → Prop := Relation.EqvGen LayoutStep

/-- What `normalize_code` does to a text without comments. -/
def compact (text : List Char) : List Char :=
  dropCommas '\x7d' (dropCommas ']' (dropCommas ')' (text.filter fun c => !isWhitespace c)))

variable {text front back rest : List Char} {c close : Char}

theorem dropCommas_cons (hc : c ≠ ',') :
    dropCommas close (c :: rest) = c :: dropCommas close rest := by
  rw [dropCommas, if_neg fun h => hc h.1]

theorem dropCommas_comma (hclose : close ≠ ',') :
    dropCommas close (front ++ ',' :: close :: back) =
      dropCommas close (front ++ close :: back) := by
  induction front with
  | nil =>
      have hhead : (dropCommas close (close :: back)).head? = some close := by
        rw [dropCommas_cons hclose]
        rfl
      rw [List.nil_append, List.nil_append, dropCommas, if_pos ⟨rfl, hhead⟩]
  | cons c front ih => rw [List.cons_append, List.cons_append, dropCommas, dropCommas, ih]

/-- What stands behind goes through on its own, where it does not start with the bracket. -/
theorem dropCommas_append (h : (dropCommas close back).head? ≠ some close) :
    dropCommas close (front ++ back) = dropCommas close front ++ dropCommas close back := by
  induction front with
  | nil => rfl
  | cons c front ih =>
      have hhead : (dropCommas close front ++ dropCommas close back).head? = some close ↔
          (dropCommas close front).head? = some close := by
        cases hfront : dropCommas close front with
        | nil => simpa using h
        | cons d front' => rfl
      rw [List.cons_append, dropCommas, dropCommas, ih]
      simp only [hhead]
      split <;> rfl

theorem dropCommas_other (hc : c ≠ ',') (hne : c ≠ close) :
    dropCommas close (front ++ c :: back) =
      dropCommas close front ++ c :: dropCommas close back := by
  have hback : dropCommas close (c :: back) = c :: dropCommas close back := dropCommas_cons hc
  rw [dropCommas_append, hback]
  rw [hback]
  exact fun h => hne (Option.some.inj h)

theorem dropCommas_comma_other (hclose : close ≠ ',') (hc : c ≠ ',') (hne : c ≠ close) :
    dropCommas close (front ++ ',' :: c :: back) =
      dropCommas close front ++ ',' :: c :: dropCommas close back := by
  have hback : dropCommas close (c :: back) = c :: dropCommas close back := dropCommas_cons hc
  have hcomma : dropCommas close (',' :: c :: back) = ',' :: c :: dropCommas close back := by
    rw [dropCommas, hback, if_neg]
    exact fun h => hne (Option.some.inj h.2)
  rw [dropCommas_append, hcomma]
  rw [hcomma]
  exact fun h => hclose (Option.some.inj h).symm

theorem passes_comma (front back : List Char) {passes : List Char}
    (hpasses : ∀ close ∈ passes, close ≠ ',')
    (hclose : close ∈ passes) :
    passes.foldl (fun text pass => dropCommas pass text) (front ++ ',' :: close :: back) =
      passes.foldl (fun text pass => dropCommas pass text) (front ++ close :: back) := by
  induction passes generalizing front back with
  | nil => cases hclose
  | cons pass passes ih =>
      obtain ⟨hpass, hrest⟩ := List.forall_mem_cons.mp hpasses
      rw [List.foldl_cons, List.foldl_cons]
      by_cases heq : close = pass
      · rw [← heq, dropCommas_comma (heq ▸ hpass)]
      · have hin : close ∈ passes := (List.mem_cons.mp hclose).resolve_left heq
        rw [dropCommas_comma_other hpass (hrest _ hin) heq, dropCommas_other (hrest _ hin) heq]
        exact ih _ _ hrest hin

theorem compact_step {a b : List Char} (h : LayoutStep a b) : compact a = compact b := by
  cases h with
  | blank front back hc => simp [compact, List.filter_append, hc]
  | @comma front back close hclose =>
      have hcomma : (!isWhitespace ',') = true := by decide
      have hwhite : ∀ c ∈ closers, (!isWhitespace c) = true := forall_mem_of_all (by decide)
      have hkeep : ∀ (c : Char) (rest : List Char), (!isWhitespace c) = true →
          (c :: rest).filter (fun c => !isWhitespace c) =
            c :: rest.filter fun c => !isWhitespace c := fun c rest hc =>
        List.filter_cons_of_pos hc
      have hclosers : ∀ c ∈ closers, c ≠ ',' := forall_mem_of_all (by decide)
      have hpasses := passes_comma (front.filter fun c => !isWhitespace c)
        (back.filter fun c => !isWhitespace c) hclosers hclose
      rw [compact, compact, List.filter_append, List.filter_append, hkeep _ _ hcomma,
        hkeep _ _ (hwhite _ hclose)]
      exact hpasses.symm

theorem SameLayout.cons {a b : List Char} (h : SameLayout a b) : SameLayout (c :: a) (c :: b) := by
  induction h with
  | rel a b hstep =>
      refine .rel _ _ ?_
      cases hstep with
      | blank front back hd => exact .blank (c :: front) back hd
      | comma front back hclose => exact .comma (c :: front) back hclose
  | refl a => exact .refl _
  | symm a b _ ih => exact ih.symm
  | trans a b d _ _ ihab ihbd => exact ihab.trans _ _ _ ihbd

theorem sameLayout_filter (text : List Char) :
    SameLayout (text.filter fun c => !isWhitespace c) text := by
  induction text with
  | nil => exact .refl _
  | cons c text ih =>
      by_cases hc : isWhitespace c = true
      · rw [List.filter_cons_of_neg (by simp [hc])]
        exact ih.trans _ _ _ (.rel _ _ (.blank [] _ hc))
      · rw [List.filter_cons_of_pos (by simp [hc])]
        exact ih.cons

theorem sameLayout_dropCommas (hclose : close ∈ closers) (text : List Char) :
    SameLayout (dropCommas close text) text := by
  induction text with
  | nil => exact .refl _
  | cons c text ih =>
      rw [dropCommas]
      split
      · rename_i h
        obtain ⟨rfl, hhead⟩ := h
        obtain ⟨rest, hrest⟩ := List.head?_eq_some_iff.mp hhead
        have hstep : LayoutStep (dropCommas close text) (',' :: dropCommas close text) := by
          rw [hrest]
          exact .comma [] rest hclose
        exact .trans _ _ _ (.rel _ _ hstep) ih.cons
      · exact ih.cons

theorem sameLayout_compact (text : List Char) : SameLayout (compact text) text := by
  have hround : ')' ∈ closers := by decide
  have hsquare : ']' ∈ closers := by decide
  have hcurly : '\x7d' ∈ closers := by decide
  refine .trans _ _ _ (sameLayout_dropCommas hcurly _) ?_
  refine .trans _ _ _ (sameLayout_dropCommas hsquare _) ?_
  exact .trans _ _ _ (sameLayout_dropCommas hround _) (sameLayout_filter text)

theorem compact_eq_iff {a b : List Char} : compact a = compact b ↔ SameLayout a b := by
  constructor
  · intro h
    have hb := sameLayout_compact b
    rw [← h] at hb
    exact .trans _ _ _ (.symm _ _ (sameLayout_compact a)) hb
  · intro h
    induction h with
    | rel a b hstep => exact compact_step hstep
    | refl a => rfl
    | symm a b _ ih => exact ih.symm
    | trans a b d _ _ ihab ihbd => exact ihab.trans ihbd

/-! ## Comments of a text -/

inductive Mode where
  | code
  | line
  | block
deriving DecidableEq

/-- What stands outside of comments, over the whole text and with its line breaks. -/
def scan (s : CommentSyntax) : Mode → List Char → List Char
  | _, [] => []
  | .line, c :: rest => if c = '\n' then c :: scan s .code rest else scan s .line rest
  | .block, '*' :: '/' :: rest => scan s .code rest
  | .block, _ :: rest => scan s .block rest
  | .code, c :: rest =>
      if s.lineComment.isPrefixOf (c :: rest) then scan s .line rest
      else
        match c, s.block, rest with
        | '/', true, '*' :: rest => scan s .block rest
        | c, _, rest => c :: scan s .code rest

def markerAt (s : CommentSyntax) (text : List Char) : Bool :=
  s.lineComment.isPrefixOf text || (s.block && ['/', '*'].isPrefixOf text)

/-- A line comment starts with something that is neither white space nor a block comment. -/
structure CommentSyntax.Apart (s : CommentSyntax) : Prop where
  nonempty : s.lineComment ≠ []
  white : ∀ c ∈ s.lineComment, isWhitespace c = false
  block : ∀ rest, s.lineComment.isPrefixOf ('/' :: '*' :: rest) = false

theorem apart_commentSyntax (language : String) : (commentSyntax language).Apart := by
  have hmarker : (commentSyntax language).lineComment ∈ [['#'], ['-', '-'], ['/', '/']] := by
    rw [commentSyntax]
    dsimp only
    split
    · simp
    · split <;> simp
  simp only [List.mem_cons, List.not_mem_nil, or_false] at hmarker
  rcases hmarker with h | h | h
  all_goals
    refine ⟨by simp [h], ?_, fun rest => by rw [h]; rfl⟩
    rw [h]
    exact forall_mem_of_all (by decide)

variable {s : CommentSyntax}

theorem scan_code_of_not_marker (h : markerAt s (c :: rest) = false) :
    scan s .code (c :: rest) = c :: scan s .code rest := by
  simp only [markerAt, Bool.or_eq_false_iff] at h
  rw [scan]
  · rw [if_neg (by simp [h.1])]
  · rintro rest' rfl hblock rfl
    simp [hblock] at h

theorem scan_code_of_line (h : s.lineComment.isPrefixOf (c :: rest) = true) :
    scan s .code (c :: rest) = scan s .line rest := by
  rw [scan.eq_def]
  simp only [h, if_true]

theorem scan_code_of_block (hblock : s.block = true)
    (h : s.lineComment.isPrefixOf ('/' :: '*' :: rest) = false) :
    scan s .code ('/' :: '*' :: rest) = scan s .block rest := by
  rw [scan, if_neg (by simp [h])]
  exact hblock

theorem scan_block_of_not_close (h : ¬(c = '*' ∧ rest.head? = some '/')) :
    scan s .block (c :: rest) = scan s .block rest := by
  rw [scan]
  rintro rest' rfl rfl
  exact h ⟨rfl, rfl⟩

theorem scan_line_append (h : '\n' ∉ text) : scan s .line (text ++ rest) = scan s .line rest := by
  induction text with
  | nil => rfl
  | cons c text ih =>
      obtain ⟨hc, htext⟩ := not_or.mp (List.mem_cons.not.mp h)
      rw [List.cons_append, scan, if_neg (Ne.symm hc)]
      exact ih htext

theorem isPrefixOf_append {marker tail : List Char}
    (hmarker : ∀ c ∈ marker, isWhitespace c = false)
    (htail : ∀ c ∈ tail.head?, isWhitespace c = true) :
    marker.isPrefixOf (text ++ tail) = marker.isPrefixOf text := by
  induction marker generalizing text with
  | nil => simp
  | cons a marker ih =>
      obtain ⟨ha, hrest⟩ := List.forall_mem_cons.mp hmarker
      cases text with
      | cons c text => rw [List.cons_append, List.isPrefixOf, List.isPrefixOf, ih hrest]
      | nil =>
          cases tail with
          | nil => rfl
          | cons c tail =>
              have hne : a ≠ c := by
                rintro rfl
                rw [htail a rfl] at ha
                cases ha
              simp [List.isPrefixOf, hne]

theorem markerAt_append (hs : s.Apart) (text : List Char) {tail : List Char}
    (htail : ∀ c ∈ tail.head?, isWhitespace c = true) :
    markerAt s (text ++ tail) = markerAt s text := by
  have hblock : ∀ c ∈ ['/', '*'], isWhitespace c = false := forall_mem_of_all (by decide)
  rw [markerAt, markerAt, isPrefixOf_append hs.white htail, isPrefixOf_append hblock htail]

theorem markerAt_of_white (hs : s.Apart) (hc : isWhitespace c = true) :
    markerAt s (c :: rest) = false := by
  have hhead : ∀ d ∈ (c :: rest).head?, isWhitespace d = true := by simpa using hc
  have hnil := markerAt_append hs [] hhead
  rw [List.nil_append] at hnil
  rw [hnil]
  cases hmarker : s.lineComment with
  | nil => exact absurd hmarker hs.nonempty
  | cons a marker => simp [markerAt, hmarker]

def modeOf (inBlock : Bool) : Mode := if inBlock then .block else .code

theorem scan_stripLine (hs : s.Apart) (inBlock : Bool) {line tail : List Char}
    (hline : '\n' ∉ line) (htail : ∀ c ∈ tail.head?, isWhitespace c = true) :
    ∃ m, (m = .block ↔ (stripLine s inBlock line).2 = true) ∧
      scan s (modeOf inBlock) (line ++ tail) =
        (stripLine s inBlock line).1 ++ scan s m tail := by
  fun_induction stripLine s inBlock line with
  | case1 inBlock =>
      refine ⟨modeOf inBlock, ?_, rfl⟩
      cases inBlock <;> simp [modeOf]
  | case2 rest ih => exact ih fun h => hline (by simp [h])
  | case3 c rest hopen ih =>
      obtain ⟨m, hm, hscan⟩ := ih fun h => hline (by simp [h])
      refine ⟨m, hm, ?_⟩
      rw [List.cons_append, ← hscan]
      refine scan_block_of_not_close fun h => ?_
      cases rest with
      | nil =>
          have hwhite := htail '/' h.2
          exact absurd hwhite (by decide)
      | cons d rest => exact hopen rest h.1 (congrArg (· :: rest) (Option.some.inj h.2))
  | case4 c rest hmarker =>
      refine ⟨.line, by simp, ?_⟩
      have hprefix : s.lineComment.isPrefixOf (c :: (rest ++ tail)) = true := by
        rw [← List.cons_append, isPrefixOf_append hs.white htail]
        exact hmarker
      have hrest : '\n' ∉ rest := fun h => hline (by simp [h])
      exact (scan_code_of_line hprefix).trans (scan_line_append hrest)
  | case5 rest hblock hmarker ih =>
      obtain ⟨m, hm, hscan⟩ := ih fun h => hline (by simp [h])
      refine ⟨m, hm, ?_⟩
      rw [← hscan]
      exact scan_code_of_block hblock (hs.block _)
  | case6 c rest kept inBlock hrest hblock hmarker ih =>
      obtain ⟨m, hm, hscan⟩ := ih fun h => hline (by simp [h])
      rw [hrest] at hm hscan
      refine ⟨m, hm, ?_⟩
      have hnone : markerAt s (c :: rest) = false := by
        rw [markerAt, Bool.or_eq_false_iff]
        refine ⟨Bool.not_eq_true _ ▸ hmarker, Bool.eq_false_iff.mpr fun h => ?_⟩
        obtain ⟨hb, hprefix⟩ := Bool.and_eq_true_iff.mp h
        obtain ⟨rest', heq⟩ := List.isPrefixOf_iff_prefix.mp hprefix
        obtain ⟨hc, heq⟩ := List.cons.inj heq
        exact hblock rest' hc.symm hb heq.symm
      rw [← markerAt_append hs (c :: rest) htail] at hnone
      refine (scan_code_of_not_marker hnone).trans ?_
      exact congrArg (c :: ·) hscan

/-! ## Lines of a text -/

def dense (text : List Char) : List Char := text.filter fun c => !isWhitespace c

theorem dense_append (a b : List Char) : dense (a ++ b) = dense a ++ dense b :=
  List.filter_append ..

theorem dense_of_white (h : ∀ c ∈ text, isWhitespace c = true) : dense text = [] :=
  List.filter_eq_nil_iff.mpr fun c hc => by simp [h c hc]

theorem dense_scan_newline (hs : s.Apart) (m : Mode) :
    dense (scan s m ('\n' :: rest)) = dense (scan s (modeOf (m = .block)) rest) := by
  have hwhite : isWhitespace '\n' = true := by decide
  cases m with
  | code =>
      rw [scan_code_of_not_marker (markerAt_of_white hs hwhite)]
      exact List.filter_cons_of_neg (by decide)
  | line =>
      rw [scan, if_pos rfl]
      exact List.filter_cons_of_neg (by decide)
  | block => rw [scan_block_of_not_close fun h => absurd h.1 (by decide)]; rfl

theorem dense_scan_return (hs : s.Apart) (m : Mode) :
    dense (scan s m ('\r' :: rest)) = dense (scan s m rest) := by
  have hwhite : isWhitespace '\r' = true := by decide
  cases m with
  | code =>
      rw [scan_code_of_not_marker (markerAt_of_white hs hwhite)]
      exact List.filter_cons_of_neg (by decide)
  | line => rw [scan, if_neg (by decide)]
  | block => rw [scan_block_of_not_close fun h => absurd h.1 (by decide)]

theorem lines_append_newline_eq (rest : List Char) {line : List Char} (h : '\n' ∉ line) :
    Scip.lines (line ++ '\n' :: rest) =
      (if line.getLast? = some '\r' then line.dropLast else line) :: Scip.lines rest := by
  have hsplit : (line ++ '\n' :: rest).splitOn '\n' = line :: rest.splitOn '\n' :=
    List.splitOn_append_cons_self_of_not_mem h rest
  have hne := List.splitOn_ne_nil '\n' rest
  rw [Scip.lines, hsplit, List.dropLast_cons_of_ne_nil hne, List.getLast?_cons_of_ne_nil hne]
  rfl

theorem lines_append_newline (rest : List Char) {line : List Char} (h : '\n' ∉ line) :
    ∃ first ending, line = first ++ ending ∧ (ending = [] ∨ ending = ['\r']) ∧
      Scip.lines (line ++ '\n' :: rest) = first :: Scip.lines rest := by
  rw [lines_append_newline_eq rest h]
  by_cases hreturn : line.getLast? = some '\r'
  · refine ⟨line.dropLast, ['\r'], (List.dropLast_append_getLast? _ hreturn).symm, .inr rfl, ?_⟩
    rw [if_pos hreturn]
  · exact ⟨line, [], (List.append_nil line).symm, .inl rfl, by rw [if_neg hreturn]⟩

theorem lines_of_not_mem {line : List Char} (h : '\n' ∉ line) :
    Scip.lines line = if line = [] then [] else [line] := by
  rw [Scip.lines, List.splitOn_eq_singleton h]
  by_cases hline : line = [] <;> simp [hline]

theorem dense_stripLines (hs : s.Apart) (inBlock : Bool) (text : List Char) :
    dense (stripLines s inBlock (Scip.lines text)) = dense (scan s (modeOf inBlock) text) := by
  induction hlength : text.length using Nat.strong_induction_on generalizing inBlock text with
  | _ n ih =>
      by_cases hbreak : '\n' ∈ text
      · obtain ⟨line, rest, rfl, hline⟩ := List.eq_append_cons_of_mem hbreak
        obtain ⟨first, ending, rfl, hending, hlines⟩ := lines_append_newline rest hline
        have hfirst : '\n' ∉ first := fun h => hline (List.mem_append_left _ h)
        have hwhite : ∀ c ∈ (ending ++ '\n' :: rest).head?, isWhitespace c = true := by
          rcases hending with rfl | rfl <;> simp <;> decide
        obtain ⟨m, hm, hscan⟩ := scan_stripLine hs inBlock hfirst hwhite
        have hrest : dense (scan s m (ending ++ '\n' :: rest)) =
            dense (scan s (modeOf (m = .block)) rest) := by
          rcases hending with rfl | rfl
          · exact dense_scan_newline hs m
          · exact (dense_scan_return hs m).trans (dense_scan_newline hs m)
        have hmode : decide (m = .block) = (stripLine s inBlock first).2 :=
          Bool.eq_iff_iff.mpr (decide_eq_true_iff.trans hm)
        have hshort : rest.length < n := by
          rw [← hlength, List.length_append, List.length_cons]
          omega
        rw [hlines, List.append_assoc, hscan, dense_append, hrest, hmode, stripLines, dense_append,
          ih _ hshort _ _ rfl]
      · have hnone : ∀ c ∈ ([] : List Char).head?, isWhitespace c = true := by simp
        obtain ⟨m, -, hscan⟩ := scan_stripLine hs inBlock hbreak hnone
        have hnil : scan s m [] = [] := by cases m <;> rfl
        rw [List.append_nil, hnil, List.append_nil] at hscan
        rw [hscan, lines_of_not_mem hbreak]
        split
        · rename_i hempty
          subst hempty
          cases inBlock <;> rfl
        · simp [stripLines]

/-! ## Readings -/

/-- A piece of a source text: a token or a string literal, white space, or a comment. -/
inductive Lexeme where
  | code (text : List Char)
  | blank (text : List Char)
  | line (body : List Char)
  | block (body : List Char)
deriving DecidableEq

def Lexeme.written (s : CommentSyntax) : Lexeme → List Char
  | .code text | .blank text => text
  | .line body => s.lineComment ++ body
  | .block body => '/' :: '*' :: (body ++ ['*', '/'])

def written (s : CommentSyntax) (pieces : List Lexeme) : List Char :=
  pieces.flatMap (Lexeme.written s)

def tokensOf (pieces : List Lexeme) : List (List Char) :=
  pieces.filterMap fun
    | .code text => some text
    | _ => none

def codeOf (pieces : List Lexeme) : List Char := (tokensOf pieces).flatten

/-- Comment markers stand only where comments start, and the comments end where they do for
`normalize_code`: a line comment with its line, and a block comment at the first `*/`. -/
def CommentsMarked (s : CommentSyntax) : List Lexeme → Prop
  | [] => True
  | .code text :: rest =>
      (∀ back, back <:+ text → back ≠ [] → markerAt s (back ++ written s rest) = false) ∧
        CommentsMarked s rest
  | .blank text :: rest => (∀ c ∈ text, isWhitespace c = true) ∧ CommentsMarked s rest
  | .line body :: rest =>
      '\n' ∉ body ∧ (written s rest).head? ∈ [none, some '\n'] ∧ CommentsMarked s rest
  | .block body :: rest =>
      s.block = true ∧ ¬['*', '/'] <:+: body ++ ['*'] ∧ CommentsMarked s rest

instance decidableCommentsMarked (s : CommentSyntax) :
    (pieces : List Lexeme) → Decidable (CommentsMarked s pieces)
  | [] => .isTrue trivial
  | .code text :: rest =>
      have := decidableCommentsMarked s rest
      decidable_of_iff ((∀ back ∈ text.tails, back ≠ [] →
        markerAt s (back ++ written s rest) = false) ∧ CommentsMarked s rest)
        (by simp only [CommentsMarked, List.mem_tails])
  | .blank text :: rest =>
      have := decidableCommentsMarked s rest
      decidable_of_iff (text.all isWhitespace = true ∧ CommentsMarked s rest)
        (by simp only [CommentsMarked, List.all_eq_true])
  | .line body :: rest =>
      have := decidableCommentsMarked s rest
      inferInstanceAs (Decidable ('\n' ∉ body ∧ (written s rest).head? ∈ [none, some '\n'] ∧
        CommentsMarked s rest))
  | .block body :: rest =>
      have := decidableCommentsMarked s rest
      inferInstanceAs (Decidable (s.block = true ∧ ¬['*', '/'] <:+: body ++ ['*'] ∧
        CommentsMarked s rest))

theorem scan_code_append
    (h : ∀ back, back <:+ text → back ≠ [] → markerAt s (back ++ rest) = false) :
    scan s .code (text ++ rest) = text ++ scan s .code rest := by
  induction text with
  | nil => rfl
  | cons c text ih =>
      have hc : markerAt s (c :: (text ++ rest)) = false :=
        h (c :: text) List.suffix_rfl (List.cons_ne_nil _ _)
      rw [List.cons_append, scan_code_of_not_marker hc, List.cons_append]
      exact congrArg (c :: ·) (ih fun back hback => h back (hback.trans (List.suffix_cons _ _)))

theorem scan_block_append {body : List Char} (h : ¬['*', '/'] <:+: body ++ ['*']) :
    scan s .block (body ++ '*' :: '/' :: rest) = scan s .code rest := by
  induction body with
  | nil => rw [List.nil_append, scan]
  | cons c body ih =>
      have hbody : ¬['*', '/'] <:+: body ++ ['*'] := fun hin =>
        h (hin.trans (List.suffix_cons c (body ++ ['*'])).isInfix)
      rw [List.cons_append, scan_block_of_not_close]
      · exact ih hbody
      · rintro ⟨rfl, hhead⟩
        cases body with
        | nil => exact absurd (Option.some.inj hhead) (by decide)
        | cons d body =>
            obtain rfl : d = '/' := Option.some.inj hhead
            exact h ⟨[], body ++ ['*'], rfl⟩

theorem dense_scan_written (hs : s.Apart) {pieces : List Lexeme} (h : CommentsMarked s pieces) :
    dense (scan s .code (written s pieces)) = dense (codeOf pieces) := by
  induction pieces with
  | nil => rfl
  | cons piece rest ih =>
      have hwritten : written s (piece :: rest) = piece.written s ++ written s rest :=
        List.flatMap_cons ..
      rw [hwritten]
      cases piece with
      | code text =>
          obtain ⟨hmarks, hrest⟩ := h
          have hcode : codeOf (.code text :: rest) = text ++ codeOf rest := rfl
          rw [hcode, Lexeme.written, scan_code_append hmarks, dense_append, dense_append, ih hrest]
      | blank text =>
          obtain ⟨hwhite, hrest⟩ := h
          have hmarks : ∀ back, back <:+ text → back ≠ [] →
              markerAt s (back ++ written s rest) = false := by
            intro back hback hne
            obtain ⟨c, back, rfl⟩ := List.exists_cons_of_ne_nil hne
            exact markerAt_of_white hs (hwhite c (hback.subset List.mem_cons_self))
          rw [Lexeme.written, scan_code_append hmarks, dense_append, dense_of_white hwhite,
            ih hrest]
          rfl
      | line body =>
          obtain ⟨hbody, hend, hrest⟩ := h
          obtain ⟨c, marker, hmarker⟩ := List.exists_cons_of_ne_nil hs.nonempty
          have hprefix :
              s.lineComment.isPrefixOf (c :: (marker ++ body ++ written s rest)) = true :=
            List.isPrefixOf_iff_prefix.mpr ⟨body ++ written s rest, by simp [hmarker]⟩
          have hbreak : '\n' ∉ marker ++ body := by
            intro hin
            refine (List.mem_append.mp hin).elim (fun hin => ?_) hbody
            have hwhite := hs.white '\n' (hmarker ▸ List.mem_cons_of_mem _ hin)
            exact absurd hwhite (by decide)
          have hline : scan s .line (written s rest) = scan s .code (written s rest) := by
            cases hafter : written s rest with
            | nil => rfl
            | cons d after =>
                have hd : d = '\n' := by simpa [hafter] using hend
                rw [hd, scan, if_pos rfl,
                  scan_code_of_not_marker (markerAt_of_white hs (by decide))]
          rw [Lexeme.written, hmarker, List.cons_append, List.cons_append,
            scan_code_of_line hprefix, scan_line_append hbreak, hline, ih hrest]
          rfl
      | block body =>
          obtain ⟨hblock, hclose, hrest⟩ := h
          rw [Lexeme.written, List.cons_append, List.cons_append, List.append_assoc,
            scan_code_of_block hblock (hs.block _)]
          exact (congrArg dense (scan_block_append hclose)).trans (ih hrest)

theorem normalizeCode_written {language : String} {pieces : List Lexeme}
    (h : CommentsMarked (commentSyntax language) pieces) :
    normalizeCode (written (commentSyntax language) pieces) language =
      compact (codeOf pieces) := by
  have hs := apart_commentSyntax language
  have hdense := (dense_stripLines hs false (written _ pieces)).trans (dense_scan_written hs h)
  exact congrArg (fun text => dropCommas '\x7d' (dropCommas ']' (dropCommas ')' text))) hdense

theorem normalizeCode_eq_iff {language : String} {before after : List Lexeme}
    (hbefore : CommentsMarked (commentSyntax language) before)
    (hafter : CommentsMarked (commentSyntax language) after) :
    normalizeCode (written (commentSyntax language) before) language =
        normalizeCode (written (commentSyntax language) after) language ↔
      SameLayout (codeOf before) (codeOf after) := by
  rw [normalizeCode_written hbefore, normalizeCode_written hafter]
  exact compact_eq_iff

end NormalizeCode

namespace BaseSymbols

open NormalizeCode

/-! ## The delta of a change set -/

def BaseSymbol.file (basePath : String) (current : Option String) (language : String) :
    BaseSymbol where
  kind := "File"
  name := basePath
  qualifiedName := basePath
  currentQualifiedName := current
  filePath := basePath
  currentFile := current
  parentName := none
  lineStart := 1
  lineEnd := 1
  language := language
  isTest := false

/-- A pair of paths with what is read and parsed of both sides; a deleted file has no current
side. -/
structure ComparedFile where
  basePath : String
  currentPath : String
  baseSource : List UInt8
  baseNodes : List ParsedNode
  current : Option (List UInt8 × List ParsedNode)

def languageOf (nodes : List ParsedNode) : String :=
  ((nodes.find? (·.kind = .file)).map (·.language)).getD ""

/-- The loop's body of `symbol_delta` for one pair. -/
def addFile (p : PythonParser) (delta : SymbolDelta) (f : ComparedFile) : SymbolDelta :=
  let delta := { delta with filesCompared := delta.filesCompared ++ [(f.basePath, f.currentPath)] }
  match f.current with
  | none =>
      let delta := (f.baseNodes.filter isSymbol).foldl
        (fun delta n => pushRemoved delta (.fromParsed n f.basePath none)) delta
      { delta with
        removedFiles := delta.removedFiles ++ [.file f.basePath none (languageOf f.baseNodes)] }
  | some (source, now) =>
      let moved : BaseSymbol := .file f.basePath (some f.currentPath) (languageOf now)
      let delta :=
        if f.basePath = f.currentPath then delta
        else { delta with movedFiles := delta.movedFiles ++ [moved] }
      compareFile p delta ⟨f.basePath, f.currentPath, f.baseSource, source⟩ f.baseNodes now

def symbolDelta (p : PythonParser) (files : List ComparedFile) : SymbolDelta :=
  files.foldl (addFile p) {}

/-- The nodes that `change_findings` looks at, of the changed functions. -/
def changedNodes (g : GraphReads) (delta : SymbolDelta) (functions : List String) :
    List NodeRow :=
  functions.filterMap fun qn => if qn ∈ delta.unchangedBodies then none else g.getNode qn

/-! ## Functions that a review leaves out -/

/-- `same_code` holds of a symbol's spans on both sides of a file. -/
def SameSpans (p : PythonParser) (f : ComparedFile) (qn : String) : Prop :=
  ∃ source now, f.current = some (source, now) ∧ ∃ n ∈ f.baseNodes, ∃ m ∈ now,
    qualifiedNameOf n = qn ∧ qualifiedNameOf m = qn ∧
      sameCode p (span f.baseSource n.lineStart n.lineEnd) (span source m.lineStart m.lineEnd)
        m.language = true

/-- The code of a symbol has one layout on both sides of a file, where the comments of the spans
are marked and `normalize_code` decides. -/
def LayoutKept (p : PythonParser) (f : ComparedFile) (qn : String) : Prop :=
  ∃ source now, f.current = some (source, now) ∧ ∃ n ∈ f.baseNodes, ∃ m ∈ now,
    qualifiedNameOf n = qn ∧ qualifiedNameOf m = qn ∧
      let s := commentSyntax m.language
      let before := span f.baseSource n.lineStart n.lineEnd
      let after := span source m.lineStart m.lineEnd
      (m.language = "python" → pythonSameCode p before after = none) →
        ∀ readBefore readAfter, written s readBefore = before → written s readAfter = after →
          CommentsMarked s readBefore → CommentsMarked s readAfter →
            SameLayout (codeOf readBefore) (codeOf readAfter)

variable {f : ComparedFile} {qn : String} {delta : SymbolDelta}

theorem layoutKept_of_sameSpans (h : SameSpans p f qn) : LayoutKept p f qn := by
  obtain ⟨source, now, hcurrent, n, hn, m, hm, hname, hmname, hsame⟩ := h
  refine ⟨source, now, hcurrent, n, hn, m, hm, hname, hmname, ?_⟩
  intro s before after hpython readBefore readAfter hbefore hafter hmarked hmarked'
  have htext : normalizeCode before m.language = normalizeCode after m.language := by
    have hsame : sameCode p before after m.language = true := hsame
    rw [sameCode] at hsame
    split at hsame
    · rename_i hlanguage
      simpa [hpython hlanguage] using hsame
    · exact of_decide_eq_true hsame
  rw [← hbefore, ← hafter] at htext
  exact (normalizeCode_eq_iff hmarked hmarked').mp htext

theorem foldl_pushRemoved_unchangedBodies (delta : SymbolDelta) (symbols : List BaseSymbol) :
    (symbols.foldl pushRemoved delta).unchangedBodies = delta.unchangedBodies := by
  induction symbols generalizing delta with
  | nil => rfl
  | cons symbol symbols ih =>
      rw [List.foldl_cons, ih, pushRemoved]
      split <;> rfl

theorem mem_unchangedBodies_addFile (h : qn ∈ (addFile p delta f).unchangedBodies) :
    qn ∈ delta.unchangedBodies ∨ SameSpans p f qn := by
  rw [addFile] at h
  cases hcurrent : f.current with
  | none =>
      refine .inl ?_
      have hkept := foldl_pushRemoved_unchangedBodies
        { delta with filesCompared := delta.filesCompared ++ [(f.basePath, f.currentPath)] }
        ((f.baseNodes.filter isSymbol).map fun n => .fromParsed n f.basePath none)
      rw [List.foldl_map] at hkept
      simp only [hcurrent, hkept] at h
      exact h
  | some current =>
      obtain ⟨source, now⟩ := current
      simp only [hcurrent, compareFile] at h
      rcases ((compared_foldl (f.baseNodes.filter isSymbol) _).unchanged qn).mp h with
        hold | ⟨n, hn, hname, m, hm, hsame⟩
      · refine .inl ?_
        split at hold <;> exact hold
      · obtain ⟨hmem, -, hmname⟩ := nowByName_eq_some hm
        exact .inr ⟨source, now, hcurrent, n, List.mem_of_mem_filter hn, m, hmem, hname, hmname,
          hsame⟩

theorem mem_unchangedBodies_foldl (files : List ComparedFile)
    (h : qn ∈ (files.foldl (addFile p) delta).unchangedBodies) :
    qn ∈ delta.unchangedBodies ∨ ∃ f ∈ files, SameSpans p f qn := by
  induction files generalizing delta with
  | nil => exact .inl h
  | cons f files ih =>
      rcases ih h with hfirst | ⟨f', hf', hsame⟩
      · rcases mem_unchangedBodies_addFile hfirst with hold | hsame
        · exact .inl hold
        · exact .inr ⟨f, List.mem_cons_self, hsame⟩
      · exact .inr ⟨f', List.mem_cons_of_mem _ hf', hsame⟩

theorem sameSpans_of_skipped {g : GraphReads} {files : List ComparedFile} {functions : List String}
    {node : NodeRow} (hqn : qn ∈ functions) (hnode : g.getNode qn = some node)
    (hskip : node ∉ changedNodes g (symbolDelta p files) functions) :
    ∃ f ∈ files, SameSpans p f qn := by
  have hin : qn ∈ (symbolDelta p files).unchangedBodies := by
    by_contra hout
    exact hskip (List.mem_filterMap.mpr ⟨qn, hqn, by rw [if_neg hout, hnode]⟩)
  exact (mem_unchangedBodies_foldl files hin).resolve_left List.not_mem_nil

/-- Two texts whose comments are marked normalise to one string exactly when their code has one
layout, and so has the code of a function that the findings do not look at. -/
theorem unchanged_sameLayout (p : PythonParser) :
    (∀ language before after, CommentsMarked (commentSyntax language) before →
      CommentsMarked (commentSyntax language) after →
        (normalizeCode (written (commentSyntax language) before) language =
            normalizeCode (written (commentSyntax language) after) language ↔
          SameLayout (codeOf before) (codeOf after))) ∧
      ∀ g files functions qn node, qn ∈ functions → g.getNode qn = some node →
        node ∉ changedNodes g (symbolDelta p files) functions → ∃ f ∈ files, LayoutKept p f qn := by
  refine ⟨fun language before after hbefore hafter => normalizeCode_eq_iff hbefore hafter, ?_⟩
  intro g files functions qn node hqn hnode hskip
  obtain ⟨f, hf, hsame⟩ := sameSpans_of_skipped hqn hnode hskip
  exact ⟨f, hf, layoutKept_of_sameSpans hsame⟩

/-! ### Tokens that go -/

/-- Two marked Rust texts that normalise to one string and have other tokens or literals. -/
def TokensLost (before after : List Lexeme) : Prop :=
  CommentsMarked (commentSyntax "rust") before ∧ CommentsMarked (commentSyntax "rust") after ∧
    normalizeCode (written (commentSyntax "rust") before) "rust" =
      normalizeCode (written (commentSyntax "rust") after) "rust" ∧
    tokensOf before ≠ tokensOf after

instance (before after : List Lexeme) : Decidable (TokensLost before after) := by
  unfold TokensLost
  infer_instance

/-- `f(a,)` with a comment and a line break. -/
def spreadCall : List Lexeme :=
  [.code ['f'], .code ['('], .code ['a'], .code [','], .blank [' '], .line " last".toList,
    .blank ['\n'], .code [')']]

def shortCall : List Lexeme := [.code ['f'], .code ['('], .code ['a'], .code [')']]

/-- The comma is a token and goes, as does the white space between two tokens and that inside a
string literal. -/
theorem tokensLost_layout :
    TokensLost spreadCall shortCall ∧
      TokensLost [.code "return".toList, .blank [' '], .code ['x']] [.code "returnx".toList] ∧
      TokensLost [.code "\"a b\"".toList] [.code "\"ab\"".toList] := by
  decide +kernel

end BaseSymbols

end Dagayn
