import Dagayn.GitPath
import Dagayn.LineBreaks
import Dagayn.MarkdownBodies

/-!
# A text without its code

`mask_markdown_code` blanks the lines of fenced code and the code spans of the other lines. Line
breaks stay, so that what is found in the masked text has its line there: comments and links start
on lines that the mask has in no fence.
-/

namespace Dagayn

namespace Markdowns

/-! ## The fence in front of a line -/

section Before

variable {F L : Type}

/-- The fence that is open in front of a line, counted from 0. -/
def openBefore (step : Option F → L → Option F) (lines : List L) (i : Nat) : Option F :=
  (lines.take i).foldl step none

theorem openBefore_succ (step : Option F → L → Option F) {lines : List L} {i : Nat} {line : L}
    (h : lines[i]? = some line) :
    openBefore step lines (i + 1) = step (openBefore step lines i) line := by
  rw [openBefore, openBefore, List.take_add_one, h, Option.toList_some, List.foldl_append]
  rfl

theorem openBefore_of_ge (step : Option F → L → Option F) {lines : List L} {i : Nat}
    (h : lines.length ≤ i) : openBefore step lines i = openBefore step lines lines.length := by
  rw [openBefore, openBefore, List.take_of_length_le h, List.take_length]

/-- A line of a fence, with its first and its last line. -/
def InFence (step : Option F → L → Option F) (lines : List L) (i : Nat) : Prop :=
  (openBefore step lines i).isSome ∨ (openBefore step lines (i + 1)).isSome

instance (step : Option F → L → Option F) (lines : List L) (i : Nat) :
    Decidable (InFence step lines i) :=
  inferInstanceAs (Decidable (_ ∨ _))

end Before

/-! ## Fences -/

abbrev Fence := Char × Nat

/-- The length of the run of a fence character that a text starts with. -/
def runOf (trimmed : List Char) : Nat :=
  match trimmed.head?.filter fun c => c = '`' || c = '~' with
  | some c => (trimmed.takeWhile (· = c)).length
  | none => 0

theorem run_of_runOf {trimmed : List Char} (h : 3 ≤ runOf trimmed) :
    ∃ c rest, trimmed = c :: c :: c :: rest ∧ (c = '`' ∨ c = '~') := by
  have htake : ∀ {c : Char} {text : List Char} {n : Nat},
      n + 1 ≤ (text.takeWhile (· = c)).length →
        ∃ rest, text = c :: rest ∧ n ≤ (rest.takeWhile (· = c)).length := by
    intro c text n hn
    cases text with
    | nil => simp at hn
    | cons d rest =>
        by_cases hd : d = c
        · subst hd
          exact ⟨rest, rfl, by simpa using hn⟩
        · simp [hd] at hn
  cases hfilter : trimmed.head?.filter fun c => c = '`' || c = '~' with
  | none =>
      rw [runOf, hfilter] at h
      cases h
  | some c =>
      rw [runOf, hfilter] at h
      obtain ⟨-, hc⟩ := Option.filter_eq_some_iff.mp hfilter
      obtain ⟨text, rfl, htext⟩ := htake h
      obtain ⟨text', rfl, htext'⟩ := htake htext
      obtain ⟨rest, rfl, -⟩ := htake htext'
      exact ⟨c, rest, rfl, by simpa using hc⟩

theorem fenceMarker_of_run {line : List Char} (h : 3 ≤ runOf (line.dropWhile (· = ' '))) :
    ∃ c, (line.dropWhile (· = ' ')).head? = some c ∧ (c = '`' ∨ c = '~') ∧
      fenceMarker (trim line) = some (List.replicate 3 c) := by
  obtain ⟨c, rest, htrimmed, hc⟩ := run_of_runOf h
  have hwhite : isWhitespace c = false := by
    rcases hc with rfl | rfl <;> decide
  have hdrop : line.dropWhile isWhitespace = c :: c :: c :: rest := by
    have hspaces : ∀ d ∈ line.takeWhile (· = ' '), isWhitespace d = true := fun d hd => by
      have heq : d = ' ' := by simpa using List.mem_takeWhile_imp hd
      rw [heq]
      decide
    conv_lhs => rw [← List.takeWhile_append_dropWhile (p := (· = ' ')) (l := line)]
    rw [List.dropWhile_append_of_pos hspaces, htrimmed,
      List.dropWhile_cons_of_neg (by simp [hwhite])]
  refine ⟨c, by rw [htrimmed]; rfl, hc, ?_⟩
  rw [trim, hdrop]
  refine (congrArg fenceMarker (rdropWhile_append [c, c] hwhite rest)).trans ?_
  rcases hc with rfl | rfl <;> rfl

/-! ## Code without its text -/

def blankChar (c : Char) : List Char :=
  if c = '\n' then ['\n'] else List.replicate c.utf8Size ' '

def blank (text : List Char) : List Char := text.flatMap blankChar

theorem length_drop_run {c : Char} (hc : c = '`') (rest : List Char) (n : Nat) :
    ((c :: rest).drop (((c :: rest).takeWhile (· = '`')).length + n)).length <
      (c :: rest).length := by
  have hpos : 0 < ((c :: rest).takeWhile (· = '`')).length := by simp [hc]
  rw [List.length_drop, List.length_cons]
  omega

/-- The number of characters up to the end of the next run of so many backticks. -/
def closingRun (opening : Nat) : List Char → Option Nat
  | [] => none
  | c :: rest =>
      if hc : c = '`' then
        let run := ((c :: rest).takeWhile (· = '`')).length
        if run = opening then some run
        else (closingRun opening ((c :: rest).drop run)).map (run + ·)
      else (closingRun opening rest).map (1 + ·)
termination_by text => text.length
decreasing_by
  · exact length_drop_run hc rest 0
  · exact Nat.lt_succ_self _

def maskCodeSpans : List Char → List Char
  | [] => []
  | c :: rest =>
      if _hc : c = '`' then
        let opening := ((c :: rest).takeWhile (· = '`')).length
        match closingRun opening ((c :: rest).drop opening) with
        | some n =>
            blank ((c :: rest).take (opening + n)) ++ maskCodeSpans ((c :: rest).drop (opening + n))
        | none => (c :: rest).take opening ++ maskCodeSpans ((c :: rest).drop opening)
      else c :: maskCodeSpans rest
termination_by text => text.length
decreasing_by
  · exact length_drop_run _hc rest n
  · exact length_drop_run _hc rest 0
  · exact Nat.lt_succ_self _

def isFenceLine (line : List Char) : Bool :=
  let trimmed := line.dropWhile (· = ' ')
  let indent := line.length - trimmed.length
  indent ≤ 3 && 3 ≤ runOf trimmed

/-- The fence behind a line, in `mask_markdown_code`. -/
def maskFence (fence : Option Fence) (line : List Char) : Option Fence :=
  let trimmed := line.dropWhile (· = ' ')
  let marker := trimmed.head?
  let run := runOf trimmed
  match fence with
  | some (byte, len) =>
      if isFenceLine line ∧ marker = some byte ∧ len ≤ run ∧ trim (trimmed.drop run) = [] then none
      else some (byte, len)
  | none => if isFenceLine line then marker.map (·, run) else none

def maskLines (fence : Option Fence) : List (List Char) → List (List Char)
  | [] => []
  | line :: rest =>
      (if fence.isSome || isFenceLine line then blank line else maskCodeSpans line) ::
        maskLines (maskFence fence line) rest

def maskMarkdownCode (text : List Char) : List Char :=
  (maskLines none (splitInclusive text)).flatten

/-! ## What is taken from the masked text -/

/-- The comments that `extract_markdown_directives_from_text` and
`extract_markdown_dagayn_directives` look for directives in, with their lines. -/
def comments (text : List Char) : List (Int × List Char) :=
  (Scip.matchIndices "<!--".toList 0 [] text).filterMap fun (before, behind) =>
    (splitFirst "-->".toList ("<!--".toList ++ behind)).map fun (inner, _) =>
      (before.count '\n' + 1, inner ++ "-->".toList)

/-- The targets of `extract_markdown_reference_links_from_text`, with their lines. -/
def referenceLinks (text : List Char) : List (Int × List Char) :=
  (Scip.lines text).zipIdx.filterMap fun (lineText, idx) =>
    let line := lineText.dropWhile isWhitespace
    match splitFirst "]:".toList line with
    | some (label, behind) =>
        if line.head? = some '[' ∧ 1 < label.length then some ((idx : Int) + 1, trim behind)
        else none
    | none => none

/-- The rest of `MARKDOWN_INLINE_LINK_RE` behind its first bracket: the target, and what is
behind the match. -/
def inlineLinkAt (text : List Char) : Option (List Char × List Char) :=
  let label := text.takeWhile (· ≠ ']')
  let behind := text.drop label.length
  let target := (behind.drop 2).takeWhile (· ≠ ')')
  if label ≠ [] ∧ "](".toList.isPrefixOf behind ∧ target ≠ [] ∧
      ((behind.drop 2).drop target.length).head? = some ')' then
    some (target, ((behind.drop 2).drop target.length).tail)
  else none

theorem suffix_inlineLinkAt {text target behind : List Char}
    (h : inlineLinkAt text = some (target, behind)) : behind <:+ text := by
  rw [inlineLinkAt] at h
  split at h
  · obtain ⟨-, rfl⟩ := Prod.mk.inj (Option.some.inj h)
    exact (List.tail_suffix _).trans ((List.drop_suffix _ _).trans
      ((List.drop_suffix _ _).trans (List.drop_suffix _ _)))
  · cases h

/-- The matches of `MARKDOWN_INLINE_LINK_RE`, with their lines. -/
def inlineLinksFrom (line : Int) : List Char → List (Int × List Char)
  | [] => []
  | c :: rest =>
      if c = '[' then
        match h : inlineLinkAt rest with
        | some (target, behind) =>
            let matched := rest.take (rest.length - behind.length)
            have := (suffix_inlineLinkAt h).length_le
            (line, target) :: inlineLinksFrom (line + matched.count '\n') behind
        | none => inlineLinksFrom line rest
      else inlineLinksFrom (if c = '\n' then line + 1 else line) rest
termination_by text => text.length

/-! ## What the mask leaves -/

/-- A text with some of its characters blanked. -/
inductive Blanks : List Char → List Char → Prop
  | nil : Blanks [] []
  | keep {p q : List Char} (c : Char) : Blanks p q → Blanks (c :: p) (c :: q)
  | blank {p q : List Char} (c : Char) : Blanks p q → Blanks (c :: p) (blankChar c ++ q)

theorem Blanks.refl : ∀ p, Blanks p p
  | [] => .nil
  | c :: p => .keep c (refl p)

theorem blanks_blank : ∀ p, Blanks p (blank p)
  | [] => .nil
  | c :: p => .blank c (blanks_blank p)

theorem Blanks.append {p q p' q' : List Char} (h : Blanks p q) (h' : Blanks p' q') :
    Blanks (p ++ p') (q ++ q') := by
  induction h with
  | nil => exact h'
  | keep c _ ih => exact .keep c ih
  | blank c _ ih =>
      rw [List.append_assoc]
      exact .blank c ih

theorem blanks_maskCodeSpans (text : List Char) : Blanks text (maskCodeSpans text) := by
  fun_induction maskCodeSpans text with
  | case1 => exact .nil
  | case2 rest n opening hn ih =>
      have happ := (blanks_blank (('`' :: rest).take (opening + n))).append ih
      rwa [List.take_append_drop] at happ
  | case3 rest opening hn ih =>
      have happ := (Blanks.refl (('`' :: rest).take opening)).append ih
      rwa [List.take_append_drop] at happ
  | case4 c rest hc ih => exact .keep c ih

theorem mem_blankChar {c d : Char} (h : d ∈ blankChar c) : d = ' ' ∨ d = '\n' ∧ c = '\n' := by
  rw [blankChar] at h
  split at h
  · rename_i hc
    exact .inr ⟨List.mem_singleton.mp h, hc⟩
  · exact .inl (List.eq_of_mem_replicate h)

theorem Blanks.newline_notMem {p q : List Char} (h : Blanks p q) (hp : '\n' ∉ p) : '\n' ∉ q := by
  induction h with
  | nil => exact hp
  | keep c _ ih =>
      rw [List.mem_cons, not_or] at hp ⊢
      exact ⟨hp.1, ih hp.2⟩
  | blank c _ ih =>
      rw [List.mem_cons, not_or] at hp
      intro hmem
      rcases List.mem_append.mp hmem with hmem | hmem
      · rcases mem_blankChar hmem with heq | ⟨-, rfl⟩
        · exact absurd heq (by decide)
        · exact hp.1 rfl
      · exact ih hp.2 hmem

theorem Blanks.ends {body q : List Char} (h : Blanks (body ++ ['\n']) q) :
    ∃ body', q = body' ++ ['\n'] ∧ Blanks body body' := by
  induction body generalizing q with
  | nil =>
      cases h with
      | keep _ h =>
          cases h
          exact ⟨[], rfl, .nil⟩
      | blank _ h =>
          cases h
          exact ⟨[], rfl, .nil⟩
  | cons c body ih =>
      cases h with
      | keep _ h =>
          obtain ⟨body', rfl, hbody⟩ := ih h
          exact ⟨c :: body', rfl, .keep c hbody⟩
      | blank _ h =>
          obtain ⟨body', rfl, hbody⟩ := ih h
          exact ⟨blankChar c ++ body', by rw [List.append_assoc], .blank c hbody⟩

theorem broken_of_blanks {lines masked : List (List Char)} (h : Broken lines)
    (hmask : List.Forall₂ Blanks lines masked) : Broken masked := by
  induction hmask with
  | nil => trivial
  | @cons line line' rest rest' hline hrest ih =>
      obtain ⟨⟨body, hbody, heq⟩, hbroken⟩ := h
      refine ⟨?_, ih hbroken⟩
      rcases heq with rfl | ⟨rfl, rfl⟩
      · obtain ⟨body', rfl, hblanks⟩ := hline.ends
        exact ⟨body', hblanks.newline_notMem hbody, .inl rfl⟩
      · cases hrest
        exact ⟨line', hline.newline_notMem hbody, .inr ⟨rfl, rfl⟩⟩

theorem maskLines_blanks (fence : Option Fence) (lines : List (List Char)) :
    List.Forall₂ Blanks lines (maskLines fence lines) := by
  induction lines generalizing fence with
  | nil => exact .nil
  | cons line rest ih =>
      refine .cons ?_ (ih _)
      split
      · exact blanks_blank line
      · exact blanks_maskCodeSpans line

theorem getElem?_maskLines (fence : Option Fence) (lines : List (List Char)) (i : Nat) :
    (maskLines fence lines)[i]? = lines[i]?.map fun line =>
      if ((lines.take i).foldl maskFence fence).isSome || isFenceLine line then blank line
      else maskCodeSpans line := by
  induction lines generalizing fence i with
  | nil => rfl
  | cons line rest ih =>
      cases i with
      | zero => rfl
      | succ i => exact ih (maskFence fence line) i

theorem runOf_of_isFenceLine {line : List Char} (h : isFenceLine line = true) :
    3 ≤ runOf (line.dropWhile (· = ' ')) := by
  simp only [isFenceLine, Bool.and_eq_true, decide_eq_true_eq] at h
  exact h.2

theorem isSome_maskFence_none (line : List Char) :
    (maskFence none line).isSome = isFenceLine line := by
  rw [maskFence]
  split
  · rename_i hline
    obtain ⟨c, hc, -⟩ := fenceMarker_of_run (runOf_of_isFenceLine hline)
    rw [hc, hline]
    rfl
  · rename_i hline
    simp [hline]

theorem notInFence_of_mask {text before after : List Char} {c : Char} (hspace : c ≠ ' ')
    (hbreak : c ≠ '\n') (h : maskMarkdownCode text = before ++ c :: after) :
    before.count '\n' < (splitInclusive text).length ∧
      ¬ InFence maskFence (splitInclusive text) (before.count '\n') := by
  have hbroken := broken_of_blanks (broken_splitInclusive text) (maskLines_blanks none _)
  obtain ⟨masked, hmasked, hmem⟩ := line_of_offset hbroken h
  rw [getElem?_maskLines] at hmasked
  obtain ⟨line, hline, rfl⟩ := Option.map_eq_some_iff.mp hmasked
  refine ⟨(List.getElem?_eq_some_iff.mp hline).1, fun hin => ?_⟩
  have hfence : ((openBefore maskFence (splitInclusive text) (before.count '\n')).isSome ||
      isFenceLine line) = true := by
    rw [Bool.or_eq_true]
    rcases hin with hin | hin
    · exact .inl hin
    · rw [openBefore_succ _ hline] at hin
      cases hopen : openBefore maskFence (splitInclusive text) (before.count '\n') with
      | some f => exact .inl rfl
      | none =>
          rw [hopen, isSome_maskFence_none] at hin
          exact .inr hin
  rw [← openBefore, hfence, if_pos rfl] at hmem
  obtain ⟨d, -, hd⟩ := List.mem_flatMap.mp hmem
  rcases mem_blankChar hd with heq | ⟨heq, -⟩
  · exact hspace heq
  · exact hbreak heq

theorem comments_offset {text : List Char} {site : Int × List Char} (h : site ∈ comments text) :
    ∃ before after, text = before ++ '<' :: after ∧ site.1 = before.count '\n' + 1 := by
  obtain ⟨⟨before, behind⟩, hmatch, hsite⟩ := List.mem_filterMap.mp h
  obtain ⟨pre, rfl, rfl⟩ := mem_matchIndices hmatch
  obtain ⟨-, -, rfl⟩ := Option.map_eq_some_iff.mp hsite
  exact ⟨before, "!--".toList ++ behind, by rw [List.append_assoc]; rfl, rfl⟩

theorem inlineLinks_offset {line : Int} {text : List Char} {site : Int × List Char}
    (h : site ∈ inlineLinksFrom line text) :
    ∃ before after, text = before ++ '[' :: after ∧ site.1 = line + before.count '\n' := by
  fun_induction inlineLinksFrom line text with
  | case1 => cases h
  | case2 line rest target behind hlink matched _ ih =>
      rcases List.mem_cons.mp h with rfl | h
      · exact ⟨[], rest, rfl, by simp⟩
      · obtain ⟨before, after, hbehind, hline⟩ := ih h
        obtain ⟨front, hfront⟩ := suffix_inlineLinkAt hlink
        have hmatched : matched = front := by
          simp only [matched, ← hfront, List.length_append, Nat.add_sub_cancel, List.take_left]
        refine ⟨'[' :: (front ++ before), after, ?_, ?_⟩
        · rw [← hfront, hbehind, List.cons_append, List.append_assoc]
        · rw [hline, hmatched, List.count_cons_of_ne (by decide), List.count_append]
          push_cast
          omega
  | case3 line rest hlink ih =>
      obtain ⟨before, after, rfl, hline⟩ := ih h
      exact ⟨'[' :: before, after, rfl, by rw [hline, List.count_cons_of_ne (by decide)]⟩
  | case4 line c rest hc ih =>
      obtain ⟨before, after, rfl, hline⟩ := ih h
      refine ⟨c :: before, after, rfl, ?_⟩
      rw [hline, List.count_cons]
      by_cases hbreak : c = '\n'
      · simp only [hbreak, if_true, beq_self_eq_true]
        push_cast
        omega
      · simp [hbreak]

theorem referenceLinks_offset {text : List Char} {site : Int × List Char}
    (h : site ∈ referenceLinks text) :
    ∃ before after, text = before ++ '[' :: after ∧ site.1 = before.count '\n' + 1 := by
  obtain ⟨⟨lineText, idx⟩, hidx, hsite⟩ := List.mem_filterMap.mp h
  have hline : (Scip.lines text)[idx]? = some lineText := List.mem_zipIdx_iff_getElem?.mp hidx
  -- the line with its break is the one that `split_inclusive` gives
  have htrim := congrArg (fun l => l[idx]?) (map_trim_lines text)
  rw [List.getElem?_map, List.getElem?_map, hline, Option.map_some] at htrim
  obtain ⟨line, hget, hsame⟩ := Option.map_eq_some_iff.mp htrim.symm
  dsimp only at hsite
  split at hsite
  · split at hsite
    · rename_i hhead
      have hbracket : '[' ∈ lineText :=
        (List.dropWhile_sublist _).subset (List.mem_of_head? hhead.1)
      have hmem : '[' ∈ line := by
        have hin := ParamShape.mem_trim hbracket (by decide)
        rw [← hsame] at hin
        obtain ⟨front, back, heq, -⟩ := ParamShape.trim_eq line
        rw [heq]
        exact List.mem_append_left _ (List.mem_append_right _ hin)
      obtain ⟨before, after, hflat, hcount⟩ :=
        offset_of_line (broken_splitInclusive text) hget (by decide) hmem
      rw [flatten_splitInclusive] at hflat
      exact ⟨before, after, hflat, by rw [← Option.some.inj hsite, hcount]⟩
    · cases hsite
  · cases hsite

end Markdowns

end Dagayn
