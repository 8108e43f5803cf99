import Dagayn.LineCursor
import Dagayn.MarkdownFences
import Dagayn.RustBlanks

/-!
# The mask on bytes

`mask_markdown_code` blanks bytes and makes a text of them again: what is left is UTF-8 with every
byte in its place, so that lines of the masked text are lines of the text. It looks for fences and
code spans one line after the other. `codeMarks` reads them as CommonMark does, with the code
spans of a whole block; `masked_bytes` says for which texts only code is blanked.
-/

namespace Dagayn

namespace Markdowns

/-! ## The scan over bytes -/

def tick : UInt8 := '`'.toUInt8

/-- `blank`. -/
def blankBytes (bytes : List UInt8) : List UInt8 := bytes.map RustCode.blankByte

theorem length_drop_ticks {b : UInt8} (hb : b = tick) (rest : List UInt8) (n : Nat) :
    ((b :: rest).drop (((b :: rest).takeWhile (· = tick)).length + n)).length <
      (b :: rest).length := by
  have hpos : 0 < ((b :: rest).takeWhile (· = tick)).length := by simp [hb]
  rw [List.length_drop, List.length_cons]
  omega

/-- The number of bytes up to the end of the next run of so many backticks. -/
def closingTicks (opening : Nat) : List UInt8 → Option Nat
  | [] => none
  | b :: rest =>
      if hb : b = tick then
        let run := ((b :: rest).takeWhile (· = tick)).length
        if run = opening then some run
        else (closingTicks opening ((b :: rest).drop run)).map (run + ·)
      else (closingTicks opening rest).map (1 + ·)
termination_by bytes => bytes.length
decreasing_by
  · exact length_drop_ticks hb rest 0
  · exact Nat.lt_succ_self _

/-- `mask_code_spans`. -/
def maskSpanBytes : List UInt8 → List UInt8
  | [] => []
  | b :: rest =>
      if _hb : b = tick then
        let opening := ((b :: rest).takeWhile (· = tick)).length
        match closingTicks opening ((b :: rest).drop opening) with
        | some n =>
            blankBytes ((b :: rest).take (opening + n)) ++
              maskSpanBytes ((b :: rest).drop (opening + n))
        | none => (b :: rest).take opening ++ maskSpanBytes ((b :: rest).drop opening)
      else b :: maskSpanBytes rest
termination_by bytes => bytes.length
decreasing_by
  · exact length_drop_ticks _hb rest n
  · exact length_drop_ticks _hb rest 0
  · exact Nat.lt_succ_self _

/-- The bytes of `mask_markdown_code`, line by line. -/
def maskBytesFrom (fence : Option Fence) : List (List Char) → List UInt8
  | [] => []
  | line :: rest =>
      (if fence.isSome || isFenceLine line then blankBytes (utf8 line)
        else maskSpanBytes (utf8 line)) ++ maskBytesFrom (maskFence fence line) rest

def maskBytes (text : List Char) : List UInt8 := maskBytesFrom none (splitInclusive text)

/-! ## Bytes and characters -/

theorem utf8_blank (text : List Char) : utf8 (blank text) = blankBytes (utf8 text) := by
  have hchar : blankChar = RustCode.blankChar := funext fun c => by
    rw [blankChar, RustCode.blankChar]
    split
    · rename_i hc
      rw [hc]
    · rfl
  rw [blankBytes, RustCode.map_blankByte, blank, RustCode.blanks, hchar]

theorem length_ticks (text : List Char) :
    ((utf8 text).takeWhile (· = tick)).length = (text.takeWhile (· = '`')).length := by
  have hrun : text.takeWhile (· = '`') =
      List.replicate (text.takeWhile (· = '`')).length '`' :=
    List.eq_replicate_iff.mpr ⟨rfl, fun c hc => by simpa using List.mem_takeWhile_imp hc⟩
  rw [tick, RustCode.takeWhile_eq_utf8 (by decide), hrun, RustCode.utf8_replicate (by decide),
    List.length_replicate, List.length_replicate]

theorem utf8_take_ticks (text : List Char) :
    (utf8 (text.take (text.takeWhile (· = '`')).length)).length =
      (text.takeWhile (· = '`')).length := by
  rw [← List.prefix_iff_eq_take.mp (List.takeWhile_prefix (fun c => decide (c = '`'))),
    ← length_ticks, tick, RustCode.takeWhile_eq_utf8 (by decide)]

theorem take_utf8_length (text : List Char) (n : Nat) :
    (utf8 text).take (utf8 (text.take n)).length = utf8 (text.take n) := by
  conv_lhs => rw [← List.take_append_drop n text, utf8_append]
  rw [List.take_append_drop, List.take_left]

theorem drop_utf8_length (text : List Char) (n : Nat) :
    (utf8 text).drop (utf8 (text.take n)).length = utf8 (text.drop n) := by
  conv_lhs => rw [← List.take_append_drop n text, utf8_append]
  rw [List.take_append_drop, List.drop_left]

theorem closingTicks_pass {bs : List UInt8} (h : ∀ b ∈ bs, b ≠ tick) (n : Nat)
    (rest : List UInt8) :
    closingTicks n (bs ++ rest) = (closingTicks n rest).map (bs.length + ·) := by
  induction bs with
  | nil =>
      cases hrest : closingTicks n rest <;> simp [hrest]
  | cons b bs ih =>
      rw [List.cons_append, closingTicks, dif_neg (h b List.mem_cons_self),
        ih fun b hb => h b (List.mem_cons_of_mem _ hb), Option.map_map]
      congr 1
      funext k
      simp only [Function.comp_apply, List.length_cons]
      omega

theorem utf8_tick (rest : List Char) : utf8 ('`' :: rest) = tick :: utf8 rest :=
  utf8_ascii (by decide) rest

theorem closingTicks_run (n : Nat) {rest : List UInt8} {run : Nat}
    (h : ((tick :: rest).takeWhile (· = tick)).length = run) :
    closingTicks n (tick :: rest) = if run = n then some run
      else (closingTicks n ((tick :: rest).drop run)).map (run + ·) := by
  subst h
  rw [closingTicks, dif_pos rfl]

theorem closingTicks_utf8 (n : Nat) (text : List Char) : closingTicks n (utf8 text) =
    (closingRun n text).map fun k => (utf8 (text.take k)).length := by
  fun_induction closingRun n text with
  | case1 => rw [utf8_nil, closingTicks, Option.map_none]
  | case2 rest run hrun =>
      have hticks := length_ticks ('`' :: rest)
      rw [utf8_tick] at hticks ⊢
      rw [closingTicks_run n hticks, if_pos hrun, Option.map_some, utf8_take_ticks]
  | case3 rest run hrun ih =>
      have hticks := length_ticks ('`' :: rest)
      have hdrop := drop_utf8_length ('`' :: rest) run
      rw [utf8_take_ticks] at hdrop
      rw [utf8_tick] at hticks hdrop ⊢
      rw [closingTicks_run n hticks, if_neg hrun, hdrop, ih, Option.map_map, Option.map_map]
      congr 1
      funext k
      simp only [Function.comp_apply]
      rw [List.take_add, utf8_append, List.length_append, utf8_take_ticks]
  | case4 c rest hc ih =>
      rw [utf8_cons, closingTicks_pass (Jsonc.pass_of_ne (by decide) hc), ih,
        Option.map_map, Option.map_map]
      congr 1
      funext k
      simp only [Function.comp_apply]
      rw [Nat.add_comm 1 k, List.take_succ_cons, utf8_cons, List.length_append]

theorem maskSpanBytes_pass {bs : List UInt8} (h : ∀ b ∈ bs, b ≠ tick) (rest : List UInt8) :
    maskSpanBytes (bs ++ rest) = bs ++ maskSpanBytes rest := by
  induction bs with
  | nil => rfl
  | cons b bs ih =>
      rw [List.cons_append, maskSpanBytes, dif_neg (h b List.mem_cons_self),
        ih fun b hb => h b (List.mem_cons_of_mem _ hb)]
      rfl

theorem maskSpanBytes_run {rest : List UInt8} {opening : Nat}
    (h : ((tick :: rest).takeWhile (· = tick)).length = opening) :
    maskSpanBytes (tick :: rest) =
      match closingTicks opening ((tick :: rest).drop opening) with
      | some n =>
          blankBytes ((tick :: rest).take (opening + n)) ++
            maskSpanBytes ((tick :: rest).drop (opening + n))
      | none => (tick :: rest).take opening ++ maskSpanBytes ((tick :: rest).drop opening) := by
  subst h
  rw [maskSpanBytes, dif_pos rfl]

theorem maskSpanBytes_utf8 (text : List Char) :
    maskSpanBytes (utf8 text) = utf8 (maskCodeSpans text) := by
  fun_induction maskCodeSpans text with
  | case1 => rw [utf8_nil, maskSpanBytes]
  | case2 rest n opening hn ih =>
      have hticks := length_ticks ('`' :: rest)
      have hdrop := drop_utf8_length ('`' :: rest) opening
      have htake := take_utf8_length ('`' :: rest) (opening + n)
      have hdrop' := drop_utf8_length ('`' :: rest) (opening + n)
      have hlength : (utf8 (('`' :: rest).take (opening + n))).length =
          opening + (utf8 ((('`' :: rest).drop opening).take n)).length := by
        rw [List.take_add, utf8_append, List.length_append, utf8_take_ticks]
      rw [utf8_take_ticks] at hdrop
      rw [hlength] at htake hdrop'
      rw [utf8_tick] at hticks hdrop htake hdrop' ⊢
      rw [maskSpanBytes_run hticks, hdrop, closingTicks_utf8, hn, Option.map_some]
      dsimp only
      rw [htake, hdrop', ih, utf8_append, utf8_blank]
  | case3 rest opening hn ih =>
      have hticks := length_ticks ('`' :: rest)
      have hdrop := drop_utf8_length ('`' :: rest) opening
      have htake := take_utf8_length ('`' :: rest) opening
      rw [utf8_take_ticks] at hdrop htake
      rw [utf8_tick] at hticks hdrop htake ⊢
      rw [maskSpanBytes_run hticks, hdrop, closingTicks_utf8, hn, Option.map_none]
      dsimp only
      rw [htake, ih, utf8_append]
  | case4 c rest hc ih =>
      rw [utf8_cons, maskSpanBytes_pass (Jsonc.pass_of_ne (by decide) hc), ih,
        utf8_cons]

theorem maskBytesFrom_eq (fence : Option Fence) (lines : List (List Char)) :
    maskBytesFrom fence lines = utf8 (maskLines fence lines).flatten := by
  induction lines generalizing fence with
  | nil => rfl
  | cons line rest ih =>
      rw [maskBytesFrom, maskLines, List.flatten_cons, utf8_append, ih]
      congr 1
      split
      · exact (utf8_blank line).symm
      · exact maskSpanBytes_utf8 line

theorem maskBytes_eq (text : List Char) : maskBytes text = utf8 (maskMarkdownCode text) :=
  maskBytesFrom_eq none _

theorem forall₂_blanks {text masked : List Char} (h : Blanks text masked) :
    List.Forall₂ RustCode.Blanked (utf8 masked) (utf8 text) := by
  induction h with
  | nil => exact .nil
  | keep c _ ih =>
      rw [utf8_cons, utf8_cons]
      exact List.rel_append (List.forall₂_same.mpr fun b _ => .inl rfl) ih
  | @blank p q c _ ih =>
      have hchar : utf8 (blankChar c) = (String.utf8EncodeChar c).map RustCode.blankByte := by
        have hblank := utf8_blank [c]
        rwa [blank, List.flatMap_singleton, blankBytes, utf8_cons, utf8_nil,
          List.append_nil] at hblank
      rw [utf8_append, utf8_cons, hchar]
      refine List.rel_append ?_ ih
      rw [List.forall₂_map_left_iff]
      exact List.forall₂_same.mpr fun b _ => RustCode.blanked_blankByte b

theorem blanks_flatten {lines masked : List (List Char)} (h : List.Forall₂ Blanks lines masked) :
    Blanks lines.flatten masked.flatten := by
  induction h with
  | nil => exact .nil
  | cons hline _ ih => exact hline.append ih

/-- A byte stays in its place, or a space stands there for a byte that is no newline. -/
theorem forall₂_maskBytes (text : List Char) :
    List.Forall₂ RustCode.Blanked (maskBytes text) (utf8 text) := by
  have hblanks := blanks_flatten (maskLines_blanks none (splitInclusive text))
  rw [flatten_splitInclusive] at hblanks
  rw [maskBytes_eq]
  exact forall₂_blanks hblanks

theorem newlines_take {masked bytes : List UInt8}
    (h : List.Forall₂ RustCode.Blanked masked bytes) (n : Nat) :
    newlines (masked.take n) = newlines (bytes.take n) := by
  induction h generalizing n with
  | nil => rfl
  | @cons out b _ _ hb _ ih =>
      cases n with
      | zero => rfl
      | succ n =>
          have hsame : (out = '\n'.toUInt8) = (b = '\n'.toUInt8) := by
            rcases hb with rfl | ⟨rfl, hb⟩
            · rfl
            · exact propext (iff_of_false (by decide) hb)
          have htail := ih n
          rw [newlines, newlines] at htail ⊢
          rw [List.take_succ_cons, List.take_succ_cons, List.countP_cons, List.countP_cons, htail]
          simp only [hsame]

theorem lineAt_maskBytes (text : List Char) : lineAt (maskBytes text) = lineAt (utf8 text) := by
  funext offset
  rw [lineAt, lineAt, newlines_take (forall₂_maskBytes text)]

/-! ## Code by the rule -/

/-- What is in front of a text that is not empty: its length, and whether it is a code span. `skip`
is the length of what holds no backtick of a span, behind the first text and in front of the
second. -/
def spanStep (skip : List Char → List Char → Nat) (front text : List Char) : Nat × Bool :=
  match skip front text with
  | n + 1 => (n + 1, false)
  | 0 =>
      let opening := (text.takeWhile (· = '`')).length
      if opening = 0 then (1, false)
      else
        match closingRun opening (text.drop opening) with
        | some n => (opening + n, true)
        | none => (opening, false)

theorem spanStep_pos (skip : List Char → List Char → Nat) (front text : List Char) :
    0 < (spanStep skip front text).1 := by
  rw [spanStep]
  split
  · exact Nat.succ_pos _
  · dsimp only
    split
    · exact Nat.one_pos
    · split <;> omega

/-- The characters of a text, each with whether it is in a code span. -/
def spanMarks (skip : List Char → List Char → Nat) (front : List Char) :
    List Char → List (Char × Bool)
  | [] => []
  | c :: rest =>
      let step := spanStep skip front (c :: rest)
      ((c :: rest).take step.1).map (·, step.2) ++
        spanMarks skip (front ++ (c :: rest).take step.1) ((c :: rest).drop step.1)
termination_by text => text.length
decreasing_by
  have hpos := spanStep_pos skip front (c :: rest)
  rw [List.length_drop, List.length_cons]
  omega

/-- What CommonMark says of blocks and inline content and is not told here: whether a line goes on
with the block of the lines in front of it, and the length of what is at a place of a block and
has no code span in it, as an autolink, an HTML tag, or all of a block that is not inline
content. -/
structure Inlines where
  joins : List (List Char) → List Char → Bool
  whole : List Char → List Char → Nat

def isAsciiPunctuation (c : Char) : Bool :=
  (0x21 ≤ c.toNat ∧ c.toNat ≤ 0x2F) ∨ (0x3A ≤ c.toNat ∧ c.toNat ≤ 0x40) ∨
    (0x5B ≤ c.toNat ∧ c.toNat ≤ 0x60) ∨ (0x7B ≤ c.toNat ∧ c.toNat ≤ 0x7E)

/-- A backslash and the punctuation that it escapes go together. -/
def Inlines.skip (r : Inlines) (front text : List Char) : Nat :=
  match text with
  | '\\' :: c :: _ => if isAsciiPunctuation c then 2 else r.whole front text
  | _ => r.whole front text

/-- The lines behind a block that is still open, each character with whether it is code: fences go
by `fenceRule`, and code spans go through the lines of a block. -/
def ruleMarks (r : Inlines) (fence : Option Fence) (block : List (List Char)) :
    List (List Char) → List (Char × Bool)
  | [] => spanMarks r.skip [] block.flatten
  | line :: rest =>
      if fence.isSome || (fenceRule fence line).isSome then
        spanMarks r.skip [] block.flatten ++ line.map (·, true) ++
          ruleMarks r (fenceRule fence line) [] rest
      else if r.joins block line then ruleMarks r none (block ++ [line]) rest
      else spanMarks r.skip [] block.flatten ++ ruleMarks r none [line] rest

/-- The fenced blocks and the code spans of a text. -/
def codeMarks (r : Inlines) (text : List Char) : List (Char × Bool) :=
  ruleMarks r none [] (splitInclusive text)

/-- The bytes of every character that is not code are what they were. -/
def OnlyCode (r : Inlines) (text : List Char) : Prop :=
  ∀ before c after, text = before ++ c :: after →
    (codeMarks r text)[before.length]? = some (c, false) →
      ((maskBytes text).drop (utf8 before).length).take (String.utf8EncodeChar c).length =
        String.utf8EncodeChar c

/-! ### One line after the other -/

/-- Code when each line is read by itself: a line with three marks opens a fence, whatever is
behind them, white space of any kind may be behind those that close it, and code spans are in a
line, with nothing escaped. -/
def lineMarks (fence : Option Fence) : List (List Char) → List (Char × Bool)
  | [] => []
  | line :: rest =>
      (if fence.isSome || isFenceLine line then line.map (·, true)
        else spanMarks (fun _ _ => 0) [] line) ++ lineMarks (maskFence fence line) rest

def Visible (c : Char) : Prop := c ≠ ' ' ∧ c ≠ '\n'

/-- What is code to one who reads line by line is code, blanks and line breaks aside. -/
def ReadsAlike (r : Inlines) (text : List Char) : Prop :=
  List.Forall₂ (fun own rule => own.2 = true → Visible own.1 → rule.2 = true)
    (lineMarks none (splitInclusive text)) (codeMarks r text)

theorem map_fst_spanMarks (skip : List Char → List Char → Nat) (front text : List Char) :
    (spanMarks skip front text).map Prod.fst = text := by
  fun_induction spanMarks skip front text with
  | case1 => rfl
  | case2 front c rest step ih =>
      rw [List.map_append, ih, List.map_map]
      exact (congrArg (· ++ _) (List.map_id _)).trans (List.take_append_drop _ _)

theorem map_fst_line (line : List Char) (code : Bool) :
    (line.map (·, code)).map Prod.fst = line := by
  rw [List.map_map]
  exact List.map_id line

theorem map_fst_ruleMarks (r : Inlines) (fence : Option Fence) (block lines : List (List Char)) :
    (ruleMarks r fence block lines).map Prod.fst = block.flatten ++ lines.flatten := by
  induction lines generalizing fence block with
  | nil => rw [ruleMarks, map_fst_spanMarks, List.flatten_nil, List.append_nil]
  | cons line rest ih =>
      rw [ruleMarks, List.flatten_cons]
      split
      · rw [List.map_append, List.map_append, ih, map_fst_spanMarks, map_fst_line,
          List.flatten_nil, List.nil_append, List.append_assoc]
      · split
        · rw [ih, List.flatten_append, List.flatten_singleton, List.append_assoc]
        · rw [List.map_append, ih, map_fst_spanMarks, List.flatten_singleton]

theorem map_fst_lineMarks (fence : Option Fence) (lines : List (List Char)) :
    (lineMarks fence lines).map Prod.fst = lines.flatten := by
  induction lines generalizing fence with
  | nil => rfl
  | cons line rest ih =>
      rw [lineMarks, List.map_append, ih, List.flatten_cons]
      congr 1
      split
      · exact map_fst_line line true
      · exact map_fst_spanMarks _ _ _

/-! ### What is blanked -/

def maskMark (mark : Char × Bool) : List Char :=
  if mark.2 then blankChar mark.1 else [mark.1]

theorem maskMarks_code (text : List Char) :
    (text.map (·, true)).flatMap maskMark = blank text := by
  rw [List.flatMap_map]
  rfl

theorem maskMarks_text (text : List Char) :
    (text.map (·, false)).flatMap maskMark = text := by
  rw [List.flatMap_map]
  exact List.flatMap_singleton' text

theorem spanStep_ticks (front : List Char) {text : List Char} {opening : Nat}
    (h : (text.takeWhile (· = '`')).length = opening) (hne : opening ≠ 0) :
    spanStep (fun _ _ => 0) front text =
      match closingRun opening (text.drop opening) with
      | some n => (opening + n, true)
      | none => (opening, false) := by
  subst h
  exact if_neg hne

theorem maskCodeSpans_eq (front text : List Char) :
    maskCodeSpans text = (spanMarks (fun _ _ => 0) front text).flatMap maskMark := by
  fun_induction maskCodeSpans text generalizing front with
  | case1 => rw [spanMarks, List.flatMap_nil]
  | case2 rest n opening hn ih =>
      have hrun : (('`' :: rest).takeWhile (· = '`')).length = opening := rfl
      rw [spanMarks, spanStep_ticks front hrun (by simp [opening]), hn, List.flatMap_append,
        maskMarks_code, ← ih]
  | case3 rest opening hn ih =>
      have hrun : (('`' :: rest).takeWhile (· = '`')).length = opening := rfl
      rw [spanMarks, spanStep_ticks front hrun (by simp [opening]), hn, List.flatMap_append,
        maskMarks_text, ← ih]
  | case4 c rest hc ih =>
      have hopen : ((c :: rest).takeWhile (· = '`')).length = 0 := by simp [hc]
      have hstep : spanStep (fun _ _ => 0) front (c :: rest) = (1, false) := if_pos hopen
      rw [spanMarks, hstep, List.flatMap_append, maskMarks_text, ih (front ++ [c])]
      rfl

theorem maskLines_eq (fence : Option Fence) (lines : List (List Char)) :
    (maskLines fence lines).flatten = (lineMarks fence lines).flatMap maskMark := by
  induction lines generalizing fence with
  | nil => rfl
  | cons line rest ih =>
      rw [maskLines, lineMarks, List.flatten_cons, List.flatMap_append, ih]
      congr 1
      split
      · exact (maskMarks_code line).symm
      · exact maskCodeSpans_eq [] line

theorem length_maskMark (mark : Char × Bool) :
    (utf8 (maskMark mark)).length = (String.utf8EncodeChar mark.1).length := by
  rw [maskMark]
  split
  · have hblank := utf8_blank [mark.1]
    rw [blank, List.flatMap_singleton] at hblank
    rw [hblank, blankBytes, List.length_map, utf8_cons, utf8_nil, List.append_nil]
  · rw [utf8_cons, utf8_nil, List.append_nil]

/-- The bytes of a character stay just where it is no code, or cannot be seen. -/
theorem utf8_maskMark_iff (mark : Char × Bool) :
    utf8 (maskMark mark) = String.utf8EncodeChar mark.1 ↔ (mark.2 = true → ¬ Visible mark.1) := by
  obtain ⟨c, code⟩ := mark
  have hself : utf8 [c] = String.utf8EncodeChar c := by rw [utf8_cons, utf8_nil, List.append_nil]
  cases code with
  | false => exact iff_of_true hself nofun
  | true =>
      show utf8 (blankChar c) = _ ↔ _
      by_cases hbreak : c = '\n'
      · subst hbreak
        exact iff_of_true rfl fun _ hsee => hsee.2 rfl
      · by_cases hspace : c = ' '
        · subst hspace
          exact iff_of_true rfl fun _ hsee => hsee.1 rfl
        · refine iff_of_false (fun h => ?_) fun h => h rfl ⟨hspace, hbreak⟩
          rw [blankChar, if_neg hbreak, ← hself] at h
          -- the two texts are read back from their bytes
          have hread := congrArg fromUtf8Lossy h
          rw [fromUtf8Lossy_utf8, fromUtf8Lossy_utf8] at hread
          have hmem : c ∈ List.replicate c.utf8Size ' ' := hread ▸ List.mem_cons_self
          exact hspace (List.eq_of_mem_replicate hmem)

theorem utf8_marks (marks : List (Char × Bool)) :
    (utf8 (marks.flatMap maskMark)).length = (utf8 (marks.map Prod.fst)).length := by
  induction marks with
  | nil => rfl
  | cons mark marks ih =>
      rw [List.flatMap_cons, utf8_append, List.map_cons, utf8_cons, List.length_append,
        List.length_append, ih, length_maskMark]

/-- The bytes that stand at the place of a character. -/
theorem bytes_at {marks : List (Char × Bool)} {before after : List Char} {c : Char}
    (hmarks : marks.map Prod.fst = before ++ c :: after) :
    ∃ code, marks[before.length]? = some (c, code) ∧
      ((utf8 (marks.flatMap maskMark)).drop (utf8 before).length).take
        (String.utf8EncodeChar c).length = utf8 (maskMark (c, code)) := by
  obtain ⟨front, back, rfl, rfl, hback⟩ := List.map_eq_append_iff.mp hmarks
  obtain ⟨⟨d, code⟩, back, rfl, rfl, rfl⟩ := List.map_eq_cons_iff.mp hback
  refine ⟨code, by simp, ?_⟩
  rw [List.flatMap_append, utf8_append, List.flatMap_cons, utf8_append,
    List.drop_left' (utf8_marks front), List.take_left' (length_maskMark (d, code))]

theorem onlyCode_iff (r : Inlines) (text : List Char) : OnlyCode r text ↔ ReadsAlike r text := by
  have hown : (lineMarks none (splitInclusive text)).map Prod.fst = text := by
    rw [map_fst_lineMarks, flatten_splitInclusive]
  have hrule : (codeMarks r text).map Prod.fst = text := by
    rw [codeMarks, map_fst_ruleMarks, flatten_splitInclusive]
    rfl
  have hbytes : maskBytes text =
      utf8 ((lineMarks none (splitInclusive text)).flatMap maskMark) := by
    rw [maskBytes_eq, maskMarkdownCode, maskLines_eq]
  have hlength : (lineMarks none (splitInclusive text)).length = (codeMarks r text).length := by
    rw [← List.length_map Prod.fst, hown, ← List.length_map Prod.fst, hrule]
  rw [OnlyCode, ReadsAlike, hbytes, List.forall₂_iff_get]
  generalize lineMarks none (splitInclusive text) = own at hown hlength ⊢
  generalize codeMarks r text = rule at hrule hlength ⊢
  constructor
  · refine fun h => ⟨hlength, fun i hi hi' hcode hsee => ?_⟩
    have htext : text = (own.take i).map Prod.fst ++
        (own.get ⟨i, hi⟩).1 :: (own.drop (i + 1)).map Prod.fst := by
      rw [← List.map_cons, List.get_eq_getElem, List.getElem_cons_drop, ← List.map_append,
        List.take_append_drop, hown]
    have hbefore : ((own.take i).map Prod.fst).length = i := by
      rw [List.length_map, List.length_take, Nat.min_eq_left hi.le]
    have hsame : (rule.get ⟨i, hi'⟩).1 = (own.get ⟨i, hi⟩).1 := by
      have hget := congrArg (fun chars => chars[i]?) (hrule.trans hown.symm)
      simpa [hi, hi'] using hget
    obtain ⟨code, hmark, hat⟩ := bytes_at (hown.trans htext)
    rw [hbefore, List.getElem?_eq_getElem hi] at hmark
    by_contra hnot
    have hkept := h _ _ _ htext (by
      rw [hbefore, List.getElem?_eq_getElem hi', ← hsame]
      exact congrArg some (Prod.ext rfl (Bool.eq_false_iff.mpr hnot)))
    obtain rfl : true = code := hcode.symm.trans (congrArg Prod.snd (Option.some.inj hmark))
    exact (utf8_maskMark_iff _).mp (hat.symm.trans hkept) rfl hsee
  · rintro ⟨-, h⟩ before c after htext hcode
    obtain ⟨code, hmark, hat⟩ := bytes_at (hown.trans htext)
    rw [hat]
    refine (utf8_maskMark_iff (c, code)).mpr fun hown hsee => ?_
    obtain ⟨hi, hmark⟩ := List.getElem?_eq_some_iff.mp hmark
    obtain ⟨hi', hcode⟩ := List.getElem?_eq_some_iff.mp hcode
    have hat := h before.length hi hi'
    rw [List.get_eq_getElem, List.get_eq_getElem, hmark, hcode] at hat
    cases hat hown hsee

/-- Lines that are not blank make up paragraphs of plain text. -/
def paragraphs : Inlines where
  joins _ line := !(trim line).isEmpty
  whole _ _ := 0

end Markdowns

end Dagayn
