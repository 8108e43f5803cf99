import Dagayn.CfgTest
import Dagayn.MarkdownMask

/-!
# Fenced code in three scanners

`mask_markdown_code`, `extract_markdown_doc_bodies` and `collect_markdown_headings_from_text` go
over the lines of a text one by one. The first keeps the character and the length of the open
fence, the second only its character, and the third knows nothing of fences. `fenceRule` is the
rule they are held against; `keepsToRule_iff` says for which texts all three keep to it.
-/

namespace Dagayn

namespace Markdowns

/-! ## The rule -/

/-- The rule for fences: at most three spaces, a run of three or more characters, and no backtick
behind a run of backticks; what closes is a run of the same character, as long or longer, with
nothing behind it. A line comes with its line break. -/
def fenceRule (fence : Option Fence) (line : List Char) : Option Fence :=
  let trimmed := line.dropWhile (· = ' ')
  let indent := line.length - trimmed.length
  let behind := trimmed.drop (runOf trimmed)
  match fence with
  | none =>
      if indent ≤ 3 ∧ 3 ≤ runOf trimmed ∧ (trimmed.head? = some '`' → '`' ∉ behind) then
        trimmed.head?.map (·, runOf trimmed)
      else none
  | some (c, len) =>
      if indent ≤ 3 ∧ trimmed.head? = some c ∧ len ≤ runOf trimmed ∧
          behind.all (fun d => d = ' ' ∨ d = '\t' ∨ d = '\r' ∨ d = '\n') then none
      else some (c, len)

def Fenced (lines : List (List Char)) (lineNo : Int) : Prop :=
  ∃ i < lines.length, lineNo = i + 1 ∧ InFence fenceRule lines i

/-! ## One line -/

def bodyFence (fence : Option (List Char)) (line : List Char) : Option (List Char) :=
  nextFence fence (fenceMarker (trim line))

/-- A line of a marker outside of a fence opens one, and a line of the marker of the open fence
closes it. -/
def Regular (fence : Option Fence) (line : List Char) : Prop :=
  match fence with
  | none => fenceMarker (trim line) ≠ none → fenceRule none line ≠ none
  | some f => fenceMarker (trim line) = some (List.replicate 3 f.1) → fenceRule (some f) line = none

/-- The fence of the rule and that of the bodies have one character. -/
def Synced : Option Fence → Option (List Char) → Prop
  | none, none => True
  | some f, some marker => marker = List.replicate 3 f.1 ∧ 3 ≤ f.2
  | _, _ => False

theorem Synced.isSome_eq {f : Option Fence} {b : Option (List Char)} (h : Synced f b) :
    b.isSome = f.isSome := by
  cases f <;> cases b <;> first | rfl | cases h

theorem fenceRule_none_eq_some {line : List Char} {f : Fence} (h : fenceRule none line = some f) :
    isFenceLine line = true ∧ (line.dropWhile (· = ' ')).head? = some f.1 ∧
      f.2 = runOf (line.dropWhile (· = ' ')) := by
  rw [fenceRule] at h
  split at h
  · rename_i hcond
    obtain ⟨c, hc, rfl⟩ := Option.map_eq_some_iff.mp h
    exact ⟨by simp [isFenceLine, hcond.1, hcond.2.1], hc, rfl⟩
  · cases h

theorem opens_of_rule {line : List Char} {f : Fence} (h : fenceRule none line = some f) :
    maskFence none line = some f ∧ Synced (some f) (bodyFence none line) := by
  obtain ⟨hline, hhead, hrun⟩ := fenceRule_none_eq_some h
  obtain ⟨c, hc, -, hmarker⟩ := fenceMarker_of_run (runOf_of_isFenceLine hline)
  obtain rfl : c = f.1 := Option.some.inj (hc.symm.trans hhead)
  constructor
  · rw [maskFence, if_pos hline, hhead, Option.map_some, ← hrun]
  · rw [bodyFence, hmarker]
    exact ⟨rfl, hrun ▸ runOf_of_isFenceLine hline⟩

theorem closes_of_rule {line : List Char} {f : Fence} (hlen : 3 ≤ f.2)
    (h : fenceRule (some f) line = none) :
    maskFence (some f) line = none ∧ fenceMarker (trim line) = some (List.replicate 3 f.1) := by
  obtain ⟨c, len⟩ := f
  rw [fenceRule] at h
  split at h
  · rename_i hcond
    obtain ⟨hindent, hhead, hle, hblank⟩ := hcond
    have hrun : 3 ≤ runOf (line.dropWhile (· = ' ')) := le_trans hlen hle
    have hline : isFenceLine line = true := by simp [isFenceLine, hindent, hrun]
    obtain ⟨d, hd, -, hmarker⟩ := fenceMarker_of_run hrun
    obtain rfl : d = c := Option.some.inj (hd.symm.trans hhead)
    refine ⟨if_pos ⟨hline, hhead, hle, RustModules.trim_blank fun e he => ?_⟩, hmarker⟩
    rcases forall_mem_of_all hblank e he with rfl | rfl | rfl | rfl <;> decide
  · cases h

theorem fenceRule_some_eq_some {line : List Char} {f g : Fence}
    (h : fenceRule (some f) line = some g) : g = f := by
  rw [fenceRule] at h
  split at h
  · cases h
  · exact (Option.some.inj h).symm

theorem bodyFence_some (marker line : List Char) :
    bodyFence (some marker) line =
      if fenceMarker (trim line) = some marker then none else some marker := by
  rw [bodyFence]
  cases fenceMarker (trim line) with
  | none => rfl
  | some marker' =>
      rw [nextFence]
      refine if_congr ?_ rfl rfl
      rw [Option.some.injEq, eq_comm]

theorem maskFence_of_regular {fence : Option Fence} {line : List Char}
    (hlen : ∀ f ∈ fence, 3 ≤ f.2) (h : Regular fence line) :
    maskFence fence line = fenceRule fence line := by
  cases fence with
  | none =>
      cases hrule : fenceRule none line with
      | some f => exact (opens_of_rule hrule).1
      | none =>
          by_cases hline : isFenceLine line = true
          · obtain ⟨c, -, -, hmarker⟩ := fenceMarker_of_run (runOf_of_isFenceLine hline)
            exact absurd hrule (h (by rw [hmarker]; exact Option.some_ne_none _))
          · exact if_neg hline
  | some f =>
      have hlen := hlen f rfl
      obtain ⟨c, len⟩ := f
      cases hrule : fenceRule (some (c, len)) line with
      | none => exact (closes_of_rule hlen hrule).1
      | some f =>
          rw [fenceRule_some_eq_some hrule]
          refine if_neg fun hclose => ?_
          obtain ⟨d, hd, -, hmarker⟩ := fenceMarker_of_run (runOf_of_isFenceLine hclose.1)
          obtain rfl : d = c := Option.some.inj (hd.symm.trans hclose.2.1)
          rw [h hmarker] at hrule
          cases hrule

/-- The scanner of the bodies keeps to the rule on a line exactly when the line is regular. -/
theorem isSome_bodyFence_iff {fence : Option Fence} {b : Option (List Char)} {line : List Char}
    (hs : Synced fence b) :
    (bodyFence b line).isSome = (fenceRule fence line).isSome ↔ Regular fence line := by
  cases fence with
  | none =>
      cases b with
      | some marker => cases hs
      | none =>
          cases hrule : fenceRule none line with
          | some f =>
              have hbody := (opens_of_rule hrule).2.isSome_eq
              exact ⟨fun _ _ => by rw [hrule]; exact Option.some_ne_none _, fun _ => hbody⟩
          | none =>
              rw [Regular, hrule, bodyFence]
              cases fenceMarker (trim line) <;> simp [nextFence]
  | some f =>
      cases b with
      | none => cases hs
      | some marker =>
          obtain ⟨rfl, hlen⟩ := hs
          rw [bodyFence_some]
          cases hrule : fenceRule (some f) line with
          | none =>
              rw [if_pos (closes_of_rule hlen hrule).2]
              exact ⟨fun _ _ => hrule, fun _ => rfl⟩
          | some g =>
              rw [Regular, hrule]
              split
              · rename_i hmarker
                exact ⟨fun h => (nomatch h), fun h => absurd (h hmarker) (Option.some_ne_none g)⟩
              · rename_i hmarker
                exact ⟨fun _ hmarker' => absurd hmarker' hmarker, fun _ => rfl⟩

theorem Synced.next {fence : Option Fence} {b : Option (List Char)} {line : List Char}
    (hs : Synced fence b) (h : Regular fence line) :
    Synced (fenceRule fence line) (bodyFence b line) := by
  have hsome := (isSome_bodyFence_iff hs).mpr h
  cases hrule : fenceRule fence line with
  | none =>
      rw [hrule, Option.isSome_none, Option.isSome_eq_false_iff, Option.isNone_iff_eq_none] at hsome
      rw [hsome]
      trivial
  | some g =>
      cases fence with
      | none =>
          cases b with
          | some marker => cases hs
          | none => exact (opens_of_rule hrule).2
      | some f =>
          cases b with
          | none => cases hs
          | some marker =>
              rw [hrule, Option.isSome_some, bodyFence_some] at hsome
              rw [fenceRule_some_eq_some hrule, bodyFence_some]
              split at hsome
              · cases hsome
              · rename_i hmarker
                rw [if_neg hmarker]
                exact hs

/-! ## All lines -/

section Lines

variable (lines : List (List Char))

theorem synced_of_regular
    (h : ∀ i line, lines[i]? = some line → Regular (openBefore fenceRule lines i) line) (i : Nat) :
    Synced (openBefore fenceRule lines i) (openBefore bodyFence lines i) ∧
      openBefore maskFence lines i = openBefore fenceRule lines i := by
  induction i with
  | zero => exact ⟨trivial, rfl⟩
  | succ i ih =>
      obtain ⟨hsync, hmask⟩ := ih
      cases hline : lines[i]? with
      | none =>
          have hle := List.getElem?_eq_none_iff.mp hline
          simp only [openBefore_of_ge _ hle, openBefore_of_ge _ (Nat.le_succ_of_le hle)]
            at hsync hmask ⊢
          exact ⟨hsync, hmask⟩
      | some line =>
          have hreg := h i line hline
          rw [openBefore_succ _ hline, openBefore_succ _ hline, openBefore_succ _ hline]
          refine ⟨hsync.next hreg, ?_⟩
          rw [hmask]
          refine maskFence_of_regular (fun f hf => ?_) hreg
          rw [Option.mem_def.mp hf] at hsync
          cases hb : openBefore bodyFence lines i with
          | none =>
              rw [hb] at hsync
              cases hsync
          | some marker =>
              rw [hb] at hsync
              exact hsync.2

theorem regular_of_agree
    (h : ∀ i, (openBefore bodyFence lines i).isSome = (openBefore fenceRule lines i).isSome)
    {i : Nat} {line : List Char} (hline : lines[i]? = some line) :
    Regular (openBefore fenceRule lines i) line := by
  have hsync : ∀ j ≤ i, Synced (openBefore fenceRule lines j) (openBefore bodyFence lines j) := by
    intro j
    induction j with
    | zero => exact fun _ => trivial
    | succ j ih =>
        intro hj
        have hlt : j < lines.length := by
          have := (List.getElem?_eq_some_iff.mp hline).1
          omega
        have hget : lines[j]? = some lines[j] := List.getElem?_eq_getElem hlt
        have hagree := h (j + 1)
        have hs := ih (by omega)
        rw [openBefore_succ _ hget, openBefore_succ _ hget] at hagree ⊢
        exact hs.next ((isSome_bodyFence_iff hs).mp hagree)
  have hagree := h (i + 1)
  rw [openBefore_succ _ hline, openBefore_succ _ hline] at hagree
  exact (isSome_bodyFence_iff (hsync i le_rfl)).mp hagree

end Lines

/-! ## Headings -/

/-- The form of a heading: its first line, and the line behind it. -/
def HeadingForm (line : List Char) (next : Option (List Char)) : Prop :=
  if (trim line).head? = some '#' then (atxHeading (trim line)).isSome = true
  else trim line ≠ [] ∧ (next.bind fun under => underlineLevel (trim under)).isSome = true

theorem form_of_headingsFrom (lineNo : Int) (lines : List (List Char)) :
    ∀ h ∈ headingsFrom lineNo lines, ∃ (i : Nat) (line : List Char),
      lines[i]? = some line ∧ h.2.2 = lineNo + i ∧ HeadingForm line lines[i + 1]? := by
  fun_induction headingsFrom lineNo lines with
  | case1 => exact fun h hh => absurd hh List.not_mem_nil
  | case2 lineNo line rest stripped hhash title level hatx ih =>
      intro h hh
      rcases List.mem_cons.mp hh with rfl | hh
      · refine ⟨0, line, rfl, by simp, ?_⟩
        rw [HeadingForm, if_pos hhash, hatx]
        rfl
      · obtain ⟨i, line', hline, hno, hform⟩ := ih h hh
        exact ⟨i + 1, line', hline, by push_cast; omega, hform⟩
  | case3 lineNo line rest stripped hhash hatx ih =>
      intro h hh
      obtain ⟨i, line', hline, hno, hform⟩ := ih h hh
      exact ⟨i + 1, line', hline, by push_cast; omega, hform⟩
  | case4 => exact fun h hh => absurd hh List.not_mem_nil
  | case5 lineNo line stripped hhash under rest level hlevel ih =>
      intro h hh
      rcases List.mem_cons.mp hh with rfl | hh
      · refine ⟨0, line, rfl, by simp, ?_⟩
        rw [HeadingForm, if_neg hhash]
        split at hlevel
        · cases hlevel
        · rename_i hne
          exact ⟨hne, by simp [hlevel]⟩
      · obtain ⟨i, line', hline, hno, hform⟩ := ih h hh
        exact ⟨i + 2, line', hline, by push_cast; omega, hform⟩
  | case6 lineNo line stripped hhash under rest hlevel ih =>
      intro h hh
      obtain ⟨i, line', hline, hno, hform⟩ := ih h hh
      exact ⟨i + 1, line', hline, by push_cast; omega, hform⟩

def HeadedAt (headings : List RawHeading) (lineNo : Int) (i : Nat) (line : List Char) : Prop :=
  (∃ h ∈ headings, h.2.2 = lineNo + i) ∨
    (∃ j : Nat, i = j + 1 ∧ ∃ h ∈ headings, h.2.2 = lineNo + j) ∧
      (underlineLevel (trim line)).isSome

theorem HeadedAt.later {headings headings' : List RawHeading} {lineNo : Int} {i k : Nat}
    {line : List Char} (h : HeadedAt headings (lineNo + k) i line) (hsub : headings ⊆ headings') :
    HeadedAt headings' lineNo (i + k) line := by
  rcases h with ⟨g, hg, hline⟩ | ⟨⟨j, rfl, g, hg, hline⟩, hunder⟩
  · exact .inl ⟨g, hsub hg, by push_cast; omega⟩
  · exact .inr ⟨⟨j + k, by omega, g, hsub hg, by push_cast; omega⟩, hunder⟩

theorem headedAt_of_form (lineNo : Int) (lines : List (List Char)) :
    ∀ (i : Nat) (line : List Char), lines[i]? = some line → HeadingForm line lines[i + 1]? →
      HeadedAt (headingsFrom lineNo lines) lineNo i line := by
  fun_induction headingsFrom lineNo lines with
  | case1 => exact fun i line h => by cases h
  | case2 lineNo line rest stripped hhash title level hatx ih =>
      intro i line' hline hform
      cases i with
      | zero => exact .inl ⟨_, List.mem_cons_self, by simp⟩
      | succ i =>
          exact HeadedAt.later (ih i line' hline hform) (List.subset_cons_self _ _)
  | case3 lineNo line rest stripped hhash hatx ih =>
      intro i line' hline hform
      cases i with
      | zero =>
          obtain rfl : line = line' := Option.some.inj hline
          rw [HeadingForm, if_pos hhash, hatx] at hform
          cases hform
      | succ i => exact HeadedAt.later (ih i line' hline hform) (List.Subset.refl _)
  | case4 lineNo line stripped hhash =>
      intro i line' hline hform
      cases i with
      | zero =>
          obtain rfl : line = line' := Option.some.inj hline
          rw [HeadingForm, if_neg hhash] at hform
          cases hform.2
      | succ i => cases hline
  | case5 lineNo line stripped hhash under rest level hlevel ih =>
      intro i line' hline hform
      cases i with
      | zero => exact .inl ⟨_, List.mem_cons_self, by simp⟩
      | succ i =>
          cases i with
          | zero =>
              obtain rfl : under = line' := Option.some.inj hline
              split at hlevel
              · cases hlevel
              · exact .inr ⟨⟨0, rfl, _, List.mem_cons_self, by simp⟩, by rw [hlevel]; rfl⟩
          | succ i =>
              change HeadedAt _ lineNo (i + 2) line'
              exact HeadedAt.later (ih i line' hline hform) (List.subset_cons_self _ _)
  | case6 lineNo line stripped hhash under rest hlevel ih =>
      intro i line' hline hform
      cases i with
      | zero =>
          obtain rfl : line = line' := Option.some.inj hline
          rw [HeadingForm, if_neg hhash] at hform
          rw [dif_neg hform.1] at hlevel
          have hunder : (underlineLevel (trim under)).isSome := hform.2
          rw [hlevel] at hunder
          cases hunder
      | succ i => exact HeadedAt.later (ih i line' hline hform) (List.Subset.refl _)

theorem fenceMarker_of_underline {line : List Char} (h : (underlineLevel (trim line)).isSome) :
    fenceMarker (trim line) = none := by
  cases htrim : trim line with
  | nil => rfl
  | cons c rest =>
      have hc : c = '=' ∨ c = '-' := by
        rw [htrim, underlineLevel, if_neg (List.cons_ne_nil _ _)] at h
        split at h
        · rename_i hall
          exact .inl (by simpa using List.all_eq_true.mp hall c List.mem_cons_self)
        · split at h
          · rename_i hall
            exact .inr (by simpa using List.all_eq_true.mp hall c List.mem_cons_self)
          · cases h
      rcases hc with rfl | rfl <;> rfl

/-! ## Blocks -/

def endsBlock (headingLines : List Int) (lineNo : Int) (line : List Char) : Bool :=
  let trimmed := trim line
  trimmed = [] || lineNo ∈ headingLines ||
    (lineNo - 1 ∈ headingLines && trimmed ≠ [] &&
      (trimmed.all (· = '=') || trimmed.all (· = '-'))) ||
    isMarkdownNonBodyLine trimmed

theorem skips_eq (headingLines : List Int) (fence : Option (List Char)) (lineNo : Int)
    (line : List Char) :
    skips headingLines fence lineNo line =
      (!(fence.isSome || (bodyFence fence line).isSome) && endsBlock headingLines lineNo line) := by
  rw [skips, endsBlock, bodyFence]
  cases fence with
  | some marker => rfl
  | none => cases fenceMarker (trim line) <;> rfl

theorem skips_congr (headingLines : List Int) (fence : Option (List Char)) (lineNo : Int)
    {line line' : List Char} (h : trim line = trim line') :
    skips headingLines fence lineNo line = skips headingLines fence lineNo line' := by
  rw [skips, skips, h]

theorem getElem?_skipFlags (headingLines : List Int) (fence : Option (List Char)) (lineNo : Int)
    (lines : List (List Char)) (i : Nat) :
    (skipFlags headingLines fence lineNo lines)[i]? = lines[i]?.map fun line =>
      skips headingLines ((lines.take i).foldl bodyFence fence) (lineNo + i) line := by
  induction lines generalizing fence lineNo i with
  | nil => rfl
  | cons line rest ih =>
      cases i with
      | zero => simp [skipFlags]
      | succ i =>
          rw [skipFlags, List.getElem?_cons_succ, List.getElem?_cons_succ, ih]
          refine congrArg (fun f => rest[i]?.map f) (funext fun later => ?_)
          have hno : lineNo + 1 + (i : Int) = lineNo + (i + 1 : Nat) := by
            push_cast
            omega
          rw [hno]
          rfl

theorem foldl_bodyFence_congr {lines lines' : List (List Char)}
    (h : lines.map trim = lines'.map trim) (fence : Option (List Char)) (i : Nat) :
    (lines.take i).foldl bodyFence fence = (lines'.take i).foldl bodyFence fence := by
  have hfold : ∀ lines : List (List Char), (lines.take i).foldl bodyFence fence =
      ((lines.map trim).take i).foldl (fun fence t => nextFence fence (fenceMarker t)) fence := by
    intro lines
    rw [← List.map_take, List.foldl_map]
    rfl
  rw [hfold, hfold, h]

/-! ## The scanners and the rule -/

/-- The three scanners keep to the rule: the mask and the bodies have the same fences open, the
blocks end at lines outside of fences and go through the lines inside, and no heading, comment or
link starts in a fence. -/
structure KeepsToRule (text : List Char) : Prop where
  mask : ∀ i, (openBefore maskFence (splitInclusive text) i).isSome =
    (openBefore fenceRule (splitInclusive text) i).isSome
  bodies : ∀ i, (openBefore bodyFence (splitInclusive text) i).isSome =
    (openBefore fenceRule (splitInclusive text) i).isSome
  blocks : ∀ headingLines (i : Nat) (line : List Char), (splitInclusive text)[i]? = some line →
    (skipFlags headingLines none 1 (Scip.lines text))[i]? =
      some (!decide (InFence fenceRule (splitInclusive text) i) &&
        endsBlock headingLines (1 + i) line)
  headings : ∀ h ∈ collectMarkdownHeadingsFromText text, ¬ Fenced (splitInclusive text) h.2.2
  comments : ∀ c ∈ comments (maskMarkdownCode text), ¬ Fenced (splitInclusive text) c.1
  links : ∀ l ∈ referenceLinks (maskMarkdownCode text) ++ inlineLinksFrom 1 (maskMarkdownCode text),
    ¬ Fenced (splitInclusive text) l.1

theorem inFence_congr {F G L : Type} {step : Option F → L → Option F}
    {step' : Option G → L → Option G} {lines : List L}
    (h : ∀ i, (openBefore step lines i).isSome = (openBefore step' lines i).isSome) (i : Nat) :
    InFence step lines i ↔ InFence step' lines i := by
  rw [InFence, InFence, h, h]

theorem form_congr {line line' : List Char} {next next' : Option (List Char)}
    (h : trim line = trim line') (hnext : next.map trim = next'.map trim) :
    HeadingForm line next ↔ HeadingForm line' next' := by
  have hbind : ∀ next : Option (List Char), (next.bind fun under => underlineLevel (trim under)) =
      (next.map trim).bind underlineLevel := fun next => by cases next <;> rfl
  rw [HeadingForm, HeadingForm, h, hbind, hbind, hnext]

variable (text : List Char)

theorem map_trim_getElem? (i : Nat) :
    (Scip.lines text)[i]?.map trim = (splitInclusive text)[i]?.map trim := by
  rw [← List.getElem?_map, ← List.getElem?_map, map_trim_lines]

/-- Where the scanners keep to the rule, no line of a fence has the form of a heading: the line of
a heading is in no fence, and a line that underlines one opens none. -/
theorem KeepsToRule.not_form {text : List Char} (h : KeepsToRule text) {i : Nat}
    {line : List Char} (hline : (splitInclusive text)[i]? = some line)
    (hin : InFence fenceRule (splitInclusive text) i) :
    ¬ HeadingForm line (splitInclusive text)[i + 1]? := by
  intro hform
  have hlt := (List.getElem?_eq_some_iff.mp hline).1
  have htrim := map_trim_getElem? text i
  rw [hline, Option.map_some] at htrim
  obtain ⟨line', hline', hsame⟩ := Option.map_eq_some_iff.mp htrim
  have hform' := (form_congr hsame (map_trim_getElem? text (i + 1))).mpr hform
  rcases headedAt_of_form 1 (Scip.lines text) i line' hline' hform' with
    ⟨g, hg, hno⟩ | ⟨⟨j, rfl, g, hg, hno⟩, hunder⟩
  · exact h.headings g hg ⟨i, hlt, by omega, hin⟩
  · by_cases hbefore : InFence fenceRule (splitInclusive text) j
    · exact h.headings g hg ⟨j, by omega, by omega, hbefore⟩
    · have hnone : openBefore fenceRule (splitInclusive text) (j + 1) = none :=
        Option.not_isSome_iff_eq_none.mp fun hsome => hbefore (.inr hsome)
      rcases hin with hin | hin
      · rw [hnone] at hin
        cases hin
      · rw [openBefore_succ _ hline, hnone] at hin
        obtain ⟨f, hf⟩ := Option.isSome_iff_exists.mp hin
        obtain ⟨c, -, -, hmarker⟩ :=
          fenceMarker_of_run (runOf_of_isFenceLine (fenceRule_none_eq_some hf).1)
        rw [← hsame, fenceMarker_of_underline hunder] at hmarker
        cases hmarker

/-- All three keep to the rule exactly when every line is regular and no line of a fence has the
form of a heading. -/
theorem keepsToRule_iff :
    KeepsToRule text ↔ ∀ (i : Nat) (line : List Char), (splitInclusive text)[i]? = some line →
      Regular (openBefore fenceRule (splitInclusive text) i) line ∧
        (InFence fenceRule (splitInclusive text) i →
          ¬ HeadingForm line (splitInclusive text)[i + 1]?) := by
  constructor
  · exact fun h i line hline => ⟨regular_of_agree _ h.bodies hline, h.not_form hline⟩
  intro h
  have hsync := synced_of_regular (splitInclusive text) fun i line hline => (h i line hline).1
  have hmask : ∀ i, (openBefore maskFence (splitInclusive text) i).isSome =
      (openBefore fenceRule (splitInclusive text) i).isSome := fun i => by rw [(hsync i).2]
  have hbodies : ∀ i, (openBefore bodyFence (splitInclusive text) i).isSome =
      (openBefore fenceRule (splitInclusive text) i).isSome := fun i => (hsync i).1.isSome_eq
  -- what is left of a line by the mask is outside of fences
  have hsite : ∀ {before after : List Char} {c : Char}, c ≠ ' ' → c ≠ '\n' →
      maskMarkdownCode text = before ++ c :: after →
        ¬ Fenced (splitInclusive text) (before.count '\n' + 1) := by
    rintro before after c hspace hbreak heq ⟨i, -, hno, hin⟩
    obtain rfl : before.count '\n' = i := by omega
    exact (notInFence_of_mask hspace hbreak heq).2 ((inFence_congr hmask _).mpr hin)
  refine ⟨hmask, hbodies, fun headingLines i line hline => ?_, fun g hg hfenced => ?_,
    fun c hc => ?_, fun l hl => ?_⟩
  · have htrim := map_trim_getElem? text i
    rw [hline, Option.map_some] at htrim
    obtain ⟨line', hline', hsame⟩ := Option.map_eq_some_iff.mp htrim
    rw [getElem?_skipFlags, hline', Option.map_some, skips_congr _ _ _ hsame,
      foldl_bodyFence_congr (map_trim_lines text), skips_eq]
    have hin := inFence_congr hbodies i
    rw [InFence, openBefore_succ _ hline] at hin
    rw [← openBefore, ← decide_eq_decide.mpr hin, Bool.decide_or]
    simp
  · obtain ⟨i, line', hline', hno, hform⟩ := form_of_headingsFrom 1 (Scip.lines text) g hg
    obtain ⟨j, hlt, hno', hin⟩ := hfenced
    obtain rfl : i = j := by omega
    have htrim := map_trim_getElem? text i
    rw [hline', Option.map_some] at htrim
    obtain ⟨line, hline, hsame⟩ := Option.map_eq_some_iff.mp htrim.symm
    exact (h i line hline).2 hin
      ((form_congr hsame (map_trim_getElem? text (i + 1)).symm).mpr hform)
  · obtain ⟨before, after, heq, hline⟩ := comments_offset hc
    rw [hline]
    exact hsite (by decide) (by decide) heq
  · rcases List.mem_append.mp hl with hl | hl
    · obtain ⟨before, after, heq, hline⟩ := referenceLinks_offset hl
      rw [hline]
      exact hsite (by decide) (by decide) heq
    · obtain ⟨before, after, heq, hline⟩ := inlineLinks_offset hl
      rw [hline, Int.add_comm]
      exact hsite (by decide) (by decide) heq

/-- A heading that is taken from a fence, and a fence that ends for the bodies at a shorter run:
the run that closes it opens a fence then, which the text behind is in. -/
theorem not_keepsToRule :
    (collectMarkdownHeadingsFromText "```\n# x\n```\n".toList = [(['x'], 1, 2)] ∧
      ¬ KeepsToRule "```\n# x\n```\n".toList) ∧
    ((openBefore bodyFence (splitInclusive "````\n```\n````\ntext\n".toList) 3).isSome ∧
      (openBefore maskFence (splitInclusive "````\n```\n````\ntext\n".toList) 3).isNone ∧
      ¬ KeepsToRule "````\n```\n````\ntext\n".toList) := by
  have hheadings : collectMarkdownHeadingsFromText "```\n# x\n```\n".toList = [(['x'], 1, 2)] := by
    decide +kernel
  refine ⟨⟨hheadings, fun h => ?_⟩, by decide +kernel, by decide +kernel, fun h => ?_⟩
  · refine h.headings (['x'], 1, 2) ?_ ⟨1, by decide +kernel, rfl, by decide +kernel⟩
    rw [hheadings]
    exact List.mem_cons_self
  · exact absurd (h.bodies 3) (by decide +kernel)

end Markdowns

end Dagayn
