import Dagayn.Coverage
import Dagayn.MarkdownHeadings
import Dagayn.ScipIndex
import Dagayn.Utf8

/-!
# Bodies of a section

`extract_markdown_doc_bodies` cuts the lines of a file into blocks and gives each block of a
section the next of the names `{slug}--body-1`, `{slug}--body-2`, and so on. The names of the
blocks are distinct, and so are those of the headings, but nothing keeps a heading from having
the slug of a block. `bodies_iff` says when no heading does.
-/

namespace Dagayn

namespace Markdowns

/-! ## Headings of a text -/

def stripAtxClosingSequence (text : List Char) : List Char :=
  let without := text.rdropWhile (· = '#')
  if without.length = text.length then text
  else if without = [] ∨ without.getLast?.any isWhitespace then without.rdropWhile isWhitespace
  else text

/-- The title and the level of a line that starts with `#`. -/
def atxHeading (stripped : List Char) : Option (List Char × Int) :=
  let marker := (stripped.takeWhile (· = '#')).length
  if 1 ≤ marker ∧ marker ≤ 6 ∧ stripped[marker]? = some ' ' then
    let title := stripAtxClosingSequence (trim (stripped.drop (marker + 1)))
    if title = [] then none else some (title, marker)
  else none

def underlineLevel (underline : List Char) : Option Int :=
  if underline = [] then none
  else if underline.all (· = '=') then some 1
  else if underline.all (· = '-') then some 2
  else none

def headingsFrom (lineNo : Int) : List (List Char) → List RawHeading
  | [] => []
  | line :: rest =>
      let stripped := trim line
      if stripped.head? = some '#' then
        match atxHeading stripped with
        | some (title, level) => (title, level, lineNo) :: headingsFrom (lineNo + 1) rest
        | none => headingsFrom (lineNo + 1) rest
      else
        match rest with
        | [] => []
        | under :: rest' =>
            match if stripped = [] then none else underlineLevel (trim under) with
            -- the underline is not looked at again
            | some level => (stripped, level, lineNo) :: headingsFrom (lineNo + 2) rest'
            | none => headingsFrom (lineNo + 1) (under :: rest')
termination_by lines => lines.length

/-- `collect_markdown_headings_from_text`, before the slugs. -/
def collectMarkdownHeadingsFromText (text : List Char) : List RawHeading :=
  headingsFrom 1 (Scip.lines text)

/-- The headings of a syntax tree, in the order of their nodes. -/
structure TreeHeadings where
  raw : List RawHeading
  ordered : raw.Pairwise fun g h => g.2.2 ≤ h.2.2

/-- The headings of `collect_markdown_tree_facts`, before the slugs. -/
def rawHeadings (tree : Option TreeHeadings) (text : List Char) : List RawHeading :=
  match tree with
  | some tree => if tree.raw = [] then collectMarkdownHeadingsFromText text else tree.raw
  | none => collectMarkdownHeadingsFromText text

/-! ## The section of a line -/

/-- The last heading at or before a line; `partition_point` of ordered headings is the number of
them up to the line. -/
def headingForLine (headings : List Heading) (line : Int) : Option Heading :=
  let upTo := headings.takeWhile fun h => h.line ≤ line
  if headings.length ≤ 8 then upTo.getLast?
  else
    let idx := upTo.length
    if idx = 0 then none else headings[idx - 1]?

def sectionForLine (filePath : String) (headings : List Heading) (line : Int) : Option String :=
  (headingForLine headings line).map fun h => sectionName filePath h.slug

def sourceForLine (filePath : String) (headings : List Heading) (line : Int) : String :=
  (sectionForLine filePath headings line).getD filePath

/-! ## Fences -/

def fenceMarker (trimmed : List Char) : Option (List Char) :=
  ["```".toList, "~~~".toList].find? fun marker => marker.isPrefixOf trimmed

def nextFence : Option (List Char) → Option (List Char) → Option (List Char)
  | none, some marker => some marker
  | some opened, some marker => if opened = marker then none else some opened
  | fence, none => fence

/-! ## Blocks -/

/-- `MARKDOWN_REFERENCE_DEF_RE`. -/
def isReferenceDef (trimmed : List Char) : Bool :=
  match trimmed with
  | '[' :: rest =>
      let label := rest.takeWhile (· ≠ ']')
      label ≠ [] && "]:".toList.isPrefixOf (rest.drop label.length)
  | _ => false

def isMarkdownNonBodyLine (trimmed : List Char) : Bool :=
  ("<!--".toList.isPrefixOf trimmed && "-->".toList.isSuffixOf trimmed) || isReferenceDef trimmed

def skips (headingLines : List Int) (fence : Option (List Char)) (lineNo : Int)
    (line : List Char) : Bool :=
  let trimmed := trim line
  let setextUnderline := lineNo - 1 ∈ headingLines && trimmed ≠ [] &&
    (trimmed.all (· = '=') || trimmed.all (· = '-'))
  fence.isNone && (fenceMarker trimmed).isNone &&
    (trimmed = [] || lineNo ∈ headingLines || setextUnderline || isMarkdownNonBodyLine trimmed)

/-- `MarkdownDocBodyState`. -/
structure BodyState where
  counters : Dict String Nat
  blockStart : Option Int
  blockLines : List (List Char)

def BodyState.init : BodyState := ⟨∅, none, []⟩

def displayName (blockLines : List (List Char)) : List Char :=
  (((blockLines.map trim).find? (· ≠ [])).getD []).take 96

/-- `{slug}--body-{n}`. -/
def bodySlug (slug : List Char) (n : Nat) : List Char :=
  slug ++ "--body-".toList ++ Nat.toDigits 10 n

abbrev Body := ParsedNode × ParsedEdge

def flushMarkdownDocBody (filePath : String) (headings : List Heading) (s : BodyState)
    (blockEnd : Int) : Option Body × BodyState :=
  match s.blockStart with
  | none => (none, s)
  | some startLine =>
      if s.blockLines = [] then (none, { s with blockStart := none })
      else
        match sectionForLine filePath headings startLine with
        | none => (none, { s with blockStart := none, blockLines := [] })
        | some parentSection =>
            let parentSlug :=
              (afterLast "::".toList parentSection.toList).getD parentSection.toList
            let counter := s.counters.getD parentSection 0 + 1
            let name := bodySlug parentSlug counter
            let node : ParsedNode :=
              { kind := .docBody
                name := String.ofList name
                filePath
                lineStart := startLine
                lineEnd := max blockEnd startLine
                language := "markdown"
                extra := .obj [("markdown_kind", .str "body"),
                  ("display_name", .str (String.ofList (displayName s.blockLines))),
                  ("parent_section", .str parentSection)] }
            let edge : ParsedEdge :=
              { kind := .contains
                source := sourceForLine filePath headings startLine
                target := sectionName filePath name
                filePath
                line := startLine }
            (some (node, edge),
              { counters := AList.insert parentSection counter s.counters
                blockStart := none
                blockLines := [] })

def BodyState.push (s : BodyState) (lineNo : Int) (line : List Char) : BodyState :=
  if s.blockStart.isNone then { s with blockStart := some lineNo, blockLines := [line] }
  else { s with blockLines := s.blockLines ++ [line] }

def bodiesFrom (filePath : String) (headings : List Heading) (fence : Option (List Char))
    (s : BodyState) (lineNo : Int) : List (List Char) → List Body
  | [] => (flushMarkdownDocBody filePath headings s (lineNo - 1)).1.toList
  | line :: rest =>
      let next := nextFence fence (fenceMarker (trim line))
      if skips (headings.map Heading.line) fence lineNo line then
        let flushed := flushMarkdownDocBody filePath headings s (lineNo - 1)
        flushed.1.toList ++ bodiesFrom filePath headings next flushed.2 (lineNo + 1) rest
      else bodiesFrom filePath headings next (s.push lineNo line) (lineNo + 1) rest

def extractMarkdownDocBodies (filePath : String) (text : List Char) (headings : List Heading) :
    List Body :=
  bodiesFrom filePath headings none BodyState.init 1 (Scip.lines text)

/-! ## The nodes of a file -/

def testSuffixes : List String := ["_test.md", ".test.md", "_test.py", ".test.py", ".spec.py"]

def isTestFile (filePath : String) : Bool :=
  let lower := filePath.toList.map Char.toLower
  (["/test/", "/tests/"].any fun part => decide (part.toList <:+: lower)) ||
    (["test/", "tests/"].any fun part => part.toList.isPrefixOf lower) ||
    (Coverage.goTestFile filePath.toList).getD ("test_".toList.isPrefixOf lower ||
      testSuffixes.any fun suffix => suffix.toList.isSuffixOf lower)

/-- `ParsedNode::file`. -/
def fileNode (filePath : String) (lineEnd : Int) : ParsedNode where
  kind := .file
  name := filePath
  filePath := filePath
  lineStart := 1
  lineEnd := lineEnd
  language := "markdown"
  isTest := isTestFile filePath

/-- The nodes of `parse_markdown_with_parser`. -/
def parseMarkdownNodes (linkText : List Char → List Char) (filePath : String)
    (source : List UInt8) (tree : Option TreeHeadings) : List ParsedNode :=
  let text := fromUtf8Lossy source
  let headings := assignHeadingSlugs linkText (rawHeadings tree text)
  let lineEnd := (source.count 10 : Int) + 1
  fileNode filePath lineEnd :: (sectionsFrom filePath [] headings).map Prod.fst ++
    (extractMarkdownDocBodies filePath text headings).map Prod.fst

/-! ## What the names are made of -/

theorem colon_notMem_lowerChar {c : Char} (h : isAlphanumeric c = true) :
    ':' ∉ Lowercase.lowerChar c := by
  have hlower : ∀ n, n < 128 → (Char.ofNat n).toLower = ':' → Char.ofNat n = ':' := by
    decide +kernel
  have hcolon : isAlphanumeric ':' = false := by decide +kernel
  have htable : ∀ r ∈ Lowercase.lowerTable, (58 : Int) < r.1 + r.2.2.2 :=
    forall_mem_of_all (by decide +kernel)
  have hhigh : ∀ n : Nat, 58 < n → Char.ofNat n ≠ ':' := by
    intro n hn heq
    rw [Char.ofNat] at heq
    split at heq
    · have hval : n = 58 := congrArg Char.toNat heq
      omega
    · exact absurd heq (by decide)
  rw [Lowercase.lowerChar]
  split
  · rename_i hlow
    have hone := hlower c.toNat hlow
    rw [Char.ofNat_toNat] at hone
    intro hmem
    rw [hone (List.mem_singleton.mp hmem).symm, hcolon] at h
    cases h
  · rename_i hlow
    split
    · decide
    · split
      · rename_i r hr
        have hlo := List.find?_some hr
        simp only [Bool.and_eq_true, decide_eq_true_eq] at hlo
        have hmore := htable r (List.mem_of_find?_eq_some hr)
        exact fun hmem => hhigh _ (by omega) (List.mem_singleton.mp hmem).symm
      · exact fun hmem => hlow (by rw [← List.mem_singleton.mp hmem]; decide)

theorem colon_notMem_slugify (text : List Char) : ':' ∉ markdownSlugify text := by
  intro hmem
  obtain ⟨c, -, hc⟩ := List.mem_flatMap.mp hmem
  rw [slugChar] at hc
  split at hc
  · rename_i halnum
    exact colon_notMem_lowerChar halnum hc
  · split at hc
    · exact absurd hc (by decide)
    · split at hc <;> exact absurd hc (by decide)

theorem notMem_digits {c : Char} (h : c.isDigit = false) (n : Nat) : c ∉ Nat.toDigits 10 n :=
  fun hmem => by
    rw [Nat.isDigit_of_mem_toDigits (by omega) (by omega) hmem] at h
    cases h

theorem colon_notMem_slug {linkText : List Char → List Char} {raw : List RawHeading}
    {h : Heading} (hh : h ∈ assignHeadingSlugs linkText raw) : ':' ∉ h.slug := by
  obtain ⟨before, after, heq⟩ := List.append_of_mem hh
  obtain ⟨-, k, hk, -⟩ := firstFree_of_assignFrom skips_empty heq
  have hbase := colon_notMem_slugify (linkText h.text)
  rw [hk]
  cases k with
  | zero => exact hbase
  | succ k =>
      intro hmem
      rcases List.mem_append.mp hmem with hmem | hmem
      · exact hbase hmem
      · rcases List.mem_cons.mp hmem with heq | hmem
        · exact absurd heq (by decide)
        · exact notMem_digits (by decide) _ hmem

theorem bodySlug_inj {slug slug' : List Char} {n n' : Nat}
    (h : bodySlug slug n = bodySlug slug' n') : slug = slug' ∧ n = n' := by
  -- the digits are what stands behind the last hyphen
  have hlast : ∀ (slug : List Char) (n : Nat),
      (bodySlug slug n).rtakeWhile (· ≠ '-') = Nat.toDigits 10 n := by
    intro slug n
    have hsplit : bodySlug slug n = (slug ++ "--body".toList) ++ '-' :: Nat.toDigits 10 n := by
      simp [bodySlug]
    rw [hsplit, List.rtakeWhile, List.reverse_append, List.reverse_cons, List.append_assoc,
      List.takeWhile_append_of_pos fun c hc => ?_]
    · simp
    · exact decide_eq_true fun heq =>
        notMem_digits (by decide) n (heq ▸ List.mem_reverse.mp hc)
  have hdigits : Nat.toDigits 10 n = Nat.toDigits 10 n' := by rw [← hlast slug, h, hlast]
  have hn : n = n' := by
    rw [← @Nat.ofDigitChars_ten_toDigits n, hdigits, Nat.ofDigitChars_ten_toDigits]
  subst hn
  rw [bodySlug, bodySlug] at h
  exact ⟨List.append_cancel_right (List.append_cancel_right h), rfl⟩

theorem sectionName_inj {filePath : String} {slug slug' : List Char} :
    sectionName filePath slug = sectionName filePath slug' ↔ slug = slug' := by
  refine ⟨fun h => ?_, fun h => by rw [h]⟩
  have htext := congrArg String.toList h
  rw [toList_sectionName, toList_sectionName] at htext
  exact (List.cons.inj (List.cons.inj (List.append_cancel_left htext)).2).2

theorem afterLast_sectionName (filePath : String) {slug : List Char} (h : ':' ∉ slug) :
    afterLast "::".toList (sectionName filePath slug).toList = some slug := by
  have hnone : ∀ {cs : List Char}, ':' ∉ cs → afterLast "::".toList cs = none := by
    intro cs hcs
    induction cs with
    | nil => rfl
    | cons c cs ih =>
        rw [afterLast, ih fun hmem => hcs (List.mem_cons_of_mem _ hmem)]
        have hc : ':' ≠ c := fun heq => hcs (heq ▸ List.mem_cons_self)
        simp [hc]
  rw [toList_sectionName]
  induction filePath.toList with
  | nil =>
      have hone : afterLast "::".toList (':' :: slug) = none := by
        rw [afterLast, hnone h]
        cases slug with
        | nil => rfl
        | cons c slug =>
            have hc : ':' ≠ c := fun heq => h (heq ▸ List.mem_cons_self)
            simp [hc]
      rw [List.nil_append, afterLast, hone]
      simp
  | cons c cs ih => rw [List.cons_append, afterLast, ih]

/-! ## The last heading up to a line -/

def LastUpTo (headings : List Heading) (line : Int) (h : Heading) : Prop :=
  ∃ before after, headings = before ++ h :: after ∧ h.line ≤ line ∧ ∀ g ∈ after, line < g.line

/-- Headings in the order of their lines. -/
abbrev InOrder (headings : List Heading) : Prop := headings.Pairwise fun g h => g.line ≤ h.line

theorem headingForLine_eq (headings : List Heading) (line : Int) :
    headingForLine headings line = (headings.takeWhile fun h => h.line ≤ line).getLast? := by
  rw [headingForLine]
  dsimp only
  split
  · rfl
  · split
    · rename_i hzero
      rw [List.length_eq_zero_iff.mp hzero, List.getLast?_nil]
    · rename_i hpos
      have hsplit : headings = headings.takeWhile (fun h => h.line ≤ line) ++
          headings.dropWhile fun h => h.line ≤ line := List.takeWhile_append_dropWhile.symm
      rw [List.getLast?_eq_getElem?]
      conv_lhs => rw [hsplit]
      rw [List.getElem?_append_left, ← hsplit]
      rw [← hsplit]
      omega

theorem lastUpTo_of_headingForLine {headings : List Heading} (hord : InOrder headings)
    {line : Int} {h : Heading} (hh : headingForLine headings line = some h) :
    LastUpTo headings line h := by
  rw [headingForLine_eq] at hh
  obtain ⟨before, hbefore⟩ := List.getLast?_eq_some_iff.mp hh
  have hsplit : headings = before ++ h :: headings.dropWhile fun h => h.line ≤ line := by
    rw [← List.singleton_append, ← List.append_assoc, ← hbefore, List.takeWhile_append_dropWhile]
  have hupTo : h ∈ headings.takeWhile fun h => h.line ≤ line := by simp [hbefore]
  have hline : h.line ≤ line := by simpa using List.mem_takeWhile_imp hupTo
  refine ⟨before, _, hsplit, hline, fun g hg => ?_⟩
  have hsub : InOrder (headings.dropWhile fun h => h.line ≤ line) :=
    hord.sublist (List.dropWhile_sublist _)
  cases hdrop : headings.dropWhile fun h => h.line ≤ line with
  | nil =>
      rw [hdrop] at hg
      cases hg
  | cons first rest =>
      rw [hdrop] at hg hsub
      have hfirst : line < first.line := by
        have hnot := List.head?_dropWhile_not (fun h : Heading => h.line ≤ line) headings
        rw [hdrop] at hnot
        simpa using hnot
      rcases List.mem_cons.mp hg with rfl | hg
      · exact hfirst
      · exact lt_of_lt_of_le hfirst ((List.pairwise_cons.mp hsub).1 g hg)

theorem headingForLine_mem {headings : List Heading} {line : Int} {h : Heading}
    (hh : headingForLine headings line = some h) : h ∈ headings := by
  rw [headingForLine_eq] at hh
  exact (List.takeWhile_sublist _).subset (List.mem_of_getLast? hh)

theorem headingsFrom_ordered (lineNo : Int) (lines : List (List Char)) :
    (headingsFrom lineNo lines).Pairwise (fun g h => g.2.2 < h.2.2) ∧
      ∀ h ∈ headingsFrom lineNo lines, lineNo ≤ h.2.2 := by
  fun_induction headingsFrom lineNo lines with
  | case1 => exact ⟨List.Pairwise.nil, fun h hh => absurd hh List.not_mem_nil⟩
  | case2 lineNo line rest stripped hhash title level hatx ih =>
      refine ⟨List.pairwise_cons.mpr ⟨fun h hh => ?_, ih.1⟩, fun h hh => ?_⟩
      · have := ih.2 h hh
        dsimp only
        omega
      · rcases List.mem_cons.mp hh with rfl | hh
        · exact le_refl _
        · have := ih.2 h hh
          omega
  | case3 lineNo line rest stripped hhash hatx ih =>
      exact ⟨ih.1, fun h hh => by have := ih.2 h hh; omega⟩
  | case4 => exact ⟨List.Pairwise.nil, fun h hh => absurd hh List.not_mem_nil⟩
  | case5 lineNo line stripped hhash under rest level hlevel ih =>
      refine ⟨List.pairwise_cons.mpr ⟨fun h hh => ?_, ih.1⟩, fun h hh => ?_⟩
      · have := ih.2 h hh
        dsimp only
        omega
      · rcases List.mem_cons.mp hh with rfl | hh
        · exact le_refl _
        · have := ih.2 h hh
          omega
  | case6 lineNo line stripped hhash under rest hlevel ih =>
      exact ⟨ih.1, fun h hh => by have := ih.2 h hh; omega⟩

theorem rawHeadings_ordered (tree : Option TreeHeadings) (text : List Char) :
    (rawHeadings tree text).Pairwise fun g h => g.2.2 ≤ h.2.2 := by
  have htext : (collectMarkdownHeadingsFromText text).Pairwise fun g h => g.2.2 ≤ h.2.2 :=
    (headingsFrom_ordered 1 _).1.imp fun h => Int.le_of_lt h
  cases tree with
  | none => exact htext
  | some tree =>
      change (if tree.raw = [] then _ else tree.raw).Pairwise _
      split
      · exact htext
      · exact tree.ordered

theorem inOrder_assignHeadingSlugs {linkText : List Char → List Char} {raw : List RawHeading}
    (h : raw.Pairwise fun g h => g.2.2 ≤ h.2.2) : InOrder (assignHeadingSlugs linkText raw) := by
  rw [← map_assignHeadingSlugs linkText raw, List.pairwise_map] at h
  exact h

/-! ## The blocks of a text -/

def skipFlags (headingLines : List Int) (fence : Option (List Char)) (lineNo : Int) :
    List (List Char) → List Bool
  | [] => []
  | line :: rest => skips headingLines fence lineNo line ::
      skipFlags headingLines (nextFence fence (fenceMarker (trim line))) (lineNo + 1) rest

/-- The first lines of the runs of lines that end no block; `opened` tells whether the line
before is one. -/
def firstLines (opened : Bool) (lineNo : Int) : List Bool → List Int
  | [] => []
  | true :: flags => firstLines false (lineNo + 1) flags
  | false :: flags => (if opened then [] else [lineNo]) ++ firstLines true (lineNo + 1) flags

def blocksOf (headings : List Heading) (text : List Char) (g : Heading) : List Int :=
  (firstLines false 1 (skipFlags (headings.map Heading.line) none 1 (Scip.lines text))).filter
    fun startLine => headingForLine headings startLine = some g

def headed (headings : List Heading) (starts : List Int) : List (Int × Heading) :=
  starts.filterMap fun startLine => (headingForLine headings startLine).map (startLine, ·)

/-- Blocks with their numbers, behind blocks of the sections `done`. -/
def numbered (done : List (List Char)) : List (Int × Heading) → List (Int × Heading × Nat)
  | [] => []
  | (startLine, h) :: blocks =>
      (startLine, h, done.count h.slug + 1) :: numbered (h.slug :: done) blocks

structure Body.Is (filePath : String) (b : Body) (block : Int × Heading × Nat) : Prop where
  name : qualifiedNameOf b.1 = sectionName filePath (bodySlug block.2.1.slug block.2.2)
  lineStart : b.1.lineStart = block.1
  kind : b.2.kind = .contains
  source : b.2.source = sectionName filePath block.2.1.slug
  target : b.2.target = sectionName filePath (bodySlug block.2.1.slug block.2.2)

/-- The counters count the bodies of each section, and an open block has a line. -/
structure BodyState.Counts (filePath : String) (done : List (List Char)) (s : BodyState) :
    Prop where
  count : ∀ slug, s.counters.getD (sectionName filePath slug) 0 = done.count slug
  lines : s.blockStart ≠ none → s.blockLines ≠ []

theorem qualifiedNameOf_body {filePath : String} {name : List Char} {node : ParsedNode}
    (hkind : node.kind = .docBody) (hparent : node.parentName = none)
    (hpath : node.filePath = filePath) (hname : node.name = String.ofList name) :
    qualifiedNameOf node = sectionName filePath name := by
  rw [qualifiedNameOf, hkind, hparent, hpath, hname]
  rfl

/-- A flush gives the open block, if it has a section, the next number of the section. -/
theorem flush_spec {filePath : String} {headings : List Heading}
    (hcolon : ∀ h ∈ headings, ':' ∉ h.slug) {done : List (List Char)} {s : BodyState}
    (hs : s.Counts filePath done) (blockEnd : Int) :
    let flushed := flushMarkdownDocBody filePath headings s blockEnd
    let blocks := headed headings s.blockStart.toList
    List.Forall₂ (Body.Is filePath) flushed.1.toList (numbered done blocks) ∧
      flushed.2.blockStart = none ∧
      flushed.2.Counts filePath ((blocks.map fun b => b.2.slug).reverse ++ done) := by
  obtain ⟨counters, blockStart, blockLines⟩ := s
  cases blockStart with
  | none => exact ⟨List.Forall₂.nil, rfl, hs⟩
  | some startLine =>
      have hlines : blockLines ≠ [] := hs.lines (Option.some_ne_none _)
      intro flushed blocks
      cases hsection : headingForLine headings startLine with
      | none =>
          have hblocks : blocks = [] := by simp [blocks, headed, hsection]
          have hflushed : flushed = (none, ⟨counters, none, []⟩) := by
            simp [flushed, flushMarkdownDocBody, sectionForLine, hsection, hlines]
          rw [hblocks, hflushed]
          exact ⟨List.Forall₂.nil, rfl, hs.count, fun h => absurd rfl h⟩
      | some h =>
          have hname := afterLast_sectionName filePath (hcolon h (headingForLine_mem hsection))
          have hblocks : blocks = [(startLine, h)] := by simp [blocks, headed, hsection]
          have hcount := hs.count h.slug
          dsimp only at hcount
          rw [hblocks]
          simp only [flushed, flushMarkdownDocBody, sourceForLine, sectionForLine, hsection,
            Option.map_some, if_neg hlines, hname, Option.getD_some, hcount]
          refine ⟨List.Forall₂.cons ⟨qualifiedNameOf_body rfl rfl rfl rfl, rfl, rfl, rfl, rfl⟩
            List.Forall₂.nil, trivial, fun slug => ?_, fun h => absurd rfl h⟩
          change _ = (h.slug :: done).count slug
          rw [Dict.getD_insert, List.count_cons]
          by_cases heq : h.slug = slug
          · subst heq
            simp
          · have hne : sectionName filePath slug ≠ sectionName filePath h.slug := fun hname =>
              heq (sectionName_inj.mp hname).symm
            rw [if_neg hne, hs.count slug]
            simp [heq]

theorem numbered_append (done : List (List Char)) (blocks rest : List (Int × Heading)) :
    numbered done (blocks ++ rest) =
      numbered done blocks ++ numbered ((blocks.map fun b => b.2.slug).reverse ++ done) rest := by
  induction blocks generalizing done with
  | nil => rfl
  | cons b blocks ih =>
      obtain ⟨startLine, h⟩ := b
      rw [List.cons_append, numbered, numbered, ih]
      simp

theorem BodyState.Counts.push {filePath : String} {done : List (List Char)} {s : BodyState}
    (hs : s.Counts filePath done) (lineNo : Int) (line : List Char) :
    (s.push lineNo line).Counts filePath done := by
  rw [BodyState.push]
  split
  · exact ⟨hs.count, fun _ => List.cons_ne_nil _ _⟩
  · exact ⟨hs.count, fun _ => List.append_ne_nil_of_right_ne_nil _ (List.cons_ne_nil _ _)⟩

/-- The bodies from a line on are those of the open block and of the blocks that start there. -/
theorem bodiesFrom_spec {filePath : String} {headings : List Heading}
    (hcolon : ∀ h ∈ headings, ':' ∉ h.slug) (lines : List (List Char))
    (fence : Option (List Char)) {done : List (List Char)} {s : BodyState}
    (hs : s.Counts filePath done) (lineNo : Int) :
    List.Forall₂ (Body.Is filePath) (bodiesFrom filePath headings fence s lineNo lines)
      (numbered done (headed headings (s.blockStart.toList ++ firstLines s.blockStart.isSome lineNo
        (skipFlags (headings.map Heading.line) fence lineNo lines)))) := by
  induction lines generalizing fence done s lineNo with
  | nil =>
      rw [skipFlags, firstLines, List.append_nil]
      exact (flush_spec hcolon hs (lineNo - 1)).1
  | cons line rest ih =>
      rw [bodiesFrom, skipFlags]
      dsimp only
      cases skips (headings.map Heading.line) fence lineNo line with
      | true =>
          obtain ⟨hbodies, hnone, hcounts⟩ := flush_spec hcolon hs (lineNo - 1)
          have hrest := ih (nextFence fence (fenceMarker (trim line))) hcounts (lineNo + 1)
          rw [hnone] at hrest
          rw [if_pos rfl, firstLines, headed, List.filterMap_append, numbered_append]
          exact List.rel_append hbodies hrest
      | false =>
          have hrest := ih (nextFence fence (fenceMarker (trim line))) (hs.push lineNo line)
            (lineNo + 1)
          rw [if_neg Bool.false_ne_true, firstLines]
          have hstart : (s.push lineNo line).blockStart = s.blockStart.or (some lineNo) := by
            rw [BodyState.push]
            cases s.blockStart <;> rfl
          rw [hstart] at hrest
          cases hopen : s.blockStart with
          | none =>
              rw [hopen] at hrest
              exact hrest
          | some startLine =>
              rw [hopen] at hrest
              exact hrest

/-! ## The names of the bodies -/

theorem exists_numbered {slug : List Char} {n : Nat} {done : List (List Char)}
    {blocks : List (Int × Heading)} :
    (∃ b ∈ numbered done blocks, b.2.1.slug = slug ∧ b.2.2 = n) ↔
      done.count slug < n ∧ n ≤ done.count slug + (blocks.map fun b => b.2.slug).count slug := by
  induction blocks generalizing done with
  | nil =>
      simp only [numbered, List.not_mem_nil, false_and, exists_false, List.map_nil,
        List.count_nil, false_iff]
      omega
  | cons b blocks ih =>
      obtain ⟨startLine, h⟩ := b
      simp only [numbered, List.exists_mem_cons_iff, ih, List.map_cons, List.count_cons]
      by_cases heq : h.slug = slug
      · subst heq
        simp only [beq_self_eq_true, if_true, true_and]
        omega
      · simp only [heq, false_and, beq_iff_eq, if_false, false_or, Nat.add_zero]

theorem nodup_numbered (done : List (List Char)) (blocks : List (Int × Heading)) :
    ((numbered done blocks).map fun b => bodySlug b.2.1.slug b.2.2).Nodup := by
  induction blocks generalizing done with
  | nil => exact List.nodup_nil
  | cons b blocks ih =>
      obtain ⟨startLine, h⟩ := b
      rw [numbered, List.map_cons]
      refine List.nodup_cons.mpr ⟨fun hmem => ?_, ih _⟩
      obtain ⟨b, hb, heq⟩ := List.mem_map.mp hmem
      obtain ⟨hslug, hn⟩ := bodySlug_inj heq
      have hlater := (exists_numbered.mp ⟨b, hb, hslug, hn⟩).1
      rw [List.count_cons_self] at hlater
      exact Nat.lt_irrefl _ hlater

theorem heading_of_numbered {headings : List Heading} {starts : List Int}
    {done : List (List Char)} {b : Int × Heading × Nat}
    (hb : b ∈ numbered done (headed headings starts)) :
    headingForLine headings b.1 = some b.2.1 := by
  have hblock : ∀ {done : List (List Char)} {blocks : List (Int × Heading)},
      b ∈ numbered done blocks → (b.1, b.2.1) ∈ blocks := by
    intro done blocks
    induction blocks generalizing done with
    | nil => exact fun h => absurd h List.not_mem_nil
    | cons first blocks ih =>
        intro h
        rcases List.mem_cons.mp h with rfl | h
        · exact List.mem_cons_self
        · exact List.mem_cons_of_mem _ (ih h)
  obtain ⟨startLine, -, hstart⟩ := List.mem_filterMap.mp (hblock hb)
  obtain ⟨h, hh, heq⟩ := Option.map_eq_some_iff.mp hstart
  obtain ⟨rfl, rfl⟩ := Prod.mk.inj heq
  exact hh

theorem count_headed {headings : List Heading} (hnodup : (headings.map Heading.slug).Nodup)
    {g : Heading} (hg : g ∈ headings) (starts : List Int) :
    ((headed headings starts).map fun b => b.2.slug).count g.slug =
      (starts.filter fun startLine => headingForLine headings startLine = some g).length := by
  induction starts with
  | nil => rfl
  | cons startLine starts ih =>
      rw [headed] at ih ⊢
      rw [List.filterMap_cons, List.filter_cons]
      cases hh : headingForLine headings startLine with
      | none => simpa using ih
      | some h =>
          have hiff : h.slug = g.slug ↔ h = g :=
            ⟨List.inj_on_of_nodup_map hnodup (headingForLine_mem hh) hg, fun heq => by rw [heq]⟩
          by_cases heq : h = g
          · subst heq
            simpa using ih
          · have hslug : h.slug ≠ g.slug := fun hslug => heq (hiff.mp hslug)
            simpa [heq, hslug, List.count_cons_of_ne] using ih

theorem sectionsFrom_names (filePath : String) (stack : List (Int × String))
    (headings : List Heading) :
    ((sectionsFrom filePath stack headings).map fun s => qualifiedNameOf s.1) =
      headings.map fun h => sectionName filePath h.slug := by
  induction headings generalizing stack with
  | nil => rfl
  | cons h headings ih => exact congrArg (_ :: ·) (ih _)

theorem bodies_names {filePath : String} {bodies : List Body} {blocks : List (Int × Heading × Nat)}
    (h : List.Forall₂ (Body.Is filePath) bodies blocks) :
    (bodies.map fun b => qualifiedNameOf b.1) =
      blocks.map fun b => sectionName filePath (bodySlug b.2.1.slug b.2.2) := by
  induction h with
  | nil => rfl
  | cons hb _ ih => rw [List.map_cons, List.map_cons, hb.name, ih]

theorem exists_block {filePath : String} {bodies : List Body}
    {blocks : List (Int × Heading × Nat)} (h : List.Forall₂ (Body.Is filePath) bodies blocks)
    {b : Body} (hb : b ∈ bodies) : ∃ block ∈ blocks, Body.Is filePath b block := by
  induction h with
  | nil => cases hb
  | cons his _ ih =>
      rcases List.mem_cons.mp hb with rfl | hb
      · exact ⟨_, List.mem_cons_self, his⟩
      · obtain ⟨block, hblock, his⟩ := ih hb
        exact ⟨block, List.mem_cons_of_mem _ hblock, his⟩

/-- Names of a file, its headings and bodies are distinct if no heading has the slug of a body. -/
theorem nodup_names_iff {filePath : String} {headings : List Heading}
    (hslugs : (headings.map Heading.slug).Nodup) {blocks : List (Int × Heading × Nat)}
    (hblocks : (blocks.map fun b => bodySlug b.2.1.slug b.2.2).Nodup) :
    (filePath :: (headings.map fun h => sectionName filePath h.slug) ++
        blocks.map fun b => sectionName filePath (bodySlug b.2.1.slug b.2.2)).Nodup ↔
      ∀ h ∈ headings, ∀ b ∈ blocks, h.slug ≠ bodySlug b.2.1.slug b.2.2 := by
  have hinj : Function.Injective (sectionName filePath) := fun _ _ => sectionName_inj.mp
  have hfile : ∀ slug, sectionName filePath slug ≠ filePath := fun slug heq => by
    have hlength := congrArg (List.length ∘ String.toList) heq
    simp only [Function.comp_apply, toList_sectionName, List.length_append,
      List.length_cons] at hlength
    omega
  have hsections : (headings.map fun h => sectionName filePath h.slug).Nodup := by
    have hmap := hslugs.map hinj
    rwa [List.map_map] at hmap
  have hbodies : (blocks.map fun b => sectionName filePath (bodySlug b.2.1.slug b.2.2)).Nodup := by
    have hmap := hblocks.map hinj
    rwa [List.map_map] at hmap
  rw [List.cons_append, List.nodup_cons, List.nodup_append]
  constructor
  · rintro ⟨-, -, -, hdisjoint⟩ h hh b hb heq
    exact hdisjoint _ (List.mem_map_of_mem hh) _ (List.mem_map_of_mem hb)
      (congrArg (sectionName filePath) heq)
  · refine fun hne => ⟨fun hmem => ?_, hsections, hbodies, ?_⟩
    · rcases List.mem_append.mp hmem with hmem | hmem
      · obtain ⟨h, -, heq⟩ := List.mem_map.mp hmem
        exact hfile _ heq
      · obtain ⟨b, -, heq⟩ := List.mem_map.mp hmem
        exact hfile _ heq
    · rintro _ hsection _ hbody heq
      obtain ⟨h, hh, rfl⟩ := List.mem_map.mp hsection
      obtain ⟨b, hb, rfl⟩ := List.mem_map.mp hbody
      exact hne h hh b hb (hinj heq)

variable (linkText : List Char → List Char) (filePath : String) (source : List UInt8)
  (tree : Option TreeHeadings)

/-- The nodes have distinct names, so that none are merged, exactly when no heading has the slug
of a body; every body hangs on the last heading up to its first line. -/
theorem bodies_iff :
    let text := fromUtf8Lossy source
    let headings := assignHeadingSlugs linkText (rawHeadings tree text)
    let nodes := parseMarkdownNodes linkText filePath source tree
    ((nodes.map qualifiedNameOf).Nodup ∧
      (∀ edges, collapseDuplicateNodes nodes edges = (nodes, edges)) ∧
      ∀ b ∈ extractMarkdownDocBodies filePath text headings,
        b.2.kind = .contains ∧ b.2.target = qualifiedNameOf b.1 ∧
        ∃ h, LastUpTo headings b.1.lineStart h ∧ b.2.source = sectionName filePath h.slug) ↔
    ∀ g ∈ headings, ∀ n, 1 ≤ n → n ≤ (blocksOf headings text g).length →
      ∀ h ∈ headings, h.slug ≠ bodySlug g.slug n := by
  intro text headings nodes
  have hslugs : (headings.map Heading.slug).Nodup := nodup_slugs linkText _
  have hord : InOrder headings := inOrder_assignHeadingSlugs (rawHeadings_ordered tree text)
  let starts := firstLines false 1
    (skipFlags (headings.map Heading.line) none 1 (Scip.lines text))
  let blocks := numbered [] (headed headings starts)
  have hcounts : BodyState.init.Counts filePath [] :=
    ⟨fun slug => Dict.getD_empty _ _, fun h => absurd rfl h⟩
  have hbodies : List.Forall₂ (Body.Is filePath) (extractMarkdownDocBodies filePath text headings)
      blocks :=
    bodiesFrom_spec (fun h hh => colon_notMem_slug hh) (Scip.lines text) none hcounts 1
  have hnames : nodes.map qualifiedNameOf =
      filePath :: (headings.map fun h => sectionName filePath h.slug) ++
        blocks.map fun b => sectionName filePath (bodySlug b.2.1.slug b.2.2) := by
    rw [← bodies_names hbodies, ← sectionsFrom_names filePath []]
    simp only [nodes, parseMarkdownNodes, List.map_append, List.map_cons, List.map_map]
    rfl
  have hcond : (nodes.map qualifiedNameOf).Nodup ↔
      ∀ g ∈ headings, ∀ n, 1 ≤ n → n ≤ (blocksOf headings text g).length →
        ∀ h ∈ headings, h.slug ≠ bodySlug g.slug n := by
    rw [hnames, nodup_names_iff hslugs (nodup_numbered [] _)]
    constructor
    · intro hne g hg n hpos hle h hh heq
      rw [blocksOf, ← count_headed hslugs hg] at hle
      have hnumber : ([] : List (List Char)).count g.slug < n ∧ n ≤ ([] : List (List Char)).count
          g.slug + ((headed headings starts).map fun b => b.2.slug).count g.slug := by
        rw [List.count_nil, Nat.zero_add]
        exact ⟨hpos, hle⟩
      obtain ⟨b, hb, hslug, rfl⟩ := exists_numbered.mpr hnumber
      exact hne h hh b hb (by rw [heq, hslug])
    · intro hcond h hh b hb
      have hg := headingForLine_mem (heading_of_numbered hb)
      obtain ⟨hpos, hle⟩ := exists_numbered.mp ⟨b, hb, rfl, rfl⟩
      rw [List.count_nil] at hpos
      rw [List.count_nil, Nat.zero_add, count_headed hslugs hg] at hle
      exact hcond _ hg _ hpos hle h hh
  rw [← hcond]
  refine ⟨And.left, fun hnodup => ⟨hnodup, fun edges => if_pos hnodup, fun b hb => ?_⟩⟩
  obtain ⟨block, hblock, his⟩ := exists_block hbodies hb
  refine ⟨his.kind, his.target.trans his.name.symm, block.2.1, ?_, his.source⟩
  rw [his.lineStart]
  exact lastUpTo_of_headingForLine hord (heading_of_numbered hblock)

/-- A heading with the slug of the first body of the section before. -/
theorem bodies_clash :
    let source := utf8 "# A\n\ntext\n\n# a--body-1\n".toList
    let nodes := parseMarkdownNodes id "a.md" source none
    nodes.map qualifiedNameOf = ["a.md", "a.md::a", "a.md::a--body-1", "a.md::a--body-1"] ∧
      ¬ (nodes.map qualifiedNameOf).Nodup ∧
      (collapseDuplicateNodes nodes []).1.map qualifiedNameOf =
        ["a.md", "a.md::a", "a.md::a--body-1"] := by
  decide +kernel

end Markdowns

end Dagayn
