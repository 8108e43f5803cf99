import Dagayn.Distinct
import Dagayn.ParsedFile

/-!
# The cells of a notebook

A notebook is parsed one language at a time: the cells of a language become one text, of which
`concatenate_notebook_cells` says where each cell begins and ends, and a node is tagged with the
cell whose lines it shares most of. The offsets count a line between two cells. There is one only
where the first of them ends with a newline, so that the offsets are exact just if all cells but the
last do; and the offsets of two languages stand in one list, where a node finds those of the other.
-/

namespace Dagayn

namespace Notebooks

/-! ## Offsets -/

structure NotebookCell where
  cellIndex : Int
  language : String
  source : List Char
  name : Option String := none
  refs : List String := []

/-- An entry of `NotebookOffsets`. -/
structure Offset where
  cellIndex : Int
  start : Int
  stop : Int
deriving DecidableEq

def EndsLine (source : List Char) : Prop := source.getLast? = some '\n'

instance (source : List Char) : Decidable (EndsLine source) :=
  inferInstanceAs (Decidable (_ = _))

def lineCount (source : List Char) : Int :=
  source.count '\n' + if EndsLine source then 0 else 1

def offsetsFrom (line : Int) : List NotebookCell → List Offset × Int
  | [] => ([], line)
  | c :: cs =>
      let s := offsetsFrom (line + (lineCount c.source + 1)) cs
      (⟨c.cellIndex, line, line + lineCount c.source - 1⟩ :: s.1, s.2)

def concatenateNotebookCells (cells : List NotebookCell) : List Char × List Offset × Int :=
  (List.intercalate ['\n'] (cells.map NotebookCell.source), offsetsFrom 1 cells)

/-! ## The lines of a text -/

/-- The line of the character behind `k` others. -/
def lineAt (text : List Char) (k : Nat) : Int := (text.take k).count '\n' + 1

def frontOf (before : List NotebookCell) : List Char :=
  before.flatMap fun c => c.source ++ ['\n']

/-- The first and the last line of a cell in the text of all cells: those of its first and its last
character. -/
def cellLines (cells before : List NotebookCell) (c : NotebookCell) : Int × Int :=
  let text := (concatenateNotebookCells cells).1
  (lineAt text (frontOf before).length,
    lineAt text ((frontOf before).length + (c.source.length - 1)))

def Exact (cells : List NotebookCell) : Prop :=
  ∀ before c after, cells = before ++ c :: after →
    (concatenateNotebookCells cells).2.1[before.length]? =
      some ⟨c.cellIndex, (cellLines cells before c).1, (cellLines cells before c).2⟩

/-- All cells but the last end with a newline. -/
def Ended (cells : List NotebookCell) : Prop := ∀ c ∈ cells.dropLast, EndsLine c.source

theorem intercalate_cons (a : List Char) (rest : List (List Char)) :
    List.intercalate ['\n'] (a :: rest) =
      a ++ if rest = [] then [] else '\n' :: List.intercalate ['\n'] rest := by
  cases rest with
  | nil => simp [List.intercalate]
  | cons b rest => simp [List.intercalate]

def textFrom (c : NotebookCell) (after : List NotebookCell) : List Char :=
  c.source ++ if after.map NotebookCell.source = [] then []
    else '\n' :: List.intercalate ['\n'] (after.map NotebookCell.source)

theorem text_split (before : List NotebookCell) (c : NotebookCell) (after : List NotebookCell) :
    (concatenateNotebookCells (before ++ c :: after)).1 = frontOf before ++ textFrom c after := by
  rw [concatenateNotebookCells]
  induction before with
  | nil => rw [List.nil_append, List.map_cons, intercalate_cons]; rfl
  | cons b before ih =>
      have hne : (before ++ c :: after).map NotebookCell.source ≠ [] := by simp
      have hcons : frontOf (b :: before) = b.source ++ '\n' :: frontOf before := by
        rw [frontOf, List.flatMap_cons, List.append_assoc]
        rfl
      dsimp only at ih ⊢
      rw [List.cons_append, List.map_cons, intercalate_cons, if_neg hne, ih, hcons,
        List.append_assoc, List.cons_append]

theorem lineCount_pos (source : List Char) : 1 ≤ lineCount source := by
  rw [lineCount]
  split
  · rename_i h
    have hmem : '\n' ∈ source := List.mem_of_getLast? h
    have hpos := List.count_pos_iff.mpr hmem
    omega
  · omega

theorem count_take (source : List Char) :
    ((source.take (source.length - 1)).count '\n' : Int) = lineCount source - 1 := by
  rw [← List.dropLast_eq_take, lineCount]
  rcases List.eq_nil_or_concat' source with rfl | ⟨front, last, rfl⟩
  · rfl
  · have hends : EndsLine (front ++ [last]) ↔ last = '\n' := by
      rw [EndsLine, List.getLast?_concat, Option.some.injEq]
    rw [List.dropLast_concat, List.count_append]
    by_cases h : last = '\n'
    · subst h
      rw [if_pos (hends.mpr rfl)]
      simp
    · rw [if_neg fun heq => h (hends.mp heq), List.count_singleton]
      simp [h]

theorem cellLines_eq (before : List NotebookCell) (c : NotebookCell)
    (after : List NotebookCell) : cellLines (before ++ c :: after) before c =
      (((frontOf before).count '\n' : Int) + 1,
        ((frontOf before).count '\n' : Int) + lineCount c.source) := by
  have hcount := count_take c.source
  have hle : c.source.length - 1 ≤ c.source.length := Nat.sub_le _ _
  rw [cellLines, text_split]
  rw [lineAt, lineAt, List.take_left, List.take_length_add_append, textFrom,
    List.take_append_of_le_length hle, List.count_append]
  refine Prod.ext rfl ?_
  push_cast
  omega

/-! ## When the offsets are exact -/

/-- The cells that the offsets count a line too much for. -/
def drift (cells : List NotebookCell) : Nat :=
  (cells.filter fun c => ¬ EndsLine c.source).length

theorem drift_eq_zero {cells : List NotebookCell} :
    drift cells = 0 ↔ ∀ c ∈ cells, EndsLine c.source := by
  rw [drift, List.length_eq_zero_iff, List.filter_eq_nil_iff]
  simp

theorem offsetsFrom_append (line : Int) (before rest : List NotebookCell) :
    offsetsFrom line (before ++ rest) =
      ((offsetsFrom line before).1 ++ (offsetsFrom (offsetsFrom line before).2 rest).1,
        (offsetsFrom (offsetsFrom line before).2 rest).2) := by
  induction before generalizing line with
  | nil => rfl
  | cons b before ih => rw [List.cons_append, offsetsFrom, ih]; rfl

theorem length_offsetsFrom (line : Int) (cells : List NotebookCell) :
    (offsetsFrom line cells).1.length = cells.length := by
  induction cells generalizing line with
  | nil => rfl
  | cons c cells ih => rw [offsetsFrom, List.length_cons, ih, List.length_cons]

theorem snd_offsetsFrom (line : Int) (cells : List NotebookCell) :
    (offsetsFrom line cells).2 = line + (frontOf cells).count '\n' + drift cells := by
  induction cells generalizing line with
  | nil => simp [offsetsFrom, frontOf, drift]
  | cons c cells ih =>
      have hcons : frontOf (c :: cells) = c.source ++ ['\n'] ++ frontOf cells :=
        List.flatMap_cons
      have hdrift : (drift (c :: cells) : Int) =
          (if EndsLine c.source then 0 else 1) + drift cells := by
        rw [drift, List.filter_cons, drift]
        by_cases h : EndsLine c.source
        · simp [h]
        · simp [h, Int.add_comm]
      rw [offsetsFrom, ih, hcons, hdrift, lineCount, List.count_append, List.count_append]
      simp only [List.count_singleton_self]
      push_cast
      omega

theorem offset_getElem? (before : List NotebookCell) (c : NotebookCell)
    (after : List NotebookCell) :
    (concatenateNotebookCells (before ++ c :: after)).2.1[before.length]? =
      some ⟨c.cellIndex, (cellLines (before ++ c :: after) before c).1 + drift before,
        (cellLines (before ++ c :: after) before c).2 + drift before⟩ := by
  have hlength := length_offsetsFrom 1 before
  rw [concatenateNotebookCells, cellLines_eq]
  dsimp only
  rw [offsetsFrom_append, List.getElem?_append_right (Nat.le_of_eq hlength), hlength, Nat.sub_self,
    offsetsFrom, snd_offsetsFrom]
  refine congrArg some ?_
  rw [Offset.mk.injEq]
  refine ⟨rfl, ?_, ?_⟩ <;> omega

theorem exact_iff (cells : List NotebookCell) : Exact cells ↔ Ended cells := by
  constructor
  · intro hexact
    rcases List.eq_nil_or_concat' cells with rfl | ⟨before, c, rfl⟩
    · exact fun c hc => absurd hc List.not_mem_nil
    · have hlast := hexact before c [] rfl
      rw [offset_getElem?, Option.some.injEq, Offset.mk.injEq] at hlast
      rw [Ended, List.dropLast_concat, ← drift_eq_zero]
      omega
  · rintro hended before c after rfl
    have hdrift : drift before = 0 := drift_eq_zero.mpr fun b hb => hended b (by
      rw [List.dropLast_append_of_ne_nil (List.cons_ne_nil _ _)]
      exact List.mem_append_left _ hb)
    rw [offset_getElem?, hdrift]
    simp

/-! ## Tags -/

def overlap (node : ParsedNode) (o : Offset) : Int :=
  min node.lineEnd o.stop - max node.lineStart o.start + 1

/-- A round of the search for the cell that has most of a node. -/
def better (node : ParsedNode) (s : Option Int × Int) (o : Offset) : Option Int × Int :=
  if s.2 < overlap node o ∧ 0 < overlap node o then (some o.cellIndex, overlap node o) else s

def bestCell (offsets : List Offset) (node : ParsedNode) : Option Int :=
  (offsets.foldl (better node) (none, -1)).1

/-- `set_node_extra_i64`, `set_node_extra_str`. -/
def setNodeExtra (key : String) (value : Json) (node : ParsedNode) : ParsedNode :=
  { node with extra := .obj (setField key value (match node.extra with
      | .obj fields => fields
      | _ => [])) }

def tagCellIndex (offsets : List Offset) (node : ParsedNode) : ParsedNode :=
  if node.kind = .file then node
  else
    match bestCell offsets node with
    | some cellIndex => setNodeExtra "cell_index" (.int cellIndex) node
    | none => node

def tagNotebookCellIndices (offsets : List Offset) (nodes : List ParsedNode) : List ParsedNode :=
  nodes.map (tagCellIndex offsets)

def nodeCellIndex (node : ParsedNode) : Option Int :=
  match node.extra.get "cell_index" with
  | some (.int n) => some n
  | _ => none

def tagCellName (cells : List NotebookCell) (node : ParsedNode) : ParsedNode :=
  if node.kind = .file then node
  else
    match (nodeCellIndex node).bind fun i =>
      (cells.find? fun c => c.cellIndex = i).bind NotebookCell.name with
    | some name => setNodeExtra "cell_name" (.str name) node
    | none => node

def tagNotebookCellNames (cells : List NotebookCell) (nodes : List ParsedNode) :
    List ParsedNode := nodes.map (tagCellName cells)

/-! ## The nodes of a notebook -/

def isDefaultMarimoCellName (name : String) : Bool := name = "" || name = "_" || name = "__"

def pythonNameMatchesTestPattern (name : String) : Bool :=
  "test_".toList.isPrefixOf name.toList || "Test".toList.isPrefixOf name.toList ||
    "_test".toList.isSuffixOf name.toList || (splitFirst ".test.".toList name.toList).isSome ||
    (splitFirst ".spec.".toList name.toList).isSome || "_spec".toList.isSuffixOf name.toList

def synthesize (filePath : String) (offsets : List Offset) (nodes : List ParsedNode)
    (cell : NotebookCell) : List ParsedNode :=
  match cell.name with
  | none => nodes
  | some name =>
      if isDefaultMarimoCellName name then nodes
      else if nodes.any fun node => node.kind ≠ .file ∧
          nodeCellIndex node = some cell.cellIndex ∧ node.name = name then nodes
      else
        let lines := ((offsets.find? fun o => o.cellIndex = cell.cellIndex).map fun o =>
          (o.start, o.stop)).getD (1, 1)
        let isTest := pythonNameMatchesTestPattern name
        nodes ++ [{
          kind := if isTest then .test else .function
          name := name
          filePath := filePath
          lineStart := lines.1
          lineEnd := lines.2
          language := cell.language
          params := if cell.refs = [] then none
            else some ("(" ++ String.intercalate ", " cell.refs ++ ")")
          isTest := isTest
          extra := .obj [("cell_index", .int cell.cellIndex), ("cell_name", .str name),
            ("synthesized_from", .str "marimo_cell_name")] }]

/-- What a parser gives for the text of a language: `parse_python_module`, and the scan for
functions in R. -/
abbrev Parser := String → List Char → List ParsedNode

def cellsOf (cells : List NotebookCell) (language : String) : List NotebookCell :=
  cells.filter fun c => c.language = language

def parseLanguage (parse : Parser) (cells : List NotebookCell) (language : String) :
    List ParsedNode × List Offset × Int :=
  let s := concatenateNotebookCells (cellsOf cells language)
  if language = "python" then
    ((parse language s.1).filter fun node => node.kind ≠ .file, s.2)
  else if language = "r" then (parse language s.1, s.2)
  else ([], [], 1)

def languagesOf (cells : List NotebookCell) : List String :=
  keepFirst id (cells.map NotebookCell.language)

def cellOffsets (parse : Parser) (cells : List NotebookCell) : List Offset :=
  (languagesOf cells).flatMap fun language => (parseLanguage parse cells language).2.1

/-- What is known of a notebook's file. -/
structure NotebookFile where
  path : String
  defaultLanguage : String
  isTest : Bool
  format : Option String

def notebookFileNode (f : NotebookFile) (lineEnd : Int) : ParsedNode where
  kind := .file
  name := f.path
  filePath := f.path
  lineEnd := lineEnd
  language := f.defaultLanguage
  isTest := f.isTest
  extra := .obj (f.format.map fun format => ("notebook_format", Json.str format)).toList

/-- `parse_notebook_cells`, without its edges. -/
def parseNotebookCells (parse : Parser) (f : NotebookFile) (cells : List NotebookCell) :
    List ParsedNode :=
  let parsed := (languagesOf cells).map (parseLanguage parse cells)
  let offsets := cellOffsets parse cells
  let maxLine := parsed.foldl (fun line p => max line p.2.2) 1
  let nodes := notebookFileNode f maxLine :: parsed.flatMap Prod.fst
  cells.foldl (synthesize f.path offsets)
    (tagNotebookCellNames cells (tagNotebookCellIndices offsets nodes))

/-! ## The search finds the cell of a node -/

theorem foldl_better_of_le {node : ParsedNode} {offsets : List Offset} {s : Option Int × Int}
    (h : ∀ o ∈ offsets, overlap node o ≤ max 0 s.2) : offsets.foldl (better node) s = s := by
  induction offsets with
  | nil => rfl
  | cons o offsets ih =>
      have ho := h o List.mem_cons_self
      have hstep : better node s o = s := if_neg fun hlt => by omega
      rw [List.foldl_cons, hstep]
      exact ih fun o' ho' => h o' (List.mem_cons_of_mem _ ho')

theorem bestCell_eq {node : ParsedNode} {pre post : List Offset} {o : Offset}
    (hpos : 0 < overlap node o) (hpre : ∀ o' ∈ pre, overlap node o' ≤ 0)
    (hpost : ∀ o' ∈ post, overlap node o' ≤ overlap node o) :
    bestCell (pre ++ o :: post) node = some o.cellIndex := by
  have hfirst : pre.foldl (better node) (none, -1) = (none, -1) :=
    foldl_better_of_le fun o' ho' => Int.le_trans (hpre o' ho') (by decide)
  have hstep : better node (none, -1) o = (some o.cellIndex, overlap node o) :=
    if_pos ⟨by dsimp only; omega, hpos⟩
  have hrest : post.foldl (better node) (some o.cellIndex, overlap node o) =
      (some o.cellIndex, overlap node o) :=
    foldl_better_of_le fun o' ho' => Int.le_trans (hpost o' ho') (Int.le_max_right _ _)
  rw [bestCell, List.foldl_append, hfirst, List.foldl_cons, hstep, hrest]

theorem bestCell_none {node : ParsedNode} {offsets : List Offset}
    (h : ∀ o ∈ offsets, overlap node o ≤ 0) : bestCell offsets node = none := by
  rw [bestCell, foldl_better_of_le fun o ho => Int.le_trans (h o ho) (by decide)]

theorem bounds_offsetsFrom {line : Int} {cells : List NotebookCell} :
    line ≤ (offsetsFrom line cells).2 ∧ ∀ o ∈ (offsetsFrom line cells).1,
      line ≤ o.start ∧ o.start ≤ o.stop ∧ o.stop + 2 ≤ (offsetsFrom line cells).2 := by
  induction cells generalizing line with
  | nil => exact ⟨Int.le_refl _, fun o ho => absurd ho List.not_mem_nil⟩
  | cons c cells ih =>
      obtain ⟨hline, hbounds⟩ := @ih (line + (lineCount c.source + 1))
      have hpos := lineCount_pos c.source
      rw [offsetsFrom]
      refine ⟨by dsimp only; omega, fun o ho => ?_⟩
      rcases List.mem_cons.mp ho with rfl | ho
      · refine ⟨?_, ?_, ?_⟩ <;> dsimp only <;> omega
      · obtain ⟨hstart, hle, hstop⟩ := hbounds o ho
        exact ⟨by omega, hle, hstop⟩

theorem overlap_le_zero {node : ParsedNode} {o : Offset}
    (h : node.lineEnd < o.start ∨ o.stop < node.lineStart) : overlap node o ≤ 0 := by
  rw [overlap]
  omega

theorem bestCell_offsets {cells before after : List NotebookCell} {c : NotebookCell}
    (hended : Ended cells) (hcells : cells = before ++ c :: after) {node : ParsedNode}
    (hstart : (cellLines cells before c).1 ≤ node.lineStart)
    (hle : node.lineStart ≤ node.lineEnd)
    (hstop : node.lineEnd ≤ (cellLines cells before c).2) :
    bestCell (concatenateNotebookCells cells).2.1 node = some c.cellIndex := by
  subst hcells
  have hexact := (exact_iff _).mpr hended before c after rfl
  have hoffset := offset_getElem? before c after
  rw [hexact, Option.some.injEq, Offset.mk.injEq] at hoffset
  have hdrift : drift before = 0 := by omega
  rw [cellLines_eq] at hstart hstop
  dsimp only at hstart hstop
  obtain ⟨-, hbefore⟩ := @bounds_offsetsFrom 1 before
  have hafter := @bounds_offsetsFrom
    ((offsetsFrom 1 before).2 + (lineCount c.source + 1)) after
  rw [snd_offsetsFrom, hdrift] at hbefore hafter
  have hoffsets : (concatenateNotebookCells (before ++ c :: after)).2.1 =
      (offsetsFrom 1 before).1 ++ ⟨c.cellIndex, 1 + (frontOf before).count '\n' + (0 : Nat),
        1 + (frontOf before).count '\n' + (0 : Nat) + lineCount c.source - 1⟩ ::
        (offsetsFrom (1 + (frontOf before).count '\n' + (0 : Nat) +
          (lineCount c.source + 1)) after).1 := by
    rw [concatenateNotebookCells]
    dsimp only
    rw [offsetsFrom_append, offsetsFrom, snd_offsetsFrom, hdrift]
  rw [hoffsets]
  refine bestCell_eq ?_ (fun o ho => overlap_le_zero ?_) (fun o ho => ?_)
  · rw [overlap]
    dsimp only
    omega
  · have hbound := hbefore o ho
    omega
  · have hbound := hafter.2 o ho
    refine Int.le_trans (overlap_le_zero (.inl ?_)) ?_
    · omega
    · rw [overlap]
      dsimp only
      omega

/-! ## The tags of a notebook -/

/-- The cells of a notebook: each collector numbers them as they come. -/
structure Notebook where
  cells : List NotebookCell
  distinct : (cells.map NotebookCell.cellIndex).Nodup

def taggedNode (parse : Parser) (cells : List NotebookCell) (node : ParsedNode) : ParsedNode :=
  tagCellName cells (tagCellIndex (cellOffsets parse cells) node)

def Parsed (language : String) : Prop := language = "python" ∨ language = "r"

/-- Every node in the lines of a cell is tagged with that cell. -/
def Tagged (nb : Notebook) : Prop :=
  ∀ parse language, Parsed language → ∀ before c after,
    cellsOf nb.cells language = before ++ c :: after → ∀ node : ParsedNode, node.kind ≠ .file →
      (cellLines (cellsOf nb.cells language) before c).1 ≤ node.lineStart →
      node.lineStart ≤ node.lineEnd →
      node.lineEnd ≤ (cellLines (cellsOf nb.cells language) before c).2 →
        (taggedNode parse nb.cells node).extra.get "cell_index" = some (.int c.cellIndex)

def offsetsOf (cells : List NotebookCell) (language : String) : List Offset :=
  (concatenateNotebookCells (cellsOf cells language)).2.1

theorem flatMap_two {α β : Type} [DecidableEq α] {a b : α} (hab : a ≠ b) {f g : α → List β}
    (ha : f a = g a) (hb : f b = g b) (hf : ∀ c, c ≠ a → c ≠ b → f c = []) :
    ∀ {l : List α}, l.Nodup → (a ∉ l → g a = []) → (b ∉ l → g b = []) →
      l.flatMap f = g a ++ g b ∨ l.flatMap f = g b ++ g a
  | [], _, hna, hnb => by
      rw [hna List.not_mem_nil, hnb List.not_mem_nil]
      exact .inl rfl
  | c :: l, hnodup, hna, hnb => by
      obtain ⟨hc, hnodup⟩ := List.nodup_cons.mp hnodup
      rw [List.flatMap_cons]
      by_cases hca : c = a
      · subst hca
        have hrest := flatMap_rest hab hb hf (List.nodup_cons.mpr ⟨hc, hnodup⟩) hnb
        exact .inl (by rw [ha, hrest])
      · by_cases hcb : c = b
        · subst hcb
          have hrest := flatMap_rest hab.symm ha (fun d h h' => hf d h' h)
            (List.nodup_cons.mpr ⟨hc, hnodup⟩) hna
          exact .inr (by rw [hb, hrest])
        · rw [hf c hca hcb, List.nil_append]
          refine flatMap_two hab ha hb hf hnodup (fun h => hna ?_) (fun h => hnb ?_)
          · exact fun hmem => (List.mem_cons.mp hmem).elim (fun heq => hca heq.symm) h
          · exact fun hmem => (List.mem_cons.mp hmem).elim (fun heq => hcb heq.symm) h
where
  /-- Behind one of the two only the other counts. -/
  flatMap_rest {a b : α} (hab : a ≠ b) {f g : α → List β} (hb : f b = g b)
      (hf : ∀ c, c ≠ a → c ≠ b → f c = []) : ∀ {l : List α}, (a :: l).Nodup →
        (b ∉ a :: l → g b = []) → l.flatMap f = g b
    | [], _, hnb => by
        rw [hnb fun h => hab (List.mem_singleton.mp h).symm]
        rfl
    | c :: l, hnodup, hnb => by
        obtain ⟨ha, hl⟩ := List.nodup_cons.mp hnodup
        obtain ⟨hc, hl⟩ := List.nodup_cons.mp hl
        have hca : c ≠ a := fun h => ha (h ▸ List.mem_cons_self)
        have hal : (a :: l).Nodup :=
          List.nodup_cons.mpr ⟨fun h => ha (List.mem_cons_of_mem _ h), hl⟩
        rw [List.flatMap_cons]
        by_cases hcb : c = b
        · subst hcb
          have hnil : ∀ d ∈ l, f d = [] := fun d hd =>
            hf d (fun h => ha (h ▸ List.mem_cons_of_mem _ hd)) fun h => hc (h ▸ hd)
          rw [hb, List.flatMap_eq_nil_iff.mpr hnil, List.append_nil]
        · rw [hf c hca hcb, List.nil_append]
          refine flatMap_rest hab hb hf hal fun h => hnb fun hmem => h ?_
          rcases List.mem_cons.mp hmem with h' | hmem
          · exact h' ▸ List.mem_cons_self
          · rcases List.mem_cons.mp hmem with h' | hmem
            · exact absurd h'.symm hcb
            · exact List.mem_cons_of_mem _ hmem

theorem offsetsOf_of_notMem {cells : List NotebookCell} {language : String}
    (h : language ∉ languagesOf cells) : offsetsOf cells language = [] := by
  have hnil : cellsOf cells language = [] := by
    rw [cellsOf, List.filter_eq_nil_iff]
    intro c hc heq
    obtain ⟨d, hd, hdc⟩ : ∃ d ∈ languagesOf cells, id d = id c.language :=
      exists_mem_keepFirst (List.mem_map_of_mem hc)
    rw [← of_decide_eq_true heq] at h
    exact h ((show d = c.language from hdc) ▸ hd)
  rw [offsetsOf, hnil]
  rfl

theorem cellOffsets_eq (parse : Parser) (cells : List NotebookCell) :
    cellOffsets parse cells = offsetsOf cells "python" ++ offsetsOf cells "r" ∨
      cellOffsets parse cells = offsetsOf cells "r" ++ offsetsOf cells "python" := by
  refine flatMap_two (by decide) (g := offsetsOf cells) ?_ ?_ ?_ (keepFirst_nodup id _)
    offsetsOf_of_notMem offsetsOf_of_notMem
  · rw [parseLanguage, if_pos rfl]
    rfl
  · rw [parseLanguage, if_neg (by decide), if_pos rfl]
    rfl
  · intro language hpython hr
    rw [parseLanguage, if_neg hpython, if_neg hr]

theorem lookup_setField_of_ne {key key' : String} (h : key' ≠ key) (value : Json) :
    ∀ fields : List (String × Json),
      (setField key value fields).lookup key' = fields.lookup key'
  | [] => by
      rw [setField, List.lookup_cons, beq_false_of_ne h]
  | f :: fields => by
      rw [setField]
      split
      · rename_i hf
        rw [List.lookup_cons, List.lookup_cons, hf, beq_false_of_ne h]
      · rw [List.lookup_cons, List.lookup_cons, lookup_setField_of_ne h value fields]

theorem get_setNodeExtra (key : String) (value : Json) (node : ParsedNode) :
    (setNodeExtra key value node).extra.get key = some value := lookup_setField key value _

theorem get_setNodeExtra_of_ne {key key' : String} (h : key' ≠ key) (value : Json)
    (node : ParsedNode) : (setNodeExtra key value node).extra.get key' = node.extra.get key' := by
  refine (lookup_setField_of_ne h value _).trans ?_
  cases node.extra <;> rfl

theorem get_taggedNode (parse : Parser) (cells : List NotebookCell) {node : ParsedNode}
    (hkind : node.kind ≠ .file) : (taggedNode parse cells node).extra.get "cell_index" =
      match bestCell (cellOffsets parse cells) node with
      | some cellIndex => some (.int cellIndex)
      | none => node.extra.get "cell_index" := by
  have hname : ∀ n : ParsedNode,
      (tagCellName cells n).extra.get "cell_index" = n.extra.get "cell_index" := fun n => by
    unfold tagCellName
    split
    · rfl
    · split
      · exact get_setNodeExtra_of_ne (by decide) _ n
      · rfl
  rw [taggedNode, hname, tagCellIndex, if_neg hkind]
  cases bestCell (cellOffsets parse cells) node with
  | none => rfl
  | some cellIndex => exact get_setNodeExtra "cell_index" _ node

/-- The cells but the last of each language end with a newline, and there is one language. -/
structure Plain (nb : Notebook) : Prop where
  ended : ∀ language, Parsed language → Ended (cellsOf nb.cells language)
  oneLanguage : cellsOf nb.cells "python" = [] ∨ cellsOf nb.cells "r" = []

theorem offsetsOf_nil {cells : List NotebookCell} {language : String}
    (h : cellsOf cells language = []) : offsetsOf cells language = [] := by
  rw [offsetsOf, h]
  rfl

theorem cellOffsets_of_one {cells : List NotebookCell} {language : String}
    (hparsed : Parsed language) (hone : cellsOf cells "python" = [] ∨ cellsOf cells "r" = [])
    (hne : cellsOf cells language ≠ []) (parse : Parser) :
    cellOffsets parse cells = offsetsOf cells language := by
  rcases hparsed with rfl | rfl
  · have hnil := offsetsOf_nil (hone.resolve_left hne)
    rcases cellOffsets_eq parse cells with h | h <;> rw [h, hnil] <;> simp
  · have hnil := offsetsOf_nil (hone.resolve_right hne)
    rcases cellOffsets_eq parse cells with h | h <;> rw [h, hnil] <;> simp

theorem tagged_of_plain {nb : Notebook} (h : Plain nb) : Tagged nb := by
  intro parse language hparsed before c after hcells node hkind hstart hle hstop
  have hne : cellsOf nb.cells language ≠ [] := by rw [hcells]; simp
  have hbest := bestCell_offsets (h.ended language hparsed) hcells hstart hle hstop
  rw [get_taggedNode parse nb.cells hkind, cellOffsets_of_one hparsed h.oneLanguage hne, offsetsOf,
    hbest]

def lineNode (line : Int) : ParsedNode where
  kind := .function
  name := "f"
  filePath := ""
  lineStart := line
  lineEnd := line

theorem lineNode_of_tagged {nb : Notebook} (h : Tagged nb) {language : String}
    (hparsed : Parsed language) {before after : List NotebookCell} {c : NotebookCell}
    (hcells : cellsOf nb.cells language = before ++ c :: after) (parse : Parser) :
    bestCell (cellOffsets parse nb.cells) (lineNode ((frontOf before).count '\n' + 1)) =
      some c.cellIndex := by
  have hkind : (lineNode ((frontOf before).count '\n' + 1)).kind ≠ .file := by
    exact NodeKind.noConfusion
  have hpos := lineCount_pos c.source
  have htag := h parse language hparsed before c after hcells
    (lineNode ((frontOf before).count '\n' + 1)) hkind
  rw [hcells, cellLines_eq] at htag
  have hindex := htag (Int.le_refl _) (Int.le_refl _) (by dsimp only [lineNode]; omega)
  rw [get_taggedNode parse nb.cells hkind] at hindex
  cases hbest : bestCell (cellOffsets parse nb.cells)
      (lineNode ((frontOf before).count '\n' + 1)) with
  | none =>
      rw [hbest] at hindex
      cases hindex
  | some cellIndex =>
      rw [hbest] at hindex
      cases hindex
      rfl

theorem language_of_mem {cells : List NotebookCell} {language : String} {c : NotebookCell}
    (h : c ∈ cellsOf cells language) : c ∈ cells ∧ c.language = language :=
  ⟨(List.mem_filter.mp h).1, of_decide_eq_true (List.mem_filter.mp h).2⟩

/-- With cells of both languages the first line of one is tagged with a cell of the other. -/
theorem oneLanguage_of_tagged {nb : Notebook} (h : Tagged nb) :
    cellsOf nb.cells "python" = [] ∨ cellsOf nb.cells "r" = [] := by
  cases hpython : cellsOf nb.cells "python" with
  | nil => exact .inl rfl
  | cons p ps =>
      cases hr : cellsOf nb.cells "r" with
      | nil => exact .inr rfl
      | cons q qs =>
          have hp : cellsOf nb.cells "python" = [] ++ p :: ps := hpython
          have hq : cellsOf nb.cells "r" = [] ++ q :: qs := hr
          have hfirst := lineNode_of_tagged h (.inl rfl) hp fun _ _ => []
          have hsecond := lineNode_of_tagged h (.inr rfl) hq fun _ _ => []
          have heq : p.cellIndex = q.cellIndex := by
            rw [hfirst] at hsecond
            exact Option.some.inj hsecond
          obtain ⟨hp, hpl⟩ := language_of_mem (hpython ▸ List.mem_cons_self : p ∈ _)
          obtain ⟨hq, hql⟩ := language_of_mem (hr ▸ List.mem_cons_self : q ∈ _)
          have hsame := List.inj_on_of_nodup_map nb.distinct hp hq heq
          rw [hsame, hql] at hpl
          exact absurd hpl (by decide)

theorem exists_first {α : Type} {p : α → Prop} [DecidablePred p]
    {l : List α} (h : ¬ ∀ a ∈ l, p a) :
    ∃ before a after, l = before ++ a :: after ∧ (∀ b ∈ before, p b) ∧ ¬ p a := by
  obtain ⟨a, ha⟩ := Option.isSome_iff_exists.mp
    ((List.find?_isSome (p := fun a => !decide (p a))).mpr (by simpa using h))
  obtain ⟨hp, before, after, hl, hbefore⟩ := List.find?_eq_some_iff_append.mp ha
  exact ⟨before, a, after, hl, by simpa using hbefore, by simpa using hp⟩

/-- The line in front of the offsets from a cell on belongs to no cell, where the cells in front of
it have just one that does not end with a newline. -/
theorem bestCell_gap {before after : List NotebookCell} (hdrift : drift before = 1) :
    bestCell (offsetsFrom 1 (before ++ after)).1
      (lineNode ((frontOf before).count '\n' + 1)) = none := by
  have hline := snd_offsetsFrom 1 before
  obtain ⟨-, hfront⟩ := @bounds_offsetsFrom 1 before
  obtain ⟨-, hback⟩ := @bounds_offsetsFrom (offsetsFrom 1 before).2 after
  refine bestCell_none fun o ho => overlap_le_zero ?_
  rw [offsetsFrom_append] at ho
  dsimp only [lineNode]
  rcases List.mem_append.mp ho with ho | ho
  · have hbound := hfront o ho
    omega
  · have hbound := hback o ho
    omega

theorem ended_of_tagged {nb : Notebook} (h : Tagged nb) {language : String}
    (hparsed : Parsed language) : Ended (cellsOf nb.cells language) := by
  by_contra hnot
  obtain ⟨before, c, after, hsplit, hbefore, hc⟩ := exists_first hnot
  obtain ⟨d, rest, hcells⟩ : ∃ d rest,
      cellsOf nb.cells language = (before ++ [c]) ++ d :: rest := by
    rcases List.eq_nil_or_concat' (cellsOf nb.cells language) with hnil | ⟨front, last, hlast⟩
    · rw [hnil] at hsplit
      simp at hsplit
    · rw [hlast, List.dropLast_concat] at hsplit
      rw [hlast, hsplit]
      cases after with
      | nil => exact ⟨last, [], by simp⟩
      | cons d after => exact ⟨d, after ++ [last], by simp⟩
  have hdrift : drift (before ++ [c]) = 1 := by
    have hzero := drift_eq_zero.mpr hbefore
    rw [drift] at hzero ⊢
    rw [List.filter_append, List.length_append, hzero]
    simp [hc]
  have hne : cellsOf nb.cells language ≠ [] := by rw [hcells]; simp
  have htag := lineNode_of_tagged h hparsed hcells fun _ _ => []
  rw [cellOffsets_of_one hparsed (oneLanguage_of_tagged h) hne, offsetsOf, hcells,
    concatenateNotebookCells] at htag
  dsimp only at htag
  rw [bestCell_gap hdrift] at htag
  cases htag

theorem foldl_synthesize_append (filePath : String) (offsets : List Offset)
    (cells : List NotebookCell) (nodes : List ParsedNode) :
    nodes <+: cells.foldl (synthesize filePath offsets) nodes := by
  induction cells generalizing nodes with
  | nil => exact List.prefix_rfl
  | cons c cells ih =>
      refine List.IsPrefix.trans ?_ (ih _)
      unfold synthesize
      split
      · exact List.prefix_rfl
      · split
        · exact List.prefix_rfl
        · split
          · exact List.prefix_rfl
          · exact List.prefix_append _ _

theorem mem_parseNotebookCells {parse : Parser} {f : NotebookFile} {cells : List NotebookCell}
    {language : String} (hparsed : Parsed language)
    (hlanguage : language ∈ cells.map NotebookCell.language) {node : ParsedNode}
    (hnode : node ∈ parse language (concatenateNotebookCells (cellsOf cells language)).1)
    (hkind : node.kind ≠ .file) :
    taggedNode parse cells node ∈ parseNotebookCells parse f cells := by
  obtain ⟨l, hl, hlang⟩ : ∃ l ∈ languagesOf cells, id l = id language :=
    exists_mem_keepFirst hlanguage
  obtain rfl : l = language := hlang
  have hmem : node ∈ (parseLanguage parse cells l).1 := by
    rcases hparsed with rfl | rfl
    · exact List.mem_filter.mpr ⟨hnode, decide_eq_true hkind⟩
    · exact hnode
  refine (foldl_synthesize_append _ _ _ _).subset (List.mem_map_of_mem (List.mem_map_of_mem ?_))
  exact List.mem_cons_of_mem _
    (List.mem_flatMap.mpr ⟨_, List.mem_map_of_mem hl, hmem⟩)

/-- The offsets of some cells are their lines just if all but the last end with a newline. In a
notebook every node of a parser in the lines of a cell is tagged with it just if this holds of
each language, and there is one language. -/
theorem notebook_iff (cells : List NotebookCell) (nb : Notebook) :
    (Exact cells ↔ Ended cells) ∧
      (∀ (parse : Parser) (f : NotebookFile) (language : String), Parsed language →
        language ∈ nb.cells.map NotebookCell.language → ∀ node : ParsedNode,
          node ∈ parse language (concatenateNotebookCells (cellsOf nb.cells language)).1 →
          node.kind ≠ .file →
          taggedNode parse nb.cells node ∈ parseNotebookCells parse f nb.cells) ∧
      (Tagged nb ↔ Plain nb) :=
  ⟨exact_iff cells, fun _ _ _ hparsed hlanguage _ hnode hkind =>
    mem_parseNotebookCells hparsed hlanguage hnode hkind,
    fun h => ⟨fun _ hparsed => ended_of_tagged h hparsed, oneLanguage_of_tagged h⟩,
    tagged_of_plain⟩

/-- Two cells, the first without a newline at its end: the offset of the second is a line too far,
and a node in its line has no tag. -/
theorem notebook_drift :
    let cells : List NotebookCell := [⟨0, "python", "x = 1".toList, none, []⟩,
      ⟨1, "python", "y = 2".toList, none, []⟩]
    (concatenateNotebookCells cells).2.1 = [⟨0, 1, 1⟩, ⟨1, 3, 3⟩] ∧
      cellLines cells [⟨0, "python", "x = 1".toList, none, []⟩]
        ⟨1, "python", "y = 2".toList, none, []⟩ = (2, 2) ∧
      bestCell (cellOffsets (fun _ _ => []) cells) (lineNode 2) = none := by
  decide +kernel

end Notebooks

end Dagayn
