import Dagayn.NormalizeCode
import Dagayn.ParsedFile

/-!
# A file at the base and now

`compare_file`: the symbols of one file at the base of a review against those it has now. A
symbol whose qualified name is gone is removed, a removed test or, where its name still stands
in the file, unconfirmed; of one that stays the code of its span is compared. What is removed
and what is added is then paired up by the shape of the bodies, one to one.
-/

namespace Dagayn

namespace BaseSymbols

open NormalizeCode

/-! ## Symbols -/

/-- `NodeKind::as_str`. -/
def kindText : NodeKind → String
  | .file => "File"
  | .function => "Function"
  | .cls => "Class"
  | .type => "Type"
  | .test => "Test"
  | .docSection => "DocSection"
  | .docBody => "DocBody"

structure BaseSymbol where
  kind : String
  name : String
  qualifiedName : String
  currentQualifiedName : Option String
  filePath : String
  currentFile : Option String
  parentName : Option String
  lineStart : Int
  lineEnd : Int
  language : String
  isTest : Bool
deriving DecidableEq, Repr

def rebaseQualified (qualified from_ to_ : String) : String :=
  if from_ = to_ then qualified
  else if from_.toList.isPrefixOf qualified.toList then
    let rest := qualified.toList.drop from_.toList.length
    if rest = [] ∨ [':', ':'].isPrefixOf rest then to_ ++ .ofList rest else qualified
  else qualified

def isTestNode (n : ParsedNode) : Bool := n.isTest || n.kind = .test

def BaseSymbol.fromParsed (n : ParsedNode) (basePath : String) (current : Option String) :
    BaseSymbol where
  kind := kindText n.kind
  name := n.name
  qualifiedName := rebaseQualified (qualifiedNameOf n) n.filePath basePath
  currentQualifiedName := none
  filePath := basePath
  currentFile := current
  parentName := n.parentName
  lineStart := n.lineStart
  lineEnd := n.lineEnd
  language := n.language
  isTest := isTestNode n

structure Signature where
  params : Option String
  returnType : Option String
  modifiers : Option String
deriving DecidableEq, Repr

def Signature.of (n : ParsedNode) : Signature := ⟨n.params, n.returnType, n.modifiers⟩

def squash (text : Option String) : List Char :=
  (text.getD "").toList.filter fun c => !isWhitespace c

def Signature.sameShape (a b : Signature) : Bool :=
  squash a.params = squash b.params && squash a.returnType = squash b.returnType &&
    squash a.modifiers = squash b.modifiers

structure SignatureChange where
  symbol : BaseSymbol
  before : Signature
  after : Signature
  lineStart : Int
  lineEnd : Int
  paramsChanged : Bool
deriving DecidableEq, Repr

structure RenameCandidate where
  source : BaseSymbol
  toName : String
  toQualifiedName : String
  toLineStart : Int
deriving DecidableEq, Repr

structure SymbolDelta where
  removed : List BaseSymbol := []
  removedTests : List BaseSymbol := []
  removedFiles : List BaseSymbol := []
  movedFiles : List BaseSymbol := []
  unconfirmedRemoved : List BaseSymbol := []
  renamedCandidates : List RenameCandidate := []
  signatureChanged : List SignatureChange := []
  filesCompared : List (String × String) := []
  unchangedBodies : List String := []

def isSymbol (n : ParsedNode) : Bool := n.kind ≠ .file && n.kind ≠ .docBody

def pushRemoved (delta : SymbolDelta) (symbol : BaseSymbol) : SymbolDelta :=
  if symbol.isTest then { delta with removedTests := delta.removedTests ++ [symbol] }
  else { delta with removed := delta.removed ++ [symbol] }

/-! ## Spans and their code -/

def span (source : List UInt8) (start stop : Int) : List Char :=
  ['\n'].intercalate (((Scip.lines (fromUtf8Lossy source)).drop (max start 1 - 1).toNat).take
    (stop - start + 1).toNat)

def dedent (text : List Char) : List Char :=
  let lines := Scip.lines text
  let trimStart (line : List Char) := line.dropWhile isWhitespace
  let indents := (lines.filter fun line => trim line ≠ []).map fun line =>
    (utf8 line).length - (utf8 (trimStart line)).length
  let indent := indents.min?.getD 0
  ['\n'].intercalate (lines.map fun line => (sliceFrom indent line).getD (trimStart line))

/-- The Python parser: the syntax tree of a module without its docstrings, as it is compared. -/
structure PythonParser where
  Tree : Type
  decEq : DecidableEq Tree
  parse : List Char → Option Tree

def pythonSameCode (p : PythonParser) (before after : List Char) : Option Bool :=
  have := p.decEq
  match p.parse (dedent before), p.parse (dedent after) with
  | some before, some after => some (before = after)
  | _, _ => none

def sameCode (p : PythonParser) (before after : List Char) (language : String) : Bool :=
  let byText : Bool := normalizeCode before language = normalizeCode after language
  if language = "python" then (pythonSameCode p before after).getD byText else byText

def stillNamed (n : ParsedNode) (text : List Char) : Bool :=
  let name := n.name.toList
  n.kind ∈ [NodeKind.function, .cls, .type] && name ≠ [] && name.all Scip.isWord &&
    (Scip.matchIndices name 0 [] text).any fun (before, behind) =>
      !before.getLast?.any Scip.isWord && !behind.head?.any Scip.isWord

/-! ## Renames -/

/-- `str::replace`; behind a match its characters are passed over. -/
def replaceAll (pattern text : List Char) : Nat → List Char → List Char
  | _, [] => []
  | skip + 1, _ :: rest => replaceAll pattern text skip rest
  | 0, c :: rest =>
      if pattern.isPrefixOf (c :: rest) then
        text ++ replaceAll pattern text (pattern.length - 1) rest
      else c :: replaceAll pattern text 0 rest

def bodyShape (lines : List (List Char)) (n : ParsedNode) : Option (List Char) :=
  if n.lineStart < 1 ∨ n.lineEnd < 0 then none
  else
    let start := (n.lineStart - 1).toNat
    let stop := min n.lineEnd.toNat lines.length
    if n.name = "" ∨ stop ≤ start then none
    else
      let shape := ['\n'].intercalate (((lines.drop start).take (stop - start)).map fun line =>
        trim (replaceAll n.name.toList ['\x00'] 0 line))
      if trim shape = [] then none else some shape

/-- A removed and an added symbol that look like one. -/
def shapesMatch (baseLines currentLines : List (List Char)) (old new : ParsedNode) : Bool :=
  old.kind = new.kind && old.parentName = new.parentName &&
    (bodyShape baseLines old).isSome && bodyShape baseLines old = bodyShape currentLines new

/-- The one partner of a removed symbol that has no other partner itself. -/
def partner (matched : ParsedNode → ParsedNode → Bool) (removed added : List ParsedNode)
    (old : ParsedNode) : Option ParsedNode :=
  match added.filter (matched old) with
  | [new] => if (removed.filter (matched · new)).length = 1 then some new else none
  | _ => none

def renameCandidates (removed : List (ParsedNode × BaseSymbol)) (added : List ParsedNode)
    (baseSource currentSource : List UInt8) : List RenameCandidate :=
  let matched := shapesMatch (Scip.lines (fromUtf8Lossy baseSource))
    (Scip.lines (fromUtf8Lossy currentSource))
  removed.filterMap fun (old, symbol) =>
    (partner matched (removed.map Prod.fst) added old).map fun new =>
      { source := symbol
        toName := new.name
        toQualifiedName := qualifiedNameOf new
        toLineStart := new.lineStart }

/-! ## The comparison -/

structure FileSides where
  basePath : String
  currentPath : String
  baseSource : List UInt8
  currentSource : List UInt8

/-- `now_by_name`: of nodes of one name the last stays in the map. -/
def nowByName (now : List ParsedNode) (qualified : String) : Option ParsedNode :=
  (now.filter isSymbol).reverse.find? (qualifiedNameOf · = qualified)

def signatureChange (symbol : BaseSymbol) (node now : ParsedNode) : Option SignatureChange :=
  if node.kind ≠ .function ∨ symbol.isTest ∨ now.isTest then none
  else
    let before := Signature.of node
    let after := Signature.of now
    if before.sameShape after then none
    else
      some { symbol := { symbol with currentQualifiedName := some (qualifiedNameOf node) }
             before
             after
             lineStart := now.lineStart
             lineEnd := now.lineEnd
             paramsChanged := squash before.params ≠ squash after.params }

def sameSpan (p : PythonParser) (sides : FileSides) (node now : ParsedNode) : Bool :=
  sameCode p (span sides.baseSource node.lineStart node.lineEnd)
    (span sides.currentSource now.lineStart now.lineEnd) now.language

/-- The loop's body for one base symbol; the second component is `removed_here`. -/
def compareSymbol (p : PythonParser) (sides : FileSides) (now : List ParsedNode)
    (acc : SymbolDelta × List (ParsedNode × BaseSymbol)) (node : ParsedNode) :
    SymbolDelta × List (ParsedNode × BaseSymbol) :=
  let (delta, removedHere) := acc
  let symbol := BaseSymbol.fromParsed node sides.basePath (some sides.currentPath)
  match nowByName now (qualifiedNameOf node) with
  | none =>
      if !symbol.isTest && stillNamed node (fromUtf8Lossy sides.currentSource) then
        ({ delta with unconfirmedRemoved := delta.unconfirmedRemoved ++ [symbol] }, removedHere)
      else
        (pushRemoved delta symbol,
          if !symbol.isTest then removedHere ++ [(node, symbol)] else removedHere)
  | some now =>
      ({ delta with
          unchangedBodies :=
            if sameSpan p sides node now then delta.unchangedBodies.insert (qualifiedNameOf node)
            else delta.unchangedBodies
          signatureChanged :=
            delta.signatureChanged ++ (signatureChange symbol node now).toList }, removedHere)

/-- The symbols that are new; a test that is marked as one is left out. -/
def addedSymbols (base now : List ParsedNode) : List ParsedNode :=
  now.filter fun n => isSymbol n && !n.isTest &&
    qualifiedNameOf n ∉ (base.filter isSymbol).map qualifiedNameOf

def compareFile (p : PythonParser) (delta : SymbolDelta) (sides : FileSides)
    (base now : List ParsedNode) : SymbolDelta :=
  let (delta, removedHere) := (base.filter isSymbol).foldl (compareSymbol p sides now) (delta, [])
  { delta with
    renamedCandidates := delta.renamedCandidates ++
      renameCandidates removedHere (addedSymbols base now) sides.baseSource sides.currentSource }

/-! ## Where a symbol goes -/

inductive Verdict where
  | removed
  | removedTest
  | unconfirmed
  | present
deriving DecidableEq, Repr

def verdict (sides : FileSides) (now : List ParsedNode) (n : ParsedNode) : Verdict :=
  if (nowByName now (qualifiedNameOf n)).isSome then .present
  else if isTestNode n then .removedTest
  else if stillNamed n (fromUtf8Lossy sides.currentSource) then .unconfirmed
  else .removed

variable {p : PythonParser} {sides : FileSides} {base now : List ParsedNode}

theorem nowByName_eq_some {qualified : String} {m : ParsedNode}
    (h : nowByName now qualified = some m) :
    m ∈ now ∧ isSymbol m = true ∧ qualifiedNameOf m = qualified := by
  have hmem := List.mem_filter.mp (List.mem_reverse.mp (List.mem_of_find?_eq_some h))
  exact ⟨hmem.1, hmem.2, by simpa using List.find?_some h⟩

theorem isSome_nowByName {qualified : String} :
    (nowByName now qualified).isSome ↔
      ∃ m ∈ now, isSymbol m = true ∧ qualifiedNameOf m = qualified := by
  constructor
  · intro h
    obtain ⟨m, hm⟩ := Option.isSome_iff_exists.mp h
    exact ⟨m, nowByName_eq_some hm⟩
  · rintro ⟨m, hm, hsymbol, hname⟩
    refine List.find?_isSome.mpr ⟨m, ?_, by simpa using hname⟩
    exact List.mem_reverse.mpr (List.mem_filter.mpr ⟨hm, hsymbol⟩)

theorem nowByName_eq (hnow : (now.map qualifiedNameOf).Nodup) {m : ParsedNode} (hm : m ∈ now)
    (hsymbol : isSymbol m = true) : nowByName now (qualifiedNameOf m) = some m := by
  obtain ⟨m', hm'⟩ := Option.isSome_iff_exists.mp
    (isSome_nowByName.mpr ⟨m, hm, hsymbol, rfl⟩)
  obtain ⟨hmem, -, hname⟩ := nowByName_eq_some hm'
  rw [hm', List.inj_on_of_nodup_map hnow hmem hm hname]

def symbolOf (sides : FileSides) (n : ParsedNode) : BaseSymbol :=
  .fromParsed n sides.basePath (some sides.currentPath)

def judged (sides : FileSides) (now nodes : List ParsedNode) (v : Verdict) : List ParsedNode :=
  nodes.filter (verdict sides now · = v)

/-- What the loop has added to the lists after some symbols. -/
structure Compared (p : PythonParser) (sides : FileSides) (now nodes : List ParsedNode)
    (acc acc' : SymbolDelta × List (ParsedNode × BaseSymbol)) : Prop where
  removed : acc'.1.removed =
    acc.1.removed ++ (judged sides now nodes .removed).map (symbolOf sides)
  removedTests : acc'.1.removedTests =
    acc.1.removedTests ++ (judged sides now nodes .removedTest).map (symbolOf sides)
  unconfirmed : acc'.1.unconfirmedRemoved =
    acc.1.unconfirmedRemoved ++ (judged sides now nodes .unconfirmed).map (symbolOf sides)
  removedHere : acc'.2 =
    acc.2 ++ (judged sides now nodes .removed).map fun n => (n, symbolOf sides n)
  renamed : acc'.1.renamedCandidates = acc.1.renamedCandidates
  unchanged : ∀ q, q ∈ acc'.1.unchangedBodies ↔ q ∈ acc.1.unchangedBodies ∨
    ∃ n ∈ nodes, qualifiedNameOf n = q ∧ ∃ m, nowByName now q = some m ∧
      sameSpan p sides n m = true

theorem Compared.refl (p : PythonParser) (sides : FileSides) (now : List ParsedNode)
    (acc : SymbolDelta × List (ParsedNode × BaseSymbol)) : Compared p sides now [] acc acc := by
  constructor <;> simp [judged]

theorem judged_append (nodes nodes' : List ParsedNode) (v : Verdict) :
    judged sides now (nodes ++ nodes') v =
      judged sides now nodes v ++ judged sides now nodes' v := List.filter_append ..

theorem Compared.trans {nodes nodes' : List ParsedNode}
    {acc acc' acc'' : SymbolDelta × List (ParsedNode × BaseSymbol)}
    (h : Compared p sides now nodes acc acc') (h' : Compared p sides now nodes' acc' acc'') :
    Compared p sides now (nodes ++ nodes') acc acc'' where
  removed := by rw [h'.removed, h.removed, judged_append, List.map_append, List.append_assoc]
  removedTests := by
    rw [h'.removedTests, h.removedTests, judged_append, List.map_append, List.append_assoc]
  unconfirmed := by
    rw [h'.unconfirmed, h.unconfirmed, judged_append, List.map_append, List.append_assoc]
  removedHere := by
    rw [h'.removedHere, h.removedHere, judged_append, List.map_append, List.append_assoc]
  renamed := h'.renamed.trans h.renamed
  unchanged q := by
    rw [h'.unchanged, h.unchanged, or_assoc]
    simp only [List.mem_append, or_and_right, exists_or]

section Step

variable {delta : SymbolDelta} {removedHere : List (ParsedNode × BaseSymbol)} {n : ParsedNode}

theorem compareSymbol_present {m : ParsedNode} (hm : nowByName now (qualifiedNameOf n) = some m) :
    compareSymbol p sides now (delta, removedHere) n =
      ({ delta with
          unchangedBodies :=
            if sameSpan p sides n m then delta.unchangedBodies.insert (qualifiedNameOf n)
            else delta.unchangedBodies
          signatureChanged :=
            delta.signatureChanged ++ (signatureChange (symbolOf sides n) n m).toList },
        removedHere) := by
  rw [compareSymbol, hm]
  rfl

theorem compareSymbol_absent (hm : nowByName now (qualifiedNameOf n) = none) :
    compareSymbol p sides now (delta, removedHere) n =
      match verdict sides now n with
      | .unconfirmed =>
          ({ delta with unconfirmedRemoved := delta.unconfirmedRemoved ++ [symbolOf sides n] },
            removedHere)
      | .removedTest =>
          ({ delta with removedTests := delta.removedTests ++ [symbolOf sides n] }, removedHere)
      | _ =>
          ({ delta with removed := delta.removed ++ [symbolOf sides n] },
            removedHere ++ [(n, symbolOf sides n)]) := by
  have htest : (BaseSymbol.fromParsed n sides.basePath (some sides.currentPath)).isTest =
      isTestNode n := rfl
  rw [compareSymbol, hm, verdict, hm]
  simp only [Option.isSome_none, Bool.false_eq_true, if_false, htest, pushRemoved]
  by_cases ht : isTestNode n = true
  · simp only [ht, Bool.not_true, Bool.false_and, Bool.false_eq_true, if_false, if_true]
    rfl
  · simp only [ht, Bool.not_false, Bool.true_and, Bool.false_eq_true, if_false, if_true]
    by_cases hnamed : stillNamed n (fromUtf8Lossy sides.currentSource) = true
    · simp only [hnamed, if_true]
      rfl
    · simp only [hnamed, Bool.false_eq_true, if_false]
      rfl

theorem compared_present {m : ParsedNode} (hm : nowByName now (qualifiedNameOf n) = some m) :
    Compared p sides now [n] (delta, removedHere)
      (compareSymbol p sides now (delta, removedHere) n) := by
  have hv : verdict sides now n = .present := if_pos (by rw [hm]; rfl)
  have hsame : ∀ q, (∃ k ∈ [n], qualifiedNameOf k = q ∧ ∃ m', nowByName now q = some m' ∧
      sameSpan p sides k m' = true) ↔ q = qualifiedNameOf n ∧ sameSpan p sides n m = true := by
    intro q
    constructor
    · rintro ⟨k, hk, rfl, m', hm', hs⟩
      obtain rfl := List.mem_singleton.mp hk
      obtain rfl : m = m' := Option.some.inj (hm.symm.trans hm')
      exact ⟨rfl, hs⟩
    · rintro ⟨rfl, hs⟩
      exact ⟨n, List.mem_cons_self, rfl, m, hm, hs⟩
  rw [compareSymbol_present hm]
  refine ⟨?_, ?_, ?_, ?_, rfl, fun q => ?_⟩
  · simp [judged, hv]
  · simp [judged, hv]
  · simp [judged, hv]
  · simp [judged, hv]
  · rw [hsame q]
    by_cases hs : sameSpan p sides n m = true
    · simp [hs, List.mem_insert_iff, or_comm]
    · simp [hs]

theorem verdict_ne_present (hm : nowByName now (qualifiedNameOf n) = none) :
    verdict sides now n ≠ .present := by
  rw [verdict, hm]
  simp only [Option.isSome_none, Bool.false_eq_true, if_false]
  split
  · exact Verdict.noConfusion
  · split <;> exact Verdict.noConfusion

theorem compared_absent (hm : nowByName now (qualifiedNameOf n) = none) :
    Compared p sides now [n] (delta, removedHere)
      (compareSymbol p sides now (delta, removedHere) n) := by
  have hunchanged : ∀ q, ¬∃ k ∈ [n], qualifiedNameOf k = q ∧ ∃ m, nowByName now q = some m ∧
      sameSpan p sides k m = true := by
    rintro q ⟨k, hk, rfl, m, hsome, -⟩
    rw [List.mem_singleton.mp hk, hm] at hsome
    cases hsome
  have hkeep : ∀ q, q ∈ delta.unchangedBodies ↔ q ∈ delta.unchangedBodies ∨ _ :=
    fun q => (or_iff_left (hunchanged q)).symm
  rw [compareSymbol_absent hm]
  cases hv : verdict sides now n with
  | present => exact absurd hv (verdict_ne_present hm)
  | removed => exact ⟨by simp [judged, hv], by simp [judged, hv], by simp [judged, hv],
      by simp [judged, hv], rfl, hkeep⟩
  | removedTest => exact ⟨by simp [judged, hv], by simp [judged, hv], by simp [judged, hv],
      by simp [judged, hv], rfl, hkeep⟩
  | unconfirmed => exact ⟨by simp [judged, hv], by simp [judged, hv], by simp [judged, hv],
      by simp [judged, hv], rfl, hkeep⟩

end Step

theorem compared_foldl (nodes : List ParsedNode)
    (acc : SymbolDelta × List (ParsedNode × BaseSymbol)) :
    Compared p sides now nodes acc (nodes.foldl (compareSymbol p sides now) acc) := by
  induction nodes using List.reverseRecOn with
  | nil => exact .refl p sides now acc
  | append_singleton nodes n ih =>
      rw [List.foldl_append]
      refine ih.trans ?_
      cases hm : nowByName now (qualifiedNameOf n) with
      | some m => exact compared_present hm
      | none => exact compared_absent hm

/-! ## The pairs -/

section Pairs

variable {matched : ParsedNode → ParsedNode → Bool} {removed added : List ParsedNode}

theorem partner_eq_some {old new : ParsedNode} (hold : old ∈ removed)
    (h : partner matched removed added old = some new) :
    new ∈ added ∧ matched old new = true ∧
      ∀ other ∈ removed, matched other new = true → other = old := by
  unfold partner at h
  split at h
  · rename_i new' hhits
    split at h
    · rename_i hone
      obtain rfl := Option.some.inj h
      have hnew : new' ∈ added.filter (matched old) := by rw [hhits]; exact List.mem_cons_self
      obtain ⟨hadded, hmatch⟩ := List.mem_filter.mp hnew
      refine ⟨hadded, hmatch, fun other hother hm => ?_⟩
      obtain ⟨only, honly⟩ := List.length_eq_one_iff.mp hone
      have hin : ∀ k ∈ removed, matched k new' = true → k = only := fun k hk hkm =>
        List.mem_singleton.mp (honly ▸ List.mem_filter.mpr ⟨hk, hkm⟩)
      rw [hin other hother hm, hin old hold hmatch]
    · cases h
  · cases h

def pairsOf (matched : ParsedNode → ParsedNode → Bool) (removed added : List ParsedNode) :
    List (ParsedNode × ParsedNode) :=
  removed.filterMap fun old => (partner matched removed added old).map fun new => (old, new)

theorem mem_pairsOf {pair : ParsedNode × ParsedNode} (h : pair ∈ pairsOf matched removed added) :
    pair.1 ∈ removed ∧ pair.2 ∈ added ∧ matched pair.1 pair.2 = true := by
  obtain ⟨old, hold, hpair⟩ := List.mem_filterMap.mp h
  obtain ⟨new, hnew, rfl⟩ := Option.map_eq_some_iff.mp hpair
  obtain ⟨hadded, hmatch, -⟩ := partner_eq_some hold hnew
  exact ⟨hold, hadded, hmatch⟩

theorem pairsOf_pairwise (hremoved : (removed.map qualifiedNameOf).Nodup)
    (hadded : (added.map qualifiedNameOf).Nodup) :
    (pairsOf matched removed added).Pairwise fun a b =>
      qualifiedNameOf a.1 ≠ qualifiedNameOf b.1 ∧ qualifiedNameOf a.2 ≠ qualifiedNameOf b.2 := by
  refine List.pairwise_filterMap.mpr ((List.pairwise_map.mp hremoved).imp_of_mem ?_)
  intro old old' hold hold' hne pair hpair pair' hpair'
  obtain ⟨new, hnew, rfl⟩ := Option.map_eq_some_iff.mp hpair
  obtain ⟨new', hnew', rfl⟩ := Option.map_eq_some_iff.mp hpair'
  refine ⟨hne, fun heq => hne ?_⟩
  obtain ⟨hin, -, honly⟩ := partner_eq_some hold hnew
  obtain ⟨hin', hmatch', -⟩ := partner_eq_some hold' hnew'
  rw [← List.inj_on_of_nodup_map hadded hin hin' heq] at hmatch'
  rw [honly old' hold' hmatch']

theorem renameCandidates_eq (symbol : ParsedNode → BaseSymbol)
    (baseSource currentSource : List UInt8) :
    renameCandidates (removed.map fun n => (n, symbol n)) added baseSource currentSource =
      (pairsOf (shapesMatch (Scip.lines (fromUtf8Lossy baseSource))
        (Scip.lines (fromUtf8Lossy currentSource))) removed added).map fun (old, new) =>
          { source := symbol old
            toName := new.name
            toQualifiedName := qualifiedNameOf new
            toLineStart := new.lineStart } := by
  have hfst : (removed.map fun n => (n, symbol n)).map Prod.fst = removed := by
    rw [List.map_map]
    exact List.map_id removed
  rw [renameCandidates, pairsOf, List.map_filterMap, hfst, List.filterMap_map]
  refine List.filterMap_congr fun old _ => ?_
  simp only [Function.comp, Option.map_map]
  rfl

end Pairs

/-! ## One file -/

/-- The code of two spans counts as one: to the Python parser, where it reads both, else as
`normalize_code` leaves it. -/
def SameCode (p : PythonParser) (before after : List Char) (language : String) : Prop :=
  (language = "python" ∧ ∃ tree, p.parse (dedent before) = some tree ∧
    p.parse (dedent after) = some tree) ∨
  ((language = "python" → p.parse (dedent before) = none ∨ p.parse (dedent after) = none) ∧
    normalizeCode before language = normalizeCode after language)

theorem sameCode_iff (p : PythonParser) (before after : List Char) (language : String) :
    sameCode p before after language = true ↔ SameCode p before after language := by
  unfold sameCode SameCode pythonSameCode
  by_cases hpython : language = "python"
  · cases hb : p.parse (dedent before) with
    | none => simp [hpython]
    | some before' =>
        cases ha : p.parse (dedent after) with
        | none => simp [hpython]
        | some after' => simp [hpython, eq_comm]
  · simp [hpython]

/-- Every base symbol has one verdict, and the lists get the symbols of theirs. A name counts
as unchanged where the code of both spans is the same, and the spans reach over all definitions
that were merged into a node. The rename candidates pair removed with added symbols one to
one, of one kind and parent. -/
theorem compareFile_accounts (p : PythonParser) (delta : SymbolDelta) (sides : FileSides)
    {base now : List ParsedNode} (hbase : (base.map qualifiedNameOf).Nodup)
    (hnow : (now.map qualifiedNameOf).Nodup) :
    let delta' := compareFile p delta sides base now
    let symbols := base.filter isSymbol
    (∃ verdict : ParsedNode → Verdict,
      (∀ n ∈ symbols, verdict n = .present ↔
        ∃ m ∈ now, isSymbol m = true ∧ qualifiedNameOf m = qualifiedNameOf n) ∧
      delta'.removed =
        delta.removed ++ (symbols.filter (verdict · = .removed)).map (symbolOf sides) ∧
      delta'.removedTests =
        delta.removedTests ++ (symbols.filter (verdict · = .removedTest)).map (symbolOf sides) ∧
      delta'.unconfirmedRemoved = delta.unconfirmedRemoved ++
        (symbols.filter (verdict · = .unconfirmed)).map (symbolOf sides) ∧
      ∃ pairs : List (ParsedNode × ParsedNode),
        delta'.renamedCandidates = delta.renamedCandidates ++ pairs.map (fun (old, new) =>
          { source := symbolOf sides old
            toName := new.name
            toQualifiedName := qualifiedNameOf new
            toLineStart := new.lineStart }) ∧
        (∀ pair ∈ pairs, pair.1 ∈ symbols ∧ verdict pair.1 = .removed ∧ pair.2 ∈ now ∧
          isSymbol pair.2 = true ∧ (∀ n ∈ symbols, qualifiedNameOf n ≠ qualifiedNameOf pair.2) ∧
          pair.1.kind = pair.2.kind ∧ pair.1.parentName = pair.2.parentName) ∧
        pairs.Pairwise fun a b =>
          qualifiedNameOf a.1 ≠ qualifiedNameOf b.1 ∧ qualifiedNameOf a.2 ≠ qualifiedNameOf b.2) ∧
    (∀ q, q ∈ delta'.unchangedBodies ↔ q ∈ delta.unchangedBodies ∨
      ∃ n ∈ symbols, ∃ m ∈ now, isSymbol m = true ∧ qualifiedNameOf n = q ∧
        qualifiedNameOf m = q ∧
        SameCode p (span sides.baseSource n.lineStart n.lineEnd)
          (span sides.currentSource m.lineStart m.lineEnd) m.language) ∧
    ∀ (raw : List ParsedNode) (edges : List ParsedEdge),
      ∀ m ∈ (collapseDuplicateNodes raw edges).1, ∀ d ∈ raw,
        qualifiedNameOf d = qualifiedNameOf m →
          m.lineStart ≤ d.lineStart ∧ d.lineEnd ≤ m.lineEnd := by
  intro delta' symbols
  have hloop : Compared p sides now symbols (delta, [])
      (symbols.foldl (compareSymbol p sides now) (delta, [])) :=
    compared_foldl symbols (delta, [])
  have hsymbols : (symbols.map qualifiedNameOf).Nodup :=
    hbase.sublist (List.filter_sublist.map _)
  have hadded : ((addedSymbols base now).map qualifiedNameOf).Nodup :=
    hnow.sublist (List.filter_sublist.map _)
  have hremoved : ((judged sides now symbols .removed).map qualifiedNameOf).Nodup :=
    hsymbols.sublist (List.filter_sublist.map _)
  refine ⟨⟨verdict sides now, fun n _ => ?_, hloop.removed, hloop.removedTests, hloop.unconfirmed,
    pairsOf (shapesMatch (Scip.lines (fromUtf8Lossy sides.baseSource))
      (Scip.lines (fromUtf8Lossy sides.currentSource))) (judged sides now symbols .removed)
      (addedSymbols base now), ?_, fun pair hpair => ?_, pairsOf_pairwise hremoved hadded⟩,
    fun q => ?_, fun raw edges m hm d hd hname => ?_⟩
  · rw [← isSome_nowByName]
    unfold verdict
    split
    · rename_i hsome
      exact iff_of_true rfl hsome
    · rename_i hnone
      refine iff_of_false ?_ hnone
      split
      · exact Verdict.noConfusion
      · split <;> exact Verdict.noConfusion
  · have hcandidates : delta'.renamedCandidates =
        (symbols.foldl (compareSymbol p sides now) (delta, [])).1.renamedCandidates ++
          renameCandidates (symbols.foldl (compareSymbol p sides now) (delta, [])).2
            (addedSymbols base now) sides.baseSource sides.currentSource := rfl
    rw [hcandidates, hloop.renamed, hloop.removedHere, List.nil_append, renameCandidates_eq]
  · obtain ⟨hold, hnew, hmatch⟩ := mem_pairsOf hpair
    obtain ⟨holdIn, hverdict⟩ := List.mem_filter.mp hold
    obtain ⟨hnewIn, hfilter⟩ := List.mem_filter.mp hnew
    simp only [Bool.and_eq_true, Bool.not_eq_true', decide_eq_true_eq] at hfilter
    simp only [shapesMatch, Bool.and_eq_true, decide_eq_true_eq] at hmatch
    refine ⟨holdIn, of_decide_eq_true hverdict, hnewIn, hfilter.1.1, fun n hn heq => ?_,
      hmatch.1.1.1, hmatch.1.1.2⟩
    exact hfilter.2 (heq ▸ List.mem_map_of_mem hn)
  · refine (hloop.unchanged q).trans (or_congr_right ?_)
    constructor
    · rintro ⟨n, hn, hname, m, hm, hsame⟩
      obtain ⟨hmem, hsymbol, hmname⟩ := nowByName_eq_some hm
      exact ⟨n, hn, m, hmem, hsymbol, hname, hmname, (sameCode_iff ..).mp hsame⟩
    · rintro ⟨n, hn, m, hmem, hsymbol, hname, hmname, hsame⟩
      exact ⟨n, hn, hname, m, hmname ▸ nowByName_eq hnow hmem hsymbol, (sameCode_iff ..).mpr hsame⟩
  · obtain ⟨hspans, -⟩ := collapse_mem hm
    have hin : d ∈ raw.filter fun n => qualifiedNameOf n = qualifiedNameOf m :=
      List.mem_filter.mpr ⟨hd, decide_eq_true hname⟩
    exact ⟨hspans.start_le d hin, hspans.le_end d hin⟩

/-! ## Python code that reads the same -/

/-- A parser that tells no brackets, as far as `return (1)` goes. -/
def bracketParser : PythonParser where
  Tree := List Char
  decEq := inferInstance
  parse text := some (text.filter fun c => c ≠ '(' && c ≠ ')')

def functionF : ParsedNode where
  kind := .function
  name := "f"
  filePath := "app.py"
  lineStart := 1
  lineEnd := 2
  language := "python"

def bracketSides : FileSides where
  basePath := "app.py"
  currentPath := "app.py"
  baseSource := utf8 "def f():\n    return (1)\n".toList
  currentSource := utf8 "def f():\n    return 1\n".toList

/-- The brackets count to `normalize_code` and not to the Python parser, which decides. -/
theorem unchanged_though_normalized_apart :
    ([functionF].map qualifiedNameOf).Nodup ∧
      "app.py::f" ∈
        (compareFile bracketParser {} bracketSides [functionF] [functionF]).unchangedBodies ∧
      normalizeCode (span bracketSides.baseSource 1 2) "python" ≠
        normalizeCode (span bracketSides.currentSource 1 2) "python" := by
  decide +kernel

def functionG : ParsedNode := { functionF with name := "g", lineStart := 3, lineEnd := 4 }

def droppedSides : FileSides :=
  { bracketSides with
    baseSource := utf8 "def f():\n    return (1)\ndef g():\n    return 2\n".toList }

/-- The function of both sides is the unchanged one, and the other is the one that is gone. -/
theorem compareFile_accounts_bracket :
    let delta := compareFile bracketParser {} droppedSides [functionF, functionG] [functionF]
    delta.removed ++ delta.removedTests ++ delta.unconfirmedRemoved =
        [symbolOf droppedSides functionG] ∧
      ∀ q, q ∈ delta.unchangedBodies ↔ q = "app.py::f" := by
  have hsymbols : [functionF, functionG].filter isSymbol = [functionF, functionG] := by rfl
  obtain ⟨⟨v, hpresent, hremoved, htests, hunconfirmed, -⟩, hunchanged, -⟩ :=
    compareFile_accounts bracketParser {} droppedSides
      (show ([functionF, functionG].map qualifiedNameOf).Nodup by decide)
      (show ([functionF].map qualifiedNameOf).Nodup by decide)
  rw [hsymbols] at hpresent hremoved htests hunconfirmed hunchanged
  have hf : v functionF = .present := (hpresent functionF List.mem_cons_self).mpr
    ⟨functionF, List.mem_cons_self, by decide, rfl⟩
  have hg : v functionG ≠ .present := by
    intro h
    obtain ⟨m, hm, -, hname⟩ := (hpresent functionG (by simp)).mp h
    rw [List.mem_singleton.mp hm] at hname
    exact absurd hname (by decide)
  refine ⟨?_, fun q => (hunchanged q).trans ⟨?_, ?_⟩⟩
  · rw [hremoved, htests, hunconfirmed]
    cases hv : v functionG with
    | present => exact absurd hv hg
    | _ => simp [hf, hv]
  · rintro (hold | ⟨n, -, m, hm, -, -, rfl, -⟩)
    · exact absurd hold List.not_mem_nil
    · rw [List.mem_singleton.mp hm]
      decide
  · rintro rfl
    exact .inr ⟨functionF, List.mem_cons_self, functionF, List.mem_cons_self, by decide, by decide,
      by decide, (sameCode_iff ..).mp (by decide +kernel)⟩

end BaseSymbols

end Dagayn
