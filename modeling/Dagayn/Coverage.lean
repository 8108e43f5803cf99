import Dagayn.Casefold
import Dagayn.GraphReads
import Dagayn.Lines
import Dagayn.Text
import Dagayn.Utf8
import Mathlib

/-!
# Scoring a candidate test

The heuristic half of `coverage.rs`: what counts as a test, the words of an identifier, and
how well a test-like node matches a target by its file, its name and its source. All of it
is a function of the graph and the files, so the caches of the source's `ScanState` do not
show.
-/

namespace Dagayn

namespace Coverage

open Bridges

def testFileParts : List String := ["/tests/", "/test/", "/__tests__/"]

def testFileSuffixes : List String :=
  ["_test.py", "_tests.py", ".test.js", ".test.ts", ".test.tsx", ".spec.js", ".spec.ts",
   ".spec.tsx", "_test.rs", "_tests.rs"]

def nonTestHelperNames : List String :=
  ["setup", "teardown", "setup_method", "teardown_method", "setup_class", "teardown_class",
   "setup_module", "teardown_module"]

def moduleMarkerSkip : List String := ["src", "lib", "pkg", "internal", "tests", "test"]

def valueUseScore : Nat := 90

/-! ## Paths -/

/-- `replace('\\', "/")`. -/
def slashed (path : String) : List Char := path.toList.map fun c => if c = '\\' then '/' else c

/-- `go_test_file`: `none` for a name that is not Go's. -/
def goTestFile (path : List Char) : Option Bool :=
  let name := path.rtakeWhile fun c => c ≠ '/' && c ≠ '\\'
  if ".go".toList.isSuffixOf name then some ("_test.go".toList.isSuffixOf name) else none

def isTestFilePath (filePath : String) : Bool :=
  let normalized := slashed filePath
  let name := normalized.rtakeWhile (· ≠ '/')
  (testFileParts.any fun part => decide (part.toList <:+: normalized)) ||
    (goTestFile name).getD
      ("test_".toList.isPrefixOf name || name = "tests.rs".toList || name = "test.rs".toList ||
        testFileSuffixes.any fun suffix => suffix.toList.isSuffixOf name)

def pathNames (path : List Char) : List Char × List Char :=
  match ((path.splitOn '/').filter fun part => part ≠ [] && part ≠ ['.']).reverse with
  | [] => ([], [])
  | [name] => (name, [])
  | name :: parent :: _ => (name, parent)

/-- `PurePath.stem` of a name. -/
def stem (name : List Char) : List Char :=
  match afterLast ['.'] name with
  | none => name
  | some ext =>
      let index := name.length - ext.length - 1
      if 0 < index && ext ≠ [] then name.take index else name

/-! ## Words -/

/-- `([a-z])([A-Z])` becomes `\1_\2`. -/
def splitCamel : List Char → List Char
  | [] => []
  | c :: rest =>
      if c.isLower && rest.head?.any Char.isUpper then c :: '_' :: splitCamel rest
      else c :: splitCamel rest

/-- `([A-Z]+)([A-Z][a-z])` becomes `\1_\2`, behind the capitals of `run`. -/
def splitCapitals (run : List Char) : List Char → List Char
  | [] => run
  | c :: rest =>
      if c.isUpper then splitCapitals (run ++ [c]) rest
      else if 2 ≤ run.length && c.isLower then
        run.dropLast ++ '_' :: (run.getLast?.toList ++ c :: splitCapitals [] rest)
      else run ++ c :: splitCapitals [] rest

def isWordByte (c : Char) : Bool := c.isLower || c.isDigit

def identifierTokens (value : List Char) : List (List Char) :=
  ((casefold (splitCapitals [] (splitCamel value))).splitOnP (!isWordByte ·)).filter fun token =>
    token ≠ [] && token ≠ "test".toList && token ≠ "tests".toList

/-- The needle somewhere in the text, no word character next to it; `before` says whether one
stands in front of the text. -/
def wordFrom (needle : List Char) (before : Bool) : List Char → Bool
  | [] => false
  | c :: rest =>
      (needle.isPrefixOf (c :: rest) && !before &&
        !((c :: rest).drop needle.length).head?.any isWordByte) ||
        wordFrom needle (isWordByte c) rest

/-- `_contains_word` on an already casefolded haystack. -/
def containsWord (haystackCf needle : List Char) : Bool :=
  needle ≠ [] && wordFrom (casefold needle) false haystackCf

/-- `_name_matches_target_symbol`. -/
def nameMatches (targetName candidateText : List Char)
    (allowedSuffix : Option (List (List Char))) : Bool :=
  let targetCf := casefold targetName
  let candidateCf := casefold candidateText
  let targetTokens := identifierTokens targetName
  let candidateTokens := identifierTokens candidateText
  if targetCf = candidateCf then true
  else if ["test_", "test"].any fun pre => pre.toList.isPrefixOf candidateCf &&
      (candidateCf.drop pre.length).dropWhile (· = '_') = targetCf then true
  else if targetTokens.flatten = candidateTokens.flatten then true
  else if targetTokens = [] || candidateTokens.length < targetTokens.length then false
  -- Only a match at the start counts.
  else if candidateTokens.take targetTokens.length ≠ targetTokens then false
  else
    let after := candidateTokens.drop targetTokens.length
    after = [] || allowedSuffix.any fun allowed => after.all (· ∈ allowed)

/-! ## Candidates and targets -/

/-- `_is_test_like_node`. -/
def isTestLike (node : NodeRow) : Bool :=
  let name := casefold node.input.name.toList
  let qualified := casefold node.qualifiedName.toList
  if node.input.kind = "Function" then
    !(nonTestHelperNames.any fun helper => helper.toList = name) &&
      ("test".toList.isPrefixOf name || decide ("::test".toList <:+: qualified) ||
        decide (".test.".toList <:+: qualified) || decide (".spec.".toList <:+: qualified))
  else
    node.input.isTest || node.input.kind = "Test" || "test".toList.isPrefixOf name ||
      decide (".test.".toList <:+: qualified) || decide ("::test".toList <:+: qualified) ||
      isTestFilePath node.input.filePath

/-- One test-like candidate with its casefolded path and identity. -/
structure Candidate where
  node : NodeRow
  pathCf : List Char
  identityCf : List Char

def candidateOf (node : NodeRow) : Candidate where
  node := node
  pathCf := casefold (slashed node.input.filePath)
  identityCf := casefold
    (node.qualifiedName ++ " " ++ node.input.name ++ " " ++ node.input.filePath).toList

/-- `ScanState`: the candidates and their import edges; `readFile` reads the file a stored
path stands for. -/
structure ScanState where
  candidates : List Candidate
  imports : List GraphEdge
  readFile : String → Option (List UInt8)

def ScanState.build (g : GraphReads) (readFile : String → Option (List UInt8)) : ScanState :=
  let nodes := (g.getNodesByKind ["Test", "Function", "Class"]).filter isTestLike
  let keys := nodes.flatMap fun node => [node.input.filePath, node.qualifiedName]
  { candidates := nodes.map candidateOf
    imports := (g.getEdgesByKind "IMPORTS_FROM").filter (·.sourceQualified ∈ keys)
    readFile := readFile }

/-- `_span_text`: the casefolded lines of a node. -/
def spanText (state : ScanState) (node : NodeRow) : List Char :=
  let lines := (state.readFile node.input.filePath).elim []
    fun bytes => splitlines (fromUtf8Lossy bytes)
  if lines = [] || node.input.lineStart ≤ 0 || node.input.lineEnd < node.input.lineStart then []
  else
    let start := (node.input.lineStart - 1).toNat
    casefold ((['\n'] : List Char).intercalate
      ((lines.take (min node.input.lineEnd.toNat lines.length)).drop start))

/-- What `infer_tests_for_node` derives from its target once. -/
structure Target where
  node : NodeRow
  markers : List (List Char)
  stem : List Char
  pathCf : List Char

def Target.new (node : NodeRow) : Target :=
  let path := slashed node.input.filePath
  let (name, parent) := pathNames path
  let stemCf := casefold (Coverage.stem name)
  let parentCf := casefold parent
  { node := node
    markers :=
      (if stemCf = [] then []
        else if "test_".toList.isPrefixOf stemCf then [stemCf, stemCf.drop 5]
        else if "_test".toList.isSuffixOf stemCf then [stemCf, stemCf.take (stemCf.length - 5)]
        else [stemCf]) ++
      if parentCf = [] || moduleMarkerSkip.any (·.toList = parentCf) then [] else [parentCf]
    stem := stemCf
    pathCf := casefold path }

/-- `_candidate_references_target_module`: its evidence when linked. The order in which the
markers are tried does not show. -/
def moduleLink (state : ScanState) (target : Target) (candidate : Candidate) : Option String :=
  if target.markers.any fun marker =>
      (decide (marker <:+: candidate.pathCf) || decide (marker <:+: candidate.identityCf)) &&
        (containsWord candidate.pathCf marker || containsWord candidate.identityCf marker) then
    some "test artifact references target module/file"
  else if target.stem ≠ [] && ((target.pathCf ++ ['.']).isPrefixOf candidate.pathCf ||
      (target.pathCf ++ ['_']).isPrefixOf candidate.pathCf ||
      containsWord (pathNames candidate.pathCf).1 target.stem) then
    some "test file co-located with target module"
  else if (state.imports.filter fun edge =>
      edge.sourceQualified = candidate.node.input.filePath ||
        edge.sourceQualified = candidate.node.qualifiedName).any fun edge =>
      let importTarget := casefold (slashed edge.targetQualified)
      importTarget = target.pathCf || (target.pathCf ++ "::".toList).isPrefixOf importTarget then
    some "test file imports target module"
  else none

structure Score where
  score : Nat
  confidence : String
  evidence : List String

/-- `_candidate_score`: a link to the module is needed for more than a resemblance. -/
def candidateScore (state : ScanState) (target : Target) (candidate : Candidate) : Score :=
  let targetName := target.node.input.name.toList
  let candidateName := candidate.node.input.name.toList
  let link := moduleLink state target candidate
  let span := spanText state candidate.node
  if link.isSome && nameMatches targetName candidateName (some target.markers) then
    ⟨80, "medium", link.toList ++ ["test node name references target symbol"]⟩
  else if link.isSome && span ≠ [] && nameMatches targetName span (some target.markers) then
    ⟨65, "medium", link.toList ++ ["test source references target symbol"]⟩
  else if target.stem ≠ [] && containsWord candidate.identityCf target.stem then
    ⟨35, "low", link.toList ++ ["test node name references target file stem"]⟩
  else if nameMatches targetName candidateName none then
    ⟨25, "low", link.toList ++ ["test node name resembles target symbol (no module link)"]⟩
  else ⟨0, "low", link.toList⟩

theorem candidateScore_le (state : ScanState) (target : Target) (candidate : Candidate) :
    (candidateScore state target candidate).score ≤ 80 := by
  unfold candidateScore
  dsimp only
  split_ifs <;> simp

end Coverage

end Dagayn
