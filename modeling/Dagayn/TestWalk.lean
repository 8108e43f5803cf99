import Dagayn.Coverage
import Dagayn.Dict
import Dagayn.ScipIndex
import Dagayn.Tally
import Dagayn.Visibility
import Mathlib

/-!
# The walk from a node to its tests

`walk_tests` goes up the callers of a node, hop by hop, and meets tests: direct ones of the
nodes of a hop (`TESTED_BY` and declarations) and test code among the callers. Every caller
is walked through once, by the first followed edge the walk comes to, and the targets of a
hop come in the order of a hash map. `nearest_test` and `tests_reaching` are the walk with
different bounds.
-/

namespace Dagayn

namespace TestWalk

open Bridges Coverage

/-- What the walk reads: the graph, the root, which is a canonical path, and the texts of the
files under it. -/
structure Inputs where
  store : GraphReads
  root : String
  files : String → Option (List Char)
  root_absolute : isAbsolute root = true

/-! ## Test code -/

def relative (root filePath : String) : String :=
  if isAbsolute filePath then (Path.stripPrefix filePath root).getD filePath else filePath

def testDirectories : List String := ["tests", "test", "__tests__", "spec", "testdata"]

def isTestPath (rel : String) : Bool :=
  let rel := slashed rel
  let name := rel.rtakeWhile (· ≠ '/')
  ((rel.splitOn '/').any fun part => testDirectories.any fun dir => dir.toList = part) ||
    (goTestFile name).getD
      ("test_".toList.isPrefixOf name || decide ("_test.".toList <:+: name) ||
        decide (".test.".toList <:+: name) || decide (".spec.".toList <:+: name) ||
        name = "conftest.py".toList)

def isTestNode (node : NodeRow) (rel : String) : Bool :=
  node.input.isTest || node.input.kind = "Test" || isTestPath rel

/-- `test_rank`: test functions, then what `go test` runs besides them, then helpers. -/
def testRank (test : NodeRow) : Nat :=
  if test.input.kind ≠ "Test" then 2
  else if test.input.language = "go" && ["Example", "Benchmark", "Fuzz"].any fun start =>
      start.toList.isPrefixOf test.input.name.toList then 1
  else 0

/-! ## Where the Go tools look -/

def fileModuleDir (g : GraphReads) (file : String) : Option String :=
  (g.getNode file).bind fun node => node.input.extra.getStr "go_module_dir"

/-- A part that `go list` skips; the last part of a path is the file. -/
def skipsPart : List (List Char) → Bool
  | [] => false
  | part :: rest =>
      part.head? = some '_' || part.head? = some '.' ||
        (!rest.isEmpty && part = "testdata".toList) || skipsPart rest

/-- Whether `GoScope::outside` has a reason to skip the file. -/
def outside (g : GraphReads) (moduleDir file : String) : Bool :=
  if !".go".toList.isSuffixOf file.toList then false
  else if (fileModuleDir g file).any (· ≠ moduleDir) then true
  else if moduleDir = "" then skipsPart (file.toList.splitOn '/')
  else
    let base := moduleDir.toList ++ ['/']
    base.isPrefixOf file.toList && skipsPart ((file.toList.drop base.length).splitOn '/')

/-- `GoScope::of`: the directory of the module. -/
def goScope (g : GraphReads) (node : NodeRow) : Option String :=
  let file := node.input.filePath
  if node.input.language = "go" && ".go".toList.isSuffixOf file.toList then
    (fileModuleDir g file).filter fun moduleDir => !outside g moduleDir file
  else none

/-- Whether the tools that build the target build the file. -/
def built (g : GraphReads) (qn file : String) : Bool :=
  ((g.getNode qn).bind (goScope g)).all fun moduleDir => !outside g moduleDir file

/-! ## Direct tests -/

/-- `get_test_targets_for_source`. -/
def testTargets (g : GraphReads) (source : String) : List String :=
  ((g.edges.filter fun e => e.sourceQualified = source && e.kind = "TESTED_BY").map
      GraphEdge.targetQualified) ++
    (g.edges.filter fun e => e.targetQualified = source && e.kind = "CROSS_ARTIFACT" &&
      e.extra.getStr "relationship_role" = some "tests").map GraphEdge.sourceQualified

/-- `get_transitive_tests` at depth 0: the tests of a node and of what a class contains,
else those of the bare name. -/
def transitiveTests (g : GraphReads) (qn : String) : List NodeRow :=
  let members :=
    if (g.nodes.find qn).any (·.input.kind = "Class") then
      (g.edges.filter fun e => e.sourceQualified = qn && e.kind = "CONTAINS").map
        GraphEdge.targetQualified
    else []
  let direct := (qn :: members).flatMap (testTargets g)
  let bare := ((rsplitOnce "::" qn).map Prod.snd).getD qn
  (keepFirst id (if direct.isEmpty then testTargets g bare else direct)).filterMap g.nodes.find

def directTests (g : GraphReads) (qn : String) : List NodeRow :=
  (transitiveTests g qn).filterMap fun row => g.getNode row.qualifiedName

/-! ## The trait a Rust method implements -/

def indentOf (line : List Char) : Nat := ((line.takeWhile isWhitespace).map Char.utf8Size).sum

def trimStart (line : List Char) : List Char := line.dropWhile isWhitespace

def stripRustVisibility (line : List Char) : List Char :=
  if "pub(".toList.isPrefixOf line then
    match splitFirst [')'] (line.drop 4) with
    | some (_, rest) => trimStart rest
    | none => line
  else if "pub ".toList.isPrefixOf line then line.drop 4
  else line

/-- `trim_start_matches("unsafe ")`. -/
def trimUnsafe : List Char → List Char
  | 'u' :: 'n' :: 's' :: 'a' :: 'f' :: 'e' :: ' ' :: rest => trimUnsafe rest
  | line => line

/-- `enclosing_rust_header`: the nearest line above with less indent, if it is a header. -/
def enclosingRustHeader (lines : List (List Char)) (line : Int) : Option (List Char) :=
  if line < 1 then none
  else
    let index := (line - 1).toNat
    lines[index]?.bind fun own =>
      ((lines.take index).reverse.find? fun text =>
        !(trimStart text).isEmpty && decide (indentOf text < indentOf own)).bind fun text =>
          let header := trimUnsafe (stripRustVisibility (trimStart text))
          if "trait ".toList.isPrefixOf header || "impl".toList.isPrefixOf header then some header
          else none

/-- The text behind the bracket that closes `depth` angle brackets. -/
def behindAngles : Nat → List Char → Option (List Char)
  | _, [] => none
  | depth, '<' :: rest => behindAngles (depth + 1) rest
  | depth, '>' :: rest => if depth ≤ 1 then some rest else behindAngles (depth - 1) rest
  | depth, _ :: rest => behindAngles depth rest

def rustImplTrait (lines : List (List Char)) (line : Int) : Option (List Char) := do
  let header ← enclosingRustHeader lines line
  let head ←
    if "impl".toList.isPrefixOf header then some ((header.drop 4).takeWhile (· ≠ '{')) else none
  let head ← match head with
    | '<' :: rest => behindAngles 1 rest
    | head => some head
  let (path, _) ← splitFirst " for ".toList head
  let path := (trim path).takeWhile (· ≠ '<')
  let name := (afterLast [':', ':'] path).getD path
  if name.isEmpty then none else some name

/-! ## Implicit callers -/

def calledBySyntaxTraits : List String :=
  ["AsMut", "AsRef", "Borrow", "BorrowMut", "Clone", "Default", "Eq", "From", "FromStr", "Hash",
   "Into", "Ord", "PartialEq", "PartialOrd", "TryFrom", "TryInto"]

def implicitDecorators : List String :=
  ["cached_property", "computed_field", "deleter", "field_serializer", "field_validator",
   "getter", "model_serializer", "model_validator", "property", "root_validator", "setter",
   "validator"]

def isPythonModule (qn : String) : Bool :=
  !hasScope qn && (".py".toList.isSuffixOf qn.toList || ".pyi".toList.isSuffixOf qn.toList)

/-- `runs_with_its_class`: a dunder, `model_post_init`, or one of the decorators. -/
def runsWithItsClass (name : String) (decorators : Option Json) : Bool :=
  let dunder := decide (4 < name.utf8ByteSize) && "__".toList.isPrefixOf name.toList &&
    "__".toList.isSuffixOf name.toList
  let named := match decorators with
    | some (.arr items) => (items.filterMap Json.asStr).any fun decorator =>
        let head := decorator.toList.takeWhile (· ≠ '(')
        implicitDecorators.any fun known => known.toList = (afterLast ['.'] head).getD head
    | _ => false
  dunder || name = "model_post_init" || named

def classNode (g : GraphReads) (qn : String) : Option NodeRow :=
  (g.getNode qn).filter fun node => node.input.kind = "Class"

def rustTraitImplType (i : Inputs) (node : NodeRow) : Option String := do
  let _ ← node.input.parentName
  let (owner, _) ← rsplitOnce "." node.qualifiedName
  let text ← i.files node.input.filePath
  let name ← rustImplTrait (Scip.lines text) node.input.lineStart
  if calledBySyntaxTraits.any fun known => known.toList = name then none
  else (classNode i.store owner).map NodeRow.qualifiedName

/-- `implicit_caller`; `none` is the failure on a method whose name has no file. -/
def implicitCaller (i : Inputs) (qn : String) : Option (Option String) :=
  match i.store.getNode qn with
  | none => some none
  | some node =>
      if node.input.language = "rust" then some (rustTraitImplType i node)
      else
        match node.input.parentName with
        | none => some (((splitOnce "::" qn).map Prod.fst).filter fun file =>
            (node.input.name = "__getattr__" || node.input.name = "__dir__") &&
              isPythonModule file)
        | some parent =>
            if !runsWithItsClass node.input.name (node.input.extra.get "decorators") then some none
            else
              (splitOnce "::" qn).map fun (file, _) =>
                let owner := file ++ "::" ++ parent
                if (classNode i.store owner).isSome then some owner else none

/-! ## The walk -/

abbrev ValueUse := String × String

structure ReachingTest where
  hops : Nat
  test : String
  via : String
  isTest : Bool
  valueUse : Option ValueUse
  rank : Nat
deriving DecidableEq

def ReachingTest.place (t : ReachingTest) : Nat ×ₗ Nat ×ₗ String :=
  toLex (t.hops, toLex (t.rank, t.test))

def ReachingTest.meeting (t : ReachingTest) : Nat ×ₗ String := toLex (t.hops, t.via)

/-- The variables of the loop, and `next` of the hop it is in. -/
structure Walk where
  depth : Nat
  collect : Nat
  truncated : Bool
  met : Dict String ReachingTest
  valueUses : Dict String ValueUse
  frontier : List String
  next : List String
  seen : Finset String
  imported : Finset String
  implicit : Finset String

def start (qn : String) (collect : Nat) : Walk where
  depth := 0
  collect := collect
  truncated := false
  met := ∅
  valueUses := ∅
  frontier := [qn]
  next := []
  seen := {qn}
  imported := ∅
  implicit := ∅

def reachingTest (hops : Nat) (test : NodeRow) (via : String) (valueUse : Option ValueUse) :
    ReachingTest where
  hops := hops
  test := test.qualifiedName
  via := via
  isTest := test.input.kind = "Test"
  valueUse := valueUse
  rank := testRank test

def remeet (entry new : ReachingTest) : ReachingTest :=
  if new.meeting < entry.meeting then
    { entry with hops := new.hops, via := new.via, valueUse := new.valueUse }
  else entry

def meet (met : Dict String ReachingTest) (new : ReachingTest) : Dict String ReachingTest :=
  AList.insert new.test (((met.lookup new.test).map (remeet · new)).getD new) met

section Loop

variable (i : Inputs) (qn : String)

def meetDirect (w : Walk) : Walk :=
  { w with
    met := w.frontier.foldl (fun met current =>
      ((directTests i.store current).filter fun test => built i.store qn test.input.filePath).foldl
        (fun met test =>
          meet met (reachingTest w.depth test current (w.valueUses.lookup current))) met) w.met }

def addClass (frontier : List String) (acc : Walk × List String)
    (caller : String × Option String) : Walk × List String :=
  match caller.2 with
  | none => acc
  | some owner =>
      if owner ∈ frontier || owner ∈ acc.2 then acc
      else
        let w := acc.1
        ({ w with
            imported := if isPythonModule owner then insert owner w.imported else w.imported
            valueUses :=
              match w.valueUses.lookup caller.1 with
              | some valueUse =>
                  if owner ∈ w.valueUses then w.valueUses
                  else AList.insert owner valueUse w.valueUses
              | none => w.valueUses },
          acc.2 ++ [owner])

/-- The classes that call the frontier without naming it. -/
def withClasses (w : Walk) : Option (Walk × List String) :=
  (w.frontier.mapM (implicitCaller i)).map fun callers =>
    (w.frontier.zip callers).foldl (addClass w.frontier) (w, [])

/-- What the loop over a target's edges knows of the target. -/
structure Via where
  target : String
  ofClass : Bool
  imported : Bool
  carries : Bool
deriving DecidableEq

def viaOf (w : Walk) (classes : List String) (target : String) : Via where
  target := target
  ofClass := target ∈ classes
  imported := target ∈ w.imported
  carries := target ∈ classes || target ∈ w.imported || target ∈ w.implicit

/-- Whether the walk goes from the target to the source of the edge. -/
def follows (v : Via) (e : GraphEdge) : Bool :=
  e.kind = "CALLS" || (v.imported && e.kind = "IMPORTS_FROM") ||
    (e.kind = "REFERENCES" && (v.ofClass || (e.extra.get "relationship_role").isNone))

def runsOnImport (e : GraphEdge) : Bool :=
  let importTime := match e.extra.get "import_time" with
    | some (.bool flag) => flag
    | _ => false
  (e.kind = "CALLS" || e.kind = "REFERENCES") && importTime &&
    (e.extra.get "receiver_unknown").isNone

def callerUse (valueUses : Dict String ValueUse) (v : Via) (e : GraphEdge) (caller : NodeRow) :
    Option ValueUse :=
  (valueUses.lookup v.target).or
    (if e.kind = "REFERENCES" && !v.ofClass then some (caller.qualifiedName, v.target) else none)

/-- What a caller does that the edge led to first. -/
def arrive (v : Via) (e : GraphEdge) (caller : NodeRow) (w : Walk) : Walk :=
  let valueUse := callerUse w.valueUses v e caller
  let name := caller.qualifiedName
  if isTestNode caller (relative i.root caller.input.filePath) then
    { w with met := meet w.met (reachingTest (w.depth + 1) caller v.target valueUse) }
  else
    let on := v.carries || runsOnImport e
    { w with
      valueUses := (valueUse.map fun use => AList.insert name use w.valueUses).getD w.valueUses
      imported := if on && isPythonModule name then insert name w.imported else w.imported
      implicit := if on && !isPythonModule name then insert name w.implicit else w.implicit
      next := w.next ++ [name] }

/-- The node that calls over an edge, where the walk may go. -/
def callerOf (e : GraphEdge) : Option NodeRow :=
  (i.store.getNode e.sourceQualified).filter fun caller => built i.store qn caller.input.filePath

def follow (v : Via) (w : Walk) (e : GraphEdge) : Walk :=
  if !follows v e || e.sourceQualified ∈ w.seen then w
  else
    let w := { w with seen := insert e.sourceQualified w.seen }
    match callerOf i qn e with
    | none => w
    | some caller => arrive i v e caller w

def visit (incoming : String → List GraphEdge) (classes : List String) (w : Walk)
    (target : String) : Walk :=
  (incoming target).foldl (follow i qn (viaOf w classes target)) w

def targetsOf (w : Walk) (classes : List String) : List String := (w.frontier ++ classes).dedup

def visitCallers (o : HashOrders) (w : Walk) (classes : List String) : Walk :=
  let targets := targetsOf w classes
  (o.order [w.depth] targets).foldl
    (visit i qn (i.store.incoming targets) classes) { w with next := [] }

def reachNodeLimit : Nat := 500

/-- The next hop, the last one to collect at a hub. -/
def advance (w : Walk) : Walk :=
  let hub := decide (w.depth + 1 < w.collect) && decide (reachNodeLimit < w.seen.card)
  { w with
    depth := w.depth + 1
    collect := if hub then w.depth + 1 else w.collect
    truncated := hub || w.truncated
    frontier := w.next }

abbrev Found := List ReachingTest × Bool

def found (w : Walk) : Found := (sortBy ReachingTest.place (Dict.values w.met), w.truncated)

def climb (o : HashOrders) (w : Walk) : Option Walk :=
  (withClasses i w).map fun (w, classes) => visitCallers i qn o w classes

/-- Whether the walk ends behind the direct tests. -/
def ends (limit : Nat) (w : Walk) : Bool :=
  (w.collect ≤ w.depth && !w.met.entries.isEmpty) || w.depth = limit

/-- One pass of the loop: the answer of the walk, or the state in front of the next hop. -/
def hop (o : HashOrders) (limit : Nat) (w : Walk) : Option (Found ⊕ Walk) :=
  let w := meetDirect i qn w
  if ends limit w then some (.inl (found w))
  else
    (climb i qn o w).map fun w =>
      if (w.collect < w.depth + 1 && !w.met.entries.isEmpty) || w.next.isEmpty then .inl (found w)
      else .inr (advance w)

def walkFrom (o : HashOrders) (limit : Nat) : Nat → Walk → Option Found
  | 0, w => some (found w)
  | left + 1, w =>
      match hop i qn o limit w with
      | none => none
      | some (.inl answer) => some answer
      | some (.inr w) => walkFrom o limit left w

def statesFrom (o : HashOrders) (limit : Nat) : Nat → Walk → List Walk
  | 0, _ => []
  | left + 1, w =>
      w :: match hop i qn o limit w with
        | some (.inr w) => statesFrom o limit left w
        | _ => []

def walkTests (o : HashOrders) (collect search : Nat) : Option Found :=
  walkFrom i qn o search (search + 1) (start qn collect)

def nearestTest (o : HashOrders) (limit : Nat) : Option (Option (Nat × String)) :=
  (walkTests i qn o 0 limit).map fun answer => answer.1.head?.map fun test => (test.hops, test.test)

def testsReaching (o : HashOrders) (limit search : Nat) : Option Found :=
  walkTests i qn o limit (max search limit)

end Loop

end TestWalk

end Dagayn
