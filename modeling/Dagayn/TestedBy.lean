import Dagayn.Distinct
import Dagayn.Reexports

/-!
# `TESTED_BY` edges and `resolve_bare_call_targets`

Parsers derive `TESTED_BY target -> test` from each call of a test, before the call
is resolved. `sync_tested_by_with_calls` moves a bare `TESTED_BY` to the target its
call was bound to; `reconcile_tested_by_with_calls` drops the edges whose tested
symbol is no node and adds the missing ones. Both run at the end of
`resolve_bare_call_targets`, which the last section puts together.
-/

namespace Dagayn

/-- `rsplit(sep).next()`. -/
def lastPart (sep : List Char) (text : String) : String :=
  match afterLast sep text.toList with
  | some rest => String.ofList rest
  | none => text

/-- `endpoint_leaf`: the last name segment of an edge endpoint. -/
def endpointLeaf (endpoint : String) : String := lastPart ['.'] (lastPart [':', ':'] endpoint)

namespace Store

/-- `r` is a `TESTED_BY` of `source` by `test` at the file and line. -/
def isTestedBy (source test file : String) (line : Int) (r : EdgeRow) : Bool :=
  r.kind = "TESTED_BY" && r.source = source && r.target = test && r.filePath = file &&
    r.line = line

def hasTestedBy (s : Store) (source test file : String) (line : Int) : Bool :=
  s.edges.rows.any (isTestedBy source test file line)

/-- `c` is a call the test of `tb` makes at the same file and line. -/
def callOf (tb c : EdgeRow) : Bool :=
  c.kind = "CALLS" && c.source = tb.target && c.filePath = tb.filePath && c.line = tb.line

/-! ## `sync_tested_by_with_calls` -/

/-- The rows the query finds: bare `TESTED_BY` edges whose bare call is gone. -/
def bareTestedBy (s : Store) (tb : EdgeRow) : Bool :=
  tb.kind = "TESTED_BY" && !hasScope tb.source &&
    !s.edges.rows.any fun c => callOf tb c && c.target = tb.source

/-- The resolved calls of the bare name, one for each target. -/
def candidates (s : Store) (tb : EdgeRow) : List EdgeRow :=
  keepFirst EdgeRow.target (s.edges.rows.filter fun c =>
    callOf tb c && hasScope c.target && endpointLeaf c.target = endpointLeaf tb.source)

/-- One group: the edge takes the one candidate's target, or goes where such an edge
is there already. -/
def syncGroup (s : Store) (group : EdgeRow × List EdgeRow) : Store :=
  match group.2 with
  | [c] =>
      let tb := group.1
      if s.hasTestedBy c.target tb.target tb.filePath tb.line then
        { s with edges := s.edges.deleteWhere (·.id = tb.id) }
      else
        { s with edges := s.edges.updateWhere (·.id = tb.id) fun r =>
            { r with source := c.target, confidence := c.confidence, tier := c.tier } }
  | _ => s

/-- `sync_tested_by_with_calls`; the rows of the table are in the order of their ids. -/
def syncTestedByWithCalls (s : Store) : Store :=
  ((s.edges.rows.filter s.bareTestedBy).map fun tb => (tb, s.candidates tb)).foldl syncGroup s

/-! ## `reconcile_tested_by_with_calls` -/

/-- The source of `c` is a test. -/
def isTestNode (s : Store) (qualified : String) : Bool :=
  s.nodes.rows.any fun r => r.qualifiedName = qualified && r.input.isTest

def testCall (s : Store) (c : EdgeRow) : Bool :=
  c.kind = "CALLS" && s.isTestNode c.source && s.isNode c.target && !c.external &&
    c.extra.unset "test_api"

/-- What identifies the `TESTED_BY` of a call. -/
def callKey (c : EdgeRow) : String × String × String × Int :=
  (c.target, c.source, c.filePath, c.line)

/-- The `TESTED_BY` inserted for a call. -/
def testedByRow (c : EdgeRow) : EdgeRow where
  id := 0
  kind := "TESTED_BY"
  source := c.target
  target := c.source
  targetName := edgeTargetName c.source
  filePath := c.filePath
  line := c.line
  extra := .obj []
  confidence := c.confidence
  tier := c.tier

/-- `DELETE FROM edges WHERE kind = 'TESTED_BY'` and the source is no node. -/
def dropUntested (s : Store) : Store :=
  { s with edges := s.edges.deleteWhere fun r => r.kind = "TESTED_BY" && !s.isNode r.source }

/-- The calls without a `TESTED_BY`, one for each key. -/
def missingTestedBy (s : Store) : List EdgeRow :=
  keepFirst callKey (s.edges.rows.filter fun c =>
    s.testCall c && !s.hasTestedBy c.target c.source c.filePath c.line)

def addTestedBy (s : Store) (c : EdgeRow) : Store :=
  { s with edges := s.edges.insert (testedByRow c) }

def reconcileTestedByWithCalls (s : Store) : Store :=
  s.dropUntested.missingTestedBy.foldl addTestedBy s.dropUntested

/-! ## `resolve_bare_call_targets` -/

/-- The passes that bind calls, before `TESTED_BY` follows them. -/
def resolveCalls (h : CallHeuristics) (s : Store) : Option Store := do
  let s ← s.resolveReexportedTargets
  let s := (resolveShapeReceivers h s).1
  let s := (bindBareCallTargets h false s).1
  let s := (resolveEnumVariantCalls h s).1
  let s ← typedCallPasses h s
  let s ← typedCallPasses h s
  let s := (bindBareCallTargets h true s).1
  let s ← markObservedMethodCalls h s
  pure (resolveReturnedReceivers h s)

def resolveBareCallTargets (h : CallHeuristics) (s : Store) : Option Store :=
  (resolveCalls h s).map fun s => s.syncTestedByWithCalls.reconcileTestedByWithCalls

end Store

end Dagayn
