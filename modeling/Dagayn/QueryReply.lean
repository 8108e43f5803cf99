import Dagayn.Distinct
import Dagayn.OutputBudget
import Dagayn.QueryRows

/-!
# The reply to a query

`put_rows`, `page` and `next_calls` of `query_graph`: the rows from an offset on, cut to a budget,
and the call that goes on after them. A page is cut twice, the second time with the list of the
files in it.
-/

namespace Dagayn

namespace QueryPages

open Json Ordered OutputBudget QueryRows

/-! ## A call and its answer -/

/-- What a call asks for, once its arguments are checked. -/
structure Query where
  pattern : String
  target : String
  detailLevel : String
  depth : Int
  offset : Nat
  importKind : Option String
  pathPrefix : Option String

namespace Query

def full (q : Query) : Bool := q.detailLevel == "full"

def minimal (q : Query) : Bool := q.detailLevel == "minimal"

end Query

/-- The rows in `outside_module`, those listed of them, and the sentence about them. -/
structure Outside where
  note : String
  count : Nat
  rows : List Json

/-- What a pattern found. -/
structure Found where
  rows : List Row
  edges : List Json
  unresolved : List String
  reachability : Option Json
  /-- The rows outside the module, for a cap (`none`: all of them). -/
  outside : Option Nat → Option Outside
  /-- `tests_for`: the sentence about the tests through callers, and the caller of each. -/
  through : Option (String × List String)

/-- What else goes into a reply. No page changes it, but each call reads it anew. -/
structure Parts where
  confidence : Json
  zeroResultReason : Json
  resolution : String
  exactCount : Int
  /-- The target of a call that was resolved by its name. -/
  originalTarget : Option String
  requestedDepth : Int
  description : String
  answerability : Json
  compactAnswerability : Json
  guidance : Json
  /-- For no rows: the note, and whether it sends the reader to the callers. -/
  noRows : Option String × Bool
  /-- The note on the rows that use the target as a value. -/
  valueUses : Option String
  /-- The note that ends a closed answer, and what to read first. -/
  closing : Option (String × Option (String × String))

/-- `value == true`. -/
def isTrue : Option Json → Bool
  | some (.bool b) => b
  | _ => false

namespace Found

def walkCut (found : Found) : Bool :=
  found.reachability.any fun reach => isTrue (reach.get "truncated")

def closed (found : Found) : Bool :=
  !found.rows.isEmpty && found.unresolved.isEmpty &&
    found.reachability.all fun reach =>
      reach.getStr "state" == some "complete" && !isTrue (reach.get "depth_limit_reached")

end Found

def appendSummary (payload : Ordered) (sentence : String) : Ordered :=
  match (payload.get "summary").bind asStr with
  | some summary => payload.set "summary" (.str (summary ++ ". " ++ sentence))
  | none => payload

def putOutside (payload : Ordered) (found : Found) (cap : Option Nat) : Ordered :=
  match found.outside cap with
  | none => payload
  | some outside =>
      ((appendSummary payload outside.note).put "outside_module_count" (.int outside.count)).put
        "outside_module" (.arr outside.rows)

def foundSummary (count : Nat) (query : Query) (emptyNote : Option String) : String :=
  "Found " ++ toString count ++ " result(s) for " ++ query.pattern ++
    "('" ++ query.target ++ "')" ++
    (if 1 < query.depth then " within " ++ toString query.depth ++ " hops" else "") ++
    (query.pathPrefix.elim "" fun pre => " under '" ++ pre ++ "'") ++
    emptyNote.elim "" fun note => ". " ++ note

def zeroResultNote (found : Found) (parts : Parts) : Option String × Bool :=
  if found.rows.isEmpty then parts.noRows else (none, false)

def outsideListed : Nat := 20

def outsideListedMinimal : Nat := 10

def minimalBudget : Nat := 1750

def standardBudget : Nat := 7750

def fullBudget : Nat := 8000

section Reply

variable (floatLen : Float → Nat)

/-- The rows of the whole answer at the detail level. -/
def rowsOf (found : Found) (query : Query) : List Json :=
  listed query.full query.minimal query.pattern found.rows

def startOf (found : Found) (parts : Parts) (query : Query) : Ordered :=
  let payload := (Ordered.mk [] List.nodup_nil)
    |>.put "status" (.str "ok")
    |>.put "pattern" (.str query.pattern)
    |>.put "target" (.str query.target)
    |>.put "unresolved_count" (.int found.unresolved.length)
    |>.put "unresolved_targets" (.arr (found.unresolved.map .str))
    |>.put "confidence" parts.confidence
    |>.put "zero_result_reason" parts.zeroResultReason
    |>.put "next" (.arr [])
    |>.put "resolution" (.str parts.resolution)
    |>.put "exact_match_count" (.int parts.exactCount)
  let payload := parts.originalTarget.elim payload fun target =>
    (payload.put "resolved_target" (.str query.target)).put "original_target" (.str target)
  found.reachability.elim payload fun reachability =>
    let payload := (payload.put "depth" (.int query.depth)).put "reachability" reachability
    if query.depth < parts.requestedDepth then
      payload.put "depth_requested" (.int parts.requestedDepth)
    else payload

def putRows (found : Found) (parts : Parts) (query : Query) (payload : Ordered) : Ordered × Nat :=
  let rows := rowsOf found query
  let summary := foundSummary rows.length query (zeroResultNote found parts).1
  if query.full then
    let payload := payload
      |>.put "description" (.str parts.description)
      |>.put "summary" (.str summary)
      |>.put "result_count" (.int rows.length)
      |>.put "answerability" parts.answerability
      |>.put "results" (.arr (rows.drop query.offset))
      |>.put "edges" (.arr found.edges)
      |>.put "guidance" parts.guidance
    (putOutside payload found none, fullBudget)
  else
    let payload := payload
      |>.put "summary" (.str summary)
      |>.put "result_count" (.int rows.length)
      |>.put "answerability" parts.compactAnswerability
      |>.put "results" (.arr (rows.drop query.offset))
    if query.minimal then (putOutside payload found (some outsideListedMinimal), minimalBudget)
    else
      (putOutside (payload.put "guidance" parts.guidance) found (some outsideListed),
        standardBudget)

/-! ## One page -/

def maxCutFiles : Nat := 200

def maxCutFilesMinimal : Nat := 60

/-- The page of rows a reply shows. -/
structure Page where
  offset : Nat
  kept : Nat
  total : Nat
  cut : Bool
  files : Nat
  filesShown : Nat

def pageNote (page : Page) (minimal : Bool) : String :=
  let kept := toString page.kept
  let total := toString page.total
  let shown :=
    if page.offset = 0 then "Showing " ++ kept ++ " of " ++ total ++ " rows"
    else if page.kept = 0 then
      "Showing no rows: offset " ++ toString page.offset ++ " is past the " ++ total ++ " rows"
    else
      "Showing rows " ++ toString (page.offset + 1) ++ "-" ++ toString (page.offset + page.kept) ++
        " of " ++ total
  let rest :=
    if minimal && page.cut then "; detail_level=\"standard\" lists more in one call"
    else if page.cut then "; the offset call in next lists the rows after these"
    else ""
  let more :=
    if page.filesShown < page.files then " (first " ++ toString page.filesShown ++ " in files)"
    else " (files)"
  shown ++ rest ++ "; all " ++ total ++ " lie in " ++ toString page.files ++ " files" ++ more

/-- What the budget and `offset` left of the rows: where the budget cut them, the rows kept and the
rows there were, and the rows that a cut or offset page shows. -/
structure Paging where
  cut : Option (Nat × Nat)
  kept : Nat
  resultsComplete : Bool

/-- `_truncation.results`. -/
def truncationOf (payload : Ordered) : Option Json :=
  (payload.get "_truncation").bind (·.get "results")

def cutOf (payload : Ordered) : Option (Nat × Nat) := do
  let results ← truncationOf payload
  return (← (results.get "kept").bind asNat, ← (results.get "total").bind asNat)

def shownRows (payload : Ordered) : List Json := ((payload.get "results").bind asList).getD []

def pageRecord (offset kept total : Nat) : Json :=
  if 0 < offset then (recordOf kept total).insert "offset" (.int offset) else recordOf kept total

def lists : List String := ["results", "edges"]

def withFiles (payload : Ordered) (rows : List Row) (minimal : Bool) : Ordered :=
  let cap := if minimal then maxCutFilesMinimal else maxCutFiles
  payload.put "files" (.arr (((filesOf rows).take cap).map .str))

/-- The end of `page`: the files are listed, the rows cut again, and the page says which these
are. -/
def numbered (payload : Ordered) (budget : Nat) (rows : List Row) (offset rest : Nat) (cut : Bool)
    (minimal : Bool) : Ordered × Nat :=
  let cap := if minimal then maxCutFilesMinimal else maxCutFiles
  let count := (filesOf rows).length
  let payload := applyOutputBudget floatLen budget (withFiles payload rows minimal) lists
  let kept := (shownRows payload).length
  let total := offset + rest
  let record := ((payload.get "_truncation").getD (.obj [])).insert "results"
    (pageRecord offset kept total)
  let page : Page := ⟨offset, kept, total, cut, count, min count cap⟩
  (appendSummary (payload.set "_truncation" record) (pageNote page minimal), kept)

def page (payload : Ordered) (budget : Nat) (rows : List Row) (offset : Nat) (minimal : Bool) :
    Ordered × Paging :=
  let payload := applyOutputBudget floatLen budget payload lists
  let complete := offset == 0 && (truncationOf payload).isNone
  let payload := payload.put "results_complete" (.bool complete)
  let cut := cutOf payload
  let shown := (shownRows payload).length
  let paging : Paging := ⟨cut, 0, complete⟩
  match cut.or (if 0 < offset then some (shown, shown) else none) with
  | none => (payload, paging)
  | some (_, rest) =>
      match (payload.get "summary").bind asStr with
      | none => (payload, paging)
      | some _ =>
          let (payload, kept) :=
            numbered floatLen payload budget rows offset rest cut.isSome minimal
          (payload, { paging with kept := kept })

/-! ## The calls that follow -/

def maxNext : Nat := 3

def maxDepth : Int := 6

def viaCalls : Nat := 2

/-- `next::call`, of `query_graph_tool`. -/
def call (args : Json) (why : String) : Json :=
  .obj [("tool", .str "query_graph_tool"), ("args", args), ("why", .str why)]

def afterQuery (pattern target : String) (rows : List Json) : List Json :=
  if pattern = "source_of" then
    if rows.isEmpty then []
    else
      [call (.obj [("pattern", .str "callers_of"), ("target", .str target)])
        "who calls what you just read"]
  else
    let named := rows.filterMap fun row => (row.getStr "qualified_name").map fun name => (name, row)
    let fresh := keepFirst Prod.fst (named.filter fun p => p.1 ≠ target)
    let calls := fresh.map fun p =>
      let kind := (p.2.getStr "kind").getD "node"
      let read := if kind = "File" then "file_summary" else "source_of"
      call (.obj [("pattern", .str read), ("target", .str p.1)])
        ("read the " ++ kind ++ " " ++ pattern ++ " found")
    calls.take maxNext

def thisCall (query : Query) (pattern : String) (depth : Option Int) : Json :=
  let args : Json := .obj [("pattern", .str pattern), ("target", .str query.target)]
  let args := depth.elim args fun depth => args.insert "depth" (.int depth)
  let args := query.importKind.elim args fun kind => args.insert "import_kind" (.str kind)
  query.pathPrefix.elim args fun pre => args.insert "path_prefix" (.str pre)

/-- `first`. -/
def putFirst (call : Json) (next : List Json) : List Json := (call :: next).take maxNext

/-- Whether the walk stopped at the depth asked for, which is not the greatest. -/
def goesDeeper (found : Found) (query : Query) : Bool :=
  found.reachability.any fun reach =>
    isTrue (reach.get "depth_limit_reached") && !isTrue (reach.get "truncated") &&
      query.depth < maxDepth

def putDeeper (found : Found) (query : Query) (next : List Json) : List Json :=
  if goesDeeper found query then
    putFirst (call (thisCall query query.pattern (some maxDepth))
      ("nodes beyond " ++ toString query.depth ++ " hops may reach it")) next
  else next

/-- The call that lists the rows past a cut page. -/
def restCall (found : Found) (query : Query) (paging : Paging) : Option Json :=
  let walked := found.reachability.map fun _ => query.depth
  if paging.cut.isSome && query.minimal then
    let args := (thisCall query query.pattern walked).insert "detail_level" (.str "standard")
    let args := if 0 < query.offset then args.insert "offset" (.int query.offset) else args
    some (call args "the rows minimal cut to fit")
  else if paging.cut.isSome && 0 < paging.kept then
    let args := thisCall query query.pattern walked
    let args :=
      if query.detailLevel ≠ "standard" then args.insert "detail_level" (.str query.detailLevel)
      else args
    let after := query.offset + paging.kept
    some (call (args.insert "offset" (.int after)) ("the rows after the first " ++ toString after))
  else none

def nextCalls (query : Query) (found : Found) (rows : List Json) (paging : Paging)
    (unboundCaller : Option (String × String)) (testsThroughCallers : Bool)
    (viaCallers : List String) : List Json :=
  let next := putDeeper found query (afterQuery query.pattern query.target rows)
  let next := (restCall found query paging).elim next fun call => putFirst call next
  let next := unboundCaller.elim next fun p =>
    putFirst (call (.obj [("pattern", .str "source_of"), ("target", .str p.1)]) p.2) next
  let next :=
    if testsThroughCallers then
      putFirst (call (thisCall query "callers_of" (some maxDepth))
        "its callers, where a test the graph does not link may start") next
    else next
  (viaCallers.take viaCalls).reverse.foldl (fun next via =>
    putFirst (call (.obj [("pattern", .str "tests_for"), ("target", .str via)])
      "tests that run it through this caller") next) next

/-! ## The reply -/

def walkCutNote : String :=
  "The walk stopped at 500 rows past the first hop, so nodes past them are on no page; a " ++
    "smaller depth may give a closed list"

def depthCappedNote (requested : Int) : String :=
  "depth " ++ toString requested ++ " is above the maximum, " ++ toString maxDepth ++
    ", so the walk went " ++ toString maxDepth ++ " hops"

def byNameOnly (rows : List Row) : Bool :=
  !rows.isEmpty && rows.all fun row => Row.getStr row "coverage_source" == some "heuristic"

def byNameNote : String :=
  "Every row is chosen by name (coverage_source \"heuristic\"): no call, value use, or dagayn: " ++
    "tests directive in the graph links one to it, so tests may be missing and " ++
    "results_complete is false"

def ending (parts : Parts) (closed : Bool) : Option (String × Option (String × String)) :=
  match parts.valueUses with
  | some note => some (note, none)
  | none => if closed then parts.closing else none

def viaCallersOf (found : Found) (query : Query) : List String :=
  if query.pattern = "tests_for" then
    found.through.elim [] fun p => keepFirst id (p.2.filter (· ≠ query.target))
  else []

/-- What `tests_for` says of its rows. -/
def testNotes (found : Found) (query : Query) (reply : Ordered × Paging) : Ordered × Paging :=
  if query.pattern = "tests_for" then
    let payload :=
      if found.rows.isEmpty then reply.1
      else found.through.elim reply.1 fun p => appendSummary reply.1 p.1
    if byNameOnly found.rows then
      ((appendSummary payload byNameNote).set "results_complete" (.bool false),
        { reply.2 with resultsComplete := false })
    else (payload, reply.2)
  else reply

/-- The answer, before `finish` adds its fields. -/
def answer (found : Found) (parts : Parts) (query : Query) : Ordered :=
  let (payload, budget) := putRows found parts query (startOf found parts query)
  let (payload, paging) := page floatLen payload budget found.rows query.offset query.minimal
  let payload := if found.walkCut then appendSummary payload walkCutNote else payload
  let payload :=
    if found.reachability.isSome && query.depth < parts.requestedDepth then
      appendSummary payload (depthCappedNote parts.requestedDepth)
    else payload
  let (payload, paging) := testNotes found query (payload, paging)
  let ended := ending parts (paging.resultsComplete && found.closed)
  let payload := ended.elim payload fun p => appendSummary payload p.1
  let next := nextCalls query found (shownRows payload) paging (ended.bind Prod.snd)
    (zeroResultNote found parts).2 (viaCallersOf found query)
  payload.set "next" (.arr next)

end Reply

end QueryPages

end Dagayn
