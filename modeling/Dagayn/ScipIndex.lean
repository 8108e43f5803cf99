import Dagayn.Alphanumeric
import Dagayn.Dict
import Dagayn.JsonText
import Dagayn.ScipOverlay
import Dagayn.Sorted
import Dagayn.Utf8
import Mathlib

/-!
# Settling calls by a SCIP index

`apply_scip_overlays`: the index as it is decoded, what it says about one call, and the
loop that settles the calls and counts what became of each.
-/

namespace Dagayn

namespace Scip

/-! ## What the code gets from outside -/

/-- A parsed symbol: the manager and the name of its package, and the name and the suffix
of each descriptor. -/
structure ParsedSymbol where
  package : Option (String × String)
  descriptors : List (String × Int)

/-- The `scip` crate's reading of symbols, the repository's files and SHA-256 in hex. -/
structure Env where
  parseSymbol : String → Option ParsedSymbol
  isLocalSymbol : String → Bool
  readFile : String → Option (List UInt8)
  digest : List UInt8 → String

structure Occurrence where
  range : List Int
  symbol : String
  symbolRoles : BitVec 32

structure Document where
  relativePath : String
  positionEncoding : Int
  occurrences : List Occurrence

/-- `ScipIndexInput`, with what its file decodes to; `none` for one that cannot be read. -/
structure IndexInput where
  documents : Option (List Document)
  pathPrefix : String
  authoritative : Bool

/-! ## `read_index` -/

inductive Encoding where
  | utf8
  | utf16
  | utf32
deriving DecidableEq

structure Reference where
  start : Nat
  stop : Nat
  symbol : String

/-- Symbol -> where it is defined. -/
abbrev Definitions := Dict String (List (String × Int))

structure Index where
  documents : Dict String Encoding := ∅
  references : Dict (String × Int) (List Reference) := ∅
  definitions : Definitions := ∅

def roleDefinition : BitVec 32 := 1

def roleImport : BitVec 32 := 2

def graphPath (pathPrefix relativePath : String) : String :=
  let push (segments : List (List Char)) (segment : List Char) : List (List Char) :=
    if segment = [] ∨ segment = ['.'] then segments
    else if segment = ['.', '.'] ∧ segments.getLast?.any (· ≠ ['.', '.']) then segments.dropLast
    else segments ++ [segment]
  let segments := ((pathPrefix ++ relativePath).toList.splitOn '/').foldl push []
  String.ofList (['/'].intercalate segments)

def pushPlace (symbol : String) (definitions : Definitions) (place : String × Int) : Definitions :=
  let places := definitions.getD symbol []
  definitions.insert symbol (if place ∈ places then places else places ++ [place])

def addOccurrence (file : String) (index : Index) (o : Occurrence) : Index :=
  match o.range with
  | line :: start :: stop :: more =>
      if o.symbol = "" then index
      else
        let index :=
          if o.symbolRoles &&& roleDefinition ≠ 0 then
            { index with definitions := pushPlace o.symbol index.definitions (file, line + 1) }
          else index
        if o.symbolRoles &&& (roleDefinition ||| roleImport) ≠ 0 then index
        else
          -- a four-element range covers the rest of its first line
          let stop := if more = [] then stop.toNat else 2 ^ 64 - 1
          let references := index.references.getD (file, line + 1) []
          { index with
            references := index.references.insert (file, line + 1)
              (references ++ [{ start := start.toNat, stop, symbol := o.symbol }]) }
  | _ => index

def addDocument (pathPrefix : String) (index : Index) (d : Document) : Index :=
  let file := graphPath pathPrefix d.relativePath
  let encoding :=
    if d.positionEncoding = 1 then .utf8 else if d.positionEncoding = 3 then .utf32 else .utf16
  d.occurrences.foldl (addOccurrence file)
    { index with documents := index.documents.insert file encoding }

def readIndex (input : IndexInput) : Option Index :=
  input.documents.map fun documents => documents.foldl (addDocument input.pathPrefix) {}

def poolDefinitions (indexes : List Index) : Definitions :=
  indexes.foldl (fun pooled index =>
    index.definitions.keys.foldl (fun pooled symbol =>
      (index.definitions.getD symbol []).foldl (pushPlace symbol) pooled) pooled) ∅

/-! ## Names on a line -/

def lines (text : List Char) : List (List Char) :=
  let pieces := text.splitOn '\n'
  let strip (line : List Char) := if line.getLast? = some '\r' then line.dropLast else line
  -- what no newline ends is a line unless it is empty, and keeps its `\r`
  pieces.dropLast.map strip ++ pieces.getLast?.toList.filter (· ≠ [])

def calledName (target : String) (extra : Json) : String :=
  let external := extra.get "external" == some (.bool true)
  let behind := if external then (splitOnce "::" target).map Prod.snd else none
  let text := ((extra.getStr "external_symbol").or behind).getD target
  let text := String.ofList (text.toList.rdropWhile (· = '!'))
  let last := lastPart ['.'] (lastPart [':', ':'] text)
  String.ofList (last.toList.takeWhile fun c => c ≠ '(' && c ≠ '<')

/-- `match_indices`, as what stands before each match and behind it: after a match, the
characters of it are passed over. -/
def matchIndices (name : List Char) : Nat → List Char → List Char → List (List Char × List Char)
  | _, _, [] => []
  | skip + 1, before, c :: rest => matchIndices name skip (before ++ [c]) rest
  | 0, before, c :: rest =>
      if name.isPrefixOf (c :: rest) then
        (before, (c :: rest).drop name.length) ::
          matchIndices name (name.length - 1) (before ++ [c]) rest
      else matchIndices name 0 (before ++ [c]) rest

def isWord (c : Char) : Bool := isAlphanumeric c || c = '_' || c = '$'

def nameOffsets (line name : List Char) (member : Bool) : List (List Char × List Char) :=
  (matchIndices name 0 [] line).filter fun (before, behind) =>
    name ≠ [] && !before.getLast?.any isWord && !behind.head?.any isWord &&
      (!member ||
        let before := before.rdropWhile isWhitespace
        ['.'].isSuffixOf before || [':', ':'].isSuffixOf before || ['-', '>'].isSuffixOf before)

def nameColumns (line name : List Char) (encoding : Encoding) (member : Bool) : List Nat :=
  (nameOffsets line name member).map fun (before, _) =>
    match encoding with
    | .utf8 => (utf8 before).length
    | .utf16 => (before.flatMap fun c => JsonText.utf16 c.toNat).length
    | .utf32 => before.length

def callsName (line name : List Char) (member : Bool) : Bool :=
  (nameOffsets line name member).any fun (_, behind) =>
    (behind.dropWhile isWhitespace).head? = some '('

/-! ## What a symbol names -/

/-- `strip_prefix("@types/")`. -/
def stripTypes (name : String) : Option String :=
  if "@types/".toList.isPrefixOf name.toList then
    some (String.ofList (name.toList.drop "@types/".toList.length))
  else none

/-- The package as the graph names it, and whether it is the standard library. -/
def packageName (manager name : String) (descriptors : List (String × Int)) :
    Option (String × Bool) :=
  let first := descriptors.head?.map Prod.fst
  match manager, name with
  | "cargo", "std" | "cargo", "core" | "cargo", "alloc" | "cargo", "proc_macro" | "cargo", "test" =>
      some ("std", true)
  | "npm", "typescript" => some ("globalThis", true)
  | "npm", "@types/node" =>
      let module := (first.bind (stripSuffix ".d.ts")).map ("node:" ++ ·)
      some (module.getD "node", true)
  | "cargo", name | "npm", name => some ((stripTypes name).getD name, false)
  | "gomod", module => first.map fun n => (n, module = "github.com/golang/go/src")
  | "python", distribution =>
      first.map fun n =>
        (String.ofList (n.toList.takeWhile (· ≠ '.')), distribution = "python-stdlib")
  | _, _ => none

def externalTarget (env : Env) (symbol separator : String) : Option (String × Bool × String) := do
  let parsed ← env.parseSymbol symbol
  let (manager, name) ← parsed.package
  if name = "" ∨ name = "." then none
  else
    let (package, stdlib) ← packageName manager name parsed.descriptors
    let named := (parsed.descriptors.filter fun d => d.2 ∈ [2, 3, 4, 9]).map Prod.fst
    pure (package, stdlib, separator.intercalate (named.drop (named.length - 2)))

def localSuffixes : List Int := [5, 6, 8]

def isCalleeLocal (env : Env) (symbol : String) : Bool :=
  env.isLocalSymbol symbol ||
    ((env.parseSymbol symbol).bind fun parsed => parsed.descriptors.getLast?).any fun last =>
      last.2 ∈ localSuffixes

def definedNames (env : Env) (symbol : String) : List String :=
  match env.parseSymbol symbol with
  | none => []
  | some parsed =>
      match (parsed.descriptors.map Prod.fst).reverse with
      | last :: owner :: _ => if last = "<constructor>" then ["constructor", owner] else [last]
      | [last] => [last]
      | [] => []

def scopeSegments (qualified : String) : List (List Char) :=
  let (file, symbol) := (splitOnce "::" qualified).getD (qualified, "")
  file.toList.splitOn '/' ++ [[':', ':']] ++ (symbol.toList.splitOn '.').filter (· ≠ [])

def visibleDefinition (source : String) (candidates : List String) : Option String :=
  let source := scopeSegments source
  let shared (candidate : String) :=
    (((scopeSegments candidate).zip source).takeWhile fun (a, b) => a = b).length
  (candidates.map shared).max?.bind fun best =>
    match candidates.filter fun candidate => shared candidate = best with
    | [first] => some first
    | _ => none

/-- `rsplit(['.', ':']).next()`. -/
def lastSegment (qualified : String) : String :=
  String.ofList (qualified.toList.rtakeWhile fun c => c ≠ '.' && c ≠ ':')

/-- `rsplit('.').next()` tells the separator. -/
def separatorOf (file : String) : String :=
  if lastPart ['.'] file ∈ ["rs", "cc", "cpp", "cxx", "hpp", "hh", "h"] then "::" else "."

end Scip

/-! ## One call -/

/-- The buckets a call is counted in. -/
inductive ScipOutcome where
  | staleSkipped
  | confirmed
  | rewrittenToNode
  | rewrittenToPackage
  | markedLocal
  | ambiguous
  | unmatched
  | left
deriving DecidableEq

namespace Store

open Scip

/-- `min_by_key(end - start)` keeps the first of the shortest. -/
def shorter (best r : NodeRow) : NodeRow :=
  if r.input.lineEnd - r.input.lineStart < best.input.lineEnd - best.input.lineStart then
    r else best

/-- `node_at`: the innermost node of one of the names that holds a line. -/
def nodeAt (s : Store) (file : String) (line : Int) (names : List String) : Option String :=
  let holding := s.nodes.rows.filter fun r =>
    r.input.kind ∈ ["Function", "Test", "Class", "Type"] && r.input.filePath = file &&
      r.input.lineStart ≤ line && line ≤ r.input.lineEnd && lastSegment r.qualifiedName ∈ names
  match holding with
  | [] => none
  | r :: rows => some (rows.foldl shorter r).qualifiedName

/-- `hashes.get(&file)`: of the distinct rows, the last one is kept. -/
def fileHash (s : Store) (file : String) : Option String :=
  let rows := s.nodes.rows.filter fun r => r.input.kind = "File" && r.input.filePath = file
  (keepFirst NodeRow.fileHash rows).getLast?.map NodeRow.fileHash

/-- The lines of a file, or `none` when it changed since the graph parsed it. -/
def sourceLines (s : Store) (env : Env) (file : String) : Option (List (List Char)) := do
  let bytes ← env.readFile file
  if s.fileHash file = some (env.digest bytes) then some (lines (fromUtf8Lossy bytes)) else none

def isMember (extra : Json) : Bool :=
  ["receiver_unknown", "receiver_from", "receiver_type"].any extra.has

def symbolsAt (index : Index) (file : String) (line : Int) (columns : List Nat) : List String :=
  keepFirst id (columns.flatMap fun column =>
    ((index.references.getD (file, line) []).filter fun reference =>
      reference.start ≤ column && column < reference.stop).map Reference.symbol)

/-- The loop over the edge's line and the lines behind it, `n` of them to come. -/
def symbolsFrom (index : Index) (encoding : Encoding) (r : EdgeRow) (text : List (List Char)) :
    Nat → Int → List String
  | 0, _ => []
  | n + 1, line =>
      match if 0 < line then text[(line - 1).toNat]? else none with
      | none => []
      | some on =>
          let name := (calledName r.target r.extra).toList
          let columns := nameColumns on name encoding (isMember r.extra)
          let symbols := symbolsAt index r.filePath line columns
          -- a call of the name on the edge's own line is the edge's
          if symbols ≠ [] || (line = r.line && callsName on name (isMember r.extra)) then symbols
          else symbolsFrom index encoding r text n (line + 1)

def chainLines : Nat := 8

def definitionOf (s : Store) (env : Env) (source symbol : String) (places : List (String × Int)) :
    Option ((String × Int) × Option String) :=
  let names := definedNames env symbol
  match places.map fun place => (place, s.nodeAt place.1 place.2 names) with
  | [only] => some only
  | defined =>
      (visibleDefinition source (defined.filterMap Prod.snd)).bind fun node =>
        defined.find? fun d => d.2 = some node

section

variable (s : Store) (env : Env) (definitions : Definitions) (authoritative : Bool) (r : EdgeRow)

/-- A call with one symbol: what is written, and the bucket. An `extra` that is neither an object
nor null gives way to one where the code panics on setting `callee_local` in it. -/
def settleSymbol (symbol : String) : Option EdgeWrite × ScipOutcome :=
  let atNode := s.codeNode r.target
  let external := markedExternal r
  let kept := !authoritative && (atNode.isSome || external)
  if isCalleeLocal env symbol then
    if atNode.isNone && !external then
      (some (.setExtra (r.extra.insert "callee_local" (.bool true))), .markedLocal)
    else (none, .left)
  else
    match definitions.lookup symbol with
    | some places =>
        match s.definitionOf env r.source symbol places with
        | none => (none, .ambiguous)
        | some ((file, line), node) =>
            let holdsDefinition := atNode.any fun n =>
              n.input.filePath = file && n.input.lineStart ≤ line && line ≤ n.input.lineEnd
            if holdsDefinition then
              (some (scipWrite r.target (settle r.extra) (raiseTier r.tier)), .confirmed)
            else if kept then (none, .left)
            else
              match node with
              | none => (none, .left)
              | some node =>
                  let extra := (((settle r.extra).erase "external").erase "external_package"
                    |>.erase "external_symbol").erase "stdlib"
                  (some (scipWrite node extra (some .high)), .rewrittenToNode)
    | none =>
        if external then
          (some (scipWrite r.target (settle r.extra) (raiseTier r.tier)), .confirmed)
        else if kept then (none, .left)
        else
          match externalTarget env symbol (separatorOf r.filePath) with
          | none => (none, .left)
          | some (package, stdlib, symbolName) =>
              let extra := (settle r.extra).insert "external" (.bool true)
              let extra := extra.insert "external_package" (.str package)
              let extra := extra.insert "external_symbol" (.str symbolName)
              let extra :=
                if stdlib then extra.insert "stdlib" (.bool true) else extra.erase "stdlib"
              (some (scipWrite package extra (some .high)), .rewrittenToPackage)

def settleCall (index : Index) (encoding : Encoding) : Option EdgeWrite × ScipOutcome :=
  match s.sourceLines env r.filePath with
  | none => (none, .staleSkipped)
  | some text =>
      match symbolsFrom index encoding r text (chainLines + 1) r.line with
      | [] => (none, .unmatched)
      | [symbol] => s.settleSymbol env definitions authoritative r symbol
      | _ => (none, .ambiguous)

end

end Store

/-! ## The loop -/

/-- What an overlay run did, edge by edge. -/
structure ScipOverlayStats where
  documents : Nat := 0
  calls : Nat := 0
  staleSkipped : Nat := 0
  confirmed : Nat := 0
  rewrittenToNode : Nat := 0
  rewrittenToPackage : Nat := 0
  markedLocal : Nat := 0
  ambiguous : Nat := 0
  unmatched : Nat := 0
  left : Nat := 0
deriving DecidableEq

def ScipOverlayStats.count (stats : ScipOverlayStats) : ScipOutcome → ScipOverlayStats
  | .staleSkipped => { stats with staleSkipped := stats.staleSkipped + 1 }
  | .confirmed => { stats with confirmed := stats.confirmed + 1 }
  | .rewrittenToNode => { stats with rewrittenToNode := stats.rewrittenToNode + 1 }
  | .rewrittenToPackage => { stats with rewrittenToPackage := stats.rewrittenToPackage + 1 }
  | .markedLocal => { stats with markedLocal := stats.markedLocal + 1 }
  | .ambiguous => { stats with ambiguous := stats.ambiguous + 1 }
  | .unmatched => { stats with unmatched := stats.unmatched + 1 }
  | .left => { stats with left := stats.left + 1 }

namespace Store

open Scip

section

variable (env : Env) (index : Index) (definitions : Definitions) (authoritative : Bool)

/-- The loop's body; `s` is the store the nodes were read from. -/
def settleEdge (s : Store) (state : Store × ScipOverlayStats) (r : EdgeRow) :
    Store × ScipOverlayStats :=
  match index.documents.lookup r.filePath with
  | none => state
  | some encoding =>
      let (write, outcome) := s.settleCall env definitions authoritative r index encoding
      let stats := { state.2 with calls := state.2.calls + 1 }
      (write.elim state.1 (state.1.writeEdge r.id), stats.count outcome)

/-- `ORDER BY file_path, line`. -/
def callRows (s : Store) : List EdgeRow :=
  sortBy (fun r : EdgeRow => toLex (r.filePath, r.line))
    (s.edges.rows.filter fun r => r.kind = "CALLS")

/-- `settle_by_index`. -/
def settleWithIndex (s : Store) : Store × ScipOverlayStats :=
  let (cur, stats) := s.callRows.foldl (settleEdge env index definitions authoritative s)
    (s, { documents := index.documents.keys.length })
  (cur.syncTestedByWithCalls, stats)

end

def overlayStep (env : Env) (definitions : Definitions) (state : Store × List ScipOverlayStats)
    (step : IndexInput × Index) : Store × List ScipOverlayStats :=
  let (cur, stats) := state.1.settleWithIndex env step.2 definitions step.1.authoritative
  (cur, state.2 ++ [stats])

/-- `apply_scip_overlays`; an index that cannot be read fails before the first is applied. -/
def applyScipOverlays (env : Env) (inputs : List IndexInput) (s : Store) :
    Option (Store × List ScipOverlayStats) := do
  let read ← inputs.mapM readIndex
  pure ((inputs.zip read).foldl (overlayStep env (poolDefinitions read)) (s, []))

end Store

end Dagayn
