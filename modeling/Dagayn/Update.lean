import Dagayn.FileTable
import Dagayn.WorkTree

/-!
# `dagayn update`

`incremental_update` of `dagayn-build`: list what changed since a base commit, decide
which of these paths still exist and whose bytes changed, add the files that depend on
them, remove, re-hash or re-parse each, and record HEAD when the diff covered the
graph's commit.

Every look at git or at a file names its `Moment`, so the same path may look different
to two phases. A failing store call ends the update with the database as the calls
before it left it (the `error` side of `Except`); a file that cannot be read or parsed
only adds to the report. Postprocessing, which follows, writes neither the file table
nor the stored commit; the branch name, row counts and index maintenance are left out.
-/

namespace Dagayn

/-- The graph database as an update and the freshness check read it. -/
structure GraphDb where
  files : FileTable := ∅
  gitHeadSha : Option String := none
  /-- The stamp under `extractor_versions`, split into its entries. -/
  extractorVersions : Dict String Nat := ∅
  /-- `last_updated` holds a timestamp. -/
  lastUpdated : Bool := false
  /-- The seeded-copy flag is `1`. -/
  seededNeedsVerify : Bool := false

/-- The store calls of an update; each may fail. -/
inductive DbStep where
  | start
  | classifyMtimes
  | remove
  | planMtimes
  | storeFull (chunk : Nat)
  | forcedMtimes
  | storeForced
  | checkedMtimes
  | storeChecked
  | storeUnowned
  | finish
deriving DecidableEq, Repr

namespace GraphDb

/-- `SELECT DISTINCT language FROM nodes`. -/
def languages (db : GraphDb) : List String := db.files.entries.flatMap fun e => e.2.languages

/-- One store call; without anything to write it does not start a transaction. -/
def write (db : GraphDb) (fails : DbStep → Bool) (step : DbStep)
    (ws : List (String × FileWrite)) : Except GraphDb GraphDb :=
  if ws = [] then .ok db
  else if fails step then .error db
  else .ok { db with files := db.files.writeAll ws }

end GraphDb

/-- `update_file_mtimes`. -/
def mtimeWrites (updates : List (String × Int)) : List (String × FileWrite) :=
  updates.map fun u => (u.1, .mtime u.2)

/-- `remove_files_data`. -/
def removeWrites (paths : List String) : List (String × FileWrite) :=
  paths.map fun p => (p, .rows none)

/-! ## Reading one file -/

structure CachedRustChangedFile where
  source : Bytes
  fileHash : String
  mtimeNs : Int

/-- What `changed_rust_owned_file_source` found. -/
inductive ChangedSource where
  | error (message : String)
  | mtimeOnly (mtimeNs : Int)
  | changed (entry : CachedRustChangedFile)

inductive ContentState where
  | unchanged
  | mtimeOnly (mtimeNs : Int)
  | changed
deriving DecidableEq, Repr

/-- What parsing one planned file came to. -/
inductive Parsed where
  | error (message : String)
  | mtimeOnly (mtimeNs : Int)
  | item (row : Option FileRow)

def mtimeMatches (v : FileView) (stored : Option FileRow) : Bool :=
  stored.any fun row => v.mtime = some row.mtimeNs

namespace Toolchain

variable (t : Toolchain)

def rowsOf (path : String) (entry : CachedRustChangedFile) : Option FileRow :=
  (t.rowLanguages path entry.source).map fun languages =>
    ⟨entry.fileHash, entry.mtimeNs, languages⟩

/-- `changed_rust_owned_file_source`: the hash decides, never the mtime. -/
def changedRustOwnedFileSource (stat read : FileView) (stored : Option FileRow) :
    ChangedSource :=
  match stat.mtime with
  | none => .error stat.ioError
  | some m =>
      match read.read with
      | none => .error read.ioError
      | some source =>
          if stored.any fun row => row.fileHash = t.sha256Hex source then .mtimeOnly m
          else .changed ⟨source, t.sha256Hex source, m⟩

/-- One file of `classify_changed_rust_owned_file_batch`. -/
def classifyChangedRustOwnedFile (w : History) (d : FileTable) (path : String) :
    ChangedSource :=
  match t.changedRustOwnedFileSource (w.at .classify .stat path) (w.at .classify .read path)
      (d.lookup path) with
  | .changed entry =>
      if t.ownsSource path entry.source then .changed entry
      else .error "unsupported Rust parser path"
  | found => found

/-- `content_state`: an unreadable file counts as changed, so the parse reports it. -/
def contentState (stat read : FileView) (stored : Option FileRow) (trustMtime : Bool) :
    ContentState :=
  match stat.mtime with
  | none => .changed
  | some m =>
      if trustMtime && stored.any fun row => row.mtimeNs = m then .unchanged
      else
        match read.read with
        | some source =>
            if stored.any fun row => row.fileHash = t.sha256Hex source then .mtimeOnly m
            else .changed
        | none => .changed

/-- One file of `collect_rust_owned_file_batch`. -/
def collectRustOwnedFile (w : History) (path : String) : Parsed :=
  match (w.at .parse .read path).read with
  | none => .error (w.at .parse .read path).ioError
  | some source =>
      if t.ownsSource path source then
        .item (t.rowsOf path
          ⟨source, t.sha256Hex source, (w.at .parse .stat path).mtime.getD 0⟩)
      else .error "unsupported Rust parser path"

/-- One file of `collect_unowned_file_batch`. -/
def collectUnownedFile (w : History) (path : String) : Parsed :=
  match (w.at .parse .read path).read with
  | none => .error (w.at .parse .read path).ioError
  | some source =>
      .item (t.rowsOf path
        ⟨source, t.sha256Hex source, (w.at .parse .stat path).mtime.getD 0⟩)

/-- The bytes to parse: the cached ones while the mtime has not moved since. -/
def changedEntry (w : History) (cached : Option CachedRustChangedFile)
    (stored : Option FileRow) (path : String) : ChangedSource :=
  match cached.filter fun entry => (w.at .parse .recheck path).mtime = some entry.mtimeNs with
  | some entry => .changed entry
  | none =>
      t.changedRustOwnedFileSource (w.at .parse .stat path) (w.at .parse .read path) stored

/-- One file of `collect_changed_rust_owned_file_batch`. -/
def collectChangedRustOwnedFile (w : History) (cached : Option CachedRustChangedFile)
    (stored : Option FileRow) (path : String) : Parsed :=
  match t.changedEntry w cached stored path with
  | .error message => .error message
  | .mtimeOnly m => .mtimeOnly m
  | .changed entry =>
      if t.ownsSource path entry.source then .item (t.rowsOf path entry)
      else .error "unsupported Rust parser path"

end Toolchain

/-! ## Scope -/

def indexedOnly (d : FileTable) (paths : List String) : List String :=
  paths.filter fun p => (d.lookup p).isSome

def staleScope (d : FileTable) (scope : List String) : List String :=
  pathSet (d.paths.filter (· ∉ scope))

namespace Toolchain

variable (t : Toolchain)

/-- `filter_candidates`: what is outside the scope is removed. -/
def filterCandidates (w : History) (phase : Phase) (scope paths : List String) :
    List String × List String :=
  let paths := pathSet paths
  let r := t.filterIncrementalCandidates (w.at phase .read ·) (w .ignorePatterns).ignored paths
  (r.1.filter (· ∈ scope), r.2 ++ paths.filter (· ∉ scope))

def outdatedExtractors (db : GraphDb) : List ExtractorVersion :=
  t.extractorVersions.filter fun e =>
    db.extractorVersions.getD e.extractor 0 ≠ e.version && e.languages.any (· ∈ db.languages)

def extractorVersionsStamp : Dict String Nat :=
  t.extractorVersions.foldl (fun d e => AList.insert e.extractor e.version d) ∅

/-- The files of `extractor_reparse_scope`. -/
def extractorReparseScope (w : History) (db : GraphDb) (scope : List String) : List String :=
  let owned := (t.outdatedExtractors db).flatMap ExtractorVersion.languages
  pathSet (scope.filter fun p =>
    (t.detectLanguage p (w.at .extractor .read p).read).any (· ∈ owned))

/-- One hop of `find_dependents` after another. -/
def dependentsFrom : Nat → List String → List String → List String → List String
  | 0, _, _, ordered => ordered
  | hops + 1, visited, frontier, ordered =>
      if frontier = [] then ordered
      else
        let next := pathSet ((t.directDependents frontier).filter (· ∉ visited))
        let ordered := ordered ++ next
        if 500 < ordered.length then ordered.take 500
        else dependentsFrom hops (visited ++ next) next ordered

def findDependents (roots : List String) : List String :=
  t.dependentsFrom t.dependentHops roots roots []

end Toolchain

/-! ## Classify -/

/-- What the first half of `run_pipeline` decided about the changed paths. -/
structure Classified where
  removed : List String
  cached : List (String × CachedRustChangedFile)
  mtimeUpdates : List (String × Int)
  mtimeOnly : List (String × Int)
  contentChanged : List String
  errors : List (String × String)

def Classified.rustContentChanged (c : Classified) : List String := c.cached.map Prod.fst

/-- The roots `find_dependents` starts from. -/
def Classified.roots (c : Classified) : List String := pathSet (c.removed ++ c.contentChanged)

namespace ChangedSource

def entry : ChangedSource → Option CachedRustChangedFile
  | .changed entry => some entry
  | _ => none

def mtimeUpdate : ChangedSource → Option Int
  | .mtimeOnly m => some m
  | _ => none

def message : ChangedSource → Option String
  | .error message => some message
  | _ => none

end ChangedSource

def ContentState.mtimeUpdate : ContentState → Option Int
  | .mtimeOnly m => some m
  | _ => none

def select {α β : Type} (f : α → Option β) (results : List (String × α)) :
    List (String × β) :=
  results.filterMap fun r => (f r.2).map (r.1, ·)

namespace Toolchain

variable (t : Toolchain)

def classify (w : History) (d : FileTable) (scope changed : List String) : Classified :=
  let candidates := t.filterCandidates w .filter scope changed
  let owned := candidates.1.filter fun p => t.owns (w.at .classify .owns p) p
  let unowned := candidates.1.filter fun p => !t.owns (w.at .classify .owns p) p
  let rust := owned.map fun p => (p, t.classifyChangedRustOwnedFile w d p)
  let other := unowned.map fun p =>
    (p, t.contentState (w.at .classify .stat p) (w.at .classify .read p) (d.lookup p) false)
  { removed := dedupe (indexedOnly d candidates.2 ++ staleScope d scope)
    cached := select ChangedSource.entry rust
    mtimeUpdates := select ChangedSource.mtimeUpdate rust
    mtimeOnly := select ContentState.mtimeUpdate other
    contentChanged := pathSet ((select ChangedSource.entry rust).map Prod.fst ++
      (other.filter fun r => r.2 = .changed).map Prod.fst)
    errors := select ChangedSource.message rust }

end Toolchain

/-! ## Plan -/

structure Plan where
  removed : List String
  mtimeOnly : List (String × Int)
  rustFull : List String
  rustForced : List String
  rustChecked : List String
  unowned : List String
  cached : List (String × CachedRustChangedFile)

def Plan.parseCount (plan : Plan) : Nat :=
  plan.rustFull.length + plan.rustForced.length + plan.rustChecked.length + plan.unowned.length

def Plan.cachedEntry (plan : Plan) (path : String) : Option CachedRustChangedFile :=
  (plan.cached.find? fun e => e.1 = path).map Prod.snd

namespace Toolchain

variable (t : Toolchain)

def replan (w : History) (d : FileTable) (scope : List String) (c : Classified) :
    List String × List String :=
  if t.findDependents c.roots = [] then (c.contentChanged.filter (· ∈ scope), c.removed)
  else
    let r := t.filterCandidates w .refilter scope
      (c.contentChanged ++ c.removed ++ t.findDependents c.roots)
    (r.1, dedupe (c.removed ++ indexedOnly d r.2))

def plan (w : History) (d : FileTable) (scope extractorFiles : List String) (c : Classified) :
    Plan :=
  let r := t.replan w d scope c
  let full := extractorFiles.filter (· ∉ c.contentChanged)
  let candidates := r.1.filter (· ∉ full)
  let owned := candidates.filter fun p => t.owns (w.at .plan .owns p) p
  let unowned := candidates.filter fun p => !t.owns (w.at .plan .owns p) p
  let other := unowned.map fun p =>
    (p, t.contentState (w.at .plan .stat p) (w.at .plan .read p) (d.lookup p)
      (p ∉ c.contentChanged))
  { removed := r.2
    mtimeOnly := c.mtimeOnly ++ select ContentState.mtimeUpdate other
    rustFull := full.filter fun p => t.owns (w.at .plan .owns p) p
    rustForced := owned.filter (· ∈ c.rustContentChanged)
    rustChecked := owned.filter fun p =>
      p ∉ c.rustContentChanged && !mtimeMatches (w.at .plan .stat p) (d.lookup p)
    unowned := (full.filter fun p => !t.owns (w.at .plan .owns p) p) ++
      (other.filter fun r => r.2 = .changed).map Prod.fst
    cached := c.cached }

end Toolchain

/-! ## Parse and store -/

namespace Parsed

def write : Parsed → Option FileWrite
  | .item row => some (.rows row)
  | _ => none

def mtimeUpdate : Parsed → Option Int
  | .mtimeOnly m => some m
  | _ => none

def message : Parsed → Option String
  | .error message => some message
  | _ => none

end Parsed

/-- `store_batch` over the chunks of the full re-parse. -/
def storeChunks (fails : DbStep → Bool) : Nat → List (List (String × Parsed)) → GraphDb →
    Except GraphDb GraphDb
  | _, [], db => .ok db
  | i, chunk :: chunks, db => do
      let db ← db.write fails (.storeFull i) (select Parsed.write chunk)
      storeChunks fails (i + 1) chunks db

namespace Toolchain

variable (t : Toolchain)

/-- `collect_changed_rust_owned_file_batch`. -/
def collectChanged (w : History) (plan : Plan) (d : FileTable) (paths : List String) :
    List (String × Parsed) :=
  paths.map fun p => (p, t.collectChangedRustOwnedFile w (plan.cachedEntry p) (d.lookup p) p)

def parsePlanned (w : History) (fails : DbStep → Bool) (plan : Plan) (db : GraphDb) :
    Except GraphDb (GraphDb × List (String × String)) := do
  let full := plan.rustFull.map fun p => (p, t.collectRustOwnedFile w p)
  let db ← storeChunks fails 0 (chunksOf 500 full) db
  let forced := t.collectChanged w plan db.files plan.rustForced
  let db ← db.write fails .forcedMtimes (mtimeWrites (select Parsed.mtimeUpdate forced))
  let db ← db.write fails .storeForced (select Parsed.write forced)
  let checked := t.collectChanged w plan db.files plan.rustChecked
  let db ← db.write fails .checkedMtimes (mtimeWrites (select Parsed.mtimeUpdate checked))
  let db ← db.write fails .storeChecked (select Parsed.write checked)
  let unowned := plan.unowned.map fun p => (p, t.collectUnownedFile w p)
  let db ← db.write fails .storeUnowned (select Parsed.write unowned)
  return (db, [full, forced, checked, unowned].flatMap (select Parsed.message))

end Toolchain

/-! ## The update -/

structure UpdateReport where
  filesUpdated : Nat := 0
  changedFiles : List String := []
  dependentFiles : List String := []
  errors : List (String × String) := []

def diffCoversGraphCommit (world : World) (db : GraphDb) (base : String) : Bool :=
  match resolveCommitSha world base with
  | none => false
  | some resolved =>
      match db.gitHeadSha with
      | some stored => stored = "" || stored = resolved
      | none => true

def storeVcsMetadata (world : World) (db : GraphDb) : GraphDb :=
  if world.vcs = .git ∧ world.head ≠ "" then { db with gitHeadSha := some world.head } else db

namespace Toolchain

variable (t : Toolchain)

/-- The changed paths from classification to parsing; the flag says whether any file
was parsed. -/
def updateChanged (w : History) (fails : DbStep → Bool) (db : GraphDb)
    (scope extractorFiles changed : List String) :
    Except GraphDb (GraphDb × UpdateReport × Bool) := do
  let c := t.classify w db.files scope changed
  let db ← db.write fails .classifyMtimes (mtimeWrites c.mtimeUpdates)
  let plan := t.plan w db.files scope extractorFiles c
  let dependents := t.findDependents c.roots
  let report : UpdateReport :=
    { filesUpdated :=
        (pathSet (c.contentChanged ++ c.removed ++ dependents ++ extractorFiles)).length
      changedFiles := changed, dependentFiles := dependents, errors := c.errors }
  let db ← db.write fails .remove (removeWrites plan.removed)
  let db ← db.write fails .planMtimes (mtimeWrites plan.mtimeOnly)
  if plan.parseCount = 0 then return (db, report, false)
  let (db, errors) ← t.parsePlanned w fails plan db
  return (db, { report with errors := report.errors ++ errors }, true)

/-- `run_pipeline` up to its last metadata. -/
def updateFiles (w : History) (fails : DbStep → Bool) (db : GraphDb) (changed : List String) :
    Except GraphDb (GraphDb × UpdateReport × Bool) := do
  if fails .start then throw db
  let scope := t.collectScope (w .listing)
  let extractorFiles := t.extractorReparseScope w db scope
  -- Nothing the outdated extractors own is indexed: only the stamp is stale.
  let db := if t.outdatedExtractors db ≠ [] ∧ extractorFiles = [] then
      { db with extractorVersions := t.extractorVersionsStamp } else db
  if changed = [] ∧ staleScope db.files scope = [] ∧ extractorFiles = [] then
    return (db, {}, false)
  t.updateChanged w fails db scope extractorFiles (expandChangedSubmodules w changed)

/-- The last metadata of `run_pipeline`, and `record_head_when_verified`. -/
def finish (w : History) (fails : DbStep → Bool) (covers parsed : Bool) (db : GraphDb) :
    Except GraphDb GraphDb :=
  if (parsed || covers) && fails .finish then .error db
  else
    let db := if parsed then
        { db with lastUpdated := true, extractorVersions := t.extractorVersionsStamp } else db
    .ok (if covers then storeVcsMetadata (w .stamp) db else db)

def runPipeline (w : History) (fails : DbStep → Bool) (db : GraphDb) (base : String)
    (changed : List String) : Except GraphDb (GraphDb × UpdateReport) := do
  let covers := diffCoversGraphCommit (w .resolve) db base
  let (db, report, parsed) ← t.updateFiles w fails db changed
  let db ← t.finish w fails covers parsed db
  return (db, report)

def incrementalUpdate (w : History) (fails : DbStep → Bool) (db : GraphDb) (base : String) :
    Except GraphDb (GraphDb × UpdateReport) :=
  match (w .start).vcs with
  | .jj | .svn => .error db
  | .git | .none => t.runPipeline w fails db base (changedFiles w base)

end Toolchain

end Dagayn
