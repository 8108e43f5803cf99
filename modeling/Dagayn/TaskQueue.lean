import Dagayn.Runs
import Dagayn.Dict
import Dagayn.Json
import Mathlib

/-!
# The task queue

The repository's task queue: the `tasks` table, its two producers
(`TaskQueue.enqueue` in Python, `task_queue::enqueue` in Rust) and the worker that
drains it (`claim`, `complete`, `fail`, `requeue_stale`). Each of these is one
SQLite transaction, hence one step.

A worker holds the worker lock for its whole life, so there is at most one
(`worker`), and it has at most one task in hand. Its budget watchdog is a thread
of its own: once it has fired (`firing`) it records the overrun at some later
moment, even if the worker has meanwhile finished the task, taken another, or let
go of the lock. A worker may also simply vanish (`exit`).

`requests`, `completed` and the clock `time` are bookkeeping for the statement of
what the queue guarantees: which calls to `enqueue` have succeeded, and which
executions have been completed, with the moment of their claim.
-/

namespace Dagayn

/-! ## Payloads -/

namespace Json

/-- Python's `str`, with `repr` for the values whose text is a matter of its own. -/
def pyStr (repr : Json → String) : Json → String
  | .null => "None"
  | .bool b => if b then "True" else "False"
  | .int n => toString n
  | .str s => s
  | v => repr v

/-- `str(path)` in `path_list`; the port refuses what it would not print alike, and
reads an integer beyond 64 bits as a float. -/
def rsStr : Json → Option String
  | .null => some "None"
  | .bool b => some (if b then "True" else "False")
  | .int n => if -2 ^ 63 ≤ n ∧ n < 2 ^ 64 then some (toString n) else none
  | .str s => some s
  | _ => none

end Json

/-- `TASK_KINDS`. -/
inductive Kind where
  | update
  | embed
  | postprocess
  | prepare
deriving DecidableEq, Repr

/-- `DEFAULT_PRIORITIES`; `default_priority` in the Rust port. -/
def Kind.defaultPriority : Kind → Int
  | .update => 10
  | .embed => 0
  | .postprocess => 0
  | .prepare => 10

abbrev Payload := Dict String Json

namespace Payload

/-- Truthiness of `payload.get("skip_structure")`. -/
def skipStructure (p : Payload) : Bool := ((p.lookup "skip_structure").map Json.truthy).getD false

/-- `payload.get("files")` when it is a list. -/
def fileList (p : Payload) : Option (List Json) := (p.lookup "files").bind Json.asList

/-- `{**old, **new}`. -/
def overlay (old new : Payload) : Payload :=
  new.entries.foldr (fun e acc => acc.insert e.1 e.2) old

/-- `_merge_payloads`. -/
def mergePy (repr : Json → String) (kind : Kind) (old new : Payload) : Payload :=
  let merged := overlay old new
  if kind ≠ .embed then merged
  else
    let merged := if old.skipStructure && new.skipStructure then merged
      else merged.erase "skip_structure"
    match old.fileList, new.fileList with
    | some oldFiles, some newFiles =>
        let names := ((oldFiles ++ newFiles).map (Json.pyStr repr)).dedup.insertionSort (· ≤ ·)
        merged.insert "files" (.arr (names.map .str))
    | _, _ => merged.erase "files"

/-- `path_list`: `none` is an error, `some none` is not a list. -/
def pathList (p : Payload) : Option (Option (List String)) :=
  match p.fileList with
  | none => some none
  | some items => (items.mapM Json.rsStr).map some

/-- `merge_payloads` of the Rust port; `none` is `QueueError::Payload`. -/
def mergeRs (kind : Kind) (old new : Payload) : Option Payload :=
  let merged := overlay old new
  if kind ≠ .embed then some merged
  else
    let merged := if old.skipStructure && new.skipStructure then merged
      else merged.erase "skip_structure"
    match old.pathList, new.pathList with
    | some (some oldFiles), some (some newFiles) =>
        let names := ((oldFiles ++ newFiles).insertionSort (· ≤ ·)).dedup
        some (merged.insert "files" (.arr (names.map .str)))
    | some _, some _ => some (merged.erase "files")
    | _, _ => none

end Payload

/-! ## The table and the worker -/

inductive TaskState where
  | pending
  | running
  | dead
deriving DecidableEq, Repr

/-- A row of `tasks`, and the moment of its last claim. -/
structure TaskRow where
  id : Nat
  kind : Kind
  priority : Int
  payload : Payload
  state : TaskState
  attempts : Nat
  notBefore : Int
  claimedAt : Nat

/-- The task dictionary `claim` returns. -/
structure Task where
  id : Nat
  kind : Kind
  payload : Payload
  attempts : Nat
  claimedAt : Nat

def maxAttempts : Nat := 3

/-- A successful `enqueue`. -/
structure Request where
  kind : Kind
  payload : Payload
  time : Nat

structure TaskQueue where
  rows : List TaskRow := []
  /-- The holder of the worker lock and the task it has in hand. -/
  worker : Option (Option Task) := none
  /-- Watchdogs that have fired and not yet recorded their task's overrun. -/
  firing : List Task := []
  requests : List Request := []
  completed : List Task := []
  time : Nat := 0

inductive QueueAct where
  | enqueuePy (kind : Kind) (payload : Payload) (priority : Option Int)
  | enqueueRs (kind : Kind) (payload : Payload)
  | start
  | requeueStale
  | claim (now : Int)
  | complete
  | fail (fatal : Bool) (now delay : Int)
  | expire
  | overrun (task : Nat) (now delay : Int)
  | exit

namespace TaskQueue

def setRow (q : TaskQueue) (id : Nat) (f : TaskRow → TaskRow) : TaskQueue :=
  { q with rows := q.rows.map fun r => if r.id = id then f r else r }

/-- The pending row of a kind that `SELECT … WHERE kind = ? AND state = 'pending'`
returns first. -/
def twin (q : TaskQueue) (kind : Kind) : Option TaskRow :=
  q.rows.find? fun r => r.kind = kind && r.state = .pending

/-- An `INTEGER PRIMARY KEY` without `AUTOINCREMENT`: one more than the largest. -/
def nextId (q : TaskQueue) : Nat := (q.rows.map TaskRow.id).foldr max 0 + 1

/-- The write of `enqueue`, given how payloads are merged. -/
def enqueue (q : TaskQueue) (kind : Kind) (payload : Payload) (priority : Int)
    (merge : Payload → Option Payload) : Option TaskQueue :=
  let q' := { q with requests := ⟨kind, payload, q.time⟩ :: q.requests }
  match q.twin kind with
  | some r =>
      (merge r.payload).map fun merged =>
        q'.setRow r.id fun r => { r with payload := merged, priority := max r.priority priority }
  | none =>
      some { q' with rows := q.rows ++
        [⟨q.nextId, kind, priority, payload, .pending, 0, 0, 0⟩] }

/-- `ORDER BY priority DESC, id ASC LIMIT 1` over the claimable rows; rows are kept
in the order of their ids. -/
def nextClaim (now : Int) : List TaskRow → Option TaskRow
  | [] => none
  | r :: rest =>
      match nextClaim now rest with
      | none => if r.state = .pending && r.notBefore ≤ now then some r else none
      | some b =>
          if r.state = .pending && r.notBefore ≤ now && b.priority ≤ r.priority then some r
          else some b

def claim (q : TaskQueue) (now : Int) : TaskQueue :=
  match nextClaim now q.rows with
  | none => q
  | some r =>
      let task : Task := ⟨r.id, r.kind, r.payload, r.attempts + 1, q.time⟩
      { q.setRow r.id fun r =>
          { r with state := .running, attempts := r.attempts + 1, claimedAt := q.time } with
        worker := some (some task) }

/-- `complete`: only a running row is dropped. -/
def complete (q : TaskQueue) (task : Task) : TaskQueue :=
  { q with
    rows := q.rows.filter fun r => !(r.id = task.id && r.state = .running)
    completed := task :: q.completed }

/-- `fail`: the row is found by its id alone. -/
def fail (q : TaskQueue) (task : Task) (fatal : Bool) (now delay : Int) : TaskQueue :=
  if fatal || maxAttempts ≤ task.attempts then
    q.setRow task.id fun r => { r with state := .dead }
  else
    q.setRow task.id fun r => { r with state := .pending, notBefore := now + max 0 delay }

def requeueStale (q : TaskQueue) : TaskQueue :=
  { q with rows := q.rows.map fun r =>
      if r.state = .running then
        if maxAttempts ≤ r.attempts then { r with state := .dead }
        else { r with state := .pending }
      else r }

/-- One transaction, or one step of the worker between them. -/
def act (repr : Json → String) (q : TaskQueue) : QueueAct → Option TaskQueue
  | .enqueuePy kind payload priority =>
      q.enqueue kind payload (priority.getD kind.defaultPriority)
        fun old => some (Payload.mergePy repr kind old payload)
  | .enqueueRs kind payload =>
      q.enqueue kind payload kind.defaultPriority fun old => Payload.mergeRs kind old payload
  | .start =>
      match q.worker with
      | none => some { q with worker := some none }
      | some _ => none
  | .requeueStale =>
      match q.worker with
      | none => none
      | some _ => some q.requeueStale
  | .claim now =>
      match q.worker with
      | some none => some (q.claim now)
      | _ => none
  | .complete =>
      match q.worker with
      | some (some task) => some { q.complete task with worker := some none }
      | _ => none
  | .fail fatal now delay =>
      match q.worker with
      | some (some task) => some { q.fail task fatal now delay with worker := some none }
      | _ => none
  | .expire =>
      match q.worker with
      | some (some task) => some { q with firing := task :: q.firing }
      | _ => none
  | .overrun task now delay =>
      match q.firing[task]? with
      | some t => some { q.fail t false now delay with firing := q.firing.eraseIdx task }
      | none => none
  | .exit => some { q with worker := none }

def step (repr : Json → String) (q : TaskQueue) (a : QueueAct) : Option TaskQueue :=
  (q.act repr a).map fun q' => { q' with time := q.time + 1 }

def Reachable (repr : Json → String) : TaskQueue → Prop := Reach (· = {}) (step repr) anyStep

/-! ## Coverage -/

/-- The request's files, by name; `none` is the whole corpus. -/
def fileNames (repr : Json → String) (p : Payload) : Option (List String) :=
  p.fileList.map (List.map (Json.pyStr repr))

/-- Executing `kind` with `payload` does the work of the request. -/
def Covers (repr : Json → String) (kind : Kind) (payload : Payload) (r : Request) : Prop :=
  kind = r.kind ∧ (kind = .embed →
    (fileNames repr payload = none ∨ ∃ have_ want, fileNames repr payload = some have_ ∧
      fileNames repr r.payload = some want ∧ ∀ f ∈ want, f ∈ have_) ∧
    (payload.skipStructure = true → r.payload.skipStructure = true))

/-- The request's work is pending, running since a claim after it, dead, or done
by an execution claimed after it. -/
def Covered (repr : Json → String) (q : TaskQueue) (r : Request) : Prop :=
  (∃ row ∈ q.rows, row.state = .pending ∧ Covers repr row.kind row.payload r) ∨
  (∃ row ∈ q.rows, row.state = .running ∧ r.time < row.claimedAt ∧
    Covers repr row.kind row.payload r) ∨
  (∃ task ∈ q.completed, r.time < task.claimedAt ∧ Covers repr task.kind task.payload r) ∨
  ∃ row ∈ q.rows, row.state = .dead ∧ Covers repr row.kind row.payload r

end TaskQueue

end Dagayn
