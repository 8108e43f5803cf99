import Dagayn.Runs
import Dagayn.Dict

/-!
# The in-process reader/writer lock

`_RWThreadLock` of `write_lock.py`, with the threads that call it. The lock's own
fields are those of the source; what the source keeps in a `_Waiter` object's
`granted` flag is the list `granted` of waiters that have been taken off the
queue and whose thread has not run again yet. A thread runs one `acquire` at a
time, so a waiter is identified by its thread and mode (`Sys.Inv.waits`).

Every method runs under the condition variable, so each of these is one step:
the body of `acquire` up to its first `wait` (or its return), one turn of the
wait loop after a wake-up, and the body of `release`. Wake-ups are free: a
waiting thread may run at any time, notified or not, with any clock reading.
-/

namespace Dagayn

/-- `threading.get_ident()`. -/
abbrev Tid := Nat

/-- `_RWThreadLock._Waiter`, without its `granted` flag. -/
structure Waiter where
  tid : Tid
  exclusive : Bool
deriving DecidableEq, Repr

/-- The fields of `_RWThreadLock`, and the waiters whose `granted` flag is set. -/
structure RwLock where
  /-- `_shared`: thread id → number of shared holds. -/
  shared : Dict Tid Nat := ∅
  writerTid : Option Tid := none
  writerCount : Nat := 0
  /-- Waiters in arrival order. -/
  queue : List Waiter := []
  /-- `_stacks`: thread id → modes granted, newest last. -/
  modeStacks : Dict Tid (List Bool) := ∅
  granted : List Waiter := []

namespace RwLock

def stack (l : RwLock) (t : Tid) : List Bool := Dict.getD l.modeStacks t []

/-- The holds of one mode counted for a thread. -/
def holds (l : RwLock) (t : Tid) : Bool → Nat
  | true => if l.writerTid = some t then l.writerCount else 0
  | false => Dict.getD l.shared t 0

/-- Count one more hold; the accounting shared by `_take` and `_dispatch`. -/
def addHold (l : RwLock) (t : Tid) (exclusive : Bool) : RwLock :=
  if exclusive then
    { l with writerTid := some t, writerCount := l.writerCount + 1 }
  else
    { l with shared := l.shared.insert t (Dict.getD l.shared t 0 + 1) }

/-- Record a mode so that `release` knows what to undo. -/
def pushMode (l : RwLock) (t : Tid) (exclusive : Bool) : RwLock :=
  { l with modeStacks := l.modeStacks.insert t (l.stack t ++ [exclusive]) }

def take (l : RwLock) (t : Tid) (exclusive : Bool) : RwLock :=
  (l.addHold t exclusive).pushMode t exclusive

/-- What `_dispatch` asks of the head of the queue. A writer needs the field to
itself, except for its own shared hold, which the upgrade replaces. -/
def entitled (l : RwLock) (w : Waiter) : Bool :=
  if w.exclusive then
    l.writerTid.isNone && (l.shared.keys.filter (· ≠ w.tid)).isEmpty
  else l.writerTid.isNone

def grant (l : RwLock) (w : Waiter) : RwLock :=
  { l.addHold w.tid w.exclusive with granted := w :: l.granted }

/-- The loop of `_dispatch`, over the queue it consumes. -/
def dispatchLoop : List Waiter → RwLock → RwLock
  | [], l => { l with queue := [] }
  | w :: rest, l =>
      if l.entitled w then dispatchLoop rest (l.grant w)
      else { l with queue := w :: rest }

def dispatch (l : RwLock) : RwLock := dispatchLoop l.queue l

def drop (l : RwLock) (w : Waiter) : RwLock :=
  if w ∈ l.queue then ({ l with queue := l.queue.erase w }).dispatch else l

/-- How a turn of `acquire` ends. -/
inductive Poll where
  | acquired
  | failed
  | waiting
deriving DecidableEq, Repr

/-- One turn of the wait loop, with the clock reading it makes. -/
def poll (l : RwLock) (w : Waiter) (blocking : Bool) (deadline : Option Int) (now : Int) :
    RwLock × Poll :=
  if w ∈ l.granted then
    (({ l with granted := l.granted.erase w }).pushMode w.tid w.exclusive, .acquired)
  else if !blocking then (l.drop w, .failed)
  else
    match deadline with
    | some d => if d - now ≤ 0 then (l.drop w, .failed) else (l, .waiting)
    | none => (l, .waiting)

/-- The nesting test of `acquire`: a hold the thread already has never queues. -/
def nests (l : RwLock) (t : Tid) (exclusive : Bool) : Bool :=
  l.writerTid = some t || (decide (t ∈ l.shared) && !exclusive)

/-- A queued place: an upgrade jumps the queue. -/
def enqueue (l : RwLock) (w : Waiter) : RwLock :=
  if w.exclusive && decide (w.tid ∈ l.shared) then { l with queue := w :: l.queue }
  else { l with queue := l.queue ++ [w] }

/-- `acquire`, up to its return or its first `wait`. -/
def acquire (l : RwLock) (t : Tid) (exclusive blocking : Bool) (deadline : Option Int)
    (now : Int) : RwLock × Poll :=
  if l.nests t exclusive then (l.take t exclusive, .acquired)
  else ((l.enqueue ⟨t, exclusive⟩).dispatch).poll ⟨t, exclusive⟩ blocking deadline now

def dropHold (l : RwLock) (t : Tid) (exclusive : Bool) : RwLock :=
  if exclusive then
    if l.writerCount - 1 = 0 then { l with writerCount := 0, writerTid := none }
    else { l with writerCount := l.writerCount - 1 }
  else
    if 0 < Dict.getD l.shared t 0 - 1 then
      { l with shared := l.shared.insert t (Dict.getD l.shared t 0 - 1) }
    else { l with shared := l.shared.erase t }

def popMode (l : RwLock) (t : Tid) : RwLock :=
  { l with modeStacks :=
      if (l.stack t).dropLast = [] then l.modeStacks.erase t
      else l.modeStacks.insert t (l.stack t).dropLast }

def release (l : RwLock) (t : Tid) : Except String RwLock :=
  match (l.stack t).getLast? with
  | none => .error "release of a graph lock this thread does not hold"
  | some exclusive => .ok ((l.popMode t).dropHold t exclusive).dispatch

end RwLock

/-! ## The threads -/

/-- A thread inside `acquire`'s wait loop. -/
structure Blocked where
  waiter : Waiter
  deadline : Option Int
deriving DecidableEq, Repr

/-- A lock and the threads waiting in it. -/
structure RwSys where
  lock : RwLock := {}
  blocked : Dict Tid Blocked := ∅

/-- `timeout` and the clock are in ticks; `start` is the clock reading that fixes
the deadline, `now` the reading of the loop's turn. -/
inductive RwAct where
  | acquire (t : Tid) (exclusive blocking : Bool) (timeout start now : Int)
  | wake (t : Tid) (now : Int)
  | release (t : Tid)
deriving DecidableEq, Repr

def RwAct.tid : RwAct → Tid
  | .acquire t .. => t
  | .wake t _ => t
  | .release t => t

/-- What the calling thread sees of a step. -/
inductive RwOut where
  | poll (p : RwLock.Poll)
  | released
  | raised (message : String)
deriving DecidableEq, Repr

/-- `deadline` of `acquire`. -/
def deadlineOf (blocking : Bool) (timeout start : Int) : Option Int :=
  if blocking && decide (0 < timeout) then some (start + timeout) else none

namespace RwSys

/-- Where a turn of `acquire` leaves the thread. -/
def settle (s : RwSys) (b : Blocked) (r : RwLock × RwLock.Poll) : RwSys :=
  { lock := r.1
    blocked := match r.2 with
      | .waiting => s.blocked.insert b.waiter.tid b
      | _ => s.blocked.erase b.waiter.tid }

/-- One step. A thread in the wait loop can only wake. -/
def exec (s : RwSys) : RwAct → Option (RwOut × RwSys)
  | .acquire t exclusive blocking timeout start now =>
      if t ∈ s.blocked then none
      else
        let d := deadlineOf blocking timeout start
        let r := s.lock.acquire t exclusive blocking d now
        some (.poll r.2, s.settle ⟨⟨t, exclusive⟩, d⟩ r)
  | .wake t now =>
      match s.blocked.lookup t with
      | none => none
      | some b =>
          let r := s.lock.poll b.waiter true b.deadline now
          some (.poll r.2, s.settle b r)
  | .release t =>
      if t ∈ s.blocked then none
      else
        match s.lock.release t with
        | .error e => some (.raised e, s)
        | .ok l => some (.released, { s with lock := l })

def step (s : RwSys) (a : RwAct) : Option RwSys := (s.exec a).map Prod.snd

/-- The states of the lock under any interleaving of its callers. -/
def Reachable : RwSys → Prop := Reach (· = {}) step anyStep

end RwSys

end Dagayn
