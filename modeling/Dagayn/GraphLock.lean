import Dagayn.RwLock

/-!
# The graph lock of one database

`acquire_graph_lock` and `release_graph_lock` of `write_lock.py` for one database
key, stepped at the granularity the source gives them: one step is a turn of the
thread lock, a critical section of `_registry_lock`, or one OS call on the lock
file. Between two steps of a thread any other thread may run.

The state has the four pieces the source keeps: the thread lock (`RwSys`), the
registry entry `_file_locks[key]` (`fileLock`), the lock file's open descriptions
with the `flock` each carries (`handles`), and the point every thread has reached
inside a call (`pc`). `held` records, per thread, the modes of the acquires that
have returned and whose release has not been called yet.

Other processes show up in the result of a `flock` call, which is free except
that a lock is never given against another open description of this process. The
branch for a platform without `fcntl` has no file lock to speak of and is left
out, and so are exceptions raised into a thread from outside.
-/

namespace Dagayn

/-- The parameters of an acquire that are looked at after the thread lock is
taken: `timed` says that a deadline was given (`timeout > 0`). -/
structure Call where
  exclusive : Bool
  blocking : Bool
  timed : Bool
deriving DecidableEq, Repr

/-- Where a thread is inside `acquire_graph_lock` or `release_graph_lock`. The
number is the file handle the local variable `handle` refers to. -/
inductive Pc where
  | idle
  /-- In the wait loop of the thread lock. -/
  | threadWait (c : Call)
  /-- At the registry check of `_flock_acquire`. -/
  | flockStart (c : Call)
  /-- `_flock_release_then_exclusive`: before `LOCK_UN`. -/
  | upgradeUnlock (c : Call) (h : Nat)
  /-- In the exclusive `_flock_wait` of an upgrade. -/
  | upgradeWait (c : Call) (h : Nat)
  /-- In the shared `_flock_wait` that follows a failed upgrade. -/
  | upgradeRestore (c : Call) (h : Nat)
  /-- At the `_write_pid` of an upgrade. -/
  | upgradePid (c : Call) (h : Nat)
  /-- Before popping the mode of a failed upgrade. -/
  | upgradeUndo (c : Call)
  /-- Found no registry entry; before opening the lock file. -/
  | opening (c : Call)
  | openWait (c : Call) (h : Nat)
  /-- Before registering the new handle. -/
  | openRegister (c : Call) (h : Nat)
  /-- Before giving the thread lock back and raising. -/
  | acquireFail (c : Call)
  /-- `_flock_release`, last mode popped: before `LOCK_UN`. -/
  | relUnlock (h : Nat)
  | relClose (h : Nat)
  /-- `_flock_release`, no exclusive mode left: before `LOCK_SH`. -/
  | relDowngrade (h : Nat)
  /-- Before the thread lock's `release`. -/
  | relThread
deriving DecidableEq, Repr

def Pc.handle : Pc → Option Nat
  | .upgradeUnlock _ h => some h
  | .upgradeWait _ h => some h
  | .upgradeRestore _ h => some h
  | .upgradePid _ h => some h
  | .openWait _ h => some h
  | .openRegister _ h => some h
  | .relUnlock h => some h
  | .relClose h => some h
  | .relDowngrade h => some h
  | _ => none

/-- Between finding no registry entry and registering one. -/
def Pc.isOpening : Pc → Bool
  | .opening _ => true
  | .openWait _ _ => true
  | .openRegister _ _ => true
  | _ => false

/-- Between an upgrade's `LOCK_UN` and its new lock. -/
def Pc.inWindow : Pc → Bool
  | .upgradeWait _ _ => true
  | .upgradeRestore _ _ => true
  | _ => false

structure HeldFileLock where
  handle : Nat
  modes : List Bool
deriving DecidableEq, Repr

structure GraphLock where
  rw : RwSys := {}
  /-- `_file_locks[key]`. -/
  fileLock : Option HeldFileLock := none
  /-- Open descriptions of the lock file and the mode of the `flock` on each. -/
  handles : Dict Nat (Option Bool) := ∅
  nextHandle : Nat := 0
  pc : Dict Tid Pc := ∅
  held : Dict Tid (List Bool) := ∅

/-- What the kernel answers to a `flock` call; `expired` tells whether the
caller's deadline has passed by then. -/
inductive FlockResult where
  | locked
  | wouldBlock (expired : Bool)
  | osError
deriving DecidableEq, Repr

inductive GlAct where
  | acquire (t : Tid) (exclusive blocking : Bool) (timeout start now : Int)
  | wake (t : Tid) (now : Int)
  | check (t : Tid)
  | openFile (t : Tid) (opens : Bool)
  | flock (t : Tid) (r : FlockResult)
  | writePid (t : Tid)
  | register (t : Tid)
  | undo (t : Tid)
  | release (t : Tid)
  | close (t : Tid)
  | threadRelease (t : Tid)
  /-- A handle nothing refers to any more is closed by the garbage collector. -/
  | collect (h : Nat)
deriving DecidableEq, Repr

/-- The `flock` call made here does not leave its caller without the lock it goes
on to rely on. -/
def Pc.serialized (p : Pc) (r : FlockResult) : Bool :=
  match p with
  | .upgradeWait c _ | .openWait c _ => !c.blocking || r ≠ .osError
  | .upgradeRestore _ _ => r ≠ .osError && r ≠ .wouldBlock true
  | _ => true

namespace GraphLock

def pcOf (s : GraphLock) (t : Tid) : Pc := Dict.getD s.pc t .idle

def heldOf (s : GraphLock) (t : Tid) : List Bool := Dict.getD s.held t []

@[simps]
def setPc (s : GraphLock) (t : Tid) (p : Pc) : GraphLock :=
  { s with pc := s.pc.insert t p }

@[simps]
def setFlock (s : GraphLock) (h : Nat) (mode : Option Bool) : GraphLock :=
  { s with handles := s.handles.insert h mode }

/-- `lock_file_path.open("a+")`. -/
@[simps]
def newHandle (s : GraphLock) : GraphLock :=
  { s with handles := s.handles.insert s.nextHandle none, nextHandle := s.nextHandle + 1 }

@[simps]
def closeHandle (s : GraphLock) (h : Nat) : GraphLock :=
  { s with handles := s.handles.erase h }

@[simps]
def setFileLock (s : GraphLock) (f : Option HeldFileLock) : GraphLock :=
  { s with fileLock := f }

@[simps]
def setRw (s : GraphLock) (rw : RwSys) : GraphLock := { s with rw := rw }

@[simps]
def setHeld (s : GraphLock) (t : Tid) (modes : List Bool) : GraphLock :=
  { s with held := s.held.insert t modes }

def finish (s : GraphLock) (t : Tid) (exclusive : Bool) : GraphLock :=
  (s.setHeld t (s.heldOf t ++ [exclusive])).setPc t .idle

/-- No other open description of this process stands against the lock. -/
def canLock (s : GraphLock) (h : Nat) (exclusive : Bool) : Bool :=
  s.handles.entries.all fun e =>
    e.1 = h || e.2 = none || (!exclusive && e.2 = some false)

def afterThread (s : GraphLock) (t : Tid) (c : Call) (rw : RwSys) : RwLock.Poll → GraphLock
  | .acquired => (s.setRw rw).setPc t (.flockStart c)
  | .failed => (s.setRw rw).setPc t .idle
  | .waiting => (s.setRw rw).setPc t (.threadWait c)

/-- `_flock_acquire`, its first critical section. -/
def check (s : GraphLock) (t : Tid) (c : Call) : GraphLock :=
  match s.fileLock with
  | some f =>
      let s' := s.setFileLock (some { f with modes := f.modes ++ [c.exclusive] })
      if c.exclusive && !f.modes.any id then s'.setPc t (.upgradeUnlock c f.handle)
      else s'.finish t c.exclusive
  | none => s.setPc t (.opening c)

/-- Does `_flock_wait` give up on `BlockingIOError`? -/
def givesUp (c : Call) (expired : Bool) : Bool := !c.blocking || (c.timed && expired)

/-- One `flock` call, by the point the thread has reached. On a closed handle
`fileno` raises `ValueError`. -/
def flock (s : GraphLock) (t : Tid) (r : FlockResult) : Option GraphLock :=
  match s.pcOf t with
  | .upgradeUnlock c h =>
      if h ∈ s.handles then
        match r with
        | .locked => some ((s.setFlock h none).setPc t (.upgradeWait c h))
        | .wouldBlock _ => none
        | .osError => some (s.setPc t (.upgradeUndo c))
      else some (s.setPc t (.upgradeUndo c))
  | .upgradeWait c h =>
      if h ∈ s.handles then
        match r with
        | .locked =>
            if s.canLock h true then
              some ((s.setFlock h (some true)).setPc t (.upgradePid c h))
            else none
        | .wouldBlock e =>
            if givesUp c e then some (s.setPc t (.upgradeRestore c h)) else some s
        | .osError =>
            if c.blocking then some (s.setPc t (.upgradePid c h))
            else some (s.setPc t (.upgradeRestore c h))
      else some (s.setPc t (.upgradeRestore c h))
  | .upgradeRestore c h =>
      if h ∈ s.handles then
        match r with
        | .locked =>
            if s.canLock h false then
              some ((s.setFlock h (some false)).setPc t (.upgradeUndo c))
            else none
        | .wouldBlock e => if e then some (s.setPc t (.upgradeUndo c)) else some s
        | .osError => some (s.setPc t (.upgradeUndo c))
      else some (s.setPc t (.upgradeUndo c))
  | .openWait c h =>
      match r with
      | .locked =>
          if s.canLock h c.exclusive then
            some ((s.setFlock h (some c.exclusive)).setPc t (.openRegister c h))
          else none
      | .wouldBlock e =>
          if givesUp c e then some ((s.closeHandle h).setPc t (.acquireFail c)) else some s
      | .osError =>
          if c.blocking then some (s.setPc t (.openRegister c h))
          else some ((s.closeHandle h).setPc t (.acquireFail c))
  | .relUnlock h =>
      if h ∈ s.handles then
        match r with
        | .locked => some ((s.setFlock h none).setPc t (.relClose h))
        | .wouldBlock _ => none
        | .osError => some (s.setPc t (.relClose h))
      else some (s.setPc t (.relClose h))
  | .relDowngrade h =>
      if h ∈ s.handles then
        match r with
        | .locked =>
            if s.canLock h false then some ((s.setFlock h (some false)).setPc t .relThread)
            else none
        | .wouldBlock _ => some s
        | .osError => some (s.setPc t .relThread)
      else some (s.setPc t .relThread)
  | _ => none

/-- `_flock_release`, its critical section. -/
def flockRelease (s : GraphLock) (t : Tid) : GraphLock :=
  match s.fileLock with
  | none => s.setPc t .relThread
  | some f =>
      if f.modes = [] then s.setPc t .relThread
      else if f.modes.dropLast = [] then
        (s.setFileLock none).setPc t (.relUnlock f.handle)
      else
        let s' := s.setFileLock (some { f with modes := f.modes.dropLast })
        if f.modes.dropLast.any id then s'.setPc t .relThread
        else s'.setPc t (.relDowngrade f.handle)

/-- Is a handle still referred to by the registry or by a thread's locals? -/
def isReferenced (s : GraphLock) (h : Nat) : Bool :=
  s.fileLock.any (·.handle = h) || s.pc.entries.any fun e => e.2.handle = some h

def step (s : GraphLock) : GlAct → Option GraphLock
  | .acquire t exclusive blocking timeout start now =>
      if s.pcOf t = .idle then
        match s.rw.exec (.acquire t exclusive blocking timeout start now) with
        | some (.poll p, rw) =>
            some (s.afterThread t ⟨exclusive, blocking, decide (0 < timeout)⟩ rw p)
        | _ => none
      else none
  | .wake t now =>
      match s.pcOf t with
      | .threadWait c =>
          match s.rw.exec (.wake t now) with
          | some (.poll p, rw) => some (s.afterThread t c rw p)
          | _ => none
      | _ => none
  | .check t =>
      match s.pcOf t with
      | .flockStart c => some (s.check t c)
      | _ => none
  | .openFile t opens =>
      match s.pcOf t with
      | .opening c =>
          if opens then
            some (s.newHandle.setPc t (.openWait c s.nextHandle))
          else some (s.setPc t (.acquireFail c))
      | _ => none
  | .flock t r => s.flock t r
  | .writePid t =>
      match s.pcOf t with
      | .upgradePid c h =>
          if h ∈ s.handles then some (s.finish t c.exclusive)
          else some (s.setPc t (.upgradeUndo c))
      | _ => none
  | .register t =>
      match s.pcOf t with
      | .openRegister c h =>
          some ((s.setFileLock (some ⟨h, [c.exclusive]⟩)).finish t c.exclusive)
      | _ => none
  | .undo t =>
      match s.pcOf t with
      | .upgradeUndo c =>
          let popped := s.fileLock.map fun f => { f with modes := f.modes.dropLast }
          some ((s.setFileLock popped).setPc t (.acquireFail c))
      | _ => none
  | .release t =>
      if s.pcOf t = .idle then
        some ((s.setHeld t (s.heldOf t).dropLast).flockRelease t)
      else none
  | .close t =>
      match s.pcOf t with
      | .relClose h => some ((s.closeHandle h).setPc t .relThread)
      | _ => none
  | .threadRelease t =>
      match s.pcOf t with
      | .acquireFail _ | .relThread =>
          match s.rw.exec (.release t) with
          | some (_, rw) => some ((s.setRw rw).setPc t .idle)
          | none => none
      | _ => none
  | .collect h =>
      if s.isReferenced h then none else some (s.closeHandle h)

/-- The states of the lock under any interleaving of its callers. -/
def Reachable : GraphLock → Prop := Reach (· = {}) step anyStep

/-- The process holds the lock file's OS lock in at least this mode. -/
def FlockHeld (s : GraphLock) (exclusive : Bool) : Prop :=
  ∃ h mode, s.handles.lookup h = some (some mode) ∧ (exclusive = true → mode = true)

/-- The steps of a well-used lock on a working file system: a release has a
matching acquire, a blocking `flock` does not end in an `OSError` (the source then
goes on unserialized), a failed upgrade gets its shared lock back, and a registry
check does not find the entry missing while another thread is about to add it. -/
def orderly (s : GraphLock) : GlAct → Prop
  | .release t => s.heldOf t ≠ []
  | .flock t r => (s.pcOf t).serialized r = true
  | .check t =>
      s.fileLock = none → ∀ u ∈ s.pc.keys, u ≠ t → (s.pcOf u).isOpening = false
  | _ => True

instance : ∀ (s : GraphLock) (a : GlAct), Decidable (s.orderly a)
  | s, .release t => inferInstanceAs (Decidable (s.heldOf t ≠ []))
  | s, .flock t r => inferInstanceAs (Decidable ((s.pcOf t).serialized r = true))
  | s, .check t => inferInstanceAs (Decidable
      (s.fileLock = none → ∀ u ∈ s.pc.keys, u ≠ t → (s.pcOf u).isOpening = false))
  | _, .acquire .. | _, .wake .. | _, .openFile .. | _, .writePid _ | _, .register _
  | _, .undo _ | _, .close _ | _, .threadRelease _ | _, .collect _ =>
      inferInstanceAs (Decidable True)

end GraphLock
end Dagayn
