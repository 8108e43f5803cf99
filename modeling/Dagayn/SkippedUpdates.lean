import Dagayn.TaskQueue

/-!
# Updates the worker skips

`_execute_update` does not wait for the graph's write lock: when it is busy, or
when hook updates are suspended because the last one died of budget overruns, it
returns a note and `run_worker` completes the task, relying on whoever holds the
lock to index the same edits. This module puts the queue, the worker, the lock and
the files side by side.

A file is known by how often it was edited, and its rows by the edit they were read
after, so that an edit is in the graph when the file's rows are at least as new.
Whoever holds the lock lists the files it will index, reads them one at a time,
stores what it read in any order, and releases the lock when nothing is left to
read or store; which files git reports to an update is not at issue here, so an
update lists those whose rows are older than the file. Edits and enqueues happen
between any two of these steps.

`enqueued` and `skips` are bookkeeping: the edits each call of `enqueue` announced,
and the tasks completed on the strength of a skip note.
-/

namespace Dagayn

/-- What a holder of the write lock indexes. -/
inductive Work where
  /-- `full_build`: every file. -/
  | build
  /-- `incremental_update`: the files changed since they were indexed. -/
  | update
  /-- Embeddings and post-processing: no file. -/
  | other
deriving DecidableEq, Repr

/-- A process that holds the write lock. -/
structure GraphRun where
  id : Nat
  /-- The queue worker's own update. -/
  worker : Bool
  work : Work
  /-- The files still to be read, once they have been listed. -/
  unread : Option (List String) := none
  /-- What was read and is not stored yet, with the edit it was read after. -/
  parsed : List (String × Nat) := []

/-- What `_execute_update` has returned. -/
inductive UpdateNote where
  /-- The graph was updated, or `.dagayn/hook-skip` disables hook updates. -/
  | settled
  /-- The lock was busy or the queue suspended; the run that held the lock then. -/
  | skipped (holder : Option Nat)
deriving DecidableEq, Repr

/-- The columns `last_error` and `updated_at` of a task. -/
structure Mark where
  lastError : String := ""
  updatedAt : Int := 0

/-- A task completed after a skip: who held the lock, the edits enqueued before its
claim, and whether an update task was left pending. -/
structure Skip where
  holder : Option Nat
  edits : List (String → Nat)
  pending : Bool

/-- The files, their rows and the write lock. -/
structure Files where
  paths : List String := []
  tree : String → Nat := fun _ => 0
  graph : String → Nat := fun _ => 0
  run : Option GraphRun := none
  /-- Processes that hold the lock shared. -/
  readers : Nat := 0
  runs : Nat := 0
  finished : List Nat := []

inductive FilesAct where
  | edit (path : String)
  | acquire (worker : Bool) (work : Work)
  | list
  | read (path : String)
  | store (path : String)
  | finish
  /-- The holder fails or dies: the lock is free and nothing more is stored. -/
  | drop
  | share
  | unshare
deriving DecidableEq

structure UpdateSys where
  queue : TaskQueue := {}
  marks : Nat → Mark := fun _ => {}
  note : Option UpdateNote := none
  /-- `.dagayn/hook-skip` exists. -/
  hookSkip : Bool := false
  files : Files := {}
  /-- The graph's `last_updated`. -/
  lastUpdated : Option Int := none
  enqueued : List (Nat × (String → Nat)) := []
  skips : List Skip := []

inductive UpdateAct where
  | files (a : FilesAct) (now : Int)
  | queue (a : QueueAct) (now : Int) (error : String)
  | execute (now : Int)
  | setHookSkip (disabled : Bool)

def budgetExceededNote : String := "budget exceeded"

def orphanedUpdateSeconds : Int := 180

/-! ## The files and the lock -/

namespace Files

/-- An exclusive `LOCK_NB` fails. -/
def busy (f : Files) : Bool := f.run.isSome || f.readers ≠ 0

def filesFor (f : Files) : Work → List String
  | .build => f.paths
  | .update => f.paths.filter fun p => f.graph p < f.tree p
  | .other => []

def step (f : Files) : FilesAct → Option Files
  | .edit path =>
      some { f with
        tree := Function.update f.tree path (f.tree path + 1)
        paths := path :: f.paths }
  | .acquire worker work =>
      if f.busy then none
      else some { f with run := some ⟨f.runs, worker, work, none, []⟩, runs := f.runs + 1 }
  | .list =>
      f.run.bind fun r =>
        if r.unread.isSome then none
        else some { f with run := some { r with unread := some (f.filesFor r.work) } }
  | .read path =>
      f.run.bind fun r => r.unread.bind fun files =>
        if path ∈ files then
          some { f with run := some { r with
            unread := some (files.filter (· ≠ path))
            parsed := (path, f.tree path) :: r.parsed } }
        else none
  | .store path =>
      f.run.bind fun r => (r.parsed.lookup path).map fun v =>
        { f with
          graph := Function.update f.graph path v
          run := some { r with parsed := r.parsed.filter fun e => e.1 ≠ path } }
  | .finish =>
      f.run.bind fun r =>
        if r.unread = some [] ∧ r.parsed = [] then
          some { f with run := none, finished := r.id :: f.finished }
        else none
  | .drop => f.run.map fun _ => { f with run := none }
  | .share => if f.run.isSome then none else some { f with readers := f.readers + 1 }
  | .unshare => if f.readers = 0 then none else some { f with readers := f.readers - 1 }

def heldByWorker (f : Files) : Bool := f.run.any GraphRun.worker

/-- A worker that raised or vanished no longer holds the lock. -/
def dropWorker (f : Files) : Files := if f.heldByWorker then { f with run := none } else f

end Files

/-! ## The worker -/

namespace UpdateSys

/-- The row `_STALLED_UPDATE_SQL` returns; rows are kept in the order of their ids. -/
def stalledUpdate (s : UpdateSys) (now : Int) : Option TaskRow :=
  (s.queue.rows.filter fun r => r.kind = .update &&
    (r.state = .dead ||
      (r.state = .running && (s.marks r.id).updatedAt < now - orphanedUpdateSeconds)) &&
    s.lastUpdated.all fun t => t < (s.marks r.id).updatedAt).getLast?

def suspendedByOverruns (s : UpdateSys) (now : Int) : Bool :=
  match s.stalledUpdate now with
  | none => false
  | some r => r.state = .dead &&
      budgetExceededNote.toList.isPrefixOf (s.marks r.id).lastError.toList

/-- The columns written beside a transition of the queue. -/
def touch (s : UpdateSys) (a : QueueAct) (q : TaskQueue) (now : Int) (error : String) :
    Nat → Mark :=
  match a with
  | .enqueuePy kind _ _ | .enqueueRs kind _ =>
      match s.queue.twin kind with
      | some r => Function.update s.marks r.id { s.marks r.id with updatedAt := now }
      | none => Function.update s.marks s.queue.nextId { updatedAt := now }
  | .claim _ =>
      match q.worker with
      | some (some task) =>
          Function.update s.marks task.id { s.marks task.id with updatedAt := now }
      | _ => s.marks
  | .fail .. =>
      match s.queue.worker with
      | some (some task) => Function.update s.marks task.id ⟨error, now⟩
      | _ => s.marks
  | .overrun i .. =>
      match s.queue.firing[i]? with
      | some task => Function.update s.marks task.id ⟨budgetExceededNote ++ ": " ++ error, now⟩
      | none => s.marks
  | .requeueStale => fun id =>
      if s.queue.rows.any fun r => r.id = id && r.state = .running then
        ⟨"worker exited mid-task", now⟩
      else s.marks id
  | _ => s.marks

def updatePending (q : TaskQueue) : Bool :=
  q.rows.any fun r => r.kind = .update && r.state = .pending

def editsBefore (s : UpdateSys) (task : Task) : List (String → Nat) :=
  (s.enqueued.filter fun e => e.1 < task.claimedAt).map Prod.snd

/-- A transaction of the queue, and what its caller does beside it. -/
def queueStep (repr : Json → String) (s : UpdateSys) (a : QueueAct) (now : Int)
    (error : String) : Option UpdateSys :=
  (s.queue.step repr a).bind fun q =>
    let s' := { s with queue := q, marks := s.touch a q now error }
    match a with
    | .enqueuePy .update _ _ | .enqueueRs .update _ =>
        some { s' with enqueued := (s.queue.time, s.files.tree) :: s.enqueued }
    | .claim _ => some { s' with note := none }
    | .complete =>
        match s.queue.worker, s.note with
        | some (some task), some (.skipped holder) =>
            some { s' with
              note := none
              skips := ⟨holder, s.editsBefore task, updatePending q⟩ :: s.skips }
        | some (some task), none => if task.kind = .update then none else some s'
        | _, _ => some { s' with note := none }
    | .fail .. =>
        if s.note.isSome then none else some { s' with files := s.files.dropWorker }
    | .exit => some { s' with note := none, files := s.files.dropWorker }
    | _ => some s'

/-- `_execute_update` up to the lock: a note, or the lock. -/
def execute (s : UpdateSys) (now : Int) : Option UpdateSys :=
  if s.hookSkip then some { s with note := some .settled }
  else if s.suspendedByOverruns now || s.files.busy then
    some { s with note := some (.skipped (s.files.run.map GraphRun.id)) }
  else (s.files.step (.acquire true .update)).map fun f => { s with files := f }

/-- A step of the file system or of a process that uses the graph. The worker takes
the lock in `execute` only, and loses it with the task in hand. -/
def filesStep (s : UpdateSys) (a : FilesAct) (now : Int) : Option UpdateSys :=
  match a with
  | .acquire true _ => none
  | .drop => if s.files.heldByWorker then none else
      (s.files.step .drop).map fun f => { s with files := f }
  | .finish => (s.files.step .finish).map fun f =>
      { s with
        files := f
        note := if s.files.heldByWorker then some .settled else s.note
        lastUpdated := if s.files.run.any fun r => r.work = .other then s.lastUpdated
          else some now }
  | a => (s.files.step a).map fun f => { s with files := f }

def step (repr : Json → String) (s : UpdateSys) : UpdateAct → Option UpdateSys
  | .files a now => s.filesStep a now
  | .queue a now error => s.queueStep repr a now error
  | .execute now =>
      match s.queue.worker with
      | some (some task) =>
          if task.kind = .update ∧ s.note = none ∧ s.files.heldByWorker = false then
            s.execute now
          else none
      | _ => none
  | .setHookSkip disabled => some { s with hookSkip := disabled }

end UpdateSys

/-! ## What a skip relies on -/

/-- The run has read the file after its `n`-th edit, or has still to read it. -/
def GraphRun.Reads (r : GraphRun) (path : String) (n : Nat) : Prop :=
  match r.unread with
  | none => r.work ≠ .other
  | some files => path ∈ files ∨ ∃ e ∈ r.parsed, e.1 = path ∧ n ≤ e.2

instance (r : GraphRun) (path : String) (n : Nat) : Decidable (r.Reads path n) :=
  match h : r.unread with
  | none => decidable_of_iff (r.work ≠ .other) (by rw [GraphRun.Reads, h])
  | some files =>
      decidable_of_iff (path ∈ files ∨ ∃ e ∈ r.parsed, e.1 = path ∧ n ≤ e.2)
        (by rw [GraphRun.Reads, h])

namespace UpdateSys

/-- Of the edits enqueued before the claim of the task in hand, those the graph lacks
are of files that the holder of the lock has read since, or has still to read. -/
def HolderReads (s : UpdateSys) : Prop :=
  ∀ task ∈ s.queue.worker.join, ∀ v ∈ s.editsBefore task, ∀ p ∈ s.files.paths,
    v p ≤ s.files.graph p ∨ ∃ r ∈ s.files.run, r.Reads p (v p)

instance (s : UpdateSys) : Decidable s.HolderReads := by
  unfold HolderReads
  infer_instance

/-- `_execute_update` returns a skip note. -/
def skips? (s : UpdateSys) (now : Int) : Bool :=
  !s.hookSkip && (s.suspendedByOverruns now || s.files.busy)

/-- Each skip leaves an update task pending or meets a holder of the lock that still
reads what was enqueued; and no watchdog records its overrun on a task that is
pending again. -/
def RelaysEdits (s : UpdateSys) : UpdateAct → Prop
  | .execute now => s.skips? now = true → updatePending s.queue = true ∨ s.HolderReads
  | .queue (.overrun i ..) .. =>
      ∀ task ∈ s.queue.firing[i]?, ∀ row ∈ s.queue.rows, row.id = task.id →
        row.state ≠ .pending
  | _ => True

instance (s : UpdateSys) (a : UpdateAct) : Decidable (s.RelaysEdits a) := by
  unfold RelaysEdits
  split <;> infer_instance

/-- Once the run that held the lock has finished, every edit enqueued before the
claim is in the graph, unless an update task remained. -/
def SkipSettled (f : Files) (k : Skip) : Prop :=
  k.pending = true ∨
    ((∀ n, k.holder = some n → n ∈ f.finished) → ∀ v ∈ k.edits, ∀ p, v p ≤ f.graph p)

end UpdateSys

/-! ## Runs that hold the lock -/

namespace Files

variable {f f' : Files}

structure Sound (f : Files) : Prop where
  absent : ∀ p, p ∉ f.paths → f.tree p = 0
  indexed : ∀ p, f.graph p ≤ f.tree p
  parsed : ∀ {r : GraphRun}, f.run = some r →
    ∀ e ∈ r.parsed, f.graph e.1 ≤ e.2 ∧ e.2 ≤ f.tree e.1
  /-- Of two reads of one file the later stands first. -/
  newest : ∀ {r : GraphRun}, f.run = some r →
    r.parsed.Pairwise fun a b => a.1 = b.1 → b.2 ≤ a.2
  current : ∀ {r : GraphRun}, f.run = some r → r.id < f.runs ∧ r.id ∉ f.finished
  past : ∀ n ∈ f.finished, n < f.runs

/-- These edits are in the graph when the run of this number finishes. -/
structure Owed (f : Files) (holder : Option Nat) (edits : List (String → Nat)) : Prop where
  started : ∀ n, holder = some n → n < f.runs
  made : ∀ v ∈ edits, ∀ p, v p ≤ f.tree p
  after : (∀ n, holder = some n → n ∈ f.finished) → ∀ v ∈ edits, ∀ p, v p ≤ f.graph p
  during : ∀ {r : GraphRun}, f.run = some r → holder = some r.id →
    ∀ v ∈ edits, ∀ p, v p ≤ f.graph p ∨ r.Reads p (v p)

theorem step_cases {a : FilesAct} (h : f.step a = some f') :
    (∃ p, a = .edit p ∧ f' = { f with
      tree := Function.update f.tree p (f.tree p + 1), paths := p :: f.paths }) ∨
    (∃ worker work, a = .acquire worker work ∧ f.run = none ∧ f' = { f with
      run := some ⟨f.runs, worker, work, none, []⟩, runs := f.runs + 1 }) ∨
    (∃ r, a = .list ∧ f.run = some r ∧ r.unread = none ∧
      f' = { f with run := some { r with unread := some (f.filesFor r.work) } }) ∨
    (∃ r files p, a = .read p ∧ f.run = some r ∧ r.unread = some files ∧ p ∈ files ∧
      f' = { f with run := some { r with
        unread := some (files.filter (· ≠ p)), parsed := (p, f.tree p) :: r.parsed } }) ∨
    (∃ r p v, a = .store p ∧ f.run = some r ∧ r.parsed.lookup p = some v ∧
      f' = { f with
        graph := Function.update f.graph p v
        run := some { r with parsed := r.parsed.filter fun e => e.1 ≠ p } }) ∨
    (∃ r, a = .finish ∧ f.run = some r ∧ r.unread = some [] ∧ r.parsed = [] ∧
      f' = { f with run := none, finished := r.id :: f.finished }) ∨
    (a = .drop ∧ f' = { f with run := none }) ∨
    (∃ readers, (a = .share ∨ a = .unshare) ∧ f' = { f with readers := readers }) := by
  cases a with
  | edit p => exact .inl ⟨p, rfl, by simpa [step] using h.symm⟩
  | acquire worker work =>
      simp only [step] at h
      split at h
      · cases h
      · rename_i hb
        refine .inr (.inl ⟨worker, work, rfl, ?_, by simpa using h.symm⟩)
        cases hr : f.run with
        | none => rfl
        | some r => exact absurd (by simp [busy, hr]) hb
  | list =>
      simp only [step, Option.bind_eq_some_iff] at h
      obtain ⟨r, hr, h⟩ := h
      split at h
      · cases h
      · rename_i hu
        exact .inr (.inr (.inl ⟨r, rfl, hr, by simpa using hu, by simpa using h.symm⟩))
  | read p =>
      simp only [step, Option.bind_eq_some_iff] at h
      obtain ⟨r, hr, files, hu, h⟩ := h
      split at h
      · rename_i hp
        exact .inr (.inr (.inr (.inl ⟨r, files, p, rfl, hr, hu, hp, by simpa using h.symm⟩)))
      · cases h
  | store p =>
      simp only [step, Option.bind_eq_some_iff, Option.map_eq_some_iff] at h
      obtain ⟨r, hr, v, hv, rfl⟩ := h
      exact .inr (.inr (.inr (.inr (.inl ⟨r, p, v, rfl, hr, hv, rfl⟩))))
  | finish =>
      simp only [step, Option.bind_eq_some_iff] at h
      obtain ⟨r, hr, h⟩ := h
      split at h
      · rename_i hd
        exact .inr (.inr (.inr (.inr (.inr (.inl
          ⟨r, rfl, hr, hd.1, hd.2, by simpa using h.symm⟩)))))
      · cases h
  | drop =>
      simp only [step, Option.map_eq_some_iff] at h
      obtain ⟨r, -, rfl⟩ := h
      exact .inr (.inr (.inr (.inr (.inr (.inr (.inl ⟨rfl, rfl⟩))))))
  | share =>
      simp only [step] at h
      split at h
      · cases h
      · exact .inr (.inr (.inr (.inr (.inr (.inr (.inr
          ⟨_, .inl rfl, by simpa using h.symm⟩))))))
  | unshare =>
      simp only [step] at h
      split at h
      · cases h
      · exact .inr (.inr (.inr (.inr (.inr (.inr (.inr
          ⟨_, .inr rfl, by simpa using h.symm⟩))))))

theorem le_update {g : String → Nat} {p : String} {v : Nat} (h : g p ≤ v) (q : String) :
    g q ≤ Function.update g p v q := by
  by_cases hq : q = p
  · subst hq
    rwa [Function.update_self]
  · rw [Function.update_of_ne hq]

theorem lookup_mem {l : List (String × Nat)} {p : String} {v : Nat}
    (h : l.lookup p = some v) : (p, v) ∈ l := by
  obtain ⟨l₁, l₂, rfl, -⟩ := List.lookup_eq_some_iff.mp h
  simp

theorem le_lookup {l : List (String × Nat)} {p : String} {v : Nat}
    (hl : l.Pairwise fun a b => a.1 = b.1 → b.2 ≤ a.2) (h : l.lookup p = some v)
    {e : String × Nat} (he : e ∈ l) (hp : e.1 = p) : e.2 ≤ v := by
  obtain ⟨l₁, l₂, rfl, hne⟩ := List.lookup_eq_some_iff.mp h
  rcases List.mem_append.mp he with he | he
  · exact absurd hp.symm (by simpa using hne e he)
  · rcases List.mem_cons.mp he with rfl | he
    · exact Nat.le_refl _
    · have htail := (List.pairwise_append.mp hl).2.1
      exact (List.pairwise_cons.mp htail).1 e he hp.symm

theorem sound_start : Sound {} where
  absent _ _ := rfl
  indexed _ := Nat.le_refl _
  parsed h := by cases h
  newest h := by cases h
  current h := by cases h
  past := by simp

theorem sound_step (h : Sound f) {a : FilesAct} (hs : f.step a = some f') : Sound f' := by
  obtain ⟨p, -, rfl⟩ | ⟨worker, work, -, hrun, rfl⟩ | ⟨r, -, hr, hu, rfl⟩ |
    ⟨r, files, p, -, hr, hu, hp, rfl⟩ | ⟨r, p, v, -, hr, hv, rfl⟩ |
    ⟨r, -, hr, hu, hd, rfl⟩ | ⟨-, rfl⟩ | ⟨readers, -, rfl⟩ := step_cases hs
  · -- an edit only makes the file newer
    have hmono : ∀ q, f.tree q ≤ Function.update f.tree p (f.tree p + 1) q :=
      le_update (Nat.le_succ _)
    refine ⟨fun q hq => ?_, fun q => Nat.le_trans (h.indexed q) (hmono q), fun hr e he => ?_,
      h.newest, h.current, h.past⟩
    · simp only [List.mem_cons, not_or] at hq
      simp only [Function.update_of_ne hq.1]
      exact h.absent q hq.2
    · exact ⟨(h.parsed hr e he).1, Nat.le_trans (h.parsed hr e he).2 (hmono _)⟩
  · refine ⟨h.absent, h.indexed, ?_, ?_, ?_, fun n hn => Nat.lt_succ_of_lt (h.past n hn)⟩
    all_goals
      intro r hr
      obtain rfl := Option.some.inj hr
    · simp
    · exact .nil
    · exact ⟨Nat.lt_succ_self _, fun hn => Nat.lt_irrefl _ (h.past _ hn)⟩
  · refine ⟨h.absent, h.indexed, ?_, ?_, ?_, h.past⟩
    all_goals
      intro r' hr'
      obtain rfl := Option.some.inj hr'
    · have := h.parsed hr
      exact this
    · have := h.newest hr
      exact this
    · have := h.current hr
      exact this
  · refine ⟨h.absent, h.indexed, ?_, ?_, ?_, h.past⟩
    all_goals
      intro r' hr'
      obtain rfl := Option.some.inj hr'
    · intro e he
      rcases List.mem_cons.mp he with rfl | he
      · exact ⟨h.indexed p, Nat.le_refl _⟩
      · exact h.parsed hr e he
    · refine List.pairwise_cons.mpr ⟨fun e he hpe => ?_, h.newest hr⟩
      have := (h.parsed hr e he).2
      rwa [← hpe] at this
    · have := h.current hr
      exact this
  · have hpv := h.parsed hr _ (lookup_mem hv)
    refine ⟨h.absent, fun q => ?_, ?_, ?_, ?_, h.past⟩
    · by_cases hq : q = p
      · subst hq
        simpa only [Function.update_self] using hpv.2
      · simpa only [Function.update_of_ne hq] using h.indexed q
    all_goals
      intro r' hr'
      obtain rfl := Option.some.inj hr'
    · intro e he
      obtain ⟨he, hne⟩ := List.mem_filter.mp he
      have hne : e.1 ≠ p := by simpa using hne
      simpa only [Function.update_of_ne hne] using h.parsed hr e he
    · exact (h.newest hr).filter _
    · have := h.current hr
      exact this
  · refine ⟨h.absent, h.indexed, nofun, nofun, nofun, fun n hn => ?_⟩
    rcases List.mem_cons.mp hn with rfl | hn
    · exact (h.current hr).1
    · exact h.past n hn
  · exact ⟨h.absent, h.indexed, nofun, nofun, nofun, h.past⟩
  · exact ⟨h.absent, h.indexed, h.parsed, h.newest, h.current, h.past⟩

theorem reads_filesFor (h : Sound f) {r : GraphRun} (hw : r.work ≠ .other) {p : String}
    {n : Nat} (hn : n ≤ f.tree p) :
    n ≤ f.graph p ∨ ({ r with unread := some (f.filesFor r.work) } : GraphRun).Reads p n := by
  by_cases hg : n ≤ f.graph p
  · exact .inl hg
  · have hp : p ∈ f.paths := by
      by_contra hp
      have := h.absent p hp
      omega
    refine .inr (.inl ?_)
    cases hk : r.work with
    | build => exact hp
    | update => exact List.mem_filter.mpr ⟨hp, decide_eq_true (by omega)⟩
    | other => exact absurd hk hw

theorem reads_store {r : GraphRun} {p q : String} {n v : Nat}
    (hl : r.parsed.Pairwise fun a b => a.1 = b.1 → b.2 ≤ a.2)
    (hv : r.parsed.lookup p = some v) (h : r.Reads q n) :
    (q = p ∧ n ≤ v) ∨
      ({ r with parsed := r.parsed.filter fun e => e.1 ≠ p } : GraphRun).Reads q n := by
  obtain ⟨id, worker, work, unread, parsed⟩ := r
  cases unread with
  | none => exact .inr h
  | some files =>
      rcases h with hq | ⟨e, he, heq, hle⟩
      · exact .inr (.inl hq)
      · by_cases hqp : q = p
        · exact .inl ⟨hqp, Nat.le_trans hle (le_lookup hl hv he (heq.trans hqp))⟩
        · refine .inr (.inr ⟨e, List.mem_filter.mpr ⟨he, ?_⟩, heq, hle⟩)
          simpa [heq] using hqp

/-- Whatever happens to the files, what a run owes stays owed until it finishes, and
is in the graph from then on. -/
theorem owed_step (h : Sound f) {holder : Option Nat} {edits : List (String → Nat)}
    (ho : Owed f holder edits) {a : FilesAct} (hs : f.step a = some f') :
    Owed f' holder edits := by
  obtain ⟨p, -, rfl⟩ | ⟨worker, work, -, hrun, rfl⟩ | ⟨r, -, hr, hu, rfl⟩ |
    ⟨r, files, p, -, hr, hu, hp, rfl⟩ | ⟨r, p, v, -, hr, hv, rfl⟩ |
    ⟨r, -, hr, hu, hd, rfl⟩ | ⟨-, rfl⟩ | ⟨readers, -, rfl⟩ := step_cases hs
  · exact ⟨ho.started, fun w hw q =>
      Nat.le_trans (ho.made w hw q) (le_update (Nat.le_succ _) q), ho.after, ho.during⟩
  · refine ⟨fun n hn => Nat.lt_succ_of_lt (ho.started n hn), ho.made, ho.after, ?_⟩
    intro r hr hn
    obtain rfl := Option.some.inj hr
    exact absurd (ho.started _ hn) (Nat.lt_irrefl _)
  · refine ⟨ho.started, ho.made, ho.after, ?_⟩
    intro r' hr' hn w hw q
    obtain rfl := Option.some.inj hr'
    rcases ho.during hr hn w hw q with hg | hreads
    · exact .inl hg
    · rw [GraphRun.Reads, hu] at hreads
      exact reads_filesFor h hreads (ho.made w hw q)
  · refine ⟨ho.started, ho.made, ho.after, ?_⟩
    intro r' hr' hn w hw q
    obtain rfl := Option.some.inj hr'
    rcases ho.during hr hn w hw q with hg | hreads
    · exact .inl hg
    · rw [GraphRun.Reads, hu] at hreads
      refine .inr ?_
      rcases hreads with hq | ⟨e, he, heq, hle⟩
      · by_cases hqp : q = p
        · subst hqp
          exact .inr ⟨_, List.mem_cons_self, rfl, ho.made w hw q⟩
        · exact .inl (List.mem_filter.mpr ⟨hq, by simpa using hqp⟩)
      · exact .inr ⟨e, List.mem_cons_of_mem _ he, heq, hle⟩
  · have hmono := le_update (h.parsed hr _ (lookup_mem hv)).1
    refine ⟨ho.started, ho.made,
      fun hf w hw q => Nat.le_trans (ho.after hf w hw q) (hmono q), ?_⟩
    intro r' hr' hn w hw q
    obtain rfl := Option.some.inj hr'
    rcases ho.during hr hn w hw q with hg | hreads
    · exact .inl (Nat.le_trans hg (hmono q))
    · rcases reads_store (h.newest hr) hv hreads with ⟨rfl, hle⟩ | hreads
      · exact .inl (by simpa only [Function.update_self] using hle)
      · exact .inr hreads
  · refine ⟨ho.started, ho.made, fun hf w hw q => ?_, nofun⟩
    by_cases hn : holder = some r.id
    · rcases ho.during hr hn w hw q with hg | hreads
      · exact hg
      · rw [GraphRun.Reads, hu, hd] at hreads
        simp at hreads
    · refine ho.after (fun n hh => ?_) w hw q
      rcases List.mem_cons.mp (hf n hh) with rfl | hmem
      · exact absurd hh hn
      · exact hmem
  · exact ⟨ho.started, ho.made, ho.after, nofun⟩
  · exact ⟨ho.started, ho.made, ho.after, ho.during⟩

theorem tree_step {a : FilesAct} (hs : f.step a = some f') (p : String) :
    f.tree p ≤ f'.tree p := by
  obtain ⟨q, -, rfl⟩ | ⟨worker, work, -, hrun, rfl⟩ | ⟨r, -, hr, hu, rfl⟩ |
    ⟨r, files, q, -, hr, hu, hq, rfl⟩ | ⟨r, q, v, -, hr, hv, rfl⟩ |
    ⟨r, -, hr, hu, hd, rfl⟩ | ⟨-, rfl⟩ | ⟨readers, -, rfl⟩ := step_cases hs
  · exact le_update (Nat.le_succ _) p
  all_goals exact Nat.le_refl _

/-- What one process does to the files is nothing or a step. -/
def Moves (f f' : Files) : Prop := f' = f ∨ ∃ a, f.step a = some f'

theorem moves_dropWorker (f : Files) : f.Moves f.dropWorker := by
  unfold dropWorker heldByWorker
  cases hr : f.run with
  | none => exact .inl rfl
  | some r =>
      split
      · exact .inr ⟨.drop, by simp [step, hr]⟩
      · exact .inl rfl

theorem Moves.sound (hm : f.Moves f') (h : Sound f) : Sound f' := by
  obtain rfl | ⟨a, hs⟩ := hm
  · exact h
  · exact sound_step h hs

theorem Moves.owed (hm : f.Moves f') (h : Sound f) {holder : Option Nat}
    {edits : List (String → Nat)} (ho : Owed f holder edits) : Owed f' holder edits := by
  obtain rfl | ⟨a, hs⟩ := hm
  · exact ho
  · exact owed_step h ho hs

theorem Moves.tree_le (hm : f.Moves f') (p : String) : f.tree p ≤ f'.tree p := by
  obtain rfl | ⟨a, hs⟩ := hm
  · exact Nat.le_refl _
  · exact tree_step hs p

end Files

/-! ## The queue beside them -/

namespace UpdateSys

variable {repr : Json → String} {q q' : TaskQueue}

theorem worker_act {a : QueueAct} (h : q.act repr a = some q') :
    q'.worker = q.worker ∨ (∀ task, q'.worker ≠ some (some task)) ∨
      ∃ now task, a = .claim now ∧ q'.worker = some (some task) ∧ task.claimedAt = q.time := by
  cases a with
  | enqueuePy kind payload priority | enqueueRs kind payload =>
      simp only [TaskQueue.act, TaskQueue.enqueue] at h
      split at h
      · obtain ⟨merged, -, rfl⟩ := Option.map_eq_some_iff.mp h
        exact .inl rfl
      · obtain rfl := Option.some.inj h
        exact .inl rfl
  | start =>
      simp only [TaskQueue.act] at h
      split at h
      · obtain rfl := Option.some.inj h
        exact .inr (.inl nofun)
      · cases h
  | requeueStale =>
      simp only [TaskQueue.act] at h
      split at h
      · cases h
      · obtain rfl := Option.some.inj h
        exact .inl rfl
  | claim now =>
      simp only [TaskQueue.act, TaskQueue.claim] at h
      split at h
      · split at h
        · obtain rfl := Option.some.inj h
          exact .inl rfl
        · obtain rfl := Option.some.inj h
          exact .inr (.inr ⟨now, _, rfl, rfl, rfl⟩)
      · cases h
  | complete | fail fatal now delay =>
      simp only [TaskQueue.act] at h
      split at h
      · obtain rfl := Option.some.inj h
        exact .inr (.inl nofun)
      · cases h
  | expire =>
      simp only [TaskQueue.act] at h
      split at h
      · obtain rfl := Option.some.inj h
        exact .inl rfl
      · cases h
  | overrun i now delay =>
      simp only [TaskQueue.act] at h
      split at h
      · obtain rfl := Option.some.inj h
        refine .inl ?_
        unfold TaskQueue.fail
        split <;> rfl
      · cases h
  | exit =>
      obtain rfl := Option.some.inj h
      exact .inr (.inl nofun)

/-- A transaction other than a claim or a failure of the task in hand leaves a
pending update pending, unless a late overrun is recorded on it. -/
theorem updatePending_act {a : QueueAct} (h : q.act repr a = some q')
    (hclaim : ∀ now, a ≠ .claim now) (hfail : ∀ fatal now delay, a ≠ .fail fatal now delay)
    (hlate : ∀ i now delay, a = .overrun i now delay → ∀ task ∈ q.firing[i]?,
      ∀ row ∈ q.rows, row.id = task.id → row.state ≠ .pending)
    (hp : updatePending q = true) : updatePending q' = true := by
  simp only [updatePending, List.any_eq_true, Bool.and_eq_true, decide_eq_true_eq] at hp ⊢
  obtain ⟨row, hrow, hkind, hstate⟩ := hp
  cases a with
  | enqueuePy kind payload priority | enqueueRs kind payload =>
      simp only [TaskQueue.act, TaskQueue.enqueue] at h
      split at h
      · obtain ⟨merged, -, rfl⟩ := Option.map_eq_some_iff.mp h
        refine ⟨_, List.mem_map_of_mem hrow, ?_⟩
        split <;> exact ⟨hkind, hstate⟩
      · obtain rfl := Option.some.inj h
        exact ⟨row, List.mem_append_left _ hrow, hkind, hstate⟩
  | start | expire =>
      simp only [TaskQueue.act] at h
      split at h
      · obtain rfl := Option.some.inj h
        exact ⟨row, hrow, hkind, hstate⟩
      · cases h
  | requeueStale =>
      simp only [TaskQueue.act] at h
      split at h
      · cases h
      · obtain rfl := Option.some.inj h
        refine ⟨row, List.mem_map.mpr ⟨row, hrow, ?_⟩, hkind, hstate⟩
        rw [if_neg (by simp [hstate])]
  | claim now => exact absurd rfl (hclaim now)
  | complete =>
      simp only [TaskQueue.act] at h
      split at h
      · obtain rfl := Option.some.inj h
        exact ⟨row, List.mem_filter.mpr ⟨hrow, by simp [hstate]⟩, hkind, hstate⟩
      · cases h
  | fail fatal now delay => exact absurd rfl (hfail fatal now delay)
  | overrun i now delay =>
      simp only [TaskQueue.act] at h
      split at h
      · rename_i task ht
        obtain rfl := Option.some.inj h
        have hne : row.id ≠ task.id := fun hid =>
          hlate i now delay rfl task ht row hrow hid hstate
        refine ⟨row, ?_, hkind, hstate⟩
        unfold TaskQueue.fail
        split <;> exact List.mem_map.mpr ⟨row, hrow, if_neg hne⟩
      · cases h
  | exit =>
      obtain rfl := Option.some.inj h
      exact ⟨row, hrow, hkind, hstate⟩

/-! ## Whole runs -/

variable {s s' : UpdateSys}

structure Inv (s : UpdateSys) : Prop where
  sound : s.files.Sound
  made : ∀ e ∈ s.enqueued, ∀ p, e.2 p ≤ s.files.tree p
  claimed : ∀ {task : Task}, s.queue.worker = some (some task) →
    task.claimedAt < s.queue.time
  noted : ∀ {holder : Option Nat} {task : Task}, s.note = some (.skipped holder) →
    s.queue.worker = some (some task) →
    updatePending s.queue = true ∨ s.files.Owed holder (s.editsBefore task)
  owed : ∀ k ∈ s.skips, k.pending = true ∨ s.files.Owed k.holder k.edits

theorem inv_start : Inv {} where
  sound := Files.sound_start
  made := by simp
  claimed := nofun
  noted := nofun
  owed := by simp

theorem inv_moves (h : Inv s) {f : Files} (hm : s.files.Moves f) {note : Option UpdateNote}
    (hnote : ∀ holder, note = some (.skipped holder) → s.note = note)
    (marks : Nat → Mark) (hookSkip : Bool) (lastUpdated : Option Int) :
    Inv { s with files := f, note, marks, hookSkip, lastUpdated } where
  sound := hm.sound h.sound
  made e he p := Nat.le_trans (h.made e he p) (hm.tree_le p)
  claimed := h.claimed
  noted hn hw := (h.noted ((hnote _ hn).trans hn) hw).imp_right (hm.owed h.sound)
  owed k hk := (h.owed k hk).imp_right (hm.owed h.sound)

theorem claimed_step (h : Inv s) {a : QueueAct} (hq : s.queue.act repr a = some q)
    {task : Task} (hw : q.worker = some (some task)) : task.claimedAt < s.queue.time + 1 := by
  rcases worker_act hq with he | hne | ⟨now, task', -, hw', hc⟩
  · exact Nat.lt_succ_of_lt (h.claimed (he ▸ hw))
  · exact absurd hw (hne task)
  · obtain rfl := Option.some.inj (Option.some.inj (hw.symm.trans hw'))
    exact Nat.lt_succ_of_le (Nat.le_of_eq hc)

theorem inv_unnoted (h : Inv s) {a : QueueAct} (hq : s.queue.step repr a = some q)
    (marks : Nat → Mark) : Inv { s with queue := q, marks, note := none } := by
  simp only [TaskQueue.step, Option.map_eq_some_iff] at hq
  obtain ⟨q, ha, rfl⟩ := hq
  exact ⟨h.sound, h.made, claimed_step h ha, nofun, h.owed⟩

theorem inv_noted (h : Inv s) {a : QueueAct} (hq : s.queue.step repr a = some q)
    (hclaim : ∀ now, a ≠ .claim now) (hfail : ∀ fatal now delay, a ≠ .fail fatal now delay)
    (hlate : ∀ i now delay, a = .overrun i now delay → ∀ task ∈ s.queue.firing[i]?,
      ∀ row ∈ s.queue.rows, row.id = task.id → row.state ≠ .pending)
    {enqueued : List (Nat × (String → Nat))}
    (henq : enqueued = s.enqueued ∨ enqueued = (s.queue.time, s.files.tree) :: s.enqueued)
    (marks : Nat → Mark) :
    Inv { s with queue := q, enqueued, marks } := by
  simp only [TaskQueue.step, Option.map_eq_some_iff] at hq
  obtain ⟨q, ha, rfl⟩ := hq
  refine ⟨h.sound, fun e he p => ?_, claimed_step h ha, ?_, h.owed⟩
  · rcases henq with rfl | rfl
    · exact h.made e he p
    · rcases List.mem_cons.mp he with rfl | he
      · exact Nat.le_refl _
      · exact h.made e he p
  · intro holder task hn hw
    have hw₀ : s.queue.worker = some (some task) := by
      rcases worker_act ha with he | hne | ⟨now, -, hc, -⟩
      · exact he ▸ hw
      · exact absurd hw (hne task)
      · exact absurd hc (hclaim now)
    -- an edit enqueued now comes after the claim
    have hedits : ((enqueued.filter fun e => e.1 < task.claimedAt).map Prod.snd)
        = s.editsBefore task := by
      rcases henq with rfl | rfl
      · rfl
      · rw [editsBefore, List.filter_cons_of_neg]
        simpa using Nat.le_of_lt (h.claimed hw₀)
    rcases h.noted hn hw₀ with hp | ho
    · have := updatePending_act ha hclaim hfail hlate hp
      exact .inl this
    · refine .inr ?_
      rw [← hedits] at ho
      exact ho

theorem inv_completeSkipped (h : Inv s) (hq : s.queue.step repr .complete = some q)
    {task : Task} {holder : Option Nat} (hw : s.queue.worker = some (some task))
    (hn : s.note = some (.skipped holder)) (marks : Nat → Mark) :
    Inv { s with
      queue := q
      marks
      note := none
      skips := ⟨holder, s.editsBefore task, updatePending q⟩ :: s.skips } := by
  have hrest := inv_unnoted h hq marks
  refine ⟨hrest.sound, hrest.made, hrest.claimed, nofun, fun k hk => ?_⟩
  rcases List.mem_cons.mp hk with rfl | hk
  · refine (h.noted hn hw).imp_left fun hp => ?_
    simp only [TaskQueue.step, Option.map_eq_some_iff] at hq
    obtain ⟨q, ha, rfl⟩ := hq
    have := updatePending_act ha nofun nofun nofun hp
    exact this
  · exact h.owed k hk

theorem inv_filesStep (h : Inv s) {a : FilesAct} {now : Int}
    (hs : s.filesStep a now = some s') : Inv s' := by
  have hmove : ∀ {a : FilesAct} {f : Files}, s.files.step a = some f →
      Inv { s with files := f } := fun hf =>
    inv_moves h (.inr ⟨_, hf⟩) (fun _ _ => rfl) s.marks s.hookSkip s.lastUpdated
  simp only [filesStep] at hs
  split at hs
  · cases hs
  · split at hs
    · cases hs
    · obtain ⟨f, hf, rfl⟩ := Option.map_eq_some_iff.mp hs
      exact hmove hf
  · obtain ⟨f, hf, rfl⟩ := Option.map_eq_some_iff.mp hs
    refine inv_moves h (.inr ⟨_, hf⟩) (fun holder hn => ?_) s.marks s.hookSkip _
    split at hn
    · cases hn
    · rename_i hw
      rw [if_neg hw]
  · obtain ⟨f, hf, rfl⟩ := Option.map_eq_some_iff.mp hs
    exact hmove hf

theorem owed_of_holderReads (h : Inv s) {task : Task}
    (hw : s.queue.worker = some (some task)) (hr : s.HolderReads) :
    s.files.Owed (s.files.run.map GraphRun.id) (s.editsBefore task) := by
  have hmade : ∀ v ∈ s.editsBefore task, ∀ p, v p ≤ s.files.tree p := by
    intro v hv p
    obtain ⟨e, he, rfl⟩ := List.mem_map.mp hv
    exact h.made e (List.mem_filter.mp he).1 p
  have hread : ∀ v ∈ s.editsBefore task, ∀ p,
      v p ≤ s.files.graph p ∨ ∃ r ∈ s.files.run, r.Reads p (v p) := by
    intro v hv p
    by_cases hp : p ∈ s.files.paths
    · exact hr task (by rw [hw]; rfl) v hv p hp
    · have h0 := h.sound.absent p hp
      have := hmade v hv p
      omega
  refine ⟨fun n hn => ?_, hmade, fun hf v hv p => ?_, fun hrun _ v hv p => ?_⟩
  · obtain ⟨r, hrun, rfl⟩ := Option.map_eq_some_iff.mp hn
    exact (h.sound.current hrun).1
  · rcases hread v hv p with hg | ⟨r, hrun, -⟩
    · exact hg
    · exact absurd (hf r.id (by rw [hrun]; rfl)) (h.sound.current hrun).2
  · rcases hread v hv p with hg | ⟨r', hrun', hreads⟩
    · exact .inl hg
    · obtain rfl := Option.some.inj (hrun.symm.trans hrun')
      exact .inr hreads

theorem inv_execute (h : Inv s) {now : Int} (hok : s.RelaysEdits (.execute now))
    (hs : s.execute now = some s') : Inv s' := by
  simp only [execute] at hs
  split at hs
  · obtain rfl := Option.some.inj hs
    exact inv_moves h (.inl rfl) (fun _ hn => by cases hn) s.marks s.hookSkip s.lastUpdated
  · rename_i hskip
    split at hs
    · rename_i hbusy
      obtain rfl := Option.some.inj hs
      refine ⟨h.sound, h.made, h.claimed, ?_, h.owed⟩
      intro holder task hn hw
      obtain rfl : s.files.run.map GraphRun.id = holder := by
        simpa using hn
      have hnote : s.skips? now = true := by
        rw [skips?, Bool.eq_false_of_not_eq_true hskip, hbusy]
        rfl
      exact (hok hnote).imp_right (owed_of_holderReads h hw)
    · obtain ⟨f, hf, rfl⟩ := Option.map_eq_some_iff.mp hs
      exact inv_moves h (.inr ⟨_, hf⟩) (fun _ _ => rfl) s.marks s.hookSkip s.lastUpdated

theorem inv_queueStep (h : Inv s) {a : QueueAct} {now : Int} {error : String}
    (hok : s.RelaysEdits (.queue a now error)) (hs : s.queueStep repr a now error = some s') :
    Inv s' := by
  simp only [queueStep, Option.bind_eq_some_iff] at hs
  obtain ⟨q, hq, hs⟩ := hs
  have hlate : ∀ i now delay, a = .overrun i now delay → ∀ task ∈ s.queue.firing[i]?,
      ∀ row ∈ s.queue.rows, row.id = task.id → row.state ≠ .pending := by
    rintro i now delay rfl
    exact hok
  cases a with
  | enqueuePy kind payload priority | enqueueRs kind payload =>
      cases kind with
      | update =>
          obtain rfl := Option.some.inj hs
          exact inv_noted h hq nofun nofun hlate (.inr rfl) _
      | embed | postprocess | prepare =>
          obtain rfl := Option.some.inj hs
          exact inv_noted h hq nofun nofun hlate (.inl rfl) _
  | start | requeueStale | expire | overrun i now delay =>
      obtain rfl := Option.some.inj hs
      exact inv_noted h hq nofun nofun hlate (.inl rfl) _
  | claim now =>
      obtain rfl := Option.some.inj hs
      exact inv_unnoted h hq _
  | complete =>
      dsimp only at hs
      split at hs
      · rename_i task holder hw hn
        obtain rfl := Option.some.inj hs
        exact inv_completeSkipped h hq hw hn _
      · rename_i task hw hn
        split at hs
        · cases hs
        · obtain rfl := Option.some.inj hs
          exact inv_noted h hq nofun nofun hlate (.inl rfl) _
      · obtain rfl := Option.some.inj hs
        exact inv_unnoted h hq _
  | fail fatal now' delay =>
      dsimp only at hs
      split at hs
      · cases hs
      · rename_i hn
        obtain rfl := Option.some.inj hs
        have hn : s.note = none := by simpa using hn
        rw [hn]
        exact inv_moves (inv_unnoted h hq (s.touch (.fail fatal now' delay) q now error))
          s.files.moves_dropWorker (fun _ _ => rfl) _ _ _
  | exit =>
      obtain rfl := Option.some.inj hs
      exact inv_moves (inv_unnoted h hq (s.touch .exit q now error))
        s.files.moves_dropWorker (fun _ _ => rfl) _ _ _

theorem inv_step (h : Inv s) {a : UpdateAct} (hok : s.RelaysEdits a)
    (hs : s.step repr a = some s') : Inv s' := by
  cases a with
  | files a now => exact inv_filesStep h hs
  | queue a now error => exact inv_queueStep h hok hs
  | execute now =>
      simp only [step] at hs
      split at hs
      · split at hs
        · exact inv_execute h hok hs
        · cases hs
      · cases hs
  | setHookSkip disabled =>
      obtain rfl := Option.some.inj hs
      exact inv_moves h (.inl rfl) (fun _ _ => rfl) s.marks disabled s.lastUpdated

/-- However edits, enqueues, the processes that hold the lock and the worker are
interleaved: where every skip leaves an update task pending or meets a holder that
still reads what was enqueued, no skipped task loses an edit. -/
theorem skips_settled {s : UpdateSys} (h : Reach (· = {}) (step repr) RelaysEdits s) :
    ∀ k ∈ s.skips, SkipSettled s.files k := by
  have hinv : Inv s := by
    refine Reach.invariant ?_ (fun s a s' _ hi hok hs => inv_step hi hok hs) h
    rintro s rfl
    exact inv_start
  intro k hk
  exact (hinv.owed k hk).imp_right Files.Owed.after

/-- A manual update has the lock; the edit of `a.py` is enqueued, claimed and skipped
before the holder lists its files. -/
def relayedEdit : List UpdateAct :=
  [.files (.acquire false .update) 0, .files (.edit "a.py") 1,
    .queue (.enqueuePy .update ∅ none) 2 "", .queue .start 3 "", .queue (.claim 3) 3 "",
    .execute 4, .queue .complete 5 "", .files .list 6, .files (.read "a.py") 7,
    .files (.store "a.py") 8, .files .finish 9]

theorem skips_settled_relayedEdit :
    ∃ s, Reach (· = {}) (step fun _ => "") RelaysEdits s ∧ s.skips.length = 1 ∧
      s.files.graph "a.py" = 1 ∧ ∀ k ∈ s.skips, SkipSettled s.files k := by
  obtain ⟨s, hr, hs⟩ := exists_reach_of_run (· = {}) (step fun _ => "") RelaysEdits {}
    relayedEdit (fun s => s.skips.length = 1 && s.files.graph "a.py" = 1) rfl
    (by decide +kernel)
  simp only [Bool.and_eq_true, decide_eq_true_eq] at hs
  exact ⟨s, hr, hs.1, hs.2, skips_settled hr⟩

/-- The same edit after the holder has read the file: the worker finds the lock busy,
completes the task, and the graph is left with the rows from before the edit. -/
def overtakenEdit : List UpdateAct :=
  [.files (.edit "a.py") 0, .files (.acquire false .update) 1, .files .list 2,
    .files (.read "a.py") 3, .files (.edit "a.py") 4, .queue (.enqueuePy .update ∅ none) 5 "",
    .queue .start 6 "", .queue (.claim 6) 6 "", .execute 7, .queue .complete 8 "",
    .files (.store "a.py") 9, .files .finish 10]

theorem not_skips_settled :
    ¬ ∀ s, Reach (· = {}) (step fun _ => "") anyStep s → ∀ k ∈ s.skips, SkipSettled s.files k := by
  intro h
  obtain ⟨s, hr, hs⟩ := exists_reach_of_run (· = {}) (step fun _ => "") anyStep {}
    overtakenEdit (fun s => s.skips.any fun k =>
      !k.pending && k.holder.all (· ∈ s.files.finished) &&
        k.edits.any fun v => s.files.graph "a.py" < v "a.py") rfl (by decide +kernel)
  simp only [List.any_eq_true, Bool.and_eq_true, Bool.not_eq_true', Option.all_eq_true,
    decide_eq_true_eq] at hs
  obtain ⟨k, hk, ⟨hp, hf⟩, v, hv, hlt⟩ := hs
  rcases h s hr k hk with hpend | hin
  · exact absurd hpend (by simp [hp])
  · exact absurd (hin hf v hv "a.py") (Nat.not_le.mpr hlt)

end UpdateSys

end Dagayn
