import Dagayn.Dict
import Dagayn.Runs

/-!
# The watch daemon

`WatchDaemon` of `daemon.py`: the main thread with `stop`, the config-watcher thread with
`reconcile` and the health thread with `_check_health`, over the maps they share and the
processes they start. A step is what one thread does between two points where another
one can get in: an access outside the lock, a statement of a locked block, a wait.
Processes exit when they like.

What the steps leave open they take from the action: the config that was read, the order in
which a set is gone through, the repositories without a database, and how a start or a
termination ends.
-/

namespace Dagayn

namespace Daemon

structure WatchRepo where
  path : String
  aliasName : String
deriving DecidableEq

/-- A process that the daemon started: `dagayn watch` or `dagayn build`. -/
inductive Child where
  | watch (repo : WatchRepo)
  | build (repo : WatchRepo)
deriving DecidableEq

inductive Thread where
  | watcher
  | health
  | main
deriving DecidableEq

/-- A statement of a locked block. -/
inductive Op where
  /-- `proc = self._children.pop(alias, None)`, and a termination if there is one. -/
  | pop (name : String)
  /-- `self._terminate_child(alias, proc)`. -/
  | terminate (pid : Nat)
  /-- `del self._current_repos[alias]`. -/
  | forget (name : String)
  /-- `self._start_watcher(repo)`. -/
  | start (repo : WatchRepo)
  /-- `self._current_repos[alias] = repo`. -/
  | record (repo : WatchRepo)
  /-- The test of `_check_health`. -/
  | check (repo : WatchRepo)
  /-- `self._children.clear()`. -/
  | clear
deriving DecidableEq

/-- A turn of a loop in a locked block. -/
inductive Turn where
  | remove (name : String)
  | add (repo : WatchRepo)
  | update (repo : WatchRepo)
  | check (repo : WatchRepo)
  | kill (pid : Nat)
  | clear
deriving DecidableEq

def Turn.ops : Turn → List Op
  | .remove name => [.pop name, .forget name]
  | .add repo => [.start repo, .record repo]
  | .update repo => [.pop repo.aliasName, .start repo, .record repo]
  | .check repo => [.check repo]
  | .kill pid => [.terminate pid]
  | .clear => [.clear]

/-- The thread that holds `_lock`, with what is left of its block. -/
structure Block where
  thread : Thread
  now : List Op
  turns : List Turn
deriving DecidableEq

inductive WatcherPc where
  | idle
  /-- `desired` and the keys of `_current_repos` are read. -/
  | compare (desired : Dict String WatchRepo) (current : List String)
  /-- Before the next initial build, or before the lock if there is none. -/
  | build (turns : List Turn) (builds : List WatchRepo)
  | building (turns : List Turn) (builds : List WatchRepo) (pid : Nat)
  | locked
  | ended
deriving DecidableEq

inductive HealthPc where
  | idle
  | waiting
  | locked
  | ended
deriving DecidableEq

inductive MainPc where
  | running
  /-- In the `join` of `stop_config_watcher`. -/
  | stopConfig
  /-- In the `join` of `stop_health_checker`. -/
  | stopHealth
  | waiting
  | locked
  | clearing
  | returned
  | raised
deriving DecidableEq

/-- The maps of the daemon and its processes. -/
structure Tables where
  children : Dict String Nat
  currentRepos : Dict String WatchRepo
  live : Dict Nat Child
  next : Nat
  /-- Aliases whose child has exited by itself or could not be started. -/
  lost : List String

structure State where
  tables : Tables
  held : Option Block
  watcher : WatcherPc
  health : HealthPc
  main : MainPc

/-! ## Starting a watcher -/

/-- How a statement ends. A start may fail (`Popen`, which is logged) or raise (the log
file); a termination may raise (`TimeoutExpired` after the kill). -/
inductive Outcome where
  | ok
  | failed
  | raised
deriving DecidableEq

namespace Tables

def startWatcher (t : Tables) (repo : WatchRepo) : Outcome → Tables
  | .ok =>
      { t with
        children := t.children.insert repo.aliasName t.next
        live := t.live.insert t.next (.watch repo)
        next := t.next + 1
        lost := t.lost.filter (· ≠ repo.aliasName) }
  | _ => { t with lost := repo.aliasName :: t.lost }

/-- `proc is None or proc.poll() is not None`. -/
def dead (t : Tables) (name : String) : Bool :=
  match t.children.lookup name with
  | some pid => (t.live.lookup pid).isNone
  | none => true

def exit (t : Tables) (pid : Nat) : Tables :=
  match t.live.lookup pid with
  | none => t
  | some (.watch repo) => { t with live := t.live.erase pid, lost := repo.aliasName :: t.lost }
  | some (.build _) => { t with live := t.live.erase pid }

end Tables

/-- `start`, for repositories whose watcher is started or fails to. -/
def start (repos : List (WatchRepo × Bool)) : State where
  tables :=
    let t := repos.foldl (fun t r => Tables.startWatcher t r.1 (if r.2 then .ok else .failed))
      { children := ∅, currentRepos := ∅, live := ∅, next := 0, lost := [] }
    { t with currentRepos := repos.foldl (fun d r => d.insert r.1.aliasName r.1) ∅ }
  held := none
  watcher := .idle
  health := .idle
  main := .running

/-- `load_config` skips a repository with an alias that was seen. -/
def Start (s : State) : Prop :=
  ∃ repos : List (WatchRepo × Bool), (repos.map fun r => r.1.aliasName).Nodup ∧ s = start repos

/-! ## The steps -/

inductive Act where
  | configChanged (repos : List WatchRepo)
  | compare (toRemove toAdd toUpdate : List String) (builds : List WatchRepo)
  | startBuild
  | endBuild
  /-- An exception before the lock: the registry, a path, a build that cannot be run. -/
  | giveUp
  | checkBegin
  | lock (thread : Thread)
  | nextTurn
  | op (outcome : Outcome)
  | unlock
  | exit (pid : Nat)
  | threadEnds (thread : Thread)
  | stop
  | joinConfig
  | joinHealth
  | clearCurrent

/-- `{r.alias: r for r in repos}`. -/
def dictOf (repos : List WatchRepo) : Dict String WatchRepo :=
  repos.foldl (fun d r => d.insert r.aliasName r) ∅

namespace State

/-- The block is left, by its end or by an exception. -/
def release (s : State) (thread : Thread) (raised : Bool) : State :=
  match thread with
  | .watcher => { s with held := none, watcher := .idle }
  | .health => { s with held := none, health := if raised then .ended else .idle }
  | .main => { s with held := none, main := if raised then .raised else .clearing }

/-- The sets of `reconcile` are compared, each in some order. -/
def compareConfigs (s : State) (desired : Dict String WatchRepo) (current toRemove toAdd
    toUpdate : List String) (builds : List WatchRepo) : Option State :=
  let shared := desired.keys.filter (· ∈ current)
  let changed := fun name =>
    (desired.lookup name).map WatchRepo.path ≠
      (s.tables.currentRepos.lookup name).map WatchRepo.path
  -- `self._current_repos[alias]` of an alias that has gone since
  if shared.any (fun name => (s.tables.currentRepos.lookup name).isNone) then
    some { s with watcher := .idle }
  else if toRemove.Perm (current.filter (· ∉ desired.keys)) ∧
      toAdd.Perm (desired.keys.filter (· ∉ current)) ∧ toUpdate.Perm (shared.filter changed) ∧
      ∀ repo ∈ builds, repo.aliasName ∈ toAdd ++ toUpdate ∧
        desired.lookup repo.aliasName = some repo then
    some { s with watcher := .build (toRemove.map .remove ++
      (toAdd.filterMap desired.lookup).map .add ++
      (toUpdate.filterMap desired.lookup).map .update) builds }
  else none

def acquire (s : State) : Thread → Option State
  | .watcher =>
      match s.watcher with
      | .build turns [] => some { s with held := some ⟨.watcher, [], turns⟩, watcher := .locked }
      | _ => none
  | .health =>
      if s.health = .waiting then
        some { s with
          held := some ⟨.health, [], s.tables.currentRepos.entries.map fun e => .check e.2⟩
          health := .locked }
      else none
  | .main =>
      if s.main = .waiting then
        some { s with
          held := some ⟨.main, [], (s.tables.children.entries.map fun e => .kill e.2) ++ [.clear]⟩
          main := .locked }
      else none

def runOp (s : State) (b : Block) (rest : List Op) : Op → Outcome → Option State
  | .pop name, .ok =>
      let popped := match s.tables.children.lookup name with
        | some pid => [.terminate pid]
        | none => []
      some { s with
        tables := { s.tables with children := s.tables.children.erase name }
        held := some { b with now := popped ++ rest } }
  | .terminate pid, .ok =>
      some { s with
        tables := { s.tables with live := s.tables.live.erase pid }
        held := some { b with now := rest } }
  | .terminate pid, .raised =>
      if (s.tables.live.lookup pid).isSome then some (s.release b.thread true) else none
  | .forget name, .ok =>
      if (s.tables.currentRepos.lookup name).isSome then
        some { s with
          tables := { s.tables with currentRepos := s.tables.currentRepos.erase name }
          held := some { b with now := rest } }
      else some (s.release b.thread true)
  | .start repo, .raised =>
      some ({ s with tables := s.tables.startWatcher repo .raised }.release b.thread true)
  | .start repo, outcome =>
      some { s with
        tables := s.tables.startWatcher repo outcome
        held := some { b with now := rest } }
  | .record repo, .ok =>
      some { s with
        tables :=
          { s.tables with currentRepos := s.tables.currentRepos.insert repo.aliasName repo }
        held := some { b with now := rest } }
  | .check repo, .ok =>
      if s.tables.dead repo.aliasName then
        some { s with
          tables := { s.tables with children := s.tables.children.erase repo.aliasName }
          held := some { b with now := .start repo :: rest } }
      else some { s with held := some { b with now := rest } }
  | .clear, .ok =>
      some { s with
        tables := { s.tables with children := ∅ }
        held := some { b with now := rest } }
  | _, _ => none

end State

def step (s : State) : Act → Option State
  | .configChanged repos =>
      match s.watcher with
      | .idle => some { s with watcher := .compare (dictOf repos) s.tables.currentRepos.keys }
      | _ => none
  | .compare toRemove toAdd toUpdate builds =>
      match s.watcher with
      | .compare desired current =>
          s.compareConfigs desired current toRemove toAdd toUpdate builds
      | _ => none
  | .startBuild =>
      match s.watcher with
      | .build turns (repo :: builds) =>
          some { s with
            tables := { s.tables with
              live := s.tables.live.insert s.tables.next (.build repo)
              next := s.tables.next + 1 }
            watcher := .building turns builds s.tables.next }
      | _ => none
  | .endBuild =>
      match s.watcher with
      | .building turns builds pid =>
          if (s.tables.live.lookup pid).isNone then some { s with watcher := .build turns builds }
          else none
      | _ => none
  | .giveUp =>
      match s.watcher with
      | .build _ _ => some { s with watcher := .idle }
      | _ => none
  | .checkBegin =>
      if s.health = .idle ∧ (s.main = .running ∨ s.main = .stopConfig) then
        some { s with health := .waiting }
      else none
  | .lock thread => if s.held.isNone then s.acquire thread else none
  | .nextTurn =>
      match s.held with
      | some ⟨thread, [], turn :: turns⟩ =>
          some { s with held := some ⟨thread, turn.ops, turns⟩ }
      | _ => none
  | .op outcome =>
      match s.held with
      | some ⟨thread, op :: rest, turns⟩ =>
          s.runOp ⟨thread, op :: rest, turns⟩ rest op outcome
      | _ => none
  | .unlock =>
      match s.held with
      | some ⟨thread, [], []⟩ => some (s.release thread false)
      | _ => none
  | .exit pid =>
      if (s.tables.live.lookup pid).isSome then some { s with tables := s.tables.exit pid }
      else none
  | .threadEnds .watcher =>
      match s.watcher with
      | .idle => if s.main ≠ .running then some { s with watcher := .ended } else none
      | _ => none
  | .threadEnds .health =>
      if s.health = .idle ∧ s.main ≠ .running ∧ s.main ≠ .stopConfig then
        some { s with health := .ended }
      else none
  | .threadEnds .main => none
  | .stop => if s.main = .running then some { s with main := .stopConfig } else none
  | .joinConfig => if s.main = .stopConfig then some { s with main := .stopHealth } else none
  | .joinHealth => if s.main = .stopHealth then some { s with main := .waiting } else none
  | .clearCurrent =>
      if s.main = .clearing then
        some { s with tables := { s.tables with currentRepos := ∅ }, main := .returned }
      else none

/-! ## What is claimed of the states -/

def State.Quiet (s : State) : Prop :=
  s.held = none ∧ (s.watcher = .idle ∨ s.watcher = .ended) ∧
    (s.health = .idle ∨ s.health = .ended) ∧ (s.main = .running ∨ s.main = .returned)

/-- One watcher for each alias at most; between operations the processes are the watchers of
`_current_repos`, except where one exited by itself or did not start; after `stop` there is
none. -/
structure Safe (s : State) : Prop where
  atMostOne : ∀ p q repo repo', s.tables.live.lookup p = some (.watch repo) →
    s.tables.live.lookup q = some (.watch repo') → repo.aliasName = repo'.aliasName → p = q
  onlyCurrent : s.Quiet → ∀ p child, s.tables.live.lookup p = some child →
    ∃ repo, child = .watch repo ∧ s.tables.currentRepos.lookup repo.aliasName = some repo ∧
      s.tables.children.lookup repo.aliasName = some p
  allCurrent : s.Quiet → ∀ name repo, s.tables.currentRepos.lookup name = some repo →
    name ∈ s.tables.lost ∨ ∃ p, s.tables.live.lookup p = some (.watch repo)
  stopped : s.main = .returned → ∀ p, s.tables.live.lookup p = none

/-- `stop` goes past a `join` only if the thread has ended, and a process that was killed
is gone before the wait for it is over. -/
def timely (s : State) : Act → Bool
  | .joinConfig => s.watcher = .ended
  | .joinHealth => s.health = .ended
  | .op .raised =>
      match s.held with
      | some ⟨_, .terminate _ :: _, _⟩ => false
      | _ => true
  | _ => true

def Timely (s : State) (a : Act) : Prop := timely s a = true

instance (s : State) (a : Act) : Decidable (Timely s a) :=
  inferInstanceAs (Decidable (timely s a = true))

end Daemon

end Dagayn
