import Dagayn.GraphLock
import Dagayn.Interleave
import Dagayn.RwLockInv

/-!
# Who holds the file lock, and when

Over the runs of `GraphLock.orderly` every thread that has acquired the graph lock
is backed by the OS lock of the registered handle, in at least its own mode,
except while that very thread upgrades: the upgrade drops the shared `flock`
before it asks for the exclusive one.

The argument has three parts. A thread with an exclusive mode on its stack is
alone inside both locks (`Inv.alone`), so what the file lock does for it disturbs
nobody. The registry's mode list is a shuffle of the threads' own modes
(`Interleaves`), so popping its end is popping the releasing thread's mode,
whoever pushed last. And a handle is closed or unlocked only after it has left
the registry (`ThreadOK`), so the registered one stays locked (`Covered`).
-/

namespace Dagayn

/-! ## What a thread's position promises -/

/-- The modes a thread has in the registry beyond those of returned acquires. -/
def Pc.entry : Pc → List Bool
  | .upgradeUnlock _ _ | .upgradeWait _ _ | .upgradeRestore _ _ | .upgradePid _ _
  | .upgradeUndo _ => [true]
  | _ => []

/-- The handle of a lock file being opened, still private to the thread. -/
def Pc.openHandle : Pc → Option Nat
  | .openWait _ h | .openRegister _ h => some h
  | _ => none

def Pc.relHandle : Pc → Option Nat
  | .relUnlock h | .relClose h | .relDowngrade h => some h
  | _ => none

/-- The thread relies on the registry's handle staying what it is. -/
def Pc.needsRegistry : Pc → Bool
  | .upgradeUnlock _ _ | .upgradeWait _ _ | .upgradeRestore _ _ | .upgradePid _ _
  | .upgradeUndo _ | .opening _ | .openWait _ _ | .openRegister _ _ => true
  | _ => false

/-- The upgrade has its exclusive `flock`. -/
def Pc.hasUpgraded : Pc → Bool
  | .upgradePid _ _ => true
  | _ => false

/-- What a thread's position says about the registered handle `reg`, the open
handles, its waiter in the thread lock, its mode stack there and its held modes. -/
def ThreadOK (reg : Option Nat) (handles : Dict Nat (Option Bool)) (waiter : Option Waiter)
    (stack held : List Bool) : Pc → Prop
  | .idle => stack = held
  | .threadWait c => stack = held ∧ waiter.map Waiter.exclusive = some c.exclusive
  | .flockStart c | .acquireFail c => stack = held ++ [c.exclusive]
  | .upgradeUnlock c h | .upgradeWait c h | .upgradeRestore c h | .upgradePid c h =>
      stack = held ++ [true] ∧ c.exclusive = true ∧ true ∉ held ∧ held ≠ [] ∧ reg = some h
  | .upgradeUndo c =>
      stack = held ++ [true] ∧ c.exclusive = true ∧ true ∉ held ∧ held ≠ [] ∧ reg.isSome
  | .opening c => stack = held ++ [c.exclusive] ∧ reg = none
  | .openWait c h => stack = held ++ [c.exclusive] ∧ reg = none ∧ h ∈ handles
  | .openRegister c h => stack = held ++ [c.exclusive] ∧ reg = none ∧
      ∃ mode, handles.lookup h = some (some mode) ∧ (c.exclusive = true → mode = true)
  | .relUnlock h | .relClose h => (∃ m, stack = held ++ [m]) ∧ reg ≠ some h
  | .relDowngrade _ => (∃ m, stack = held ++ [m]) ∧ true ∉ held
  | .relThread => ∃ m, stack = held ++ [m]

/-- What another thread does matters only through the registered handle and, for
a thread opening the file, its own handle. -/
theorem ThreadOK.frame {reg reg' : Option Nat} {handles handles' : Dict Nat (Option Bool)}
    {w : Option Waiter} {stack held : List Bool} {p : Pc}
    (h : ThreadOK reg handles w stack held p)
    (hreg : p.needsRegistry = true → reg' = reg)
    (hrel : ∀ x, p.relHandle = some x → reg' = reg ∨ reg' ≠ some x)
    (hopen : ∀ x, p.openHandle = some x → handles'.lookup x = handles.lookup x) :
    ThreadOK reg' handles' w stack held p := by
  cases p with
  | idle => exact h
  | threadWait c => exact h
  | flockStart c => exact h
  | acquireFail c => exact h
  | upgradeUnlock c x => rw [hreg rfl]; exact h
  | upgradeWait c x => rw [hreg rfl]; exact h
  | upgradeRestore c x => rw [hreg rfl]; exact h
  | upgradePid c x => rw [hreg rfl]; exact h
  | upgradeUndo c => rw [hreg rfl]; exact h
  | opening c => rw [hreg rfl]; exact h
  | openWait c x =>
      obtain ⟨hs, hr, hm⟩ := h
      refine ⟨hs, (hreg rfl).trans hr, ?_⟩
      rwa [← AList.lookup_isSome, hopen x rfl, AList.lookup_isSome]
  | openRegister c x =>
      obtain ⟨hs, hr, hm⟩ := h
      refine ⟨hs, (hreg rfl).trans hr, ?_⟩
      rwa [hopen x rfl]
  | relUnlock x =>
      refine ⟨h.1, ?_⟩
      rcases hrel x rfl with he | hne
      · rw [he]; exact h.2
      · exact hne
  | relClose x =>
      refine ⟨h.1, ?_⟩
      rcases hrel x rfl with he | hne
      · rw [he]; exact h.2
      · exact hne
  | relDowngrade x => exact h
  | relThread => exact h

namespace GraphLock

variable {s s' : GraphLock} {t : Tid}

@[simp] theorem pcOf_setPc (s : GraphLock) (t u : Tid) (p : Pc) :
    (s.setPc t p).pcOf u = if u = t then p else s.pcOf u := by
  simp only [pcOf, setPc, Dict.getD_insert]

@[simp] theorem heldOf_setPc (s : GraphLock) (t u : Tid) (p : Pc) :
    (s.setPc t p).heldOf u = s.heldOf u := rfl

@[simp] theorem pcOf_setFlock (s : GraphLock) (h : Nat) (m : Option Bool) (u : Tid) :
    (s.setFlock h m).pcOf u = s.pcOf u := rfl

@[simp] theorem heldOf_setFlock (s : GraphLock) (h : Nat) (m : Option Bool) (u : Tid) :
    (s.setFlock h m).heldOf u = s.heldOf u := rfl

@[simp] theorem pcOf_newHandle (s : GraphLock) (u : Tid) :
    s.newHandle.pcOf u = s.pcOf u := rfl

@[simp] theorem heldOf_newHandle (s : GraphLock) (u : Tid) :
    s.newHandle.heldOf u = s.heldOf u := rfl

@[simp] theorem pcOf_closeHandle (s : GraphLock) (h : Nat) (u : Tid) :
    (s.closeHandle h).pcOf u = s.pcOf u := rfl

@[simp] theorem heldOf_closeHandle (s : GraphLock) (h : Nat) (u : Tid) :
    (s.closeHandle h).heldOf u = s.heldOf u := rfl

@[simp] theorem pcOf_setFileLock (s : GraphLock) (f : Option HeldFileLock) (u : Tid) :
    (s.setFileLock f).pcOf u = s.pcOf u := rfl

@[simp] theorem heldOf_setFileLock (s : GraphLock) (f : Option HeldFileLock) (u : Tid) :
    (s.setFileLock f).heldOf u = s.heldOf u := rfl

@[simp] theorem pcOf_setRw (s : GraphLock) (rw : RwSys) (u : Tid) :
    (s.setRw rw).pcOf u = s.pcOf u := rfl

@[simp] theorem heldOf_setRw (s : GraphLock) (rw : RwSys) (u : Tid) :
    (s.setRw rw).heldOf u = s.heldOf u := rfl

@[simp] theorem pcOf_setHeld (s : GraphLock) (t u : Tid) (l : List Bool) :
    (s.setHeld t l).pcOf u = s.pcOf u := rfl

@[simp] theorem heldOf_setHeld (s : GraphLock) (t u : Tid) (l : List Bool) :
    (s.setHeld t l).heldOf u = if u = t then l else s.heldOf u := by
  simp only [heldOf, setHeld, Dict.getD_insert]

@[simp] theorem finish_rw (s : GraphLock) (t : Tid) (x : Bool) :
    (s.finish t x).rw = s.rw := rfl

@[simp] theorem finish_fileLock (s : GraphLock) (t : Tid) (x : Bool) :
    (s.finish t x).fileLock = s.fileLock := rfl

@[simp] theorem finish_handles (s : GraphLock) (t : Tid) (x : Bool) :
    (s.finish t x).handles = s.handles := rfl

@[simp] theorem finish_nextHandle (s : GraphLock) (t : Tid) (x : Bool) :
    (s.finish t x).nextHandle = s.nextHandle := rfl

@[simp] theorem pcOf_finish (s : GraphLock) (t u : Tid) (x : Bool) :
    (s.finish t x).pcOf u = if u = t then .idle else s.pcOf u := by
  simp [finish]

@[simp] theorem heldOf_finish (s : GraphLock) (t u : Tid) (x : Bool) :
    (s.finish t x).heldOf u = if u = t then s.heldOf t ++ [x] else s.heldOf u := by
  simp [finish]

def regHandle (s : GraphLock) : Option Nat := s.fileLock.map HeldFileLock.handle

def modes (s : GraphLock) : List Bool := (s.fileLock.map HeldFileLock.modes).getD []

def own (s : GraphLock) (t : Tid) : List Bool := s.heldOf t ++ (s.pcOf t).entry

def threadOK (s : GraphLock) (t : Tid) : Prop :=
  ThreadOK s.regHandle s.handles ((s.rw.blocked.lookup t).map Blocked.waiter)
    (s.rw.lock.stack t) (s.heldOf t) (s.pcOf t)

/-- The registered handle is open, locked unless an upgrade is under way, and
locked exclusively for whoever holds an exclusive mode. -/
def Covered (s : GraphLock) : Prop :=
  ∀ f, s.fileLock = some f → f.modes ≠ [] ∧ ∃ mode, s.handles.lookup f.handle = some mode ∧
    ((∀ t, (s.pcOf t).inWindow = false) → mode ≠ none) ∧
    ∀ t, (true ∈ s.heldOf t ∨ (s.pcOf t).hasUpgraded = true) → mode = some true

structure Inv (s : GraphLock) : Prop where
  rw : s.rw.Inv
  thread : ∀ t, s.threadOK t
  opener : ∀ {t u}, (s.pcOf t).isOpening = true → (s.pcOf u).isOpening = true → t = u
  apart : ∀ {t u h}, (s.pcOf t).openHandle = some h → (s.pcOf u).relHandle ≠ some h
  fresh : ∀ {t h}, (s.pcOf t).handle = some h → h < s.nextHandle
  freshReg : ∀ {h}, s.regHandle = some h → h < s.nextHandle
  owners : Interleaves s.modes s.own
  covered : s.Covered

theorem inv_start : Inv {} where
  rw := RwSys.inv_start
  thread t := by simp [threadOK, ThreadOK, pcOf, heldOf, RwLock.stack]
  opener h := by simp [pcOf, Pc.isOpening] at h
  apart h := by simp [pcOf, Pc.openHandle] at h
  fresh h := by simp [pcOf, Pc.handle] at h
  freshReg h := by simp [regHandle] at h
  owners := ⟨[], rfl, fun t => by simp [own, heldOf, pcOf, Pc.entry]⟩
  covered f h := by simp at h

theorem Inv.mem_stack (h : Inv s) {m : Bool} (hm : m ∈ s.own t) :
    m ∈ s.rw.lock.stack t := by
  have ht := h.thread t
  unfold own at hm
  unfold threadOK at ht
  cases hp : s.pcOf t <;> simp only [hp, ThreadOK, Pc.entry, List.append_nil] at ht hm <;>
    grind

theorem Inv.alone (h : Inv s) (ht : true ∈ s.rw.lock.stack t) {u : Tid} (hu : u ≠ t) :
    s.own u = [] ∧ s.heldOf u = [] ∧ (s.pcOf u = .idle ∨ ∃ c, s.pcOf u = .threadWait c) := by
  have hnil := RwSys.stack_eq_nil_of_exclusive h.rw ht hu
  have hu' := h.thread u
  unfold threadOK at hu'
  rw [hnil] at hu'
  unfold own
  cases hp : s.pcOf u <;> simp only [hp, ThreadOK, Pc.entry, List.append_nil] at hu' ⊢ <;>
    simp at hu' ⊢ <;> grind

theorem Inv.fileLock_of_own (h : Inv s) (ht : s.own t ≠ []) :
    ∃ f, s.fileLock = some f := by
  cases hf : s.fileLock with
  | some f => exact ⟨f, rfl⟩
  | none =>
      have ho := h.owners
      simp only [modes, hf, Option.map_none, Option.getD_none] at ho
      exact absurd (ho.own_eq_nil t) ht

theorem Inv.own_eq_nil (h : Inv s) (hf : s.regHandle = none) (t : Tid) : s.own t = [] := by
  have ho := h.owners
  have hf' : s.fileLock = none := by simpa [regHandle] using hf
  simp only [modes, hf', Option.map_none, Option.getD_none] at ho
  exact ho.own_eq_nil t

theorem Inv.not_registered (h : Inv s) {x y : Nat} (ht : (s.pcOf t).openHandle = some x) :
    s.regHandle ≠ some y := by
  have hok := h.thread t
  unfold threadOK at hok
  intro hr
  cases hp : s.pcOf t <;> simp [hp, Pc.openHandle] at ht <;> simp [hp, ThreadOK, hr] at hok

/-! ## One thread moves, the others stay -/

/-- `s'` differs from `s` only in what thread `t` has done. -/
structure Moves (s s' : GraphLock) (t : Tid) : Prop where
  rw : s'.rw.Inv
  pc : ∀ u, u ≠ t → s'.pcOf u = s.pcOf u
  held : ∀ u, u ≠ t → s'.heldOf u = s.heldOf u
  stack : ∀ u, u ≠ t → s'.rw.lock.stack u = s.rw.lock.stack u
  waiter : ∀ u, u ≠ t → s'.rw.blocked.lookup u = s.rw.blocked.lookup u
  next : s.nextHandle ≤ s'.nextHandle

theorem inv_of_moves (h : Inv s) (hm : Moves s s' t) (hthread : s'.threadOK t)
    (hreg : ∀ u, u ≠ t → (s.pcOf u).needsRegistry = true → s'.regHandle = s.regHandle)
    (hrel : ∀ u, u ≠ t → ∀ x, (s.pcOf u).relHandle = some x →
      s'.regHandle = s.regHandle ∨ s'.regHandle ≠ some x)
    (hopen : ∀ u, u ≠ t → ∀ x, (s.pcOf u).openHandle = some x →
      s'.handles.lookup x = s.handles.lookup x)
    (hopener : (s'.pcOf t).isOpening = true → ∀ u, u ≠ t → (s.pcOf u).isOpening = false)
    (hapart : ∀ x, (s'.pcOf t).openHandle = some x → ∀ u, u ≠ t →
      (s.pcOf u).relHandle ≠ some x)
    (hapart' : ∀ x, (s'.pcOf t).relHandle = some x → ∀ u, u ≠ t →
      (s.pcOf u).openHandle ≠ some x)
    (hfresh : ∀ x, (s'.pcOf t).handle = some x → x < s'.nextHandle)
    (hfreshReg : ∀ x, s'.regHandle = some x → x < s'.nextHandle)
    (howners : Interleaves s'.modes s'.own) (hcov : s'.Covered) : Inv s' where
  rw := hm.rw
  thread u := by
    by_cases hu : u = t
    · exact hu ▸ hthread
    · have hf := (h.thread u).frame (hreg u hu) (hrel u hu) (hopen u hu)
      unfold threadOK
      rw [hm.pc u hu, hm.held u hu, hm.stack u hu, hm.waiter u hu]
      exact hf
  opener {u v} hu hv := by
    by_cases hut : u = t
    · by_cases hvt : v = t
      · rw [hut, hvt]
      · subst hut
        rw [hm.pc v hvt, hopener hu v hvt] at hv
        cases hv
    · by_cases hvt : v = t
      · subst hvt
        rw [hm.pc u hut, hopener hv u hut] at hu
        cases hu
      · rw [hm.pc u hut] at hu
        rw [hm.pc v hvt] at hv
        exact h.opener hu hv
  apart {u v x} hu hv := by
    by_cases hut : u = t
    · by_cases hvt : v = t
      · rw [hut] at hu
        rw [hvt] at hv
        cases hp : s'.pcOf t <;> simp [hp, Pc.openHandle, Pc.relHandle] at hu hv
      · subst hut
        rw [hm.pc v hvt] at hv
        exact hapart x hu v hvt hv
    · rw [hm.pc u hut] at hu
      by_cases hvt : v = t
      · subst hvt
        exact hapart' x hv u hut hu
      · rw [hm.pc v hvt] at hv
        exact h.apart hu hv
  fresh {u x} hu := by
    by_cases hut : u = t
    · subst hut; exact hfresh x hu
    · rw [hm.pc u hut] at hu
      exact Nat.lt_of_lt_of_le (h.fresh hu) hm.next
  freshReg {x} hx := hfreshReg x hx
  owners := howners
  covered := hcov

theorem inv_of_registry (h : Inv s) (hm : Moves s s' t) (hreg : s'.regHandle = s.regHandle)
    (hhd : s'.handles = s.handles) (hthread : s'.threadOK t)
    (hopener : (s'.pcOf t).isOpening = true → ∀ u, u ≠ t → (s.pcOf u).isOpening = false)
    (hhandle : ∀ x, (s'.pcOf t).handle = some x →
      (s.pcOf t).handle = some x ∨ s.regHandle = some x)
    (hopenH : ∀ x, (s'.pcOf t).openHandle = some x → (s.pcOf t).openHandle = some x)
    (hrelH : ∀ x, (s'.pcOf t).relHandle = some x →
      (s.pcOf t).relHandle = some x ∨ s.regHandle = some x)
    (howners : Interleaves s'.modes s'.own)
    (hne : ∀ f, s'.fileLock = some f → f.modes ≠ [])
    (hwindow : (s.pcOf t).inWindow = true → (s'.pcOf t).inWindow = true)
    (hexcl : true ∈ s'.heldOf t ∨ (s'.pcOf t).hasUpgraded = true →
      true ∈ s.heldOf t ∨ (s.pcOf t).hasUpgraded = true) : Inv s' := by
  refine inv_of_moves h hm hthread (fun _ _ _ => hreg) (fun _ _ _ _ => .inl hreg)
    (fun _ _ _ _ => by rw [hhd]) hopener ?_ ?_ ?_ ?_ howners ?_
  · intro x hx u _
    exact h.apart (hopenH x hx)
  · intro x hx u _ hux
    rcases hrelH x hx with hr | hr
    · exact h.apart hux hr
    · exact h.not_registered hux hr
  · intro x hx
    refine Nat.lt_of_lt_of_le ?_ hm.next
    rcases hhandle x hx with hr | hr
    · exact h.fresh hr
    · exact h.freshReg hr
  · intro x hx
    rw [hreg] at hx
    exact Nat.lt_of_lt_of_le (h.freshReg hx) hm.next
  · intro f' hf'
    have hhandle' : s.regHandle = some f'.handle := by
      rw [← hreg]; simp [regHandle, hf']
    obtain ⟨f, hf, hff⟩ : ∃ f, s.fileLock = some f ∧ f.handle = f'.handle := by
      simpa [regHandle] using hhandle'
    obtain ⟨-, mode, hl, hw, hx⟩ := h.covered f hf
    refine ⟨hne f' hf', mode, by rw [hhd, ← hff]; exact hl, ?_, ?_⟩
    · intro hnw
      refine hw fun u => ?_
      by_cases hut : u = t
      · subst hut
        by_contra hwin
        have := hwindow (by simpa using hwin)
        rw [hnw u] at this
        cases this
      · rw [← hm.pc u hut]; exact hnw u
    · intro u hu
      refine hx u ?_
      by_cases hut : u = t
      · subst hut; exact hexcl hu
      · rw [hm.pc u hut, hm.held u hut] at hu; exact hu

theorem inv_of_quiet (h : Inv s) (hm : Moves s s' t) (hfl : s'.fileLock = s.fileLock)
    (hhd : s'.handles = s.handles) (hthread : s'.threadOK t)
    (hopener : (s'.pcOf t).isOpening = true → ∀ u, u ≠ t → (s.pcOf u).isOpening = false)
    (hhandle : ∀ x, (s'.pcOf t).handle = some x → (s.pcOf t).handle = some x)
    (hopenH : ∀ x, (s'.pcOf t).openHandle = some x → (s.pcOf t).openHandle = some x)
    (hrelH : ∀ x, (s'.pcOf t).relHandle = some x → (s.pcOf t).relHandle = some x)
    (hown : s'.own t = s.own t)
    (hwindow : (s.pcOf t).inWindow = true → (s'.pcOf t).inWindow = true)
    (hexcl : true ∈ s'.heldOf t ∨ (s'.pcOf t).hasUpgraded = true →
      true ∈ s.heldOf t ∨ (s.pcOf t).hasUpgraded = true) : Inv s' := by
  refine inv_of_registry h hm (by unfold regHandle; rw [hfl]) hhd hthread hopener
    (fun x hx => .inl (hhandle x hx)) hopenH (fun x hx => .inl (hrelH x hx)) ?_ ?_
    hwindow hexcl
  · have hmodes : s'.modes = s.modes := by unfold modes; rw [hfl]
    rw [hmodes]
    refine h.owners.congr fun u => ?_
    by_cases hu : u = t
    · rw [hu, hown]
    · unfold own; rw [hm.pc u hu, hm.held u hu]
  · intro f hf
    rw [hfl] at hf
    exact (h.covered f hf).1

theorem moves_setPc (h : Inv s) (t : Tid) (p : Pc) : Moves s (s.setPc t p) t where
  rw := h.rw
  pc u hu := by simp [hu]
  held _ _ := rfl
  stack _ _ := rfl
  waiter _ _ := rfl
  next := Nat.le_refl _

/-! ## The thread lock's turns -/

theorem Inv.stack_eq_held (h : Inv s)
    (hpc : s.pcOf t = .idle ∨ ∃ c, s.pcOf t = .threadWait c) :
    s.rw.lock.stack t = s.heldOf t := by
  have ht := h.thread t
  unfold threadOK at ht
  rcases hpc with hp | ⟨c, hp⟩
  · rw [hp] at ht; exact ht
  · rw [hp] at ht; exact ht.1

theorem inv_afterThread (h : Inv s) {c : Call} {rw' : RwSys} {p : RwLock.Poll}
    (hpc : s.pcOf t = .idle ∨ ∃ c, s.pcOf t = .threadWait c) (hrw : rw'.Inv)
    (hstack : ∀ u, rw'.lock.stack u = if u = t ∧ p = .acquired
      then s.rw.lock.stack u ++ [c.exclusive] else s.rw.lock.stack u)
    (hblocked : ∀ u, u ≠ t → rw'.blocked.lookup u = s.rw.blocked.lookup u)
    (hwait : p = .waiting →
      ∃ b, rw'.blocked.lookup t = some b ∧ b.waiter.exclusive = c.exclusive) :
    Inv (s.afterThread t c rw' p) := by
  have hst := h.stack_eq_held hpc
  have hstt := hstack t
  have hm : ∀ q, Moves s ((s.setRw rw').setPc t q) t := fun q =>
    ⟨hrw, fun u hu => (pcOf_setPc _ _ _ _).trans (if_neg hu), fun _ _ => rfl,
      fun u hu => by simpa [hu] using hstack u, hblocked, Nat.le_refl _⟩
  have hentry : (s.pcOf t).entry = [] ∧ (s.pcOf t).inWindow = false := by
    rcases hpc with hp | ⟨c', hp⟩ <;> rw [hp] <;> exact ⟨rfl, rfl⟩
  have hheld : ∀ q, ((s.setRw rw').setPc t q).heldOf t = s.heldOf t := fun _ => rfl
  cases p with
  | acquired =>
      refine inv_of_quiet h (hm _) rfl rfl ?_ ?_ ?_ ?_ ?_ ?_ ?_ ?_
      all_goals simp only [afterThread, threadOK, pcOf_setPc, if_true, own, hheld, hentry]
      · simpa [ThreadOK, hst] using hstt
      all_goals simp [Pc.isOpening, Pc.handle, Pc.openHandle, Pc.relHandle, Pc.entry,
        Pc.hasUpgraded]
      exact Or.inl
  | failed =>
      refine inv_of_quiet h (hm _) rfl rfl ?_ ?_ ?_ ?_ ?_ ?_ ?_ ?_
      all_goals simp only [afterThread, threadOK, pcOf_setPc, if_true, own, hheld, hentry]
      · simpa [ThreadOK, hst] using hstt
      all_goals simp [Pc.isOpening, Pc.handle, Pc.openHandle, Pc.relHandle, Pc.entry,
        Pc.hasUpgraded]
      exact Or.inl
  | waiting =>
      obtain ⟨b, hb, hbx⟩ := hwait rfl
      refine inv_of_quiet h (hm _) rfl rfl ?_ ?_ ?_ ?_ ?_ ?_ ?_ ?_
      all_goals simp only [afterThread, threadOK, pcOf_setPc, if_true, own, hheld, hentry]
      · refine ⟨by simpa [hst] using hstt, ?_⟩
        show ((rw'.blocked.lookup t).map Blocked.waiter).map Waiter.exclusive = _
        rw [hb]
        simpa using hbx
      all_goals simp [Pc.isOpening, Pc.handle, Pc.openHandle, Pc.relHandle, Pc.entry,
        Pc.hasUpgraded]
      exact Or.inl

theorem inv_threadRelease (h : Inv s) {rw' : RwSys} {o : RwOut} {m : Bool}
    (hst : s.rw.lock.stack t = s.heldOf t ++ [m]) (hentry : (s.pcOf t).entry = [])
    (hwindow : (s.pcOf t).inWindow = false)
    (he : s.rw.exec (.release t) = some (o, rw')) :
    Inv ((s.setRw rw').setPc t .idle) := by
  have hstack := RwSys.exec_release_stack h.rw he
  have hm : Moves s ((s.setRw rw').setPc t .idle) t :=
    ⟨RwSys.inv_exec h.rw he, fun u hu => (pcOf_setPc _ _ _ _).trans (if_neg hu),
      fun _ _ => rfl, fun u hu => (hstack u).trans (if_neg hu),
      fun u hu => RwSys.exec_blocked h.rw he hu, Nat.le_refl _⟩
  have hheld : ((s.setRw rw').setPc t .idle).heldOf t = s.heldOf t := rfl
  refine inv_of_quiet h hm rfl rfl ?_ ?_ ?_ ?_ ?_ ?_ ?_ ?_
  all_goals simp only [threadOK, pcOf_setPc, if_true, own, hheld, hentry, hwindow]
  · show rw'.lock.stack t = s.heldOf t
    rw [hstack t, if_pos rfl, hst, List.dropLast_concat]
  all_goals simp [Pc.isOpening, Pc.handle, Pc.openHandle, Pc.relHandle, Pc.entry,
    Pc.hasUpgraded]
  exact Or.inl

/-! ## Moving on without touching the lock file -/

theorem inv_setPc (h : Inv s) {q : Pc}
    (hthread : ThreadOK s.regHandle s.handles ((s.rw.blocked.lookup t).map Blocked.waiter)
      (s.rw.lock.stack t) (s.heldOf t) q)
    (hopener : q.isOpening = true → ∀ u, u ≠ t → (s.pcOf u).isOpening = false)
    (hhandle : ∀ x, q.handle = some x → (s.pcOf t).handle = some x)
    (hopenH : ∀ x, q.openHandle = some x → (s.pcOf t).openHandle = some x)
    (hrelH : ∀ x, q.relHandle = some x → (s.pcOf t).relHandle = some x)
    (hentry : q.entry = (s.pcOf t).entry)
    (hwindow : (s.pcOf t).inWindow = true → q.inWindow = true)
    (hexcl : q.hasUpgraded = true → (s.pcOf t).hasUpgraded = true) :
    Inv (s.setPc t q) := by
  refine inv_of_quiet h (moves_setPc h t q) rfl rfl ?_ ?_ ?_ ?_ ?_ ?_ ?_ ?_
  all_goals simp only [threadOK, pcOf_setPc, if_true, own, heldOf_setPc]
  · exact hthread
  · exact hopener
  · exact hhandle
  · exact hopenH
  · exact hrelH
  · rw [hentry]
  · exact hwindow
  · exact Or.imp_right hexcl

/-! ## `_flock_acquire` -/

theorem Inv.ok (h : Inv s) {p : Pc} (hp : s.pcOf t = p) :
    ThreadOK s.regHandle s.handles ((s.rw.blocked.lookup t).map Blocked.waiter)
      (s.rw.lock.stack t) (s.heldOf t) p := hp ▸ h.thread t

theorem inv_check_some (h : Inv s) {c : Call} {f : HeldFileLock}
    (hp : s.pcOf t = .flockStart c) (hf : s.fileLock = some f) : Inv (s.check t c) := by
  have hst : s.rw.lock.stack t = s.heldOf t ++ [c.exclusive] := h.ok hp
  have hown : s.own t = s.heldOf t := by simp [own, hp, Pc.entry]
  have hmodes : s.modes = f.modes := by simp [modes, hf]
  have hint : Interleaves f.modes s.own := hmodes ▸ h.owners
  have hreg : s.regHandle = some f.handle := by simp [regHandle, hf]
  have hpush : Interleaves (f.modes ++ [c.exclusive])
      (fun u => if u = t then s.heldOf t ++ [c.exclusive] else s.own u) := by
    have := hint.push t c.exclusive
    rwa [hown] at this
  -- an exclusive caller is the only owner of modes
  have hunit : c.exclusive = true → f.modes = s.heldOf t := by
    intro hcx
    refine (hint.eq_own fun u hu => ?_).trans hown
    exact (h.alone (t := t) (by rw [hst, hcx]; simp) hu).1
  have hwindow : (s.pcOf t).inWindow = false := by rw [hp]; rfl
  simp only [check, hf]
  split
  · rename_i hup
    obtain ⟨hcx, hany⟩ : c.exclusive = true ∧ true ∉ f.modes := by simpa using hup
    have hne := (h.covered f hf).1
    rw [hunit hcx] at hany hne
    refine inv_of_registry (t := t) h ⟨h.rw, fun u hu => by simp [hu], fun u _ => by simp,
      fun _ _ => rfl, fun _ _ => rfl, Nat.le_refl _⟩ (by simp [regHandle, hf]) rfl ?_
      (by simp [Pc.isOpening]) ?_ (by simp [Pc.openHandle]) (by simp [Pc.relHandle]) ?_
      (by simp) (by simp [hwindow]) (by simp [Pc.hasUpgraded]; exact Or.inl)
    · simp only [threadOK, pcOf_setPc, if_true, ThreadOK]
      exact ⟨by rw [← hcx]; exact hst, hcx, hany, hne, rfl⟩
    · intro x hx
      right
      simpa [hreg, Pc.handle] using hx
    · refine hpush.congr fun u => ?_
      by_cases hu : u = t
      · subst hu; simp [own, Pc.entry, hcx]
      · simp [own, hu]
  · rename_i hup
    refine inv_of_registry (t := t) h ⟨h.rw, fun u hu => by simp [hu],
      fun u hu => by simp [hu], fun _ _ => rfl, fun _ _ => rfl, Nat.le_refl _⟩
      (by simp [regHandle, hf]) rfl ?_ (by simp [Pc.isOpening]) (by simp [Pc.handle])
      (by simp [Pc.openHandle]) (by simp [Pc.relHandle]) ?_ (by simp) (by simp [hwindow]) ?_
    · simp only [threadOK, pcOf_finish, heldOf_finish, if_true, ThreadOK]
      exact hst
    · refine hpush.congr fun u => ?_
      by_cases hu : u = t
      · subst hu; simp [own, Pc.entry]
      · simp [own, hu]
    · -- a nested exclusive acquire finds an exclusive mode, and it is the caller's own
      intro hx
      left
      simp only [heldOf_finish, pcOf_finish, if_true, Pc.hasUpgraded, heldOf_setFileLock,
        List.mem_append, List.mem_singleton, Bool.false_eq_true, or_false] at hx
      rcases hx with hx | hx
      · exact hx
      · rw [← hunit hx.symm]
        simpa [← hx] using hup

theorem inv_check_none (h : Inv s) {c : Call} (hp : s.pcOf t = .flockStart c)
    (hf : s.fileLock = none) (hfree : ∀ u, u ≠ t → (s.pcOf u).isOpening = false) :
    Inv (s.check t c) := by
  have hst : s.rw.lock.stack t = s.heldOf t ++ [c.exclusive] := h.ok hp
  simp only [check, hf]
  refine inv_setPc h ⟨hst, by simp [regHandle, hf]⟩ (fun _ => hfree) ?_ ?_ ?_ ?_ ?_ ?_ <;>
    simp [hp, Pc.handle, Pc.openHandle, Pc.relHandle, Pc.entry, Pc.inWindow, Pc.hasUpgraded]

theorem inv_writePid (h : Inv s) {c : Call} {x : Nat} (hp : s.pcOf t = .upgradePid c x) :
    Inv (s.finish t c.exclusive) := by
  obtain ⟨hst, hcx, -, -, hreg⟩ := h.ok hp
  refine inv_of_quiet (t := t) h ⟨h.rw, fun u hu => by simp [hu], fun u hu => by simp [hu],
    fun _ _ => rfl, fun _ _ => rfl, Nat.le_refl _⟩ rfl rfl ?_ ?_ ?_ ?_ ?_ ?_ ?_ ?_
  · simp only [threadOK, pcOf_finish, heldOf_finish, if_true, ThreadOK]
    rw [hcx]; exact hst
  all_goals simp [hp, own, Pc.isOpening, Pc.handle, Pc.openHandle, Pc.relHandle, Pc.entry,
    Pc.inWindow, Pc.hasUpgraded, hcx]

theorem inv_undo (h : Inv s) {c : Call} (hp : s.pcOf t = .upgradeUndo c) :
    Inv ((s.setFileLock (s.fileLock.map fun f => { f with modes := f.modes.dropLast })).setPc t
      (.acquireFail c)) := by
  obtain ⟨hst, hcx, -, hne, -⟩ := h.ok hp
  have hown : s.own t = s.heldOf t ++ [true] := by simp [own, hp, Pc.entry]
  have halone : ∀ u, u ≠ t → s.own u = [] := fun u hu =>
    (h.alone (t := t) (by rw [hst]; simp) hu).1
  have hmodes := h.owners.eq_own halone
  have hpop := h.owners.pop hown (.inr halone)
  refine inv_of_registry (t := t) h ⟨h.rw, fun u hu => by simp [hu], fun u hu => by simp,
    fun _ _ => rfl, fun _ _ => rfl, Nat.le_refl _⟩ ?_ rfl ?_ ?_ ?_ ?_ ?_ ?_ ?_ ?_ ?_
  · cases hf : s.fileLock <;> simp [regHandle, hf]
  · simp only [threadOK, pcOf_setPc, if_true, ThreadOK]
    rw [hcx]; exact hst
  · simp [Pc.isOpening]
  · simp [Pc.handle]
  · simp [Pc.openHandle]
  · simp [Pc.relHandle]
  · have hdrop : ((s.setFileLock (s.fileLock.map fun f =>
        { f with modes := f.modes.dropLast })).setPc t (.acquireFail c)).modes
          = s.modes.dropLast := by
      cases hf : s.fileLock <;> simp [modes, hf]
    rw [hdrop]
    refine hpop.congr fun u => ?_
    by_cases hu : u = t
    · subst hu; simp [own, Pc.entry]
    · simp [own, hu]
  · intro f' hf'
    obtain ⟨f, hf, rfl⟩ : ∃ f, s.fileLock = some f ∧
        { f with modes := f.modes.dropLast } = f' := by simpa using hf'
    have : f.modes = s.heldOf t ++ [true] := by
      rw [← hown, ← hmodes]; simp [modes, hf]
    simpa [this] using hne
  · simp [hp, Pc.inWindow]
  · simp [Pc.hasUpgraded]
    exact Or.inl

/-! ## `_flock_release` -/

/-- The last mode of the releasing thread is one of the registry's like any other, or the
registry is the thread's alone: an exclusive mode anywhere in it is its own. -/
theorem Inv.like_or_alone (h : Inv s) {m : Bool} {modes r : List Bool}
    (hint : Interleaves modes s.own) (hown : s.own t = r ++ [m]) (hheld : s.heldOf t ≠ []) :
    (∀ y ∈ modes, y = m) ∨ ∀ u, u ≠ t → s.own u = [] := by
  have halone : true ∈ modes → ∀ u, u ≠ t → s.own u = [] := by
    intro htrue
    obtain ⟨v, hv⟩ := hint.exists_owner htrue
    have hvs := h.mem_stack hv
    have hvt : v = t := by
      by_contra hne
      have := (h.alone hvs (Ne.symm hne)).2.1
      exact hheld this
    subst hvt
    exact fun u hu => (h.alone hvs hu).1
  by_cases htrue : true ∈ modes
  · exact .inr (halone htrue)
  · have hall : ∀ y ∈ modes, y = false := by
      intro y hy
      cases y with
      | false => rfl
      | true => exact absurd hy htrue
    have hm : m = false := hall m (hint.mem_of_mem_own (t := t) (by simp [hown]))
    exact .inl (hm ▸ hall)

/-- No thread is opening a handle or upgrading while another one that holds the lock gives it
back: the first has found no entry, the second is alone. -/
theorem Inv.no_registry (h : Inv s) {x : Nat} (hreg : s.regHandle = some x)
    (hheld : s.heldOf t ≠ [])
    {u : Tid} (hu : u ≠ t) : (s.pcOf u).needsRegistry = false := by
  rw [Bool.eq_false_iff]
  intro hneed
  have hok := h.thread u
  unfold threadOK at hok
  rw [hreg] at hok
  cases hpu : s.pcOf u <;> simp [hpu, Pc.needsRegistry] at hneed <;>
    simp [hpu, ThreadOK] at hok
  all_goals
    exact hheld (h.alone (t := u) (by rw [hok.1]; simp) (Ne.symm hu)).2.1

section Release

variable {r : List Bool} {m : Bool} {f : HeldFileLock} (h : Inv s) (hp : s.pcOf t = .idle)
  (hr : s.heldOf t = r ++ [m]) (hf : s.fileLock = some f)

include h hp hr hf

theorem own_release (g : Option HeldFileLock) {q : Pc} (hq : Pc.entry q = []) :
    Interleaves f.modes.dropLast (((s.setHeld t r).setFileLock g).setPc t q).own := by
  have hown : s.own t = r ++ [m] := by simp [own, hp, Pc.entry, hr]
  have hmodes : s.modes = f.modes := by simp [modes, hf]
  have hint : Interleaves f.modes s.own := hmodes ▸ h.owners
  refine (hint.pop hown (h.like_or_alone hint hown (by simp [hr]))).congr fun u => ?_
  by_cases hu : u = t
  · subst hu; simp [own, hq]
  · simp [own, hu]

omit hp hr hf in
theorem moves_release (g : Option HeldFileLock) (q : Pc) :
    Moves s (((s.setHeld t r).setFileLock g).setPc t q) t :=
  ⟨h.rw, fun u hu => by simp [hu], fun u hu => by simp [hu], fun _ _ => rfl,
    fun _ _ => rfl, Nat.le_refl _⟩

theorem inv_release_last (hlast : f.modes.dropLast = []) :
    Inv (((s.setHeld t r).setFileLock none).setPc t (.relUnlock f.handle)) := by
  have hst : s.rw.lock.stack t = s.heldOf t := h.ok hp
  have hreg : s.regHandle = some f.handle := by simp [regHandle, hf]
  refine inv_of_moves (t := t) h (moves_release h none _) ?_ ?_ ?_ (fun _ _ _ _ => rfl) ?_ ?_ ?_ ?_
    ?_ ?_ ?_
  · simp only [threadOK, pcOf_setPc, if_true, ThreadOK]
    exact ⟨⟨m, by simp [hst, hr]⟩, by simp [regHandle]⟩
  · intro u hu hneed
    rw [h.no_registry hreg (by simp [hr]) hu] at hneed
    cases hneed
  · exact fun u hu x _ => .inr (by simp [regHandle])
  · simp [Pc.isOpening]
  · simp [Pc.openHandle]
  · intro x _ u _ hux
    exact h.not_registered hux hreg
  · simp only [pcOf_setPc, if_true, Pc.handle, Option.some.injEq]
    rintro x rfl
    exact h.freshReg hreg
  · simp [regHandle]
  · have := own_release h hp hr hf none (q := .relUnlock f.handle) rfl
    rw [hlast] at this
    simpa [modes] using this
  · exact fun f' hf' => by simp at hf'

theorem inv_release_more (hmore : f.modes.dropLast ≠ []) {q : Pc} (hentry : Pc.entry q = [])
    (hopening : Pc.isOpening q = false) (hopen : Pc.openHandle q = none)
    (hhandle : ∀ x, Pc.handle q = some x → s.regHandle = some x) (hup : Pc.hasUpgraded q = false)
    (hrel : ∀ x, Pc.relHandle q = some x → s.regHandle = some x)
    (hthread : (((s.setHeld t r).setFileLock (some { f with modes := f.modes.dropLast })).setPc
      t q).threadOK t) :
    Inv (((s.setHeld t r).setFileLock (some { f with modes := f.modes.dropLast })).setPc t q) := by
  refine inv_of_registry (t := t) h (moves_release h _ _) (by simp [regHandle, hf]) rfl hthread
    (by simp [hopening]) (by simpa using fun x hx => .inr (hhandle x hx)) (by simp [hopen])
    (by simpa using fun x hx => .inr (hrel x hx)) ?_ ?_ (by simp [hp, Pc.inWindow]) ?_
  · have hmodes' : (((s.setHeld t r).setFileLock
        (some { f with modes := f.modes.dropLast })).setPc t q).modes
          = f.modes.dropLast := by simp [modes]
    rw [hmodes']
    exact own_release h hp hr hf _ hentry
  · rintro f' hf'
    obtain rfl : { f with modes := f.modes.dropLast } = f' := by simpa using hf'
    exact hmore
  · intro hx
    left
    simp only [heldOf_setPc, heldOf_setFileLock, heldOf_setHeld, pcOf_setPc, if_true,
      hup, Bool.false_eq_true, or_false] at hx
    rw [hr]
    simp [hx]

end Release

theorem inv_release (h : Inv s) (hp : s.pcOf t = .idle) (hheld : s.heldOf t ≠ []) :
    Inv ((s.setHeld t (s.heldOf t).dropLast).flockRelease t) := by
  have hst : s.rw.lock.stack t = s.heldOf t := h.ok hp
  obtain ⟨r, m, hr⟩ : ∃ r m, s.heldOf t = r ++ [m] :=
    ⟨_, _, (List.dropLast_append_getLast hheld).symm⟩
  obtain ⟨f, hf⟩ := h.fileLock_of_own (t := t) (by simp [own, hp, Pc.entry, hr])
  have hreg : s.regHandle = some f.handle := by simp [regHandle, hf]
  have hne := (h.covered f hf).1
  simp only [hr, List.dropLast_concat, flockRelease, setHeld_fileLock, hf, hne, if_false]
  split
  · rename_i hlast
    exact inv_release_last h hp hr hf hlast
  · rename_i hmore
    split
    · refine inv_release_more h hp hr hf hmore rfl rfl rfl (by simp [Pc.handle]) rfl
        (by simp [Pc.relHandle]) ?_
      simp only [threadOK, pcOf_setPc, if_true, ThreadOK]
      exact ⟨m, by simp [hst, hr]⟩
    · rename_i hany
      refine inv_release_more h hp hr hf hmore rfl rfl rfl (by simp [Pc.handle, hreg]) rfl
        (by simp [Pc.relHandle, hreg]) ?_
      simp only [threadOK, pcOf_setPc, if_true, ThreadOK]
      refine ⟨⟨m, by simp [hst, hr]⟩, fun hmem => hany ?_⟩
      have hd := (own_release h hp hr hf none (q := .relUnlock f.handle)
        rfl).mem_of_mem_own (t := t) (x := true)
        (by simpa [own, Pc.entry] using hmem)
      simpa using hd

/-! ## Calls on one handle -/

/-- A move that changes one handle of the lock file, one that no other thread is
opening. -/
theorem inv_of_handle (h : Inv s) (hm : Moves s s' t) (hfl : s'.fileLock = s.fileLock)
    {x : Nat} (hhd : ∀ y, y ≠ x → s'.handles.lookup y = s.handles.lookup y)
    (hmine : ∀ u, u ≠ t → (s.pcOf u).openHandle ≠ some x) (hthread : s'.threadOK t)
    (hopener : (s'.pcOf t).isOpening = true → (s.pcOf t).isOpening = true)
    (hopenH : ∀ y, (s'.pcOf t).openHandle = some y → ∀ u, u ≠ t →
      (s.pcOf u).relHandle ≠ some y)
    (hrelH : ∀ y, (s'.pcOf t).relHandle = some y → (s.pcOf t).relHandle = some y)
    (hfresh : ∀ y, (s'.pcOf t).handle = some y → y < s'.nextHandle)
    (hown : s'.own t = s.own t) (hcov : s'.Covered) : Inv s' := by
  have hreg : s'.regHandle = s.regHandle := by unfold regHandle; rw [hfl]
  refine inv_of_moves h hm hthread (fun _ _ _ => hreg) (fun _ _ _ _ => .inl hreg) ?_ ?_
    hopenH ?_ hfresh ?_ ?_ hcov
  · intro u hu y hy
    refine hhd y fun hyx => hmine u hu ?_
    rw [hy, hyx]
  · intro ho u hu
    by_contra hne
    exact hu (h.opener (by simpa using hne) (hopener ho))
  · intro y hy u _ hux
    exact h.apart hux (hrelH y hy)
  · intro y hy
    rw [hreg] at hy
    exact Nat.lt_of_lt_of_le (h.freshReg hy) hm.next
  · have hmodes : s'.modes = s.modes := by unfold modes; rw [hfl]
    rw [hmodes]
    refine h.owners.congr fun u => ?_
    by_cases hu : u = t
    · rw [hu, hown]
    · unfold own; rw [hm.pc u hu, hm.held u hu]

theorem covered_of_none (hfl : s'.fileLock = s.fileLock) (hreg : s.regHandle = none) :
    s'.Covered := by
  intro f hf
  rw [hfl] at hf
  simp [regHandle, hf] at hreg

theorem Inv.covered_of_ne (h : Inv s) (hm : Moves s s' t) (hfl : s'.fileLock = s.fileLock)
    {x : Nat} (hhd : ∀ y, y ≠ x → s'.handles.lookup y = s.handles.lookup y)
    (hreg : s.regHandle ≠ some x) (hheld : s'.heldOf t = s.heldOf t)
    (hwindow : (s.pcOf t).inWindow = false) (hup : (s'.pcOf t).hasUpgraded = false) :
    s'.Covered := by
  intro f hf
  rw [hfl] at hf
  obtain ⟨hne, mode, hl, hw, hx⟩ := h.covered f hf
  have hfx : f.handle ≠ x := by
    rintro rfl
    exact hreg (by simp [regHandle, hf])
  refine ⟨hne, mode, by rw [hhd _ hfx]; exact hl, ?_, ?_⟩
  · intro hnw
    refine hw fun u => ?_
    by_cases hut : u = t
    · rw [hut]; exact hwindow
    · rw [← hm.pc u hut]; exact hnw u
  · intro u hu
    refine hx u ?_
    by_cases hut : u = t
    · subst hut
      rw [hheld, hup] at hu
      exact hu.imp_right (by simp)
    · rw [hm.pc u hut, hm.held u hut] at hu; exact hu

/-- Work on the registered handle by a thread that leaves nobody, itself
included, an exclusive mode to back. -/
theorem covered_of_shared (mode : Option Bool) (h : Inv s) (hm : Moves s s' t)
    (hfl : s'.fileLock = s.fileLock) {x : Nat} (hl : s'.handles.lookup x = some mode)
    (hreg : s.regHandle = some x)
    (hmode : (∀ u, (s'.pcOf u).inWindow = false) → mode ≠ none)
    (halone : ∀ u, u ≠ t → true ∉ s.heldOf u ∧ (s.pcOf u).hasUpgraded = false)
    (hexcl : true ∈ s'.heldOf t ∨ (s'.pcOf t).hasUpgraded = true → mode = some true) :
    s'.Covered := by
  intro f hf
  rw [hfl] at hf
  have hfx : f.handle = x := by simpa [regHandle, hf] using hreg
  refine ⟨(h.covered f hf).1, mode, by rw [hfx]; exact hl, hmode, fun u hu => ?_⟩
  by_cases hut : u = t
  · subst hut; exact hexcl hu
  · rw [hm.pc u hut, hm.held u hut] at hu
    rcases hu with hu | hu
    · exact absurd hu (halone u hut).1
    · rw [(halone u hut).2] at hu; cases hu

theorem moves_setFlock (h : Inv s) (t : Tid) (x : Nat) (m : Option Bool) (p : Pc) :
    Moves s ((s.setFlock x m).setPc t p) t :=
  ⟨h.rw, fun u hu => by simp [hu], fun u _ => by simp, fun _ _ => rfl, fun _ _ => rfl,
    Nat.le_refl _⟩

theorem moves_closeHandle (h : Inv s) (t : Tid) (x : Nat) (p : Pc) :
    Moves s ((s.closeHandle x).setPc t p) t :=
  ⟨h.rw, fun u hu => by simp [hu], fun u _ => by simp, fun _ _ => rfl, fun _ _ => rfl,
    Nat.le_refl _⟩

theorem lookup_setFlock_ne (s : GraphLock) (t : Tid) (x : Nat) (m : Option Bool) (p : Pc)
    (y : Nat) (hy : y ≠ x) :
    ((s.setFlock x m).setPc t p).handles.lookup y = s.handles.lookup y := by
  simp [hy]

theorem lookup_closeHandle_ne (s : GraphLock) (t : Tid) (x : Nat) (p : Pc) (y : Nat)
    (hy : y ≠ x) : ((s.closeHandle x).setPc t p).handles.lookup y = s.handles.lookup y := by
  simp [hy]

theorem inv_upgrade (h : Inv s) {x : Nat} {mode : Option Bool} {q : Pc}
    (hst : s.rw.lock.stack t = s.heldOf t ++ [true]) (hreg : s.regHandle = some x)
    (htrue : true ∉ s.heldOf t) (hentry : q.entry = (s.pcOf t).entry)
    (hhandle : ∀ y, q.handle = some y → y = x) (hq : q.openHandle = none)
    (hq' : q.relHandle = none) (hq'' : q.isOpening = false)
    (hthread : ((s.setFlock x mode).setPc t q).threadOK t)
    (hmode : q.inWindow = false → mode ≠ none)
    (hup : q.hasUpgraded = true → mode = some true) :
    Inv ((s.setFlock x mode).setPc t q) := by
  refine inv_of_handle h (moves_setFlock h t x mode q) rfl
    (lookup_setFlock_ne s t x mode q) (fun u _ hu => h.not_registered hu hreg) hthread
    (by simp [hq'']) (by simp [hq]) (by simp [hq']) ?_ (by simp [own, hentry]) ?_
  · intro y hy
    rw [pcOf_setPc, if_pos rfl] at hy
    rw [hhandle y hy]
    exact h.freshReg hreg
  · refine covered_of_shared mode h (moves_setFlock h t x mode q) rfl
      (by simp) hreg ?_ ?_ ?_
    · intro hnw
      exact hmode (by simpa using hnw t)
    · intro u hu
      obtain ⟨-, hnil, hpu⟩ := h.alone (t := t) (by rw [hst]; simp) hu
      rw [hnil]
      rcases hpu with hpu | ⟨c, hpu⟩ <;> rw [hpu] <;> exact ⟨by simp, rfl⟩
    · intro hx
      refine hup ?_
      simpa [htrue] using hx

theorem inv_opening (h : Inv s) {x : Nat} {c : Call} (hp : s.pcOf t = .openWait c x)
    {q : Pc} (hhd : ∀ y, y ≠ x → s'.handles.lookup y = s.handles.lookup y)
    (hm : Moves s s' t) (hfl : s'.fileLock = s.fileLock) (hpc : s'.pcOf t = q)
    (hheld : s'.heldOf t = s.heldOf t) (hthread : s'.threadOK t)
    (hq : q = .openRegister c x ∨ q = .acquireFail c) : Inv s' := by
  obtain ⟨-, hreg, -⟩ := h.ok hp
  have hopen : (s.pcOf t).openHandle = some x := by rw [hp]; rfl
  have hown : s'.own t = s.own t := by
    unfold own
    rw [hheld, hpc, hp]
    rcases hq with rfl | rfl <;> rfl
  refine inv_of_handle h hm hfl hhd ?_ hthread (fun _ => by rw [hp]; rfl) ?_ ?_ ?_ hown
    (covered_of_none hfl hreg)
  · intro u hu hux
    refine hu (h.opener ?_ (by rw [hp]; rfl))
    cases hpu : s.pcOf u <;> simp [hpu, Pc.openHandle] at hux <;> rfl
  · intro y hy u _
    rw [hpc] at hy
    rcases hq with rfl | rfl
    · obtain rfl : x = y := by simpa [Pc.openHandle] using hy
      exact h.apart hopen
    · simp [Pc.openHandle] at hy
  · intro y hy
    rw [hpc] at hy
    rcases hq with rfl | rfl <;> simp [Pc.relHandle] at hy
  · intro y hy
    rw [hpc] at hy
    refine Nat.lt_of_lt_of_le ?_ hm.next
    rcases hq with rfl | rfl
    · obtain rfl : x = y := by simpa [Pc.handle] using hy
      exact h.fresh (t := t) (by rw [hp]; rfl)
    · simp [Pc.handle] at hy

theorem inv_rel (h : Inv s) {x : Nat} (hrel : (s.pcOf t).relHandle = some x)
    (hreg : s.regHandle ≠ some x) {q : Pc}
    (hhd : ∀ y, y ≠ x → s'.handles.lookup y = s.handles.lookup y)
    (hm : Moves s s' t) (hfl : s'.fileLock = s.fileLock) (hpc : s'.pcOf t = q)
    (hheld : s'.heldOf t = s.heldOf t) (hthread : s'.threadOK t)
    (hq : q = .relClose x ∨ q = .relThread) : Inv s' := by
  have hentry : (s.pcOf t).entry = [] ∧ (s.pcOf t).inWindow = false ∧
      (s.pcOf t).handle = some x := by
    cases hp : s.pcOf t <;> simp [hp, Pc.relHandle] at hrel <;> simp [hrel, Pc.entry, Pc.inWindow,
      Pc.handle]
  have hq' : q.entry = [] ∧ q.isOpening = false ∧ q.openHandle = none ∧
      q.hasUpgraded = false ∧ (∀ y, q.relHandle = some y → y = x) ∧
      ∀ y, q.handle = some y → y = x := by
    rcases hq with rfl | rfl <;>
      simp [Pc.entry, Pc.isOpening, Pc.openHandle, Pc.hasUpgraded, Pc.relHandle, Pc.handle]
  obtain ⟨he, ho, hoh, hup, hrh, hh⟩ := hq'
  refine inv_of_handle h hm hfl hhd (fun u _ hux => h.apart hux hrel) hthread ?_ ?_ ?_ ?_ ?_
    (h.covered_of_ne hm hfl hhd hreg hheld hentry.2.1 (by rw [hpc]; exact hup))
  · rw [hpc, ho]; simp
  · rw [hpc, hoh]; simp
  · intro y hy
    rw [hpc] at hy
    rw [hrh y hy]; exact hrel
  · intro y hy
    rw [hpc] at hy
    rw [hh y hy]
    exact Nat.lt_of_lt_of_le (h.fresh hentry.2.2) hm.next
  · unfold own
    rw [hheld, hpc, he, hentry.1]

theorem inv_downgrade (h : Inv s) {x : Nat} (hp : s.pcOf t = .relDowngrade x) :
    Inv ((s.setFlock x (some false)).setPc t .relThread) := by
  obtain ⟨⟨m, hst⟩, htrue⟩ := h.ok hp
  have hrel : (s.pcOf t).relHandle = some x := by rw [hp]; rfl
  have hthread : ((s.setFlock x (some false)).setPc t .relThread).threadOK t := by
    simp only [threadOK, pcOf_setPc, if_true, ThreadOK]
    exact ⟨m, hst⟩
  have hm := moves_setFlock h t x (some false) .relThread
  by_cases hreg : s.regHandle = some x
  · refine inv_of_handle h hm rfl (lookup_setFlock_ne s t x _ _)
      (fun u _ hux => h.apart hux hrel) hthread (by simp [Pc.isOpening])
      (by simp [Pc.openHandle]) (by simp [Pc.relHandle]) (by simp [Pc.handle])
      (by simp [own, hp, Pc.entry]) ?_
    refine covered_of_shared (some false) h hm rfl (by simp) hreg (by simp) ?_ ?_
    · -- somebody else's exclusive mode would leave this thread without a hold
      intro u hu
      have hno : true ∉ s.rw.lock.stack u := by
        intro hmem
        have := RwSys.stack_eq_nil_of_exclusive h.rw hmem (Ne.symm hu)
        rw [hst] at this
        simp at this
      have hown : true ∉ s.own u := fun hmem => hno (h.mem_stack hmem)
      refine ⟨fun hmem => hown (by simp [own, hmem]), ?_⟩
      by_contra hup
      refine hown ?_
      cases hpu : s.pcOf u <;> simp [hpu, Pc.hasUpgraded] at hup
      simp [own, hpu, Pc.entry]
    · simp [htrue, Pc.hasUpgraded]
  · exact inv_rel h hrel hreg (lookup_setFlock_ne s t x _ _) hm rfl
      ((pcOf_setPc _ _ _ _).trans (if_pos rfl)) rfl hthread (.inr rfl)

theorem Inv.registered_open (h : Inv s) {x : Nat} (hreg : s.regHandle = some x) :
    x ∈ s.handles := by
  obtain ⟨f, hf, rfl⟩ : ∃ f, s.fileLock = some f ∧ f.handle = x := by
    simpa [regHandle] using hreg
  obtain ⟨-, mode, hl, -⟩ := h.covered f hf
  rw [← AList.lookup_isSome, hl]
  rfl

theorem threadOK_setPc {q : Pc} (hok : ThreadOK s.regHandle s.handles
      ((s.rw.blocked.lookup t).map Blocked.waiter) (s.rw.lock.stack t) (s.heldOf t) q) :
    (s.setPc t q).threadOK t := by
  simp only [threadOK, pcOf_setPc, if_true]
  exact hok

theorem inv_upgradeUnlock (h : Inv s) {r : FlockResult} {c : Call} {x : Nat}
    (hp : s.pcOf t = .upgradeUnlock c x)
    (hs : s.flock t r = some s') : Inv s' := by
  unfold flock at hs
  obtain ⟨hst, hcx, htrue, hne, hreg⟩ := h.ok hp
  simp only [hp, if_pos (h.registered_open hreg)] at hs
  have hundo : Inv (s.setPc t (.upgradeUndo c)) := by
    refine inv_setPc h ⟨hst, hcx, htrue, hne, by simp [hreg]⟩ ?_ ?_ ?_ ?_ ?_ ?_ ?_ <;>
      simp [hp, Pc.isOpening, Pc.handle, Pc.openHandle, Pc.relHandle, Pc.entry,
        Pc.inWindow, Pc.hasUpgraded]
  cases r with
  | locked =>
      obtain rfl : _ = s' := by simpa using hs
      refine inv_upgrade h hst hreg htrue (by rw [hp]; rfl) ?_ rfl rfl rfl
        (threadOK_setPc ⟨hst, hcx, htrue, hne, hreg⟩) (by simp [Pc.inWindow])
        (by simp [Pc.hasUpgraded])
      simp [Pc.handle]
  | wouldBlock e => simp at hs
  | osError =>
      obtain rfl : _ = s' := by simpa using hs
      exact hundo

theorem inv_upgradeWait (h : Inv s) {r : FlockResult} {c : Call} {x : Nat}
    (hp : s.pcOf t = .upgradeWait c x)
    (hok : (s.pcOf t).serialized r = true) (hs : s.flock t r = some s') : Inv s' := by
  unfold flock at hs
  obtain ⟨hst, hcx, htrue, hne, hreg⟩ := h.ok hp
  simp only [hp, if_pos (h.registered_open hreg)] at hs
  have hrestore : Inv (s.setPc t (.upgradeRestore c x)) := by
    refine inv_setPc h ⟨hst, hcx, htrue, hne, hreg⟩ ?_ ?_ ?_ ?_ ?_ ?_ ?_ <;>
      simp [hp, Pc.isOpening, Pc.handle, Pc.openHandle, Pc.relHandle, Pc.entry,
        Pc.inWindow, Pc.hasUpgraded]
  cases r with
  | locked =>
      simp only at hs
      split at hs
      · obtain rfl : _ = s' := by simpa using hs
        refine inv_upgrade h hst hreg htrue (by rw [hp]; rfl) ?_ rfl rfl rfl
          (threadOK_setPc ⟨hst, hcx, htrue, hne, hreg⟩) (by simp) (by simp)
        simp [Pc.handle]
      · cases hs
  | wouldBlock e =>
      simp only at hs
      split at hs
      · obtain rfl : _ = s' := by simpa using hs
        exact hrestore
      · obtain rfl : s = s' := by simpa using hs
        exact h
  | osError =>
      have hnb : c.blocking = false := by simpa [hp, Pc.serialized] using hok
      simp only [hnb, Bool.false_eq_true, if_false, Option.some.injEq] at hs
      exact hs ▸ hrestore

theorem inv_upgradeRestore (h : Inv s) {r : FlockResult} {c : Call} {x : Nat}
    (hp : s.pcOf t = .upgradeRestore c x)
    (hok : (s.pcOf t).serialized r = true) (hs : s.flock t r = some s') : Inv s' := by
  unfold flock at hs
  obtain ⟨hst, hcx, htrue, hne, hreg⟩ := h.ok hp
  simp only [hp, if_pos (h.registered_open hreg)] at hs
  cases r with
  | locked =>
      simp only at hs
      split at hs
      · obtain rfl : _ = s' := by simpa using hs
        refine inv_upgrade h hst hreg htrue (by rw [hp]; rfl) (by simp [Pc.handle])
          rfl rfl rfl (threadOK_setPc ?_) (by simp) (by simp [Pc.hasUpgraded])
        have hsome : s.regHandle.isSome = true := by simp [hreg]
        exact ⟨hst, hcx, htrue, hne, hsome⟩
      · cases hs
  | wouldBlock e =>
      have he : e = false := by
        cases e with
        | false => rfl
        | true => simp [hp, Pc.serialized] at hok
      obtain rfl : s = s' := by simpa [he] using hs
      exact h
  | osError => simp [hp, Pc.serialized] at hok

theorem inv_openWait (h : Inv s) {r : FlockResult} {c : Call} {x : Nat}
    (hp : s.pcOf t = .openWait c x)
    (hok : (s.pcOf t).serialized r = true) (hs : s.flock t r = some s') : Inv s' := by
  unfold flock at hs
  obtain ⟨hst, hreg, hmem⟩ := h.ok hp
  simp only [hp] at hs
  have hfail : Inv ((s.closeHandle x).setPc t (.acquireFail c)) :=
    inv_opening h hp (lookup_closeHandle_ne s t x _) (moves_closeHandle h t x _) rfl
      ((pcOf_setPc _ _ _ _).trans (if_pos rfl)) rfl (threadOK_setPc hst) (.inr rfl)
  cases r with
  | locked =>
      simp only at hs
      split at hs
      · obtain rfl : _ = s' := by simpa using hs
        refine inv_opening h hp (lookup_setFlock_ne s t x _ _) (moves_setFlock h t x _ _)
          rfl ((pcOf_setPc _ _ _ _).trans (if_pos rfl)) rfl (threadOK_setPc ?_) (.inl rfl)
        exact ⟨hst, hreg, c.exclusive, by simp, id⟩
      · cases hs
  | wouldBlock e =>
      simp only at hs
      split at hs
      · obtain rfl : _ = s' := by simpa using hs
        exact hfail
      · obtain rfl : s = s' := by simpa using hs
        exact h
  | osError =>
      have hnb : c.blocking = false := by simpa [hp, Pc.serialized] using hok
      simp only [hnb, Bool.false_eq_true, if_false, Option.some.injEq] at hs
      exact hs ▸ hfail

theorem inv_relUnlock (h : Inv s) {r : FlockResult} {x : Nat} (hp : s.pcOf t = .relUnlock x)
    (hs : s.flock t r = some s') : Inv s' := by
  unfold flock at hs
  obtain ⟨hst, hreg⟩ := h.ok hp
  have hclose : Inv (s.setPc t (.relClose x)) := by
    refine inv_setPc h ⟨hst, hreg⟩ ?_ ?_ ?_ ?_ ?_ ?_ ?_ <;>
      simp [hp, Pc.isOpening, Pc.handle, Pc.openHandle, Pc.relHandle, Pc.entry,
        Pc.inWindow, Pc.hasUpgraded]
  simp only [hp] at hs
  split at hs
  · cases r with
    | locked =>
        obtain rfl : _ = s' := by simpa using hs
        exact inv_rel h (by rw [hp]; rfl) hreg (lookup_setFlock_ne s t x _ _)
          (moves_setFlock h t x _ _) rfl ((pcOf_setPc _ _ _ _).trans (if_pos rfl)) rfl
          (threadOK_setPc ⟨hst, hreg⟩) (.inl rfl)
    | wouldBlock e => simp at hs
    | osError =>
        obtain rfl : _ = s' := by simpa using hs
        exact hclose
  · obtain rfl : _ = s' := by simpa using hs
    exact hclose

theorem inv_relDowngrade (h : Inv s) {r : FlockResult} {x : Nat} (hp : s.pcOf t = .relDowngrade x)
    (hs : s.flock t r = some s') : Inv s' := by
  unfold flock at hs
  obtain ⟨hst, htrue⟩ := h.ok hp
  have hthread : Inv (s.setPc t .relThread) := by
    refine inv_setPc h hst ?_ ?_ ?_ ?_ ?_ ?_ ?_ <;>
      simp [hp, Pc.isOpening, Pc.handle, Pc.openHandle, Pc.relHandle, Pc.entry,
        Pc.inWindow, Pc.hasUpgraded]
  simp only [hp] at hs
  split at hs
  · cases r with
    | locked =>
        simp only at hs
        split at hs
        · obtain rfl : _ = s' := by simpa using hs
          exact inv_downgrade h hp
        · cases hs
    | wouldBlock e =>
        obtain rfl : s = s' := by simpa using hs
        exact h
    | osError =>
        obtain rfl : _ = s' := by simpa using hs
        exact hthread
  · obtain rfl : _ = s' := by simpa using hs
    exact hthread

theorem inv_flock (h : Inv s) {r : FlockResult} (hok : (s.pcOf t).serialized r = true)
    (hs : s.flock t r = some s') : Inv s' := by
  cases hp : s.pcOf t with
  | upgradeUnlock c x => exact inv_upgradeUnlock h hp hs
  | upgradeWait c x => exact inv_upgradeWait h hp hok hs
  | upgradeRestore c x => exact inv_upgradeRestore h hp hok hs
  | openWait c x => exact inv_openWait h hp hok hs
  | relUnlock x => exact inv_relUnlock h hp hs
  | relDowngrade x => exact inv_relDowngrade h hp hs
  | idle | threadWait | flockStart | upgradePid | upgradeUndo | opening | openRegister
  | acquireFail | relClose | relThread => simp [flock, hp] at hs

/-! ## The remaining calls -/

theorem inv_openFile (h : Inv s) {c : Call} (hp : s.pcOf t = .opening c) :
    Inv (s.newHandle.setPc t (.openWait c s.nextHandle)) := by
  obtain ⟨hst, hreg⟩ := h.ok hp
  have hlookup : ∀ y, y ≠ s.nextHandle →
      (s.newHandle.setPc t (.openWait c s.nextHandle)).handles.lookup y
        = s.handles.lookup y := by
    intro y hy
    simp [hy]
  refine inv_of_handle (t := t) h ⟨h.rw, fun u hu => by simp [hu], fun u _ => by simp,
    fun _ _ => rfl, fun _ _ => rfl, Nat.le_succ _⟩ rfl hlookup ?_ ?_ ?_ ?_ ?_ ?_ ?_
    (covered_of_none rfl hreg)
  · intro u _ hu
    have : (s.pcOf u).handle = some s.nextHandle := by
      cases hpu : s.pcOf u <;> simp [hpu, Pc.openHandle] at hu <;> simp [Pc.handle, hu]
    exact Nat.lt_irrefl _ (h.fresh this)
  · simp only [threadOK, pcOf_setPc, if_true, ThreadOK]
    exact ⟨hst, hreg, by simp⟩
  · exact fun _ => by rw [hp]; rfl
  · intro y hy u _ hu
    obtain rfl : s.nextHandle = y := by simpa [Pc.openHandle] using hy
    have : (s.pcOf u).handle = some s.nextHandle := by
      cases hpu : s.pcOf u <;> simp [hpu, Pc.relHandle] at hu <;> simp [Pc.handle, hu]
    exact Nat.lt_irrefl _ (h.fresh this)
  · simp [Pc.relHandle]
  · intro y hy
    obtain rfl : s.nextHandle = y := by simpa [Pc.handle] using hy
    exact Nat.lt_succ_self _
  · simp [own, hp, Pc.entry]

theorem inv_register (h : Inv s) {c : Call} {x : Nat} (hp : s.pcOf t = .openRegister c x) :
    Inv ((s.setFileLock (some ⟨x, [c.exclusive]⟩)).finish t c.exclusive) := by
  obtain ⟨hst, hreg, mode, hl, hmode⟩ := h.ok hp
  have hnil := h.own_eq_nil hreg
  have hheld : ∀ u, s.heldOf u = [] := fun u => (List.append_eq_nil_iff.mp (hnil u)).1
  have hopen : (s.pcOf t).openHandle = some x := by rw [hp]; rfl
  have hunique : ∀ u, u ≠ t → (s.pcOf u).isOpening = false := by
    intro u hu
    by_contra hne
    exact hu (h.opener (by simpa using hne) (by rw [hp]; rfl))
  refine inv_of_moves (t := t) h ⟨h.rw, fun u hu => by simp [hu], fun u hu => by simp [hu],
    fun _ _ => rfl, fun _ _ => rfl, Nat.le_refl _⟩ ?_ ?_ ?_ (fun _ _ _ _ => rfl)
    (by simp [Pc.isOpening]) (by simp [Pc.openHandle]) (by simp [Pc.relHandle])
    (by simp [Pc.handle]) ?_ ?_ ?_
  · simp only [threadOK, pcOf_finish, heldOf_finish, if_true, ThreadOK]
    exact hst
  · -- nobody else opens the file, and nobody upgrades without an entry
    intro u hu hneed
    exfalso
    have hok := h.thread u
    have hou := hunique u hu
    unfold threadOK at hok
    cases hpu : s.pcOf u <;> simp [hpu, Pc.needsRegistry, Pc.isOpening] at hneed hou <;>
      simp [hpu, ThreadOK, hreg] at hok
  · intro u hu y hy
    right
    intro heq
    obtain rfl : x = y := by simpa [regHandle] using heq
    exact h.apart hopen hy
  · intro y hy
    obtain rfl : x = y := by simpa [regHandle] using hy
    exact h.fresh (t := t) (by rw [hp]; rfl)
  · refine (Interleaves.nil.push t c.exclusive).congr fun u => ?_
    by_cases hu : u = t
    · subst hu; simp [own, Pc.entry, hheld]
    · have := hnil u
      simpa [own, hu] using this
  · intro f hf
    obtain rfl : _ = f := by simpa using hf
    refine ⟨by simp, some mode, hl, by simp, fun u hu => ?_⟩
    by_cases hut : u = t
    · subst hut
      have hcx : c.exclusive = true := by
        have := hu
        simp [hheld, Pc.hasUpgraded] at this
        exact this
      rw [hmode hcx]
    · have hup : (s.pcOf u).hasUpgraded = true := by simpa [hut, hheld] using hu
      have hn := hnil u
      cases hpu : s.pcOf u <;> simp [hpu, Pc.hasUpgraded] at hup
      simp [own, hpu, Pc.entry] at hn

theorem inv_collect (h : Inv s) {x : Nat} (href : s.isReferenced x = false) :
    Inv (s.closeHandle x) := by
  simp only [isReferenced, Bool.or_eq_false_iff] at href
  obtain ⟨hf, hpcs⟩ := href
  have hhandle : ∀ u, (s.pcOf u).handle ≠ some x := by
    intro u hu
    cases hl : s.pc.lookup u with
    | none => simp [pcOf, Dict.getD, hl, Pc.handle] at hu
    | some p =>
        have hpu : s.pcOf u = p := by simp [pcOf, Dict.getD, hl]
        have hmem := AList.mem_lookup_iff.mp hl
        rw [List.any_eq_false] at hpcs
        have := hpcs _ hmem
        rw [hpu] at hu
        simp [hu] at this
  have hopen : ∀ u y, (s.pcOf u).openHandle = some y → y ≠ x := by
    rintro u y hy rfl
    refine hhandle u ?_
    cases hpu : s.pcOf u <;> simp [hpu, Pc.openHandle] at hy <;> simp [Pc.handle, hy]
  refine ⟨h.rw, fun u => ?_, h.opener, h.apart, h.fresh, h.freshReg, h.owners, ?_⟩
  · refine (h.thread u).frame (fun _ => rfl) (fun _ _ => .inl rfl) fun y hy => ?_
    simp [hopen u y hy]
  · intro f hff
    obtain ⟨hne, mode, hl, hw, hx⟩ := h.covered f hff
    have hfx : f.handle ≠ x := by
      have : s.fileLock = some f := hff
      simpa [this] using hf
    exact ⟨hne, mode, by simpa [hfx] using hl, hw, hx⟩

/-! ## Whole runs -/

theorem inv_acquire (h : Inv s) {x b : Bool} {timeout start now : Int}
    (hs : s.step (.acquire t x b timeout start now) = some s') : Inv s' := by
  simp only [step] at hs
  split at hs
  · rename_i hp
    split at hs
    · rename_i p rw' he
      obtain rfl : _ = s' := by simpa using hs
      refine inv_afterThread h (.inl hp) (RwSys.inv_exec h.rw he)
        (RwSys.exec_acquire_stack h.rw he) (fun u hu => RwSys.exec_blocked h.rw he hu) ?_
      rintro rfl
      obtain ⟨d, hd⟩ := RwSys.exec_acquire_waiting he
      exact ⟨_, hd, rfl⟩
    · cases hs
  · cases hs

theorem inv_wake (h : Inv s) {now : Int} (hs : s.step (.wake t now) = some s') : Inv s' := by
  simp only [step] at hs
  split at hs
  · rename_i c hp
    split at hs
    · rename_i p rw' he
      obtain rfl : _ = s' := by simpa using hs
      obtain ⟨b, hb, hstack⟩ := RwSys.exec_wake_stack h.rw he
      have hbx : b.waiter.exclusive = c.exclusive := by
        have := (h.ok hp).2
        simpa [hb] using this
      refine inv_afterThread h (.inr ⟨c, hp⟩) (RwSys.inv_exec h.rw he)
        (by rw [← hbx]; exact hstack) (fun u hu => RwSys.exec_blocked h.rw he hu) ?_
      rintro rfl
      exact ⟨b, (RwSys.exec_wake_waiting h.rw he).trans hb, hbx⟩
    · cases hs
  · cases hs

theorem inv_check (h : Inv s) (hok : s.orderly (.check t)) (hs : s.step (.check t) = some s') :
    Inv s' := by
  simp only [step] at hs
  split at hs
  · rename_i c hp
    obtain rfl : _ = s' := by simpa using hs
    cases hf : s.fileLock with
    | some f => exact inv_check_some h hp hf
    | none =>
        refine inv_check_none h hp hf fun u hu => ?_
        by_cases hmem : u ∈ s.pc
        · exact hok hf u (AList.mem_keys.mp hmem) hu
        · simp [pcOf, Dict.getD, AList.lookup_eq_none.mpr hmem, Pc.isOpening]
  · cases hs

theorem inv_opened (h : Inv s) {opens : Bool} (hs : s.step (.openFile t opens) = some s') :
    Inv s' := by
  simp only [step] at hs
  split at hs
  · rename_i c hp
    split at hs
    · obtain rfl : _ = s' := by simpa using hs
      exact inv_openFile h hp
    · obtain rfl : _ = s' := by simpa using hs
      refine inv_setPc h (h.ok hp).1 ?_ ?_ ?_ ?_ ?_ ?_ ?_ <;>
        simp [hp, Pc.isOpening, Pc.handle, Pc.openHandle, Pc.relHandle, Pc.entry,
          Pc.inWindow, Pc.hasUpgraded]
  · cases hs

theorem inv_threadReleased (h : Inv s) (hs : s.step (.threadRelease t) = some s') : Inv s' := by
  simp only [step] at hs
  split at hs
  · rename_i c hp
    split at hs
    · rename_i o rw' he
      obtain rfl : _ = s' := by simpa using hs
      exact inv_threadRelease h (h.ok hp) (by rw [hp]; rfl) (by rw [hp]; rfl) he
    · cases hs
  · rename_i hp
    split at hs
    · rename_i o rw' he
      obtain rfl : _ = s' := by simpa using hs
      obtain ⟨m, hst⟩ := h.ok hp
      exact inv_threadRelease h hst (by rw [hp]; rfl) (by rw [hp]; rfl) he
    · cases hs
  · cases hs

theorem inv_step {a : GlAct} (h : Inv s) (hok : s.orderly a) (hs : s.step a = some s') :
    Inv s' := by
  cases a with
  | acquire t x b timeout start now => exact inv_acquire h hs
  | wake t now => exact inv_wake h hs
  | check t => exact inv_check h hok hs
  | openFile t opens => exact inv_opened h hs
  | flock t r => exact inv_flock h hok hs
  | writePid t =>
      simp only [step] at hs
      split at hs
      · rename_i c x hp
        obtain ⟨-, -, -, -, hreg⟩ := h.ok hp
        rw [if_pos (h.registered_open hreg)] at hs
        obtain rfl : _ = s' := by simpa using hs
        exact inv_writePid h hp
      · cases hs
  | register t =>
      simp only [step] at hs
      split at hs
      · rename_i c x hp
        obtain rfl : _ = s' := by simpa using hs
        exact inv_register h hp
      · cases hs
  | undo t =>
      simp only [step] at hs
      split at hs
      · rename_i c hp
        obtain rfl : _ = s' := by simpa using hs
        exact inv_undo h hp
      · cases hs
  | release t =>
      simp only [step] at hs
      split at hs
      · rename_i hp
        obtain rfl : _ = s' := by simpa using hs
        exact inv_release h hp hok
      · cases hs
  | close t =>
      simp only [step] at hs
      split at hs
      · rename_i x hp
        obtain rfl : _ = s' := by simpa using hs
        obtain ⟨hst, hreg⟩ := h.ok hp
        exact inv_rel h (by rw [hp]; rfl) hreg (lookup_closeHandle_ne s t x _)
          (moves_closeHandle h t x _) rfl ((pcOf_setPc _ _ _ _).trans (if_pos rfl)) rfl
          (threadOK_setPc hst) (.inr rfl)
      · cases hs
  | threadRelease t => exact inv_threadReleased h hs
  | collect x =>
      simp only [step] at hs
      split at hs
      · cases hs
      · rename_i href
        obtain rfl : _ = s' := by simpa using hs
        exact inv_collect h (by simpa using href)

theorem inv_reachable (h : Reach (· = {}) step orderly s) : Inv s := by
  refine Reach.invariant (I := Inv) ?_ ?_ h
  · rintro s rfl
    exact inv_start
  · intro s a s' _ hi hok hs
    exact inv_step hi hok hs

/-- In an orderly run a thread between an acquire and its release is backed by the
OS lock in at least its own mode, unless it is upgrading at that moment. -/
theorem graphLock_covered (h : Reach (· = {}) step orderly s) {m : Bool}
    (hm : m ∈ s.heldOf t) (hw : (s.pcOf t).inWindow = false) : s.FlockHeld m := by
  have hi := inv_reachable h
  have hown : m ∈ s.own t := by simp [own, hm]
  obtain ⟨f, hf⟩ := hi.fileLock_of_own (List.ne_nil_of_mem hown)
  obtain ⟨-, mode, hl, hsome, hexcl⟩ := hi.covered f hf
  have hnw : ∀ u, (s.pcOf u).inWindow = false := by
    intro u
    by_cases hut : u = t
    · rw [hut]; exact hw
    · by_contra hwin
      -- an upgrading thread is alone, so `t` would hold nothing
      have hst : true ∈ s.rw.lock.stack u := by
        refine hi.mem_stack ?_
        cases hpu : s.pcOf u <;> simp [hpu, Pc.inWindow] at hwin <;> simp [own, hpu, Pc.entry]
      have := (hi.alone hst (Ne.symm hut)).2.1
      rw [this] at hm
      cases hm
  obtain ⟨mode', rfl⟩ := Option.ne_none_iff_exists'.mp (hsome hnw)
  refine ⟨f.handle, mode', hl, ?_⟩
  rintro rfl
  simpa using hexcl t (.inl hm)

/-- A reader that upgrades its own hold and gets the exclusive lock. -/
def orderlyRun : List GlAct :=
  [.acquire 1 false true 10 0 0, .check 1, .openFile 1 true, .flock 1 .locked, .register 1,
    .acquire 1 true true 10 0 0, .check 1, .flock 1 .locked, .flock 1 .locked, .writePid 1]

theorem graphLock_covered_upgraded :
    ∃ s, Reach (· = {}) step orderly s ∧ s.heldOf 1 = [false, true] ∧ s.FlockHeld true := by
  obtain ⟨s, hr, hs⟩ := exists_reach_of_run (· = {}) step
    orderly {} orderlyRun
    (fun s => s.heldOf 1 = [false, true] && s.pcOf 1 = .idle) rfl (by decide)
  simp only [Bool.and_eq_true, decide_eq_true_eq] at hs
  refine ⟨s, hr, hs.1, graphLock_covered (t := 1) hr ?_ ?_⟩
  · rw [hs.1]; simp
  · rw [hs.2]; rfl

/-- An upgrade stopped between its `LOCK_UN` and its `LOCK_EX`. -/
def upgradeRun : List GlAct :=
  [.acquire 1 false true 10 0 0, .check 1, .openFile 1 true, .flock 1 .locked, .register 1,
    .acquire 1 true true 10 0 0, .check 1, .flock 1 .locked]

/-- Two first readers that both find no registry entry: the second registration
replaces the first, and the release of one reader unlocks the only handle. -/
def raceRun : List GlAct :=
  [.acquire 1 false true 10 0 0, .acquire 2 false true 10 0 0, .check 1, .check 2,
    .openFile 1 true, .openFile 2 true, .flock 1 .locked, .flock 2 .locked, .register 1,
    .register 2, .collect 0, .release 1, .flock 1 .locked]

theorem not_flockHeld {m : Bool} (h : s.handles.entries.all (fun e => e.2 = none) = true) :
    ¬ s.FlockHeld m := by
  rintro ⟨x, mode, hl, -⟩
  rw [List.all_eq_true] at h
  have := h _ (AList.mem_lookup_iff.mp hl)
  simp at this

/-- Not every run keeps a holder backed by the OS lock: not one that stops inside
an upgrade, and not one in which two first readers race. -/
theorem graphLock_not_covered :
    (∃ s, Reachable s ∧ s.heldOf 1 = [false] ∧ ¬ s.FlockHeld false) ∧
    ∃ s, Reachable s ∧ s.heldOf 1 = [] ∧ s.heldOf 2 = [false] ∧ ¬ s.FlockHeld false := by
  constructor
  · obtain ⟨s, hr, hs⟩ := exists_reach_of_run (· = {}) step
      anyStep {} upgradeRun
      (fun s => s.heldOf 1 = [false] && s.handles.entries.all (fun e => e.2 = none))
      rfl (by decide)
    simp only [Bool.and_eq_true, decide_eq_true_eq] at hs
    exact ⟨s, hr, hs.1, not_flockHeld hs.2⟩
  · obtain ⟨s, hr, hs⟩ := exists_reach_of_run (· = {}) step
      anyStep {} raceRun
      (fun s => s.heldOf 1 = [] && s.heldOf 2 = [false] &&
        s.handles.entries.all (fun e => e.2 = none)) rfl (by decide)
    simp only [Bool.and_eq_true, decide_eq_true_eq] at hs
    exact ⟨s, hr, hs.1.1, hs.1.2, not_flockHeld hs.2⟩

end GraphLock

end Dagayn
