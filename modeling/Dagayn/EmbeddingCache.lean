import Mathlib
import Dagayn.Runs

/-!
# The cached vector matrix

`load_embedding_matrix_cached` of `embeddings.rs`, run by any number of threads
against one database file that other connections commit to. A call is cut where
another thread or a writer can come between: reading the file stamp, the first
look under the map lock, the snapshot with its version, the revalidation, the
removal, the load, and the insertion. The map lock is held within one step only.

The state carries what the run has seen so far (`stamps`, `seen`, `contents`), so
that the age of a matrix can be stated: `LoadedMatrix.writes` is the number of
embedding writes committed when its snapshot was taken.
-/

namespace Dagayn

structure CacheKey where
  dbPath : String
  provider : String
  vectorBytes : Nat
deriving DecidableEq, Repr

/-- `(epoch, generation)` from the `embeddings_generation` table. -/
abbrev EmbeddingsVersion := String × Int

/-- A row of `embeddings`, with the columns a search reads. -/
structure EmbeddingRow where
  qualifiedName : String
  vector : List UInt8
  provider : String
deriving DecidableEq, Repr

/-- `EmbeddingMatrix`. A row is kept as its blob: scaling it to unit length is
arithmetic on floats. -/
structure EmbeddingMatrix where
  names : List String
  dim : Nat
  rows : List (List UInt8)
deriving DecidableEq, Repr

/-- One turn of the row loop of `load_embedding_matrix`. The dimension is that of
the first row with one; rows of another dimension are skipped. -/
def loadRow (acc : Option Nat × List String × List (List UInt8)) (row : EmbeddingRow) :
    Except String (Option Nat × List String × List (List UInt8)) :=
  if row.vector.length % 4 ≠ 0 then
    .error s!"embedding vector blob length {row.vector.length} is not divisible by 4"
  else if row.vector.length / 4 = 0 then .ok acc
  else
    match acc.1 with
    | some expected =>
        if expected ≠ row.vector.length / 4 then .ok acc
        else .ok (acc.1, acc.2.1 ++ [row.qualifiedName], acc.2.2 ++ [row.vector])
    | none =>
        .ok (some (row.vector.length / 4), acc.2.1 ++ [row.qualifiedName],
          acc.2.2 ++ [row.vector])

/-- `load_embedding_matrix`: the rows of the key's provider, of the query's length
unless that is 0. A missing table reads as one without rows. -/
def loadEmbeddingMatrix (rows : List EmbeddingRow) (key : CacheKey) :
    Except String EmbeddingMatrix := do
  let picked := rows.filter fun row =>
    row.provider = key.provider &&
      (key.vectorBytes = 0 || row.vector.length = key.vectorBytes)
  let (dim, names, values) ← picked.foldlM loadRow (none, [], [])
  return ⟨names, dim.getD 0, values⟩

structure LoadedMatrix where
  matrix : EmbeddingMatrix
  writes : Nat
deriving DecidableEq, Repr

structure CacheEntry where
  stampNs : Nat
  version : Option EmbeddingsVersion
  matrix : LoadedMatrix
deriving DecidableEq, Repr

/-- The database file: its stamp, its embedding rows, the row of
`embeddings_generation`, and the number of embedding writes committed so far. -/
structure EmbeddingDb where
  stampNs : Nat
  rows : List EmbeddingRow
  version : Option EmbeddingsVersion
  writes : Nat
deriving DecidableEq, Repr

/-- What a commit does to the database. -/
inductive DbWrite where
  /-- A write that leaves the vectors alone. -/
  | other
  /-- A write of `changes + 1` embedding rows that leaves `rows`. -/
  | embed (rows : List EmbeddingRow) (changes : Nat)
  /-- `ensure_embeddings_schema`. -/
  | schema (epoch : String)
  /-- A new file in the place of the old one. -/
  | replace
deriving Repr

/-- The database after a commit. The triggers count every row change in the
generation, where the table has one. -/
def EmbeddingDb.commit (db : EmbeddingDb) (stampNs : Nat) : DbWrite → EmbeddingDb
  | .other => { db with stampNs }
  | .embed rows changes =>
      { stampNs, rows, writes := db.writes + 1,
        version := db.version.map fun v => (v.1, v.2 + (changes + 1 : Nat)) }
  | .schema epoch => { db with stampNs, version := db.version.or (some (epoch, 0)) }
  | .replace => { stampNs, rows := [], version := none, writes := db.writes + 1 }

/-- What one read transaction sees. -/
structure Snapshot where
  version : Option EmbeddingsVersion
  rows : List EmbeddingRow
  writes : Nat
deriving DecidableEq, Repr

/-- A call of `load_embedding_matrix_cached`: its key, the stamp it read first, and
the number of embedding writes committed by then. -/
structure CacheCall where
  key : CacheKey
  stampNs : Nat
  started : Nat
deriving DecidableEq, Repr

/-- Where a thread is in `load_embedding_matrix_cached`. -/
inductive Search where
  | idle
  | stamped (c : CacheCall)
  /-- Looked up without a match, with the version of the entry found. -/
  | missed (c : CacheCall) (cached : Option EmbeddingsVersion)
  | opened (c : CacheCall) (cached : Option EmbeddingsVersion) (snap : Snapshot)
  /-- Found nothing to revalidate. -/
  | stale (c : CacheCall) (snap : Snapshot)
  | removed (c : CacheCall) (snap : Snapshot)
  | loaded (c : CacheCall) (snap : Snapshot) (m : LoadedMatrix)
  | done (c : CacheCall) (m : LoadedMatrix)
deriving DecidableEq, Repr

/-- The database, the process-wide cache and the searching threads, with what the
run has seen: every stamp with the writes it covers, every version likewise, and
the rows after each number of writes. -/
structure SearchSys where
  db : EmbeddingDb
  cache : CacheKey → Option CacheEntry
  threads : Nat → Search
  stamps : List (Nat × Nat)
  seen : List (EmbeddingsVersion × Nat)
  contents : List (List EmbeddingRow)

namespace SearchSys

/-- A database without history, an empty cache and no search under way. -/
def start (s : SearchSys) : Prop :=
  s.db.writes = 0 ∧ s.cache = (fun _ => none) ∧ s.threads = (fun _ => .idle) ∧
    s.stamps = [(s.db.stampNs, 0)] ∧
    s.seen = (s.db.version.toList.map fun v => (v, 0)) ∧ s.contents = [s.db.rows]

/-- One step of a thread, or a commit of some other connection. -/
inductive Act where
  | commit (w : DbWrite) (stampNs : Nat)
  | begin (t : Nat) (key : CacheKey)
  | look (t : Nat)
  | snapshot (t : Nat)
  | revalidate (t : Nat)
  | remove (t : Nat)
  | load (t : Nat)
  | insert (t : Nat)
  /-- An error of SQLite, at any point of a call. -/
  | fail (t : Nat)
deriving Repr

def setThread (s : SearchSys) (t : Nat) (p : Search) : SearchSys :=
  { s with threads := Function.update s.threads t p }

def setEntry (s : SearchSys) (key : CacheKey) (e : Option CacheEntry) : SearchSys :=
  { s with cache := Function.update s.cache key e }

/-- Whether a commit may happen with this stamp: it changes the stamp, and a new
`embeddings_generation` row draws an epoch of its own. -/
def admits (s : SearchSys) (w : DbWrite) (stampNs : Nat) : Bool :=
  s.stamps.all (fun e => e.1 ≠ stampNs) &&
    match w with
    | .schema epoch => s.seen.all (fun e => e.1.1 ≠ epoch)
    | _ => true

def commit (s : SearchSys) (w : DbWrite) (stampNs : Nat) : SearchSys :=
  let db := s.db.commit stampNs w
  { s with
    db
    stamps := (stampNs, db.writes) :: s.stamps
    seen := (db.version.toList.map fun v => (v, db.writes)) ++ s.seen
    contents := if db.writes = s.db.writes then s.contents else s.contents ++ [db.rows] }

def lookUp (s : SearchSys) (t : Nat) (c : CacheCall) : SearchSys :=
  match s.cache c.key with
  | some entry =>
      if entry.stampNs = c.stampNs then s.setThread t (.done c entry.matrix)
      else s.setThread t (.missed c entry.version)
  | none => s.setThread t (.missed c none)

/-- The second look: a version that has not moved revalidates the entry. -/
def revalidate (s : SearchSys) (t : Nat) (c : CacheCall) (cached : Option EmbeddingsVersion)
    (snap : Snapshot) : SearchSys :=
  if snap.version.isSome && snap.version = cached then
    match s.cache c.key with
    | some entry =>
        if entry.version = snap.version then
          (s.setEntry c.key (some { entry with stampNs := c.stampNs })).setThread t
            (.done c entry.matrix)
        else s.setThread t (.stale c snap)
    | none => s.setThread t (.stale c snap)
  else s.setThread t (.stale c snap)

/-- `entry(key).or_insert_with(..)`: an entry some other call put there in the
meantime stays, and is the answer. -/
def insertEntry (s : SearchSys) (t : Nat) (c : CacheCall) (snap : Snapshot) (m : LoadedMatrix) :
    SearchSys :=
  match s.cache c.key with
  | some entry => s.setThread t (.done c entry.matrix)
  | none => (s.setEntry c.key (some ⟨c.stampNs, snap.version, m⟩)).setThread t (.done c m)

def step (s : SearchSys) : Act → Option SearchSys
  | .commit w stampNs => if s.admits w stampNs then some (s.commit w stampNs) else none
  | .begin t key =>
      match s.threads t with
      | .idle | .done _ _ => some (s.setThread t (.stamped ⟨key, s.db.stampNs, s.db.writes⟩))
      | _ => none
  | .look t =>
      match s.threads t with
      | .stamped c => some (s.lookUp t c)
      | _ => none
  | .snapshot t =>
      match s.threads t with
      | .missed c cached =>
          some (s.setThread t (.opened c cached ⟨s.db.version, s.db.rows, s.db.writes⟩))
      | _ => none
  | .revalidate t =>
      match s.threads t with
      | .opened c cached snap => some (s.revalidate t c cached snap)
      | _ => none
  | .remove t =>
      match s.threads t with
      | .stale c snap => some ((s.setEntry c.key none).setThread t (.removed c snap))
      | _ => none
  | .load t =>
      match s.threads t with
      | .removed c snap =>
          match loadEmbeddingMatrix snap.rows c.key with
          | .ok m => some (s.setThread t (.loaded c snap ⟨m, snap.writes⟩))
          | .error _ => some (s.setThread t .idle)
      | _ => none
  | .insert t =>
      match s.threads t with
      | .loaded c snap m => some (s.insertEntry t c snap m)
      | _ => none
  | .fail t => some (s.setThread t .idle)

/-- No search that has ended scored against a matrix older than its start: the
matrix is the one loaded from the rows as they were after some number of embedding
writes, and that number is at least the number committed when the search began. -/
def Fresh (s : SearchSys) : Prop :=
  ∀ t c m, s.threads t = .done c m →
    c.started ≤ m.writes ∧
      ∃ rows, s.contents[m.writes]? = some rows ∧ loadEmbeddingMatrix rows c.key = .ok m.matrix

/-- The steps at which an insertion finds the key vacant, or filled from a snapshot
no older than its own. -/
def insertsNewest (s : SearchSys) : Act → Prop
  | .insert t =>
      match s.threads t with
      | .loaded c snap _ => (s.cache c.key).all (fun e => snap.writes ≤ e.matrix.writes) = true
      | _ => True
  | _ => True

instance (s : SearchSys) (a : Act) : Decidable (s.insertsNewest a) := by
  unfold insertsNewest
  split
  · split <;> infer_instance
  · infer_instance

/-! ## What the history says of calls, snapshots and entries

Each of these is kept by any step that only adds to the history. -/

def MatrixOk (s : SearchSys) (key : CacheKey) (m : LoadedMatrix) : Prop :=
  ∃ rows, s.contents[m.writes]? = some rows ∧ loadEmbeddingMatrix rows key = .ok m.matrix

/-- The stamp of a call is one the file had, when the writes were those the call
started after. -/
def CallOk (s : SearchSys) (c : CacheCall) : Prop := (c.stampNs, c.started) ∈ s.stamps

def VersionOk (s : SearchSys) (version : Option EmbeddingsVersion) (writes : Nat) : Prop :=
  ∀ v, version = some v → (v, writes) ∈ s.seen

def SnapOk (s : SearchSys) (c : CacheCall) (snap : Snapshot) : Prop :=
  c.started ≤ snap.writes ∧ s.VersionOk snap.version snap.writes ∧
    s.contents[snap.writes]? = some snap.rows

/-- The stamp of an entry was read before the snapshot of its matrix was taken. -/
def EntryOk (s : SearchSys) (key : CacheKey) (e : CacheEntry) : Prop :=
  (∃ w ≤ e.matrix.writes, (e.stampNs, w) ∈ s.stamps) ∧
    s.VersionOk e.version e.matrix.writes ∧ s.MatrixOk key e.matrix

def SearchOk (s : SearchSys) : Search → Prop
  | .idle => True
  | .stamped c => s.CallOk c
  | .missed c _ => s.CallOk c
  | .opened c _ snap => s.CallOk c ∧ s.SnapOk c snap
  | .stale c snap => s.CallOk c ∧ s.SnapOk c snap
  | .removed c snap => s.CallOk c ∧ s.SnapOk c snap
  | .loaded c snap m =>
      s.CallOk c ∧ s.SnapOk c snap ∧ m.writes = snap.writes ∧ s.MatrixOk c.key m
  | .done c m => c.started ≤ m.writes ∧ s.MatrixOk c.key m

structure Grows (s s' : SearchSys) : Prop where
  stamps : ∀ e ∈ s.stamps, e ∈ s'.stamps
  seen : ∀ e ∈ s.seen, e ∈ s'.seen
  contents : ∀ (i : Nat) (rows : List EmbeddingRow),
    s.contents[i]? = some rows → s'.contents[i]? = some rows

section Grows

variable {s s' : SearchSys} (hg : Grows s s')
include hg

theorem MatrixOk.grow {key : CacheKey} {m : LoadedMatrix} (h : s.MatrixOk key m) :
    s'.MatrixOk key m := by
  obtain ⟨rows, hrows, hload⟩ := h
  exact ⟨rows, hg.contents _ _ hrows, hload⟩

theorem VersionOk.grow {version : Option EmbeddingsVersion} {w : Nat}
    (h : s.VersionOk version w) : s'.VersionOk version w :=
  fun v hv => hg.seen _ (h v hv)

theorem SnapOk.grow {c : CacheCall} {snap : Snapshot} (h : s.SnapOk c snap) : s'.SnapOk c snap :=
  ⟨h.1, h.2.1.grow hg, hg.contents _ _ h.2.2⟩

theorem EntryOk.grow {key : CacheKey} {e : CacheEntry} (h : s.EntryOk key e) :
    s'.EntryOk key e := by
  obtain ⟨⟨w, hle, hmem⟩, hversion, hmatrix⟩ := h
  exact ⟨⟨w, hle, hg.stamps _ hmem⟩, hversion.grow hg, hmatrix.grow hg⟩

theorem SearchOk.grow {p : Search} (h : s.SearchOk p) : s'.SearchOk p := by
  cases p with
  | idle => trivial
  | stamped c => exact hg.stamps _ h
  | missed c cached => exact hg.stamps _ h
  | opened c cached snap => exact ⟨hg.stamps _ h.1, h.2.grow hg⟩
  | stale c snap => exact ⟨hg.stamps _ h.1, h.2.grow hg⟩
  | removed c snap => exact ⟨hg.stamps _ h.1, h.2.grow hg⟩
  | loaded c snap m =>
      exact ⟨hg.stamps _ h.1, h.2.1.grow hg, h.2.2.1, h.2.2.2.grow hg⟩
  | done c m => exact ⟨h.1, h.2.grow hg⟩

end Grows

/-! ## The invariant -/

/-- The history determines the writes behind a stamp and behind a version. -/
structure History (s : SearchSys) : Prop where
  stamp_fun : ∀ st w w', (st, w) ∈ s.stamps → (st, w') ∈ s.stamps → w = w'
  stamp_mem : (s.db.stampNs, s.db.writes) ∈ s.stamps
  stamp_le : ∀ e ∈ s.stamps, e.2 ≤ s.db.writes
  version_fun : ∀ v w w', (v, w) ∈ s.seen → (v, w') ∈ s.seen → w = w'
  version_mem : s.VersionOk s.db.version s.db.writes
  /-- Within one epoch the generation only grows. -/
  version_le : ∀ v, s.db.version = some v → ∀ e ∈ s.seen, e.1.1 = v.1 → e.1.2 ≤ v.2
  contents_mem : s.contents[s.db.writes]? = some s.db.rows
  contents_length : s.contents.length = s.db.writes + 1

/-- The entries and the calls agree with the history. -/
structure Calls (s : SearchSys) : Prop where
  entry : ∀ key e, s.cache key = some e → s.EntryOk key e
  search : ∀ t, s.SearchOk (s.threads t)

theorem Calls.setThread {s : SearchSys} (h : s.Calls) {t : Nat} {p : Search}
    (hp : s.SearchOk p) : (s.setThread t p).Calls := by
  refine ⟨h.entry, fun u => ?_⟩
  change s.SearchOk (Function.update s.threads t p u)
  by_cases hu : u = t
  · subst hu
    rwa [Function.update_self]
  · rw [Function.update_of_ne hu]
    exact h.search u

theorem Calls.setEntry {s : SearchSys} (h : s.Calls) {key : CacheKey} {e : Option CacheEntry}
    (he : ∀ e', e = some e' → s.EntryOk key e') : (s.setEntry key e).Calls := by
  refine ⟨fun k e' hk => ?_, h.search⟩
  change Function.update s.cache key e k = some e' at hk
  change s.EntryOk k e'
  by_cases hkey : k = key
  · subst hkey
    rw [Function.update_self] at hk
    exact he e' hk
  · rw [Function.update_of_ne hkey] at hk
    exact h.entry k e' hk

theorem start_history {s : SearchSys} (h : s.start) : s.History := by
  obtain ⟨hw, -, -, hstamps, hseen, hcontents⟩ := h
  refine ⟨?_, ?_, ?_, ?_, ?_, ?_, ?_, ?_⟩
  · intro st w w' h1 h2
    rw [hstamps, List.mem_singleton, Prod.mk.injEq] at h1 h2
    rw [h1.2, h2.2]
  · rw [hstamps, hw]
    exact List.mem_singleton.mpr rfl
  · intro e he
    rw [hstamps, List.mem_singleton] at he
    rw [he]
    exact Nat.zero_le _
  · intro v w w' h1 h2
    rw [hseen, List.mem_map] at h1 h2
    obtain ⟨v1, -, he1⟩ := h1
    obtain ⟨v2, -, he2⟩ := h2
    rw [Prod.mk.injEq] at he1 he2
    rw [← he1.2, ← he2.2]
  · intro v hv
    rw [hseen, hv, hw]
    exact List.mem_singleton.mpr rfl
  · intro v hv e he _
    rw [hseen, hv] at he
    exact Int.le_of_eq (congrArg (fun e => e.1.2) (List.mem_singleton.mp he))
  · rw [hcontents, hw]
    rfl
  · rw [hcontents, hw]
    rfl

theorem start_calls {s : SearchSys} (h : s.start) : s.Calls := by
  obtain ⟨-, hcache, hthreads, -⟩ := h
  refine ⟨fun key e he => ?_, fun t => ?_⟩
  · rw [hcache] at he
    cases he
  · rw [hthreads]
    trivial

/-! ## Commits -/

theorem commit_grows {s : SearchSys} {w : DbWrite} {st : Nat} : Grows s (s.commit w st) := by
  refine ⟨fun e he => List.mem_cons_of_mem _ he, fun e he => List.mem_append_right _ he, ?_⟩
  intro i rows hi
  change (if _ = _ then _ else _)[i]? = _
  split
  · exact hi
  · rw [List.getElem?_append_left (List.getElem?_eq_some_iff.mp hi).1]
    exact hi

theorem commit_cases (db : EmbeddingDb) (st : Nat) (w : DbWrite) :
    ((db.commit st w).writes = db.writes ∧ (db.commit st w).rows = db.rows ∧
      ((db.commit st w).version = db.version ∨
        ∃ epoch, w = .schema epoch ∧ db.version = none ∧
          (db.commit st w).version = some (epoch, 0))) ∨
    ((db.commit st w).writes = db.writes + 1 ∧
      ((db.commit st w).version = none ∨
        ∃ v n, db.version = some v ∧
          (db.commit st w).version = some (v.1, v.2 + ((n + 1 : Nat) : Int)))) := by
  cases w with
  | other => exact .inl ⟨rfl, rfl, .inl rfl⟩
  | embed rows n =>
      refine .inr ⟨rfl, ?_⟩
      cases hv : db.version with
      | none => exact .inl (by simp [EmbeddingDb.commit, hv])
      | some v => exact .inr ⟨v, n, rfl, by simp [EmbeddingDb.commit, hv]⟩
  | schema epoch =>
      refine .inl ⟨rfl, rfl, ?_⟩
      cases hv : db.version with
      | none => exact .inr ⟨epoch, rfl, rfl, by simp [EmbeddingDb.commit, hv]⟩
      | some v => exact .inl (by simp [EmbeddingDb.commit, hv])
  | replace => exact .inr ⟨rfl, .inl rfl⟩

theorem writes_le_commit (db : EmbeddingDb) (st : Nat) (w : DbWrite) :
    db.writes ≤ (db.commit st w).writes := by
  rcases commit_cases db st w with ⟨hw, -⟩ | ⟨hw, -⟩ <;> omega

theorem stamp_fresh {s : SearchSys} {w : DbWrite} {st : Nat} (h : s.admits w st = true)
    {n : Nat} : (st, n) ∉ s.stamps := by
  intro hmem
  unfold admits at h
  rw [Bool.and_eq_true, List.all_eq_true] at h
  exact absurd rfl (of_decide_eq_true (h.1 _ hmem))

theorem commit_stampNs (db : EmbeddingDb) (st : Nat) (w : DbWrite) :
    (db.commit st w).stampNs = st := by
  cases w <;> rfl

/-- Versions seen before a commit are no newer than the version after it, and the
new version was seen before only for the same writes. -/
theorem commit_version {s : SearchSys} (hi : s.History) {w : DbWrite} {st : Nat}
    (h : s.admits w st = true) {v : EmbeddingsVersion}
    (hv : (s.db.commit st w).version = some v) {e : EmbeddingsVersion × Nat}
    (he : e ∈ s.seen) :
    (e.1.1 = v.1 → e.1.2 ≤ v.2) ∧ (e.1 = v → e.2 = (s.db.commit st w).writes) := by
  rcases commit_cases s.db st w with ⟨hw, -, hsame | ⟨epoch, rfl, hnone, hnew⟩⟩ | ⟨hw, hcase⟩
  · rw [hsame] at hv
    refine ⟨hi.version_le v hv e he, fun heq => ?_⟩
    rw [hw]
    exact hi.version_fun v _ _ (heq ▸ he) (hi.version_mem v hv)
  · -- a new row of `embeddings_generation` draws an epoch no version had
    rw [hnew, Option.some.injEq] at hv
    subst hv
    simp only [admits] at h
    rw [Bool.and_eq_true, List.all_eq_true, List.all_eq_true] at h
    have hne : e.1.1 ≠ epoch := of_decide_eq_true (h.2 e he)
    exact ⟨fun heq => absurd heq hne, fun heq => absurd (congrArg Prod.fst heq) hne⟩
  · rcases hcase with hnone | ⟨u, n, hu, hnew⟩
    · rw [hnone] at hv
      cases hv
    · rw [hnew, Option.some.injEq] at hv
      subst hv
      have hle : e.1.1 = u.1 → e.1.2 ≤ u.2 := hi.version_le u hu e he
      refine ⟨fun heq => ?_, fun heq => ?_⟩
      · have := hle heq
        push_cast
        omega
      · have := hle (show e.1.1 = u.1 by rw [heq])
        have h2 : e.1.2 = u.2 + ((n + 1 : Nat) : Int) := congrArg Prod.snd heq
        omega

theorem commit_history {s : SearchSys} (hi : s.History) {w : DbWrite} {st : Nat}
    (h : s.admits w st = true) : (s.commit w st).History := by
  have hmem : ∀ {v n}, (v, n) ∈ (s.commit w st).seen →
      (v, n) ∈ s.seen ∨ (s.db.commit st w).version = some v ∧ n = (s.db.commit st w).writes := by
    intro v n hvn
    rcases List.mem_append.mp hvn with hnew | hold
    · obtain ⟨u, hu, heq⟩ := List.mem_map.mp hnew
      rw [Prod.mk.injEq] at heq
      obtain ⟨rfl, rfl⟩ := heq
      exact .inr ⟨Option.mem_toList.mp hu, rfl⟩
    · exact .inl hold
  refine ⟨?_, ?_, ?_, ?_, ?_, ?_, ?_, ?_⟩
  · intro t n n' h1 h2
    rcases List.mem_cons.mp h1 with h1 | h1 <;> rcases List.mem_cons.mp h2 with h2 | h2
    · rw [Prod.mk.injEq] at h1 h2
      rw [h1.2, h2.2]
    · exact absurd h2 ((Prod.mk.inj h1).1 ▸ stamp_fresh h)
    · exact absurd h1 ((Prod.mk.inj h2).1 ▸ stamp_fresh h)
    · exact hi.stamp_fun t n n' h1 h2
  · change ((s.db.commit st w).stampNs, _) ∈ _
    rw [commit_stampNs]
    exact List.mem_cons_self
  · intro e he
    rcases List.mem_cons.mp he with rfl | hold
    · exact Nat.le_refl _
    · exact Nat.le_trans (hi.stamp_le e hold) (writes_le_commit s.db st w)
  · intro v n n' h1 h2
    rcases hmem h1 with h1 | ⟨hv, rfl⟩ <;> rcases hmem h2 with h2 | ⟨hv', rfl⟩
    · exact hi.version_fun v n n' h1 h2
    · exact (commit_version hi h hv' h1).2 rfl
    · exact ((commit_version hi h hv h2).2 rfl).symm
    · rfl
  · intro v hv
    exact List.mem_append_left _ (List.mem_map.mpr ⟨v, Option.mem_toList.mpr hv, rfl⟩)
  · intro v hv e he heq
    rcases hmem (v := e.1) (n := e.2) he with hold | ⟨hnew, -⟩
    · exact (commit_version hi h hv hold).1 heq
    · rw [show (s.db.commit st w).version = some v from hv, Option.some.injEq] at hnew
      exact Int.le_of_eq (congrArg Prod.snd hnew.symm)
  · change (if (s.db.commit st w).writes = s.db.writes then s.contents
      else s.contents ++ [(s.db.commit st w).rows])[(s.db.commit st w).writes]? = _
    rcases commit_cases s.db st w with ⟨hw, hrows, -⟩ | ⟨hw, -⟩
    · rw [if_pos hw, hw, hi.contents_mem]
      exact congrArg some hrows.symm
    · rw [if_neg (by omega), hw, ← hi.contents_length, List.getElem?_concat_length]
      rfl
  · change (if (s.db.commit st w).writes = s.db.writes then s.contents
      else s.contents ++ [(s.db.commit st w).rows]).length = (s.db.commit st w).writes + 1
    rcases commit_cases s.db st w with ⟨hw, -⟩ | ⟨hw, -⟩
    · rw [if_pos hw, hw, hi.contents_length]
    · rw [if_neg (by omega), hw, List.length_append, hi.contents_length]
      rfl

theorem commit_calls {s : SearchSys} (h : s.Calls) {w : DbWrite} {st : Nat} :
    (s.commit w st).Calls :=
  ⟨fun key e he => (h.entry key e he).grow commit_grows,
    fun t => (h.search t).grow commit_grows⟩

/-! ## Calls -/

theorem started_le_of_stamp {s : SearchSys} (hi : s.History) {c : CacheCall} {e : CacheEntry}
    (hc : s.CallOk c) (he : s.EntryOk c.key e) (heq : e.stampNs = c.stampNs) :
    c.started ≤ e.matrix.writes := by
  obtain ⟨⟨w, hle, hmem⟩, -⟩ := he
  rw [heq] at hmem
  rw [hi.stamp_fun _ _ _ hc hmem]
  exact hle

theorem writes_eq_of_version {s : SearchSys} (hi : s.History) {c : CacheCall} {snap : Snapshot}
    {e : CacheEntry} (hsnap : s.SnapOk c snap) (he : s.EntryOk c.key e)
    (hsome : snap.version.isSome = true) (heq : e.version = snap.version) :
    e.matrix.writes = snap.writes := by
  obtain ⟨v, hv⟩ := Option.isSome_iff_exists.mp hsome
  exact hi.version_fun v _ _ (he.2.1 v (heq.trans hv)) (hsnap.2.1 v hv)

theorem lookUp_calls {s : SearchSys} (hi : s.History) (hs : s.Calls) {t : Nat} {c : CacheCall}
    (hc : s.CallOk c) : (s.lookUp t c).Calls := by
  unfold lookUp
  split
  · rename_i e he
    have hok : s.EntryOk c.key e := hs.entry _ _ he
    split
    · rename_i heq
      exact hs.setThread ⟨started_le_of_stamp hi hc hok heq, hok.2.2⟩
    · exact hs.setThread hc
  · exact hs.setThread hc

theorem revalidate_calls {s : SearchSys} (hi : s.History) (hs : s.Calls) {t : Nat} {c : CacheCall}
    {cached : Option EmbeddingsVersion} {snap : Snapshot} (hc : s.CallOk c)
    (hsnap : s.SnapOk c snap) : (s.revalidate t c cached snap).Calls := by
  have hstale : (s.setThread t (.stale c snap)).Calls := hs.setThread ⟨hc, hsnap⟩
  unfold revalidate
  split
  · rename_i hcond
    rw [Bool.and_eq_true] at hcond
    split
    · rename_i e he
      split
      · rename_i heq
        have hok : s.EntryOk c.key e := hs.entry _ _ he
        have hle : c.started ≤ e.matrix.writes :=
          writes_eq_of_version hi hsnap hok hcond.1 heq ▸ hsnap.1
        refine Calls.setThread (hs.setEntry fun e' he' => ?_) ⟨hle, hok.2.2⟩
        rw [Option.some.injEq] at he'
        subst he'
        exact ⟨⟨c.started, hle, hc⟩, hok.2⟩
      · exact hstale
    · exact hstale
  · exact hstale

theorem insertEntry_calls {s : SearchSys} (hs : s.Calls) {t : Nat} {c : CacheCall}
    {snap : Snapshot} {m : LoadedMatrix} (hp : s.SearchOk (.loaded c snap m))
    (hnew : (s.cache c.key).all (fun e => snap.writes ≤ e.matrix.writes) = true) :
    (s.insertEntry t c snap m).Calls := by
  obtain ⟨hc, hsnap, hw, hm⟩ := hp
  unfold insertEntry
  split
  · rename_i e he
    have hle : snap.writes ≤ e.matrix.writes := by simpa [he] using hnew
    exact hs.setThread ⟨Nat.le_trans hsnap.1 hle, (hs.entry _ _ he).2.2⟩
  · have hle : c.started ≤ m.writes := hw ▸ hsnap.1
    refine Calls.setThread (hs.setEntry fun e' he' => ?_) ⟨hle, hm⟩
    rw [Option.some.injEq] at he'
    subst he'
    exact ⟨⟨c.started, hle, hc⟩, hw ▸ hsnap.2.1, hm⟩

/-! ## Steps -/

/-- What a step does, where it may be taken. -/
inductive Stepped (s : SearchSys) : Act → SearchSys → Prop
  | commit {w : DbWrite} {st : Nat} (h : s.admits w st = true) :
      Stepped s (.commit w st) (s.commit w st)
  | begin (t : Nat) (key : CacheKey) :
      Stepped s (.begin t key) (s.setThread t (.stamped ⟨key, s.db.stampNs, s.db.writes⟩))
  | look {t : Nat} {c : CacheCall} (h : s.threads t = .stamped c) :
      Stepped s (.look t) (s.lookUp t c)
  | snapshot {t : Nat} {c : CacheCall} {cached : Option EmbeddingsVersion}
      (h : s.threads t = .missed c cached) :
      Stepped s (.snapshot t)
        (s.setThread t (.opened c cached ⟨s.db.version, s.db.rows, s.db.writes⟩))
  | revalidate {t : Nat} {c : CacheCall} {cached : Option EmbeddingsVersion} {snap : Snapshot}
      (h : s.threads t = .opened c cached snap) :
      Stepped s (.revalidate t) (s.revalidate t c cached snap)
  | remove {t : Nat} {c : CacheCall} {snap : Snapshot} (h : s.threads t = .stale c snap) :
      Stepped s (.remove t) ((s.setEntry c.key none).setThread t (.removed c snap))
  | load {t : Nat} {c : CacheCall} {snap : Snapshot} {m : EmbeddingMatrix}
      (h : s.threads t = .removed c snap) (hm : loadEmbeddingMatrix snap.rows c.key = .ok m) :
      Stepped s (.load t) (s.setThread t (.loaded c snap ⟨m, snap.writes⟩))
  | insert {t : Nat} {c : CacheCall} {snap : Snapshot} {m : LoadedMatrix}
      (h : s.threads t = .loaded c snap m) : Stepped s (.insert t) (s.insertEntry t c snap m)
  | ends (a : Act) (t : Nat) : Stepped s a (s.setThread t .idle)

theorem stepped {s s' : SearchSys} {a : Act} (h : s.step a = some s') : Stepped s a s' := by
  cases a with
  | commit w st =>
      simp only [step] at h
      split at h <;> cases h
      exact .commit ‹_›
  | begin t key =>
      simp only [step] at h
      split at h <;> cases h <;> exact .begin t key
  | look t =>
      simp only [step] at h
      split at h <;> cases h
      exact .look ‹_›
  | snapshot t =>
      simp only [step] at h
      split at h <;> cases h
      exact .snapshot ‹_›
  | revalidate t =>
      simp only [step] at h
      split at h <;> cases h
      exact .revalidate ‹_›
  | remove t =>
      simp only [step] at h
      split at h <;> cases h
      exact .remove ‹_›
  | load t =>
      simp only [step] at h
      split at h
      · rename_i hc
        split at h <;> cases h
        · exact .load hc ‹_›
        · exact .ends _ t
      · cases h
  | insert t =>
      simp only [step] at h
      split at h <;> cases h
      exact .insert ‹_›
  | fail t =>
      cases h
      exact .ends _ t

/-- Only a commit adds to the history. -/
theorem step_history {s s' : SearchSys} {a : Act} (hi : s.History) (h : s.step a = some s') :
    s'.History := by
  have hkeep : ∀ {t : Nat} {p : Search}, (s.setThread t p).History := ⟨hi.1, hi.2, hi.3, hi.4,
    hi.5, hi.6, hi.7, hi.8⟩
  have hentry : ∀ {key : CacheKey} {e : Option CacheEntry} {t : Nat} {p : Search},
      ((s.setEntry key e).setThread t p).History :=
    ⟨hi.1, hi.2, hi.3, hi.4, hi.5, hi.6, hi.7, hi.8⟩
  cases stepped h with
  | commit hok => exact commit_history hi hok
  | begin t key => exact hkeep
  | look hc =>
      unfold lookUp
      repeat' split
      all_goals exact hkeep
  | snapshot hc => exact hkeep
  | revalidate hc =>
      unfold revalidate
      repeat' split
      all_goals first | exact hkeep | exact hentry
  | remove hc => exact hentry
  | load hc hm => exact hkeep
  | insert hc =>
      unfold insertEntry
      split
      · exact hkeep
      · exact hentry
  | ends a t => exact hkeep

theorem Calls.at {s : SearchSys} (hs : s.Calls) {t : Nat} {p : Search} (h : s.threads t = p) :
    s.SearchOk p := h ▸ hs.search t

/-- One case per point of a call. Insertion is the only step that needs the
condition. -/
theorem step_calls {s s' : SearchSys} {a : Act} (hi : s.History) (hs : s.Calls)
    (hok : s.insertsNewest a) (h : s.step a = some s') : s'.Calls := by
  cases stepped h with
  | commit hadmits => exact commit_calls hs
  | begin t key => exact hs.setThread hi.stamp_mem
  | look hc => exact lookUp_calls hi hs (hs.at hc)
  | snapshot hc =>
      have hp := hs.at hc
      exact hs.setThread ⟨hp, hi.stamp_le _ hp, hi.version_mem, hi.contents_mem⟩
  | revalidate hc => exact revalidate_calls hi hs (hs.at hc).1 (hs.at hc).2
  | remove hc => exact Calls.setThread (hs.setEntry fun e he => by cases he) (hs.at hc)
  | load hc hm =>
      have hp := hs.at hc
      exact hs.setThread ⟨hp.1, hp.2, rfl, _, hp.2.2.2, hm⟩
  | insert hc =>
      simp only [insertsNewest, hc] at hok
      exact insertEntry_calls hs (hs.at hc) hok
  | ends a t => exact hs.setThread trivial

theorem reach_calls {s : SearchSys} (h : Reach start step insertsNewest s) :
    s.History ∧ s.Calls := by
  refine h.invariant (I := fun s => s.History ∧ s.Calls)
    (fun s h0 => ⟨start_history h0, start_calls h0⟩) ?_
  intro s a s' _ hi hok hs
  exact ⟨step_history hi.1 hs, step_calls hi.1 hi.2 hok hs⟩

/-- In a run in which no insertion finds an older matrix than its own, no search
scores against a matrix loaded before a write that was committed when it began. -/
theorem fresh_of_insertsNewest {s : SearchSys} (h : Reach start step insertsNewest s) :
    s.Fresh := by
  intro t c m ht
  have hp := (reach_calls h).2.search t
  rw [ht] at hp
  exact hp

/-! ## Two schedules around one write -/

/-- A database with one vector of the provider `p`. -/
def oneVector : SearchSys :=
  let row : EmbeddingRow := ⟨"a.py::f", [0, 0, 128, 63], "p"⟩
  let version : EmbeddingsVersion := ("e", 0)
  { db := ⟨1, [row], some version, 0⟩
    cache := fun _ => none
    threads := fun _ => .idle
    stamps := [(1, 0)]
    seen := [(version, 0)]
    contents := [[row]] }

theorem oneVector_start : oneVector.start := ⟨rfl, rfl, rfl, rfl, rfl, rfl⟩

def graphKey : CacheKey := ⟨"graph.db", "p", 4⟩

def reembed : DbWrite := .embed [⟨"a.py::f", [0, 0, 0, 64], "p"⟩] 0

/-- Whether thread `t` has scored against a matrix older than its start. -/
def scoredStale (t : Nat) (s : SearchSys) : Bool :=
  match s.threads t with
  | .done c m => m.writes < c.started
  | _ => false

/-- Whether thread `t` has an answer that contains the write it started after. -/
def scoredNew (t : Nat) (s : SearchSys) : Bool :=
  match s.threads t with
  | .done c m => c.started = 1 && m.writes = 1
  | _ => false

theorem not_fresh_of_scoredStale {s : SearchSys} {t : Nat} (h : scoredStale t s = true) :
    ¬ s.Fresh := by
  intro hf
  unfold scoredStale at h
  split at h
  · rename_i c m ht
    have hle := (hf t c m ht).1
    have hlt : m.writes < c.started := of_decide_eq_true h
    omega
  · cases h

/-- Thread 0 is still loading when the write commits, and inserts between the
removal and the insertion of thread 1, which began after the write. -/
theorem not_fresh_overtaken : ∃ s, Reach start step anyStep s ∧ ¬ s.Fresh := by
  obtain ⟨s, hr, hs⟩ := exists_reach_of_run start step anyStep oneVector
    [.begin 0 graphKey, .look 0, .snapshot 0, .revalidate 0, .remove 0,
      .commit reembed 2,
      .begin 1 graphKey, .look 1, .snapshot 1, .revalidate 1, .remove 1,
      .load 0, .insert 0, .load 1, .insert 1]
    (scoredStale 1) oneVector_start (by decide +kernel)
  exact ⟨s, hr, not_fresh_of_scoredStale hs⟩

/-- The search before the write fills the cache; the one after it finds a new stamp
and a new version, and loads again. -/
theorem fresh_reloaded : ∃ s, Reach start step insertsNewest s ∧ scoredNew 1 s = true ∧
    s.Fresh := by
  obtain ⟨s, hr, hs⟩ := exists_reach_of_run start step insertsNewest oneVector
    [.begin 0 graphKey, .look 0, .snapshot 0, .revalidate 0, .remove 0, .load 0, .insert 0,
      .commit reembed 2,
      .begin 1 graphKey, .look 1, .snapshot 1, .revalidate 1, .remove 1, .load 1, .insert 1]
    (scoredNew 1) oneVector_start (by decide +kernel)
  exact ⟨s, hr, hs, fresh_of_insertsNewest hr⟩

end SearchSys

end Dagayn
