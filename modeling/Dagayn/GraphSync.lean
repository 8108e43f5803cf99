import Dagayn.HeadStamp

/-!
# Freshness of the graph

`assess_graph_sync` of `status.rs` asks whether the graph still describes the work tree.
It stats every indexed file and hashes those whose mtime moved, while the update starts
from what git reports as changed. The two disagree on a file whose stored rows differ
from its bytes although git finds it clean: indexed with an edit that was then discarded.
No update looks into it and every assessment calls the work tree behind.

`not_behind_after_update` says when the two agree: `Settleable` asks it of every indexed
file the update has no reason to look into.
-/

namespace Dagayn

inductive SyncState where
  | unbuilt
  | commitDrift
  | commitSynced
  | worktreeAhead
  | worktreeBehind
deriving DecidableEq, Repr

structure SyncAssessment where
  state : SyncState
  extractorDrift : List String := []
  pendingFiles : List String := []
  indexedFiles : List String := []
  worktreeDirty : Bool := false
  contentVerified : Bool := true
  unverifiedFileCount : Nat := 0

/-- What `classify_diff_tier` decided. -/
structure DiffTier where
  state : SyncState
  files : List String
  /-- The files left unhashed when the content was not verified. -/
  unverified : Option Nat

def maxHashCandidates : Nat := 200

def unstatted (world : World) (d : FileTable) : List String :=
  d.paths.filter fun p => (world.file p).mtime = none

/-- The indexed files whose mtime is not the stored one. -/
def movedFiles (world : World) (d : FileTable) : List String :=
  d.paths.filter fun p =>
    (world.file p).mtime.any fun m => (d.lookup p).any fun row => m ≠ row.mtimeNs

def dirtyFiles (world : World) : List String := world.gitStatus.getD []

namespace Toolchain

variable (t : Toolchain)

/-- The bytes of `p` are those its rows were stored from. -/
def contentUnchanged (world : World) (d : FileTable) (p : String) : Bool :=
  (world.file p).read.any fun source =>
    (d.lookup p).any fun row => row.fileHash = t.sha256Hex source

def dirtyCandidates (world : World) (dirty : List String) : List String × List String :=
  t.filterIncrementalCandidates world.file world.ignored (pathSet dirty)

/-- The files whose bytes have to be compared. -/
def toHash (world : World) (d : FileTable) (dirty : List String) : List String :=
  pathSet (movedFiles world d ++
    (t.dirtyCandidates world dirty).1.filter fun p => (d.lookup p).isNone)

def pendingFiles (world : World) (d : FileTable) (dirty : List String) : List String :=
  pathSet (unstatted world d ++ indexedOnly d (t.dirtyCandidates world dirty).2 ++
    (t.toHash world d dirty).filter fun p => !t.contentUnchanged world d p)

def classifyDiffTier (world : World) (d : FileTable) (dirty : List String)
    (cap : Option Nat) : DiffTier :=
  let dirtyState := if dirty = [] then SyncState.commitSynced else .worktreeAhead
  let candidates := (t.dirtyCandidates world dirty).1.insertionSort (· ≤ ·)
  let hashed := t.toHash world d dirty
  if cap.any (· < hashed.length) then ⟨dirtyState, candidates, some hashed.length⟩
  else if t.pendingFiles world d dirty = [] then ⟨dirtyState, candidates, none⟩
  else ⟨.worktreeBehind, t.pendingFiles world d dirty, none⟩

/-- `assess_graph_sync`: the assessment, and the database with the seeded flag dropped
once the content was verified. `metaFails` is a failing read of the file table, which
counts as behind. -/
def assessGraphSync (world : World) (metaFails : Bool) (db : GraphDb) :
    SyncAssessment × GraphDb :=
  let gitBacked := world.vcs = .git ∨ world.vcs = .jj
  let head := if gitBacked then world.head else ""
  let dirty := if gitBacked then dirtyFiles world else []
  let stored := db.gitHeadSha.filter (· ≠ "")
  let graphEmpty := db.files.paths.isEmpty
  let commitDrift := (gitBacked ∧ head ≠ "" ∧ stored ≠ some head) ∨
    (world.vcs = .jj ∧ head = "")
  let drift := if graphEmpty then []
    else (t.outdatedExtractors db).map ExtractorVersion.extractor
  if graphEmpty then ({ state := .unbuilt }, db)
  else if commitDrift ∨ db.lastUpdated = false ∨ drift ≠ [] then
    ({ state := .commitDrift, extractorDrift := drift, worktreeDirty := !dirty.isEmpty }, db)
  else
    let cap := if db.seededNeedsVerify then none else some maxHashCandidates
    let tier := if metaFails then ⟨.worktreeBehind, [], some 0⟩
      else t.classifyDiffTier world db.files dirty cap
    ({ state := tier.state
       extractorDrift := drift
       pendingFiles := if tier.state = .worktreeBehind then tier.files else []
       indexedFiles := if tier.state = .worktreeAhead then tier.files else []
       worktreeDirty := !dirty.isEmpty
       contentVerified := tier.unverified.isNone
       unverifiedFileCount := tier.unverified.getD 0 },
      if tier.unverified = none then { db with seededNeedsVerify := false } else db)

end Toolchain

/-! ## When no edit comes between -/

/-- The repository of an update during which nothing moves. -/
def World.still (world : World) : History := fun _ => world

/-- The paths an update over `base` takes for changed. -/
def World.reported (world : World) (base : String) : List String :=
  expandChangedSubmodules world.still (changedFiles world.still base)

/-- Every file `git status` names is one `git ls-files` lists. -/
def World.StatusListed (world : World) : Prop :=
  ∀ p ∈ dirtyFiles world, (world.file p).content.isSome →
    ∃ files, world.gitIndexableFiles = some files ∧ p ∈ files

namespace Toolchain

variable (t : Toolchain) (world : World) (db : GraphDb) (base : String)

/-- The files re-parsed for an outdated extractor. -/
def reparsed : List String := t.extractorReparseScope world.still db (t.collectScope world)

def dependents : List String :=
  t.findDependents
    (t.classify world.still db.files (t.collectScope world) (world.reported base)).roots

/-- The update has no reason to look into `p`. -/
structure LeftAlone (p : String) : Prop where
  reported : p ∉ world.reported base
  reparsed : p ∉ t.reparsed world db
  dependents : p ∉ t.dependents world db base

/-- An indexed file in scope that the update leaves alone although its mtime moved and its
bytes are not those of its rows. -/
structure Stranded (p : String) : Prop where
  leftAlone : t.LeftAlone world db base p
  scope : p ∈ t.collectScope world
  stale : ∃ row, db.files.lookup p = some row ∧ (world.file p).mtime ≠ some row.mtimeNs ∧
    ∀ b, (world.file p).read = some b → row.fileHash ≠ t.sha256Hex b

/-- Nothing is stranded; a dirty file that parses gives rows; and a dirty path that does
not is neither re-parsed for an extractor nor a submodule over stored rows. Of an ignored
path nothing is asked: neither side looks at it. -/
structure Settleable : Prop where
  kept : ∀ p, ¬t.Stranded world db base p
  parsed : ∀ p ∈ dirtyFiles world, world.ignored p = false →
    t.parseable (world.file p) p = true →
    ∀ b, (world.file p).read = some b → t.rowLanguages p b ≠ none
  gone : ∀ p ∈ dirtyFiles world, world.ignored p = false →
    t.parseable (world.file p) p = false →
    p ∉ t.reparsed world db ∧ (p ∈ db.files.paths → (world.file p).submodule = none)

end Toolchain

section Assess

variable {t : Toolchain} {world : World} {db db' : GraphDb} {base p : String}
  {fails : DbStep → Bool} {report : UpdateReport}

theorem Toolchain.incrementalUpdate_ok {w : History}
    (h : t.incrementalUpdate w fails db base = .ok (db', report)) :
    ∃ db₁ parsed, t.updateFiles w fails db (changedFiles w base) = .ok (db₁, report, parsed) ∧
      t.finish w fails (diffCoversGraphCommit (w .resolve) db base) parsed db₁ = .ok db' := by
  simp only [Toolchain.incrementalUpdate] at h
  have hrun : t.runPipeline w fails db base (changedFiles w base) = .ok (db', report) := by
    split at h
    · cases h
    · cases h
    · exact h
    · exact h
  obtain ⟨⟨db₁, report', parsed⟩, hu, h⟩ := bind_ok hrun
  obtain ⟨db₂, hf, h⟩ := bind_ok h
  obtain ⟨rfl, rfl⟩ := Prod.mk.inj (Except.ok.inj h)
  exact ⟨db₁, parsed, hu, hf⟩

theorem steady_still (p : String) : world.still.Steady p (world.file p) := fun _ _ => rfl

theorem lookup_of_leftAlone (h : t.incrementalUpdate world.still fails db base = .ok (db', report))
    (hl : t.LeftAlone world db base p) (hscope : p ∈ t.collectScope world) :
    db'.files.lookup p = db.files.lookup p := by
  obtain ⟨db₁, parsed, hu, hf⟩ := Toolchain.incrementalUpdate_ok h
  rw [(Toolchain.finish_cases hf).1]
  rcases Toolchain.updateFiles_ok hu with ⟨-, -, -, hsame, -⟩ | ⟨db₂, hst, hup⟩
  · rw [hsame.files]
  · rw [← hst.files]
    refine Toolchain.updateChanged_same hup hscope hl.reported hl.reparsed ?_
    rw [hst.files]
    exact hl.dependents

theorem Toolchain.findDependents_nil (t : Toolchain) : t.findDependents [] = [] := by
  rw [Toolchain.findDependents]
  cases t.dependentHops with
  | zero => rfl
  | succ n => rfl

theorem Toolchain.roots_of_quiet {w : History} {d : FileTable} {scope : List String}
    (h : ∀ q ∈ d.paths, q ∈ scope) : (t.classify w d scope []).roots = [] := by
  rw [List.eq_nil_iff_forall_not_mem]
  intro q hq
  rcases List.mem_append.mp (mem_pathSet.mp hq) with hq | hq
  · obtain ⟨hq, hn | hn⟩ := Toolchain.mem_classify_removed.mp hq
    · exact hn (h q hq)
    · exact List.not_mem_nil hn.1
  · have hc := Toolchain.mem_candidates_of_contentChanged hq
    exact List.not_mem_nil (Toolchain.mem_filterCandidates_fst.mp hc).1

/-- Every file stored after an update without errors is in scope, and is one the update
left alone or has the stored mtime. -/
theorem stored_after_update {row : FileRow}
    (h : t.incrementalUpdate world.still fails db base = .ok (db', report))
    (herr : report.errors = []) (hrow : db'.files.lookup p = some row) :
    p ∈ t.collectScope world ∧
      (t.LeftAlone world db base p ∨ (world.file p).mtime = some row.mtimeNs) := by
  obtain ⟨db₁, parsed, hu, hf⟩ := Toolchain.incrementalUpdate_ok h
  rw [(Toolchain.finish_cases hf).1] at hrow
  rcases Toolchain.updateFiles_ok hu with ⟨hnil, hstale, hext, hsame, -⟩ | ⟨db₂, hst, hup⟩
  · rw [hsame.files] at hrow
    have hpaths : ∀ q ∈ db.files.paths, q ∈ t.collectScope world := by
      intro q hq
      by_contra hn
      have hmem := Toolchain.mem_staleScope.mpr ⟨hq, hn⟩
      rw [show staleScope db.files (t.collectScope world) = [] from hstale] at hmem
      cases hmem
    have hreported : world.reported base = [] := by
      rw [World.reported, hnil]
      rfl
    refine ⟨hpaths p (FileTable.mem_paths.mpr ⟨row, hrow⟩), .inl ⟨?_, ?_, ?_⟩⟩
    · rw [hreported]
      exact List.not_mem_nil
    · rw [Toolchain.reparsed,
        show t.extractorReparseScope world.still db (t.collectScope world) = []
        from hext]
      exact List.not_mem_nil
    · rw [Toolchain.dependents, hreported, Toolchain.roots_of_quiet hpaths,
        Toolchain.findDependents_nil]
      exact List.not_mem_nil
  · have hscope : p ∈ t.collectScope world := by
      by_contra hn
      have hnone := Toolchain.updateChanged_gone (steady_still p) hup
        (fun q hq => (Toolchain.mem_extractorReparseScope hq).1) (.inl hn)
        (fun _ hp => absurd hp hn)
      rw [hnone] at hrow
      cases hrow
    refine ⟨hscope, ?_⟩
    by_cases hl : t.LeftAlone world db base p
    · exact .inl hl
    · refine .inr (Toolchain.mtime_of_lookedAt (steady_still p) hup herr
        (fun q hq => (Toolchain.mem_extractorReparseScope hq).1) hscope
        (Toolchain.ignored_of_mem_collectScope hscope) hrow ?_)
      rw [hst.files]
      by_contra hn
      simp only [not_or] at hn
      exact hl ⟨hn.1, hn.2.1, hn.2.2⟩

theorem mem_dirtyCandidates_fst {dirty : List String} :
    p ∈ (t.dirtyCandidates world dirty).1 ↔
      p ∈ dirty ∧ world.ignored p = false ∧ t.parseable (world.file p) p = true := by
  simp only [Toolchain.dirtyCandidates, Toolchain.filterIncrementalCandidates,
    List.partition_eq_filter_filter, List.mem_filter, mem_pathSet, Bool.not_eq_true']
  tauto

theorem mem_dirtyCandidates_snd {dirty : List String} :
    p ∈ (t.dirtyCandidates world dirty).2 ↔
      p ∈ dirty ∧ world.ignored p = false ∧ t.parseable (world.file p) p = false := by
  simp only [Toolchain.dirtyCandidates, Toolchain.filterIncrementalCandidates,
    List.partition_eq_filter_filter, List.mem_filter, mem_pathSet, Bool.not_eq_true',
    Function.comp]
  tauto

theorem mem_changedFiles_of_dirty (hsafe : isSafeGitRef base = true)
    (hp : p ∈ dirtyFiles world) : p ∈ changedFiles world.still base := by
  rw [changedFiles, if_neg (by simp [hsafe]), mem_dedupe]
  exact List.mem_append_right _ hp

theorem verified_after_update {row : FileRow} (hs : t.Settleable world db base)
    (h : t.incrementalUpdate world.still fails db base = .ok (db', report))
    (herr : report.errors = []) (hrow : db'.files.lookup p = some row) :
    (world.file p).mtime = some row.mtimeNs ∨
      ∃ b, (world.file p).read = some b ∧ row.fileHash = t.sha256Hex b := by
  obtain ⟨hscope, hl | hm⟩ := stored_after_update h herr hrow
  · by_contra hn
    rw [not_or] at hn
    rw [lookup_of_leftAlone h hl hscope] at hrow
    exact hs.kept p ⟨hl, hscope, row, hrow, hn.1, fun b hb heq => hn.2 ⟨b, hb, heq⟩⟩
  · exact .inl hm

theorem lookup_of_dirty_gone (hs : t.Settleable world db base)
    (hsafe : isSafeGitRef base = true)
    (h : t.incrementalUpdate world.still fails db base = .ok (db', report))
    (hp : p ∈ dirtyFiles world) (hign : world.ignored p = false)
    (hpar : t.parseable (world.file p) p = false) : db'.files.lookup p = none := by
  obtain ⟨hext, hsub⟩ := hs.gone p hp hign hpar
  obtain ⟨db₁, parsed, hu, hf⟩ := Toolchain.incrementalUpdate_ok h
  rw [(Toolchain.finish_cases hf).1]
  have hchanged := mem_changedFiles_of_dirty hsafe hp
  rcases Toolchain.updateFiles_ok hu with ⟨hnil, -⟩ | ⟨db₂, hst, hup⟩
  · rw [hnil] at hchanged
    cases hchanged
  by_cases hindexed : p ∈ db.files.paths
  · refine Toolchain.updateChanged_gone (steady_still p) hup
      (fun q hq => (Toolchain.mem_extractorReparseScope hq).1) (.inr ⟨?_, hign, hpar⟩)
      (fun hp => absurd hp hext)
    exact mem_expandChangedSubmodules hchanged (hsub hindexed)
  · rw [Toolchain.updateChanged_unparsed (steady_still p) hup hpar hext]
    rw [← hst.files, FileTable.mem_paths, ← Option.isSome_iff_exists] at hindexed
    exact Toolchain.appliedFiles_of_none (Toolchain.classifiedFiles_of_none
      (Option.not_isSome_iff_eq_none.mp hindexed))

theorem lookup_of_dirty_parsed (hs : t.Settleable world db base) (hlisted : world.StatusListed)
    (hsafe : isSafeGitRef base = true)
    (h : t.incrementalUpdate world.still fails db base = .ok (db', report))
    (hp : p ∈ dirtyFiles world) (hign : world.ignored p = false)
    (hpar : t.parseable (world.file p) p = true) : db'.files.lookup p ≠ none := by
  obtain ⟨b, hb⟩ := Toolchain.exists_read_of_parseable hpar
  obtain ⟨m, hm⟩ := FileView.exists_mtime_of_read hb
  have hcontent : (world.file p).content.isSome := by rw [FileView.content_of_read hb]; rfl
  obtain ⟨db₁, parsed, hu, hf⟩ := Toolchain.incrementalUpdate_ok h
  rw [(Toolchain.finish_cases hf).1]
  have hchanged := mem_changedFiles_of_dirty hsafe hp
  rcases Toolchain.updateFiles_ok hu with ⟨hnil, -⟩ | ⟨db₂, hst, hup⟩
  · rw [hnil] at hchanged
    cases hchanged
  have hscope : p ∈ t.collectScope world := by
    obtain ⟨files, hg, hmem⟩ := hlisted p hp hcontent
    rw [Toolchain.collectScope, hg]
    cases files with
    | nil => cases hmem
    | cons q files => exact List.mem_filter.mpr ⟨hmem, by rw [hign]; rfl⟩
  have hexp := mem_expandChangedSubmodules (w := world.still) hchanged
    ((world.file p).not_dir_of_file hcontent)
  have hcand := Toolchain.mem_filterCandidates_fst.mpr ⟨hexp, hign,
    (show t.parseable (world.still.at .filter .read p) p = true from hpar), hscope⟩
  have hcur := (Toolchain.updateChanged_touches (steady_still p) hb hm hup
    (Toolchain.notMem_removed (steady_still p) hscope hpar)).current
    (Toolchain.touched_of_mem_candidates (steady_still p) hb hm hcand)
  intro hnone
  rw [hnone] at hcur
  exact hs.parsed p hp hign hpar b hb hcur.1

theorem pendingFiles_after_update (hs : t.Settleable world db base)
    (hlisted : world.StatusListed) (hsafe : isSafeGitRef base = true)
    (h : t.incrementalUpdate world.still fails db base = .ok (db', report))
    (herr : report.errors = []) :
    t.pendingFiles world db'.files (dirtyFiles world) = [] := by
  rw [List.eq_nil_iff_forall_not_mem]
  intro p hp
  simp only [Toolchain.pendingFiles, mem_pathSet, List.mem_append, unstatted, List.mem_filter,
    Toolchain.mem_indexedOnly, mem_dirtyCandidates_snd, Toolchain.toHash, movedFiles,
    mem_dirtyCandidates_fst, decide_eq_true_eq, Bool.not_eq_true'] at hp
  rcases hp with (⟨hmem, hm⟩ | ⟨⟨hdirty, hign, hpar⟩, hmem⟩) | ⟨⟨hmem, hm⟩ | ⟨hd, hnone⟩, hch⟩
  · obtain ⟨row, hrow⟩ := FileTable.mem_paths.mp hmem
    rcases verified_after_update hs h herr hrow with hv | ⟨b, hb, -⟩
    · rw [hm] at hv
      cases hv
    · obtain ⟨m, hm'⟩ := FileView.exists_mtime_of_read hb
      rw [hm] at hm'
      cases hm'
  · obtain ⟨row, hrow⟩ := FileTable.mem_paths.mp hmem
    rw [lookup_of_dirty_gone hs hsafe h hdirty hign hpar] at hrow
    cases hrow
  · obtain ⟨row, hrow⟩ := FileTable.mem_paths.mp hmem
    rw [hrow] at hm
    rcases verified_after_update hs h herr hrow with hv | ⟨b, hb, hh⟩
    · rw [hv] at hm
      simp at hm
    · rw [Toolchain.contentUnchanged, hb, hrow] at hch
      simp [hh] at hch
  · rw [Option.isNone_iff_eq_none] at hnone
    exact lookup_of_dirty_parsed hs hlisted hsafe h hd.1 hd.2.1 hd.2.2 hnone

/-! ## The metadata after an update -/

/-- Every extractor's stamp is the running one. -/
def Toolchain.Stamped (t : Toolchain) (db : GraphDb) : Prop :=
  ∀ e ∈ t.extractorVersions, db.extractorVersions.getD e.extractor 0 = e.version

theorem getD_foldl_versions {name : String} {version : Nat} :
    ∀ (es : List ExtractorVersion) (d : Dict String Nat),
      (∀ e ∈ es, e.extractor = name → e.version = version) →
      (d.getD name 0 = version ∨ ∃ e ∈ es, e.extractor = name) →
      (es.foldl (fun d e => AList.insert e.extractor e.version d) d : Dict String Nat).getD name 0
        = version
  | [], d, _, h => by
      rcases h with h | ⟨e, he, -⟩
      · exact h
      · cases he
  | e :: es, d, hes, h => by
      rw [List.foldl_cons]
      refine getD_foldl_versions es _ (fun e' he' => hes e' (List.mem_cons_of_mem _ he')) ?_
      rw [Dict.getD_insert]
      by_cases hn : name = e.extractor
      · rw [if_pos hn]
        exact .inl (hes e List.mem_cons_self hn.symm)
      · rw [if_neg hn]
        rcases h with h | ⟨e', he', hname⟩
        · exact .inl h
        · rcases List.mem_cons.mp he' with rfl | he'
          · exact absurd hname.symm hn
          · exact .inr ⟨e', he', hname⟩

theorem Toolchain.Stamped.stamp (h : t.Stamped db) {e : ExtractorVersion}
    (he : e ∈ t.extractorVersions) : t.extractorVersionsStamp.getD e.extractor 0 = e.version := by
  refine getD_foldl_versions t.extractorVersions ∅ (fun e' he' heq => ?_) (.inr ⟨e, he, rfl⟩)
  rw [← h e he, ← h e' he', heq]

theorem Toolchain.Stamped.outdatedExtractors (h : t.Stamped db) :
    t.outdatedExtractors db = [] := by
  rw [Toolchain.outdatedExtractors, List.filter_eq_nil_iff]
  intro e he hb
  simp only [Bool.and_eq_true, decide_eq_true_eq] at hb
  exact hb.1 (h e he)

theorem Toolchain.updateChanged_meta {w : History} {scope extractorFiles changed : List String}
    {parsed : Bool}
    (h : t.updateChanged w fails db scope extractorFiles changed = .ok (db', report, parsed)) :
    ∃ d, db' = { db with files := d } := by
  rcases Toolchain.updateChanged_ok h with ⟨-, rfl, -, -⟩ | ⟨errors, hparse, -, -⟩
  · exact ⟨_, rfl⟩
  · obtain ⟨rfl, -⟩ := Toolchain.parsePlanned_ok hparse
    exact ⟨_, rfl⟩

theorem Toolchain.updateFiles_meta {w : History} {changed : List String} {parsed : Bool}
    (h : t.updateFiles w fails db changed = .ok (db', report, parsed)) :
    ∃ db₁ d, t.Restamped db db₁ ∧ db' = { db₁ with files := d } := by
  rcases Toolchain.updateFiles_ok h with ⟨-, -, -, hst, -⟩ | ⟨db₁, hst, hup⟩
  · exact ⟨db', db'.files, hst, rfl⟩
  · obtain ⟨d, rfl⟩ := Toolchain.updateChanged_meta hup
    exact ⟨db₁, d, hst, rfl⟩

theorem meta_after_update (h : t.incrementalUpdate world.still fails db base = .ok (db', report))
    (hdated : db.lastUpdated = true) (hstamped : t.Stamped db) :
    db'.lastUpdated = true ∧ db'.seededNeedsVerify = db.seededNeedsVerify ∧ t.Stamped db' := by
  obtain ⟨db₁, parsed, hu, hf⟩ := Toolchain.incrementalUpdate_ok h
  obtain ⟨db₂, d, hst, rfl⟩ := Toolchain.updateFiles_meta hu
  have hmeta : db₂.lastUpdated = true ∧ db₂.seededNeedsVerify = db.seededNeedsVerify ∧
      t.Stamped db₂ := by
    rcases hst with rfl | rfl
    · exact ⟨hdated, rfl, hstamped⟩
    · exact ⟨hdated, rfl, fun e he => hstamped.stamp he⟩
  have hvcs : ∀ db₃ : GraphDb, (storeVcsMetadata world db₃).lastUpdated = db₃.lastUpdated ∧
      (storeVcsMetadata world db₃).seededNeedsVerify = db₃.seededNeedsVerify ∧
      (storeVcsMetadata world db₃).extractorVersions = db₃.extractorVersions := by
    intro db₃
    simp only [storeVcsMetadata]
    split <;> exact ⟨rfl, rfl, rfl⟩
  simp only [Toolchain.finish] at hf
  split at hf
  · cases hf
  · obtain rfl := Except.ok.inj hf
    have hparsed : ∀ db₃ : GraphDb, db₃ = (if parsed = true then
          { db₂ with files := d, lastUpdated := true,
                     extractorVersions := t.extractorVersionsStamp }
          else { db₂ with files := d }) →
        db₃.lastUpdated = true ∧ db₃.seededNeedsVerify = db.seededNeedsVerify ∧ t.Stamped db₃ := by
      rintro db₃ rfl
      split
      · exact ⟨rfl, hmeta.2.1, fun e he => hstamped.stamp he⟩
      · exact ⟨hmeta.1, hmeta.2.1, hmeta.2.2⟩
    split
    · obtain ⟨h₁, h₂, h₃⟩ := hvcs (if parsed = true then
        { db₂ with files := d, lastUpdated := true,
                   extractorVersions := t.extractorVersionsStamp }
        else { db₂ with files := d })
      obtain ⟨h₁', h₂', h₃'⟩ := hparsed _ rfl
      exact ⟨h₁.trans h₁', h₂.trans h₂', fun e he => by
        show Dict.getD (storeVcsMetadata world _).extractorVersions e.extractor 0 = e.version
        rw [h₃]
        exact h₃' e he⟩
    · exact hparsed _ rfl

theorem head_after_update (h : t.incrementalUpdate world.still fails db base = .ok (db', report))
    (hbase : db.gitHeadSha = some base) (hres : resolveCommitSha world base = some base)
    (hvcs : world.vcs = .git) (hhead : world.head ≠ "") : db'.gitHeadSha = some world.head := by
  obtain ⟨db₁, parsed, hu, hf⟩ := Toolchain.incrementalUpdate_ok h
  have hcov : diffCoversGraphCommit (world.still .resolve) db base = true := by
    show diffCoversGraphCommit world db base = true
    simp [diffCoversGraphCommit, hres, hbase]
  rw [hcov] at hf
  simp only [Toolchain.finish] at hf
  split at hf
  · cases hf
  · obtain rfl := Except.ok.inj hf
    rw [if_pos trivial, storeVcsMetadata, if_pos (show (world.still .stamp).vcs = .git ∧
      (world.still .stamp).head ≠ "" from ⟨hvcs, hhead⟩)]
    rfl

/-! ## The assessment -/

theorem tier_ne_behind {d : FileTable} {dirty : List String} {cap : Option Nat}
    (hp : t.pendingFiles world d dirty = []) :
    (t.classifyDiffTier world d dirty cap).state ≠ .worktreeBehind := by
  have hdirty : (if dirty = [] then SyncState.commitSynced else .worktreeAhead)
      ≠ .worktreeBehind := by
    split <;> decide
  simp only [Toolchain.classifyDiffTier, hp, if_true]
  split
  · exact hdirty
  · exact hdirty

theorem assess_ne_behind (hvcs : world.vcs = .git)
    (hp : t.pendingFiles world db.files (dirtyFiles world) = []) :
    (t.assessGraphSync world false db).1.state ≠ .worktreeBehind := by
  simp only [Toolchain.assessGraphSync, hvcs, true_or, if_true]
  split
  · exact SyncState.noConfusion
  · split
    · exact SyncState.noConfusion
    · exact tier_ne_behind hp

/-- Past the earlier tiers and below the cap, a pending file puts the work tree behind. -/
theorem assess_behind (hvcs : world.vcs = .git) (hstored : db.gitHeadSha = some world.head)
    (hhead : world.head ≠ "") (hdated : db.lastUpdated = true) (hstamped : t.Stamped db)
    (hne : db.files.paths ≠ [])
    (hcap : db.seededNeedsVerify = true ∨
      (t.toHash world db.files (dirtyFiles world)).length ≤ maxHashCandidates)
    (hp : p ∈ t.pendingFiles world db.files (dirtyFiles world)) :
    (t.assessGraphSync world false db).1.state = .worktreeBehind ∧
      p ∈ (t.assessGraphSync world false db).1.pendingFiles := by
  have hempty : db.files.paths.isEmpty = false := by
    cases hpaths : db.files.paths with
    | nil => exact absurd hpaths hne
    | cons q qs => rfl
  have hcap' : ((if db.seededNeedsVerify = true then none else some maxHashCandidates).any
      (· < (t.toHash world db.files (dirtyFiles world)).length)) = false := by
    rcases hcap with hs | hs
    · rw [if_pos hs]
      rfl
    · split
      · rfl
      · simpa using hs
  have htier : t.classifyDiffTier world db.files (dirtyFiles world)
      (if db.seededNeedsVerify = true then none else some maxHashCandidates)
        = ⟨.worktreeBehind, t.pendingFiles world db.files (dirtyFiles world), none⟩ := by
    simp only [Toolchain.classifyDiffTier]
    rw [hcap', if_neg Bool.false_ne_true, if_neg (List.ne_nil_of_mem hp)]
  simp only [Toolchain.assessGraphSync, hvcs, hempty, hstamped.outdatedExtractors, hdated, hstored]
  simp [hhead, htier, hp]

theorem toHash_subset (h : t.incrementalUpdate world.still fails db base = .ok (db', report))
    (herr : report.errors = []) :
    t.toHash world db'.files (dirtyFiles world) ⊆
      movedFiles world db.files ++ dirtyFiles world := by
  intro p hp
  rcases List.mem_append.mp (mem_pathSet.mp hp) with hp | hp
  · obtain ⟨hmem, hm⟩ := List.mem_filter.mp hp
    obtain ⟨row, hrow⟩ := FileTable.mem_paths.mp hmem
    refine List.mem_append_left _ ?_
    obtain ⟨hscope, hl | hmt⟩ := stored_after_update h herr hrow
    · have hsame := lookup_of_leftAlone h hl hscope
      rw [hsame] at hm hrow
      exact List.mem_filter.mpr ⟨FileTable.mem_paths.mpr ⟨row, hrow⟩, hm⟩
    · rw [hmt, hrow] at hm
      simp at hm
  · have hd := (mem_dirtyCandidates_fst.mp (List.mem_filter.mp hp).1).1
    exact List.mem_append_right _ hd

/-- After an update without errors and with nothing moving since, the work tree is not
called behind when everything is settled. Where the earlier tiers pass and no more files
moved than the check hashes, a stranded file is what it takes to be called behind. -/
theorem not_behind_after_update (hbase : db.gitHeadSha = some base)
    (hres : resolveCommitSha world base = some base) (hvcs : world.vcs = .git)
    (hhead : world.head ≠ "") (hlisted : world.StatusListed)
    (h : t.incrementalUpdate world.still fails db base = .ok (db', report))
    (herr : report.errors = []) :
    (t.Settleable world db base →
        (t.assessGraphSync world false db').1.state ≠ .worktreeBehind) ∧
      (db.lastUpdated = true → t.Stamped db →
        (db.seededNeedsVerify = true ∨
          (movedFiles world db.files).length + (dirtyFiles world).length ≤ maxHashCandidates) →
        ∀ p, t.Stranded world db base p →
          (t.assessGraphSync world false db').1.state = .worktreeBehind ∧
            p ∈ (t.assessGraphSync world false db').1.pendingFiles) := by
  have hsafe : isSafeGitRef base = true := by
    simp only [resolveCommitSha] at hres
    by_contra hn
    rw [if_pos (by simpa using hn)] at hres
    cases hres
  refine ⟨fun hs => assess_ne_behind hvcs (pendingFiles_after_update hs hlisted hsafe h herr), ?_⟩
  intro hdated hstamped hcap p hp
  obtain ⟨row, hrow, hm, hh⟩ := hp.stale
  have hrow' : db'.files.lookup p = some row :=
    (lookup_of_leftAlone h hp.leftAlone hp.scope).trans hrow
  obtain ⟨hdated', hseeded, hstamped'⟩ := meta_after_update h hdated hstamped
  have hmem := FileTable.mem_paths.mpr ⟨row, hrow'⟩
  refine assess_behind hvcs (head_after_update h hbase hres hvcs hhead) hhead hdated' hstamped'
    (List.ne_nil_of_mem hmem) ?_ ?_
  · rw [hseeded]
    refine hcap.imp_right fun hle => le_trans ?_ hle
    rw [← List.length_append]
    exact (nodup_pathSet _).length_le_of_subset (toHash_subset h herr)
  · simp only [Toolchain.pendingFiles, mem_pathSet, List.mem_append, unstatted, List.mem_filter]
    cases hmt : (world.file p).mtime with
    | none => exact .inl (.inl ⟨hmem, by simp⟩)
    | some m =>
        refine .inr ⟨?_, ?_⟩
        · simp only [Toolchain.toHash, mem_pathSet, List.mem_append, movedFiles, List.mem_filter]
          refine .inl ⟨hmem, ?_⟩
          rw [hmt] at hm ⊢
          rw [hrow']
          simpa using hm
        · cases hb : (world.file p).read with
          | none => simp [Toolchain.contentUnchanged, hb]
          | some b => simp [Toolchain.contentUnchanged, hb, hrow', hh b hb]

end Assess

/-- An update from `c1` to `c2` parses the edited file, and the graph is in sync. -/
theorem not_behind_edited : ∃ db' report,
    pythonTools.incrementalUpdate editedWorld.still (fun _ => false) editedDb "c1"
      = .ok (db', report) ∧
    (pythonTools.assessGraphSync editedWorld false db').1.state ≠ .worktreeBehind := by
  have hclean : (pythonTools.incrementalUpdate editedWorld.still (fun _ => false) editedDb
      "c1").toOption.any (fun r => r.2.errors.isEmpty) = true := by decide +kernel
  cases h : pythonTools.incrementalUpdate editedWorld.still (fun _ => false) editedDb "c1" with
  | error e =>
      rw [h] at hclean
      exact absurd hclean Bool.false_ne_true
  | ok r =>
      obtain ⟨db', report⟩ := r
      rw [h] at hclean
      refine ⟨db', report, rfl, (not_behind_after_update rfl rfl rfl (by decide) ?_ h
        (List.isEmpty_iff.mp hclean)).1 ⟨?_, ?_, ?_⟩⟩
      · intro p hp
        cases hp
      · intro p hp
        obtain rfl : p = "a.py" := List.mem_singleton.mp hp.scope
        exact hp.leftAlone.reported (by decide +kernel)
      · intro p hp
        cases hp
      · intro p hp
        cases hp

/-! ## A discarded edit -/

/-- `git status` names every tracked file that is not as HEAD has it. -/
def World.StatusTruthful (world : World) (trees : Trees) : Prop :=
  ∀ p, trees world.head p ≠ none → (world.file p).content ≠ trees world.head p →
    p ∈ dirtyFiles world

/-- Every commit has the first version of `a.py`. -/
def restoredTrees : Trees := fun _ p => if p = "a.py" then some oneSource else none

/-- The repository at `c1`, with an edit of `a.py` just discarded. -/
def restoredWorld : World where
  head := "c1"
  revParse reference := reference
  gitDiff _ := some []
  gitStatus := some []
  gitIndexableFiles := some ["a.py"]
  ignored _ := false
  file p := if p = "a.py" then .regular oneSource 3 else .absent

/-- The graph as an update during the edit left it. -/
def restoredDb : GraphDb where
  files := AList.insert "a.py" ⟨pythonTools.sha256Hex twoSource, 2, ["python"]⟩ ∅
  gitHeadSha := some "c1"
  lastUpdated := true

/-- Git finds the restored file clean, so the update has nothing to do, and the work tree
is called behind after it as before. -/
theorem behind_after_discarded_edit :
    ¬∀ (t : Toolchain) (trees : Trees) (world : World) (fails : DbStep → Bool)
      (db db' : GraphDb) (base : String) (report : UpdateReport),
      db.gitHeadSha = some base → resolveCommitSha world base = some base →
      world.vcs = .git → world.DiffTruthful trees → world.StatusTruthful trees →
      world.StatusListed →
      t.incrementalUpdate world.still fails db base = .ok (db', report) → report.errors = [] →
      (t.assessGraphSync world false db').1.state ≠ .worktreeBehind := by
  intro h
  refine h pythonTools restoredTrees restoredWorld (fun _ => false) restoredDb restoredDb "c1" {}
    rfl rfl rfl ?_ ?_ ?_ ?_ rfl (by decide +kernel)
  · intro base files _ p hp
    exact absurd rfl hp
  · intro p hp hne
    refine absurd ?_ hne
    by_cases hpy : p = "a.py"
    · subst hpy
      rfl
    · simp [restoredWorld, restoredTrees, hpy]
  · intro p hp
    cases hp
  · rfl

end Dagayn
