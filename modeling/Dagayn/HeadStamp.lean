import Dagayn.UpdateInv

/-!
# What a recorded commit says

`git_head_sha` names the commit the graph describes, and the next update diffs against
it: a file missed before the stamp is invisible afterwards. `StampSound` says what a
stamp of a new commit promises. The update keeps it when nothing it relies on moves
(`stampSound_of_undisturbed`): git answers the diff, HEAD and the base stay where they
were, and the files that differ look the same at every look and can be read.

It does not check any of this. A diff that fails is an empty diff
(`not_stampSound_failed_diff`), HEAD is read again for the stamp, and a file that cannot
be read is filtered out as binary.
-/

namespace Dagayn

/-! ## The stored commit moves only at the end -/

section Head

/-- Whatever way the call ends, the stored commit is `sha`. -/
def KeepsHead {α : Type} (sha : Option String) (head : α → Option String) :
    Except GraphDb α → Prop
  | .ok a => head a = sha
  | .error e => e.gitHeadSha = sha

variable {α β : Type} {sha : Option String} {head : α → Option String}
  {head' : β → Option String}

theorem KeepsHead.bind {x : Except GraphDb α} {f : α → Except GraphDb β}
    (hx : KeepsHead sha head x) (hf : ∀ a, head a = sha → KeepsHead sha head' (f a)) :
    KeepsHead sha head' (x >>= f) := by
  cases x with
  | error e => exact hx
  | ok a => exact hf a hx

variable {fails : DbStep → Bool} {db : GraphDb} {t : Toolchain} {w : History}

theorem keepsHead_write {step : DbStep} {ws : List (String × FileWrite)}
    (h : db.gitHeadSha = sha) : KeepsHead sha GraphDb.gitHeadSha (db.write fails step ws) := by
  cases hw : db.write fails step ws with
  | error e =>
      obtain rfl := GraphDb.write_error hw
      exact h
  | ok db' =>
      obtain rfl := GraphDb.write_ok hw
      exact h

theorem keepsHead_storeChunks : ∀ {chunks : List (List (String × Parsed))} {i : Nat}
    {db : GraphDb}, db.gitHeadSha = sha →
      KeepsHead sha GraphDb.gitHeadSha (storeChunks fails i chunks db)
  | [], _, _, h => h
  | _ :: _, _, _, h => (keepsHead_write h).bind fun _ h => keepsHead_storeChunks h

theorem keepsHead_parsePlanned {plan : Plan} (h : db.gitHeadSha = sha) :
    KeepsHead sha (fun r => r.1.gitHeadSha) (t.parsePlanned w fails plan db) := by
  refine (keepsHead_storeChunks h).bind fun _ h => ?_
  refine (keepsHead_write h).bind fun _ h => ?_
  refine (keepsHead_write h).bind fun _ h => ?_
  refine (keepsHead_write h).bind fun _ h => ?_
  refine (keepsHead_write h).bind fun _ h => ?_
  exact (keepsHead_write h).bind fun _ h => h

theorem keepsHead_updateChanged {scope extractorFiles changed : List String}
    (h : db.gitHeadSha = sha) :
    KeepsHead sha (fun r => r.1.gitHeadSha)
      (t.updateChanged w fails db scope extractorFiles changed) := by
  refine (keepsHead_write h).bind fun _ h => ?_
  refine (keepsHead_write h).bind fun _ h => ?_
  refine (keepsHead_write h).bind fun _ h => ?_
  split
  · exact h
  · exact (keepsHead_parsePlanned h).bind fun _ h => h

theorem keepsHead_updateFiles {changed : List String} (h : db.gitHeadSha = sha) :
    KeepsHead sha (fun r => r.1.gitHeadSha) (t.updateFiles w fails db changed) := by
  unfold Toolchain.updateFiles
  split
  · exact h
  · dsimp only
    -- The early return, with and without a fresh extractor stamp.
    split
    · split
      · exact h
      · exact keepsHead_updateChanged h
    · split
      · exact h
      · exact keepsHead_updateChanged h

end Head

/-! ## What the exits of an update leave -/

/-- The database an update leaves behind, whichever way it ends. -/
def leftBehind : Except GraphDb (GraphDb × UpdateReport) → GraphDb
  | .ok r => r.1
  | .error db => db

namespace Toolchain

variable {t : Toolchain} {w : History} {fails : DbStep → Bool} {db db' : GraphDb}
  {base : String} {changed : List String} {report : UpdateReport} {parsed covers : Bool}

/-- The database of an update once it has looked at the extractor stamp. -/
def Restamped (t : Toolchain) (db db' : GraphDb) : Prop :=
  db' = db ∨ db' = { db with extractorVersions := t.extractorVersionsStamp }

theorem Restamped.files (h : t.Restamped db db') : db'.files = db.files := by
  rcases h with rfl | rfl <;> rfl

theorem updateFiles_ok (h : t.updateFiles w fails db changed = .ok (db', report, parsed)) :
    let scope := t.collectScope (w .listing)
    let extractorFiles := t.extractorReparseScope w db scope
    (changed = [] ∧ staleScope db.files scope = [] ∧ extractorFiles = [] ∧
        t.Restamped db db' ∧ parsed = false) ∨
      ∃ db₁ : GraphDb, t.Restamped db db₁ ∧
        t.updateChanged w fails db₁ scope extractorFiles (expandChangedSubmodules w changed)
          = .ok (db', report, parsed) := by
  unfold updateFiles at h
  split at h
  · cases h
  · dsimp only at h
    split at h
    · split at h
      · rename_i hnone
        simp only [pure, Except.pure, Except.ok.injEq, Prod.mk.injEq] at h
        obtain ⟨rfl, rfl, rfl⟩ := h
        exact .inl ⟨hnone.1, hnone.2.1, hnone.2.2, .inr rfl, rfl⟩
      · exact .inr ⟨_, .inr rfl, h⟩
    · split at h
      · rename_i hnone
        simp only [pure, Except.pure, Except.ok.injEq, Prod.mk.injEq] at h
        obtain ⟨rfl, rfl, rfl⟩ := h
        exact .inl ⟨hnone.1, hnone.2.1, hnone.2.2, .inl rfl, rfl⟩
      · exact .inr ⟨_, .inl rfl, h⟩

theorem storeVcsMetadata_files (world : World) : (storeVcsMetadata world db).files = db.files := by
  simp only [storeVcsMetadata]
  split <;> rfl

/-- The last step leaves the files alone, and records HEAD or keeps the stored commit. -/
theorem finish_cases (h : t.finish w fails covers parsed db = .ok db') :
    db'.files = db.files ∧ (db'.gitHeadSha = db.gitHeadSha ∨
      (covers = true ∧ db'.gitHeadSha = some (w .stamp).head)) := by
  simp only [finish] at h
  split at h
  · cases h
  · obtain rfl := Except.ok.inj h
    set db₁ := if parsed = true then
      { db with lastUpdated := true, extractorVersions := t.extractorVersionsStamp }
        else db with hdb
    have hfiles : db₁.files = db.files := by rw [hdb]; split <;> rfl
    have hhead : db₁.gitHeadSha = db.gitHeadSha := by rw [hdb]; split <;> rfl
    cases covers with
    | false => exact ⟨hfiles, .inl hhead⟩
    | true =>
        rw [if_pos rfl]
        refine ⟨(storeVcsMetadata_files _).trans hfiles, ?_⟩
        simp only [storeVcsMetadata]
        split
        · exact .inr ⟨trivial, rfl⟩
        · exact .inl hhead

theorem finish_error {e : GraphDb} (h : t.finish w fails covers parsed db = .error e) :
    e = db := by
  simp only [finish] at h
  split at h
  · exact (Except.error.inj h).symm
  · cases h

/-- An update that leaves another commit behind than it found took the changed paths
through, found the diff to cover the graph's commit, and recorded HEAD. -/
theorem exists_of_stamp {stored sha : String} (hstored : db.gitHeadSha = some stored)
    (h : (leftBehind (t.incrementalUpdate w fails db base)).gitHeadSha = some sha)
    (hne : sha ≠ stored) :
    ∃ db₁ db' report parsed,
      t.updateFiles w fails db (changedFiles w base) = .ok (db₁, report, parsed) ∧
      t.incrementalUpdate w fails db base = .ok (db', report) ∧ db'.files = db₁.files ∧
      diffCoversGraphCommit (w .resolve) db base = true ∧ sha = (w .stamp).head := by
  have hkept : (leftBehind (t.incrementalUpdate w fails db base)).gitHeadSha ≠ some stored := by
    rw [h]
    exact fun heq => hne (Option.some.inj heq)
  have hrun : t.incrementalUpdate w fails db base
      = t.runPipeline w fails db base (changedFiles w base) := by
    simp only [incrementalUpdate] at hkept ⊢
    split
    · rename_i hv
      rw [hv] at hkept
      exact absurd hstored hkept
    · rename_i hv
      rw [hv] at hkept
      exact absurd hstored hkept
    · rfl
    · rfl
  rw [hrun] at h hkept ⊢
  have hhead : KeepsHead (some stored) (fun r => r.1.gitHeadSha)
      (t.updateFiles w fails db (changedFiles w base)) := keepsHead_updateFiles hstored
  simp only [runPipeline] at h hkept ⊢
  cases hu : t.updateFiles w fails db (changedFiles w base) with
  | error e =>
      rw [hu] at hhead hkept
      exact absurd hhead hkept
  | ok r =>
      obtain ⟨db₁, report, parsed⟩ := r
      rw [hu] at hhead hkept h
      cases hf : t.finish w fails (diffCoversGraphCommit (w .resolve) db base) parsed db₁ with
      | error e =>
          obtain rfl := finish_error hf
          simp only [bind, Except.bind, hf] at hkept
          exact absurd hhead hkept
      | ok db₂ =>
          obtain ⟨hfiles, hsha⟩ := finish_cases hf
          simp only [bind, Except.bind, hf] at hkept h ⊢
          refine ⟨db₁, db₂, report, parsed, rfl, rfl, hfiles, ?_⟩
          rcases hsha with hsha | ⟨hcov, hsha⟩
          · exact absurd (hsha.trans hhead) hkept
          · exact ⟨hcov, Option.some.inj (h.symm.trans hsha)⟩

end Toolchain

/-! ## What a stamp promises -/

/-- The files of every commit. -/
abbrev Trees := String → String → Option Bytes

/-- `git diff base HEAD` lists every path the two trees differ at. -/
def World.DiffTruthful (world : World) (trees : Trees) : Prop :=
  ∀ base files, world.gitDiff base = some files →
    ∀ p, trees (world.revParse base) p ≠ trees world.head p → p ∈ files

namespace Toolchain

variable (t : Toolchain) (trees : Trees) (w : History) (fails : DbStep → Bool)

/-- The path is one a build indexes, as the bytes in the work tree have it: a file that
cannot be read just now is still one. -/
def Indexable (world : World) (p : String) : Prop :=
  p ∈ t.collectScope world ∧ t.parseable { world.file p with readable := true } p = true

/-- The stored rows of `p` are those of its content in the work tree. -/
def RowsFollow (world : World) (d : FileTable) (p : String) : Prop :=
  (t.Indexable world p → ∃ b, (world.file p).content = some b ∧ t.Describes p b (d.lookup p)) ∧
    (¬t.Indexable world p → d.lookup p = none)

/-- What holds when HEAD was recorded as `sha` over the commit `stored`. -/
structure StampEarned (base stored sha : String) (db' : GraphDb) (report : UpdateReport) :
    Prop where
  diffed : (w .diff).gitDiff base ≠ none
  unmoved : (w .diff).head = sha
  follows : ∀ p, trees stored p ≠ trees sha p → t.RowsFollow (w .stamp) db'.files p
  clean : ∀ p, trees stored p ≠ trees sha p → t.Indexable (w .stamp) p →
    ∀ message, (p, message) ∉ report.errors

/-- An update that leaves another commit behind than the stored one has earned it. -/
def StampSound (db : GraphDb) (base : String) : Prop :=
  ∀ stored sha, db.gitHeadSha = some stored → stored ≠ "" →
    (leftBehind (t.incrementalUpdate w fails db base)).gitHeadSha = some sha → sha ≠ stored →
    ∃ db' report, t.incrementalUpdate w fails db base = .ok (db', report) ∧
      t.StampEarned trees w base stored sha db' report

/-- The path looks the same to every look of the update and to the stamp, and can be read;
a submodule does not stand in its place, and one that is no longer indexable is not read
again for an outdated extractor. -/
structure Undisturbed (db : GraphDb) (p : String) : Prop where
  steady : w.Steady p ((w .stamp).file p)
  listed : p ∈ t.collectScope (w .listing) ↔ p ∈ t.collectScope (w .stamp)
  ignored : (w .ignorePatterns).ignored p = (w .stamp).ignored p
  readable : ((w .stamp).file p).content.isSome → ((w .stamp).file p).readable = true
  notSubmodule : ((w .stamp).file p).submodule = none
  settled : t.Indexable (w .stamp) p ∨ ((w .stamp).file p).content = none ∨
    t.outdatedExtractors db = []

end Toolchain

section StampSound

variable {t : Toolchain} {trees : Trees} {w : History} {fails : DbStep → Bool}
  {db db' : GraphDb} {base p : String} {report : UpdateReport} {parsed : Bool}

theorem Toolchain.ignored_of_mem_collectScope {world : World}
    (h : p ∈ t.collectScope world) : world.ignored p = false := by
  simp only [Toolchain.collectScope] at h
  split at h
  · simp only [Toolchain.filterParseableFiles, List.mem_filter, Bool.and_eq_true,
      Bool.not_eq_true'] at h
    exact h.2.1.1.1.1
  · simp only [Toolchain.filterParseableFiles, List.mem_filter, Bool.and_eq_true,
      Bool.not_eq_true'] at h
    exact h.2.1.1.1.1
  · simpa using (List.mem_filter.mp h).2

theorem mem_expandChangedSubmodules {paths : List String} (h : p ∈ paths)
    (hsub : (w.at .expand .read p).submodule = none) :
    p ∈ expandChangedSubmodules w paths := by
  rw [expandChangedSubmodules, mem_dedupe, List.mem_flatMap]
  exact ⟨p, h, by rw [hsub]; exact List.mem_singleton_self p⟩

theorem FileView.with_readable {v : FileView} (h : v.readable = true) :
    { v with readable := true } = v := by
  cases v
  cases h
  rfl

theorem Toolchain.mem_extractorReparseScope {scope : List String}
    (h : p ∈ t.extractorReparseScope w db scope) :
    p ∈ scope ∧ t.outdatedExtractors db ≠ [] := by
  obtain ⟨hscope, hlang⟩ := List.mem_filter.mp (mem_pathSet.mp h)
  refine ⟨hscope, fun hnone => ?_⟩
  rw [hnone] at hlang
  simp at hlang

theorem Toolchain.notMem_removed {v : FileView} {d : FileTable}
    {scope extractorFiles changed : List String} (hs : w.Steady p v) (hscope : p ∈ scope)
    (hpar : t.parseable v p = true) :
    p ∉ (t.updatePlan w d scope extractorFiles changed).removed := by
  intro h
  rcases Toolchain.mem_replan_snd h with h | h | h
  · rw [Toolchain.mem_classify_removed, hs .filter .read, hpar] at h
    rcases h.2 with h | h
    · exact h hscope
    · exact absurd h.2.2 (by simp)
  · exact h hscope
  · rw [hs .refilter .read, hpar] at h
    exact absurd h.2 (by simp)

/-- An undisturbed path that git reported ends with the rows of its content, and without
an error. -/
theorem rowsFollow_of_undisturbed (hu : t.Undisturbed w db p)
    (h : t.updateFiles w fails db (changedFiles w base) = .ok (db', report, parsed))
    (hp : p ∈ changedFiles w base) :
    t.RowsFollow (w .stamp) db'.files p ∧
      (t.Indexable (w .stamp) p → ∀ message, (p, message) ∉ report.errors) := by
  rcases Toolchain.updateFiles_ok h with ⟨hnil, -⟩ | ⟨db₁, hfiles, hup⟩
  · rw [hnil] at hp
    cases hp
  have hexp := mem_expandChangedSubmodules hp (by rw [hu.steady]; exact hu.notSubmodule)
  have hs := hu.steady
  have hpar (hc : ((w .stamp).file p).content.isSome) :
      t.parseable { (w .stamp).file p with readable := true } p
        = t.parseable ((w .stamp).file p) p := by
    rw [FileView.with_readable (hu.readable hc)]
  by_cases hi : t.Indexable (w .stamp) p
  · -- It is a candidate, so the update looks into it and leaves current rows.
    obtain ⟨hscope, hpar'⟩ := hi
    have hcontent : ((w .stamp).file p).content.isSome := by
      simp only [Toolchain.parseable, Bool.and_eq_true] at hpar'
      exact hpar'.1.1.1.1
    rw [hpar hcontent] at hpar'
    obtain ⟨b, hb⟩ := Toolchain.exists_read_of_parseable hpar'
    obtain ⟨m, hm⟩ := FileView.exists_mtime_of_read hb
    have hscope' := hu.listed.mpr hscope
    have hign : (w .ignorePatterns).ignored p = false :=
      hu.ignored.trans (Toolchain.ignored_of_mem_collectScope hscope)
    have hcand := Toolchain.mem_filterCandidates_fst.mpr
      ⟨hexp, hign, (show t.parseable (w.at .filter .read p) p = true by
        rw [hs .filter .read]; exact hpar'), hscope'⟩
    have htouch := Toolchain.updateChanged_touches hs hb hm hup
      (Toolchain.notMem_removed hs hscope' hpar')
    have hcur := htouch.current (Toolchain.touched_of_mem_candidates hs hb hm hcand)
    exact ⟨⟨fun _ => ⟨b, FileView.content_of_read hb, hcur.1⟩,
      fun hn => absurd ⟨hscope, by rw [hpar hcontent]; exact hpar'⟩ hn⟩,
      fun _ message => Toolchain.updateChanged_clean hs hb hm hup⟩
  · refine ⟨⟨fun h => absurd h hi, fun _ => ?_⟩, fun h => absurd h hi⟩
    refine Toolchain.updateChanged_gone hs hup
      (fun q hq => (Toolchain.mem_extractorReparseScope hq).1) ?_ ?_
    · by_cases hscope : p ∈ t.collectScope (w .listing)
      · have hscope' := hu.listed.mp hscope
        refine .inr ⟨hexp, hu.ignored.trans (Toolchain.ignored_of_mem_collectScope hscope'), ?_⟩
        by_cases hcontent : ((w .stamp).file p).content.isSome
        · rw [← hpar hcontent]
          exact Bool.eq_false_iff.mpr fun hp => hi ⟨hscope', hp⟩
        · simp [Toolchain.parseable, hcontent]
      · exact .inl hscope
    · intro hext _
      rcases hu.settled with h | h | h
      · exact absurd h hi
      · simp [FileView.read, h]
      · exact absurd h (Toolchain.mem_extractorReparseScope hext).2

theorem mem_changedFiles {files : List String} (hsafe : isSafeGitRef base = true)
    (hdiff : (w .diff).gitDiff base = some files) (hp : p ∈ files) :
    p ∈ changedFiles w base := by
  rw [changedFiles, if_neg (by simp [hsafe]), mem_dedupe, hdiff]
  exact List.mem_append_left _ hp

theorem revParse_of_covers {world : World} {stored : String}
    (h : diffCoversGraphCommit world db base = true) (hstored : db.gitHeadSha = some stored)
    (hne : stored ≠ "") : isSafeGitRef base = true ∧ world.revParse base = stored := by
  simp only [diffCoversGraphCommit, resolveCommitSha, hstored] at h
  cases hsafe : isSafeGitRef base with
  | false => simp [hsafe] at h
  | true =>
      by_cases hrev : world.revParse base = ""
      · simp [hsafe, hrev] at h
      · simp only [hsafe, Bool.not_true, Bool.false_eq_true, if_false, hrev, Bool.or_eq_true,
          decide_eq_true_iff] at h
        exact ⟨rfl, (h.resolve_left hne).symm⟩

/-- An update records a commit it has earned when git answered the diff, neither HEAD nor
the base moved since, and the files that differ were left undisturbed. -/
theorem stampSound_of_undisturbed (hgit : (w .diff).DiffTruthful trees)
    (hdiff : ((w .diff).gitDiff base).isSome)
    (hbase : (w .resolve).revParse base = (w .diff).revParse base)
    (hhead : (w .stamp).head = (w .diff).head)
    (hfiles : ∀ p, trees ((w .diff).revParse base) p ≠ trees (w .diff).head p →
      t.Undisturbed w db p) :
    t.StampSound trees w fails db base := by
  intro stored sha hstored hne h hsha
  obtain ⟨db₁, db', report, parsed, hu, hrun, hsame, hcov, rfl⟩ :=
    Toolchain.exists_of_stamp hstored h hsha
  obtain ⟨hsafe, hrev⟩ := revParse_of_covers hcov hstored hne
  obtain ⟨files, hd⟩ := Option.isSome_iff_exists.mp hdiff
  have hpath : ∀ p, trees stored p ≠ trees (w .stamp).head p →
      t.RowsFollow (w .stamp) db'.files p ∧
        (t.Indexable (w .stamp) p → ∀ message, (p, message) ∉ report.errors) := by
    intro p hp
    rw [← hrev, hbase, hhead] at hp
    rw [hsame]
    exact rowsFollow_of_undisturbed (hfiles p hp) hu
      (mem_changedFiles hsafe hd (hgit base files hd p hp))
  exact ⟨db', report, hrun, by rw [hd]; exact Option.some_ne_none _, hhead.symm,
    fun p hp => (hpath p hp).1, fun p hp => (hpath p hp).2⟩

end StampSound

/-! ## A failed diff

One Python file, edited between the stored commit `c1` and HEAD, which is `c2`. -/

def oneSource : Bytes := [97, 32, 61, 32, 49, 10]

def twoSource : Bytes := [97, 32, 61, 32, 50, 10]

/-- The parser as it is for `a.py`. -/
def pythonTools : Toolchain where
  sha256Hex b :=
    if b = oneSource then "cb78bd8a17f7b751fe0d4663366dcbc257204033ef7ddd64b1f2969573b5b2e2"
    else if b = twoSource then "1382c01db535c28d9d2e3137ea7b6ff14ed03537bc4dab2e8d40182bd48bbd69"
    else "other"
  detectLanguage p _ := if p = "a.py" then some "python" else none
  ownsPath p := p = "a.py"
  hasExtension p := p = "a.py"
  ownsShebang _ := false
  rowLanguages p _ := if p = "a.py" then some ["python"] else none
  extractorVersions := []
  directDependents _ := []

def editedTrees : Trees := fun commit p =>
  if p = "a.py" then if commit = "c1" then some oneSource else some twoSource else none

/-- The repository at `c2`, checked out. -/
def editedWorld : World where
  head := "c2"
  revParse reference := reference
  gitDiff _ := some ["a.py"]
  gitStatus := some []
  gitIndexableFiles := some ["a.py"]
  ignored _ := false
  file p := if p = "a.py" then .regular twoSource 2 else .absent

/-- The graph as a build at `c1` left it. -/
def editedDb : GraphDb where
  files := AList.insert "a.py"
    ⟨pythonTools.sha256Hex oneSource, 1, ["python"]⟩ ∅
  gitHeadSha := some "c1"
  lastUpdated := true

theorem stampSound_edited :
    pythonTools.StampSound editedTrees (fun _ => editedWorld) (fun _ => false) editedDb "c1" := by
  refine stampSound_of_undisturbed ?_ rfl rfl rfl ?_
  · intro base files hd p hp
    obtain rfl := Option.some.inj hd
    by_contra hn
    have hpy : p ≠ "a.py" := fun heq => hn (by rw [heq]; exact List.mem_singleton_self _)
    exact hp (by simp [editedTrees, hpy])
  · intro p hp
    have hpy : p = "a.py" := by
      by_contra hn
      exact hp (by simp [editedTrees, hn])
    subst hpy
    exact ⟨fun _ _ => rfl, Iff.rfl, rfl, fun _ => rfl, rfl, .inr (.inr rfl)⟩

/-- The same repository, with a `git diff` that fails. -/
def failedDiff : History
  | .diff => { editedWorld with gitDiff := fun _ => none }
  | _ => editedWorld

/-- A failed diff is taken for an empty one: `c2` is recorded over the rows of `c1`. -/
theorem not_stampSound_failed_diff :
    ¬∀ (t : Toolchain) (trees : Trees) (w : History) (fails : DbStep → Bool) (db : GraphDb)
      (base : String), (w .diff).DiffTruthful trees → t.StampSound trees w fails db base := by
  intro h
  have hgit : (failedDiff .diff).DiffTruthful editedTrees := fun _ _ hd => by cases hd
  obtain ⟨db', report, hrun, hearned⟩ :=
    h pythonTools editedTrees failedDiff (fun _ => false) editedDb "c1" hgit "c1" "c2" rfl
      (by decide) (by decide +kernel) (by decide)
  have hrow : (leftBehind (pythonTools.incrementalUpdate failedDiff (fun _ => false) editedDb
      "c1")).files.lookup "a.py" = editedDb.files.lookup "a.py" := by decide +kernel
  rw [hrun] at hrow
  obtain ⟨b, hb, hd⟩ := (hearned.follows "a.py" (by decide)).1 ⟨by decide, by decide⟩
  obtain rfl := Option.some.inj hb
  rw [show db'.files.lookup "a.py" = _ from hrow] at hd
  have hsame : pythonTools.sha256Hex oneSource = pythonTools.sha256Hex twoSource := hd
  exact absurd hsame (by decide)

end Dagayn
