import Dagayn.GraphSync

/-!
# The queues of an update plan

`run_pipeline` plans with one tree in view: what it removes, and what it parses in four
queues (re-parsed in full for an outdated extractor, known to have changed, to be hashed
first, and not owned by the parser). `mem_parsed` and `mem_removed` say of every path
which it is in, in terms of the graph, the changed list and the tree alone. The four
queues never share a path. The full re-parse, though, is taken from the indexable scope,
which lists a tracked file that is gone, while the classification removes that file: so
`planned_once` holds exactly where no outdated extractor asks for a file that left.
-/

namespace Dagayn

theorem pathSet_congr {as bs : List String} (h : ∀ p, p ∈ as ↔ p ∈ bs) :
    pathSet as = pathSet bs := by
  have hperm : (pathSet as).Perm (pathSet bs) := by
    rw [List.perm_ext_iff_of_nodup (nodup_pathSet as) (nodup_pathSet bs)]
    intro p
    rw [mem_pathSet, mem_pathSet, h]
  exact hperm.eq_of_pairwise (fun _ _ _ _ => String.le_antisymm)
    (List.pairwise_insertionSort (· ≤ ·) _) (List.pairwise_insertionSort (· ≤ ·) _)

theorem dedupe_nodup (paths : List String) : (dedupe paths).Nodup := keepFirst_nodup id paths

/-- The files the plan parses, queue after queue. -/
def Plan.parsed (plan : Plan) : List String :=
  plan.rustFull ++ plan.rustForced ++ plan.rustChecked ++ plan.unowned

namespace Toolchain

/-! ## No queue shares a path -/

section Queues

variable {t : Toolchain} {w : History} {d : FileTable} {scope extractorFiles : List String}
  {c : Classified}

theorem nodup_replan_fst (hc : c.contentChanged.Nodup) : (t.replan w d scope c).1.Nodup := by
  simp only [replan]
  split
  · exact hc.filter _
  · simp only [filterCandidates, filterIncrementalCandidates, List.partition_eq_filter_filter]
    exact (((nodup_pathSet _).filter _).filter _).filter _

theorem nodup_replan_snd (hc : c.removed.Nodup) : (t.replan w d scope c).2.Nodup := by
  simp only [replan]
  split
  · exact hc
  · exact dedupe_nodup _

theorem plan_unowned_eq :
    (t.plan w d scope extractorFiles c).unowned =
      ((extractorFiles.filter (· ∉ c.contentChanged)).filter
        fun p => !t.owns (w.at .plan .owns p) p) ++
      ((((t.replan w d scope c).1.filter
        (· ∉ extractorFiles.filter (· ∉ c.contentChanged))).filter
          fun p => !t.owns (w.at .plan .owns p) p).filter fun p =>
            t.contentState (w.at .plan .stat p) (w.at .plan .read p) (d.lookup p)
              (p ∉ c.contentChanged) = .changed) := by
  simp only [plan, List.filter_map, List.map_map, Function.comp_def, List.map_id']

theorem nodup_plan_unowned (hc : c.contentChanged.Nodup) (hext : extractorFiles.Nodup) :
    (t.plan w d scope extractorFiles c).unowned.Nodup := by
  rw [plan_unowned_eq]
  refine List.Nodup.append ((hext.filter _).filter _)
    ((((nodup_replan_fst hc).filter _).filter _).filter _) ?_
  intro p hfull hcand
  have hout := (List.mem_filter.mp (List.mem_filter.mp (List.mem_filter.mp hcand).1).1).2
  exact of_decide_eq_true hout (List.mem_filter.mp hfull).1

theorem nodup_plan_parsed (hc : c.contentChanged.Nodup) (hext : extractorFiles.Nodup) :
    (t.plan w d scope extractorFiles c).parsed.Nodup := by
  have hfull : (t.plan w d scope extractorFiles c).rustFull.Nodup := (hext.filter _).filter _
  have hcand : ((t.replan w d scope c).1.filter
      (· ∉ extractorFiles.filter (· ∉ c.contentChanged))).Nodup := (nodup_replan_fst hc).filter _
  have hforced : (t.plan w d scope extractorFiles c).rustForced.Nodup :=
    (hcand.filter _).filter _
  have hchecked : (t.plan w d scope extractorFiles c).rustChecked.Nodup :=
    (hcand.filter _).filter _
  refine ((hfull.append hforced ?_).append hchecked ?_).append (nodup_plan_unowned hc hext) ?_
  · intro p hp hq
    rw [mem_plan_rustFull] at hp
    rw [mem_plan_rustForced] at hq
    exact hp.1.2 (hq.1.1.2 hp.1.1)
  · intro p hp hq
    rw [List.mem_append, mem_plan_rustFull, mem_plan_rustForced] at hp
    rw [mem_plan_rustChecked] at hq
    rcases hp with hp | hp
    · exact hp.1.2 (hq.1.1.2 hp.1.1)
    · exact hq.2.1 hp.2
  · intro p hp hq
    have howns : t.owns (w.at .plan .owns p) p = true := by
      simp only [List.mem_append, mem_plan_rustFull, mem_plan_rustForced,
        mem_plan_rustChecked] at hp
      rcases hp with (hp | hp) | hp
      · exact hp.2
      · exact hp.1.2
      · exact hp.1.2
    rw [mem_plan_unowned, howns] at hq
    rcases hq with hq | hq
    · cases hq.2
    · cases hq.1.2

end Queues

/-! ## The queues of a path, over one tree -/

def differs (t : Toolchain) (v : FileView) (stored : Option FileRow) : Bool :=
  v.read.any fun b => !stored.any fun row => row.fileHash = t.sha256Hex b

/-- A changed path the dependents are looked up from: it is gone, or has other bytes. -/
def isRoot (t : Toolchain) (world : World) (d : FileTable) (scope : List String)
    (p : String) : Bool :=
  !world.ignored p &&
    if t.parseable (world.file p) p then decide (p ∈ scope) && t.differs (world.file p) (d.lookup p)
    else (d.lookup p).isSome

/-- The roots of `find_dependents`. -/
def changedRoots (t : Toolchain) (world : World) (d : FileTable) (scope changed : List String) :
    List String :=
  pathSet (staleScope d scope ++ changed.filter (t.isRoot world d scope))

section Still

variable {t : Toolchain} {world : World} {d : FileTable}
  {scope changed extractorFiles : List String}
  {p : String}

theorem differs_iff {v : FileView} {stored : Option FileRow} {b : Bytes} (hb : v.read = some b) :
    t.differs v stored = true ↔ ¬t.HashIs b stored := by
  simp [differs, hb, ← any_hash]

theorem mem_still_contentChanged :
    p ∈ (t.classify world.still d scope changed).contentChanged ↔
      p ∈ changed ∧ world.ignored p = false ∧ t.parseable (world.file p) p = true ∧ p ∈ scope ∧
        t.differs (world.file p) (d.lookup p) = true := by
  constructor
  · intro h
    obtain ⟨hp, hi, hpar, hscope⟩ :=
      mem_filterCandidates_fst.mp (mem_candidates_of_contentChanged h)
    obtain ⟨b, hb⟩ := exists_read_of_parseable hpar
    obtain ⟨m, hm⟩ := FileView.exists_mtime_of_read hb
    exact ⟨hp, hi, hpar, hscope,
      (differs_iff hb).mpr (mem_contentChanged_cases (steady_still p) hb hm h).1⟩
  · rintro ⟨hp, hi, hpar, hscope, hdiff⟩
    obtain ⟨b, hb⟩ := exists_read_of_parseable hpar
    obtain ⟨m, hm⟩ := FileView.exists_mtime_of_read hb
    have hn := (differs_iff hb).mp hdiff
    rcases mem_candidates_cases (d := d) (steady_still p) hb hm
      (mem_filterCandidates_fst.mpr ⟨hp, hi, hpar, hscope⟩) with h | h | h
    · obtain ⟨x, hx⟩ := mem_map_fst.mp h
      exact absurd (mem_classify_mtimeUpdates (steady_still p) hb hm hx).2 hn
    · obtain ⟨x, hx⟩ := mem_map_fst.mp h
      exact absurd (mem_classify_mtimeOnly (steady_still p) hb hm hx).2 hn
    · exact h

/-- The dependents are looked up from the files that left the scope and the changed paths
that are gone or have other bytes. -/
theorem classify_roots :
    (t.classify world.still d scope changed).roots = t.changedRoots world d scope changed := by
  refine pathSet_congr fun p => ?_
  rw [List.mem_append, List.mem_append, mem_classify_removed, mem_still_contentChanged,
    mem_staleScope, List.mem_filter, FileTable.mem_paths, ← Option.isSome_iff_exists]
  have hfilter : (world.still.at .filter .read p) = world.file p := rfl
  have hignored : (world.still .ignorePatterns).ignored p = world.ignored p := rfl
  rw [hfilter, hignored]
  cases hpar : t.parseable (world.file p) p with
  | false =>
      simp [isRoot, hpar]
      tauto
  | true => simp [isRoot, hpar]

theorem mem_paths_classifiedFiles {w : History} :
    p ∈ (t.classifiedFiles w d scope changed).paths ↔ p ∈ d.paths := by
  rw [FileTable.mem_paths, FileTable.mem_paths, ← Option.isSome_iff_exists,
    ← Option.isSome_iff_exists, ← Bool.eq_iff_iff]
  refine FileTable.lookup_writeAll_induct
    (P := fun row => row.isSome = (d.lookup p).isSome) ?_ rfl
  rintro ⟨q, write⟩ hw - row hrow
  obtain ⟨x, -, rfl⟩ := mem_mtimeWrites.mp hw
  rw [← hrow]
  cases row <;> rfl

theorem mem_paths_of_removed {w : History}
    (h : p ∈ (t.updatePlan w d scope extractorFiles changed).removed) : p ∈ d.paths := by
  have h : p ∈ (t.replan w (t.classifiedFiles w d scope changed) scope
      (t.classify w d scope changed)).2 := h
  simp only [replan] at h
  split at h
  · exact (mem_classify_removed.mp h).1
  · rw [mem_dedupe, List.mem_append, mem_indexedOnly, mem_paths_classifiedFiles] at h
    rcases h with h | h
    · exact (mem_classify_removed.mp h).1
    · exact h.2

theorem mem_removed (hscope : ∀ q ∈ scope, world.ignored q = false) :
    p ∈ (t.updatePlan world.still d scope extractorFiles changed).removed ↔
      p ∈ d.paths ∧ (p ∉ scope ∨ (t.parseable (world.file p) p = false ∧
        (p ∈ changed ∨ p ∈ t.findDependents (t.changedRoots world d scope changed)))) := by
  constructor
  · intro h
    refine ⟨mem_paths_of_removed h, or_iff_not_imp_left.mpr fun hin => ?_⟩
    have hremoved : p ∈ (t.classify world.still d scope changed).removed →
        p ∈ changed ∧ t.parseable (world.file p) p = false := fun h =>
      have h := (mem_classify_removed.mp h).2.resolve_left hin
      ⟨h.1, h.2.2⟩
    have hgone : t.parseable (world.file p) p = false := by
      rcases mem_replan_snd h with h | h | h
      · exact (hremoved h).2
      · exact absurd h hin
      · exact h.2
    refine ⟨hgone, ?_⟩
    rcases mem_replan_source (.inr h) with h | h | h
    · exact .inl (mem_still_contentChanged.mp h).1
    · exact .inl (hremoved h).1
    · exact .inr (classify_roots ▸ h)
  · rintro ⟨hpaths, hp⟩
    by_cases hin : p ∈ scope
    · obtain ⟨hgone, hp⟩ := hp.resolve_left (not_not.mpr hin)
      rcases hp with hp | hp
      · exact mem_replan_snd_of_removed
          (mem_classify_removed.mpr ⟨hpaths, .inr ⟨hp, hscope p hin, hgone⟩⟩)
      · exact mem_replan_snd_of_dependent (classify_roots ▸ hp) (hscope p hin) hgone
          (mem_paths_classifiedFiles.mpr hpaths)
    · exact mem_replan_snd_of_removed (mem_classify_removed.mpr ⟨hpaths, .inl hin⟩)

/-- The candidates left after the classification: in scope, parseable, and changed or a
dependent. -/
theorem mem_candidates (hscope : ∀ q ∈ scope, world.ignored q = false) :
    p ∈ (t.replan world.still (t.classifiedFiles world.still d scope changed) scope
        (t.classify world.still d scope changed)).1 ↔
      p ∈ scope ∧ t.parseable (world.file p) p = true ∧
        (p ∈ (t.classify world.still d scope changed).contentChanged ∨
          p ∈ t.findDependents (t.changedRoots world d scope changed)) := by
  constructor
  · intro h
    obtain ⟨hin, hp⟩ := mem_replan_fst h
    have hpar : t.parseable (world.file p) p = true := by
      rcases hp with hp | hp
      · exact (mem_still_contentChanged.mp hp).2.2.1
      · exact hp
    refine ⟨hin, hpar, ?_⟩
    rcases mem_replan_source (.inl h) with h | h | h
    · exact .inl h
    · have hgone := ((mem_classify_removed.mp h).2.resolve_left (not_not.mpr hin)).2.2
      exact absurd (hpar.symm.trans hgone) (by decide)
    · exact .inr (classify_roots ▸ h)
  · rintro ⟨hin, hpar, hp | hp⟩
    · exact mem_replan_of_contentChanged hp (hscope p hin) hpar hin
    · exact mem_replan_fst_of_dependent (classify_roots ▸ hp) (hscope p hin) hpar hin

theorem exists_read_of_differs {v : FileView} {stored : Option FileRow}
    (h : t.differs v stored = true) : ∃ b, v.read = some b := by
  cases hb : v.read with
  | none => simp [differs, hb] at h
  | some b => exact ⟨b, rfl⟩

/-- The stored row of a file whose bytes differ is not refreshed by the classification. -/
theorem lookup_classifiedFiles_of_differs (h : t.differs (world.file p) (d.lookup p) = true) :
    (t.classifiedFiles world.still d scope changed).lookup p = d.lookup p := by
  obtain ⟨b, hb⟩ := exists_read_of_differs h
  obtain ⟨m, hm⟩ := FileView.exists_mtime_of_read hb
  refine FileTable.lookup_writeAll_of_notMem ?_
  rw [map_fst_mtimeWrites, mem_map_fst]
  rintro ⟨x, hx⟩
  exact (differs_iff hb).mp h (mem_classify_mtimeUpdates (steady_still p) hb hm hx).2

theorem contentState_of_differs {v : FileView} {stored : Option FileRow} {trust : Bool}
    (h : t.differs v stored = true) :
    t.contentState v v stored trust = .changed ↔
      (trust = true → mtimeMatches v stored = false) := by
  obtain ⟨b, hb⟩ := exists_read_of_differs h
  obtain ⟨m, hm⟩ := FileView.exists_mtime_of_read hb
  have hhash : (stored.any fun row => row.fileHash = t.sha256Hex b) = false := by
    simpa [differs, hb] using h
  have hmtime : mtimeMatches v stored = stored.any fun row => decide (row.mtimeNs = m) := by
    simp only [mtimeMatches, hm, Option.some.injEq, eq_comm]
  simp only [contentState, hm, hb, hhash, hmtime]
  cases trust <;> cases stored.any fun row => decide (row.mtimeNs = m) <;> simp

/-- A file in scope whose bytes differ from its rows is parsed where the changed list names
it, an outdated extractor owns it, or it is a dependent with another mtime. -/
theorem mem_parsed_of_differs (hscope : ∀ q ∈ scope, world.ignored q = false) (hin : p ∈ scope)
    (hpar : t.parseable (world.file p) p = true)
    (hdiff : t.differs (world.file p) (d.lookup p) = true) :
    p ∈ (t.updatePlan world.still d scope extractorFiles changed).parsed ↔
      p ∈ changed ∨ p ∈ extractorFiles ∨
        (p ∈ t.findDependents (t.changedRoots world d scope changed) ∧
          mtimeMatches (world.file p) (d.lookup p) = false) := by
  have hcc : p ∈ (t.classify world.still d scope changed).contentChanged ↔ p ∈ changed := by
    rw [mem_still_contentChanged]
    simp [hscope p hin, hpar, hin, hdiff]
  by_cases hchanged : p ∈ changed
  · -- A changed path is forced, or parsed with the unowned.
    obtain ⟨b, hb⟩ := exists_read_of_differs hdiff
    obtain ⟨m, hm⟩ := FileView.exists_mtime_of_read hb
    have hmem := mem_plan_of_contentChanged (steady_still p) hb hm
      (t.classifiedFiles world.still d scope changed) extractorFiles (hcc.mpr hchanged)
      (hashIs_classifiedFiles (steady_still p) hb hm).mp
    refine iff_of_true ?_ (.inl hchanged)
    simp only [Plan.parsed, List.mem_append]
    rcases hmem with h | h
    · exact .inl (.inl (.inr h))
    · exact .inr h
  · have hnot : p ∉ (t.classify world.still d scope changed).contentChanged :=
      fun h => hchanged (hcc.mp h)
    have hrust : p ∉ (t.classify world.still d scope changed).rustContentChanged :=
      fun h => hnot (mem_pathSet.mpr (List.mem_append_left _ h))
    have hstat : world.still.at .plan .stat p = world.file p := rfl
    have hread : world.still.at .plan .read p = world.file p := rfl
    simp only [Plan.parsed, updatePlan, List.mem_append, mem_plan_rustFull, mem_plan_rustForced,
      mem_plan_rustChecked, mem_plan_unowned, mem_candidates hscope, hstat, hread,
      lookup_classifiedFiles_of_differs hdiff, contentState_of_differs hdiff]
    by_cases hext : p ∈ extractorFiles
    · cases t.owns (world.still.at .plan .owns p) p <;> simp [hnot, hext]
    · cases t.owns (world.still.at .plan .owns p) p <;>
        simp [hnot, hrust, hin, hpar, hchanged, hext]

end Still

/-! ## Each path once -/

/-- What the stage of its queue makes of a path whose stored row is `stored`. -/
def parseResult (t : Toolchain) (w : History) (plan : Plan) (stored : Option FileRow)
    (p : String) : Parsed :=
  if p ∈ plan.rustFull then t.collectRustOwnedFile w p
  else if p ∈ plan.unowned then t.collectUnownedFile w p
  else t.collectChangedRustOwnedFile w (plan.cachedEntry p) stored p

/-- The plan names each path at most once, and every file in scope whose bytes are not
those of its rows exactly once, where parsing it gives the rows of its bytes. -/
structure PlannedOnce (t : Toolchain) (world : World) (db : GraphDb) (plan : Plan) : Prop where
  nodup : (plan.removed ++ plan.parsed).Nodup
  parsed : ∀ p ∈ t.collectScope world, t.parseable (world.file p) p = true →
    ∀ b m, (world.file p).read = some b → (world.file p).mtime = some m →
      ¬t.HashIs b (db.files.lookup p) →
      plan.parsed.count p = 1 ∧ ∀ stored, ¬t.HashIs b stored →
        t.parseResult world.still plan stored p = .item (t.rowsOf p ⟨b, t.sha256Hex b, m⟩)

/-- No outdated extractor asks for a file with rows that is gone where the update looks;
and the update has a reason to look at every file with other bytes than its rows'. -/
structure Foreseen (t : Toolchain) (world : World) (db : GraphDb) (changed : List String) :
    Prop where
  kept : ∀ p ∈ t.reparsed world db, p ∈ db.files.paths →
    t.parseable (world.file p) p = false → p ∉ changed ∧
      p ∉ t.findDependents (t.changedRoots world db.files (t.collectScope world) changed)
  named : ∀ p ∈ t.collectScope world, t.parseable (world.file p) p = true →
    t.differs (world.file p) (db.files.lookup p) = true →
      p ∈ changed ∨ p ∈ t.reparsed world db ∨
        (p ∈ t.findDependents (t.changedRoots world db.files (t.collectScope world) changed) ∧
          mtimeMatches (world.file p) (db.files.lookup p) = false)

section PlannedOnce

variable {t : Toolchain} {world : World} {db : GraphDb} {changed : List String} {p : String}

theorem parseResult_eq {d : FileTable} {scope extractorFiles : List String} {b : Bytes} {m : Int}
    {stored : Option FileRow} (hb : (world.file p).read = some b)
    (hm : (world.file p).mtime = some m)
    (hp : p ∈ (t.updatePlan world.still d scope extractorFiles changed).parsed)
    (hstored : ¬t.HashIs b stored) :
    t.parseResult world.still (t.updatePlan world.still d scope extractorFiles changed) stored p =
      .item (t.rowsOf p ⟨b, t.sha256Hex b, m⟩) := by
  have howns : p ∈ (t.updatePlan world.still d scope extractorFiles changed).rustFull ∨
      p ∈ (t.updatePlan world.still d scope extractorFiles changed).rustForced ∨
      p ∈ (t.updatePlan world.still d scope extractorFiles changed).rustChecked →
      t.ownsSource p b = true := fun h =>
    ownsSource_of_owns (owns_of_mem_plan (steady_still p) h) hb
  simp only [Plan.parsed, List.mem_append, or_assoc] at hp
  rw [parseResult]
  split
  · rename_i hfull
    exact collectRustOwnedFile_eq (steady_still p) hb hm
      (howns (.inl hfull))
  · rename_i hfull
    split
    · exact collectUnownedFile_eq (steady_still p) hb hm
    · rename_i hunowned
      have hrust : p ∈ (t.updatePlan world.still d scope extractorFiles changed).rustForced ∨
          p ∈ (t.updatePlan world.still d scope extractorFiles changed).rustChecked := by
        rcases hp with hp | hp | hp | hp
        · exact absurd hp hfull
        · exact .inl hp
        · exact .inr hp
        · exact absurd hp hunowned
      have hcached : ∀ e, (t.updatePlan world.still d scope extractorFiles changed).cachedEntry p =
          some e → e = ⟨b, t.sha256Hex b, m⟩ := fun e he =>
        (mem_classify_cached (steady_still p) hb hm (Plan.cachedEntry_mem he)).1
      rcases collectChangedRustOwnedFile_eq (steady_still p) hb hm _ stored hcached
        (howns (.inr hrust)) with h | h
      · exact absurd h.1 hstored
      · exact h

/-- The plan of an update removes and parses no path twice exactly when no file of an
outdated extractor is removed. -/
theorem nodup_updatePlan_iff {d : FileTable} {scope extractorFiles : List String}
    (hscope : ∀ q ∈ scope, world.ignored q = false) (hext : extractorFiles.Nodup)
    (hsub : ∀ q ∈ extractorFiles, q ∈ scope) :
    ((t.updatePlan world.still d scope extractorFiles changed).removed ++
        (t.updatePlan world.still d scope extractorFiles changed).parsed).Nodup ↔
      ∀ p ∈ extractorFiles, p ∈ d.paths → t.parseable (world.file p) p = false →
        p ∉ changed ∧ p ∉ t.findDependents (t.changedRoots world d scope changed) := by
  have hremoved : (t.updatePlan world.still d scope extractorFiles changed).removed.Nodup :=
    nodup_replan_snd (dedupe_nodup _)
  have hparsed : (t.updatePlan world.still d scope extractorFiles changed).parsed.Nodup :=
    nodup_plan_parsed (nodup_pathSet _) hext
  rw [List.nodup_append]
  constructor
  · rintro ⟨-, -, hdisjoint⟩ p hp hpaths hgone
    rw [← not_or]
    intro hlook
    have hnot : p ∉ (t.classify world.still d scope changed).contentChanged := by
      intro h
      exact absurd (hgone.symm.trans (mem_still_contentChanged.mp h).2.2.1) (by decide)
    have hfull : p ∈ (t.updatePlan world.still d scope extractorFiles changed).parsed := by
      simp only [Plan.parsed, updatePlan, List.mem_append, mem_plan_rustFull, mem_plan_unowned]
      cases ho : t.owns (world.still.at .plan .owns p) p with
      | true => exact .inl (.inl (.inl ⟨⟨hp, hnot⟩, rfl⟩))
      | false => exact .inr (.inl ⟨⟨hp, hnot⟩, rfl⟩)
    exact hdisjoint p ((mem_removed hscope).mpr ⟨hpaths, .inr ⟨hgone, hlook⟩⟩) p hfull rfl
  · intro hkept
    refine ⟨hremoved, hparsed, ?_⟩
    rintro p hrem _ hmem rfl
    obtain ⟨hpaths, hrem⟩ := (mem_removed hscope).mp hrem
    -- A candidate is in scope and parses, so only the full re-parse can name a removed file.
    have hcand : p ∉ (t.replan world.still (t.classifiedFiles world.still d scope changed) scope
        (t.classify world.still d scope changed)).1 := by
      intro h
      obtain ⟨hin, hpar, -⟩ := (mem_candidates hscope).mp h
      exact absurd (hpar.symm.trans (hrem.resolve_left (not_not.mpr hin)).1) (by decide)
    have hp : p ∈ extractorFiles := by
      simp only [Plan.parsed, updatePlan, List.mem_append, mem_plan_rustFull,
        mem_plan_rustForced, mem_plan_rustChecked, mem_plan_unowned] at hmem
      rcases hmem with ((h | h) | h) | h | h
      · exact h.1.1
      · exact absurd h.1.1.1 hcand
      · exact absurd h.1.1.1 hcand
      · exact h.1.1
      · exact absurd h.1.1.1 hcand
    obtain ⟨hgone, hlook⟩ := hrem.resolve_left (not_not.mpr (hsub p hp))
    obtain ⟨hchanged, hdep⟩ := hkept p hp hpaths hgone
    exact hlook.elim hchanged hdep

/-- A plan names each path once exactly where no outdated extractor asks for a file the
update removes, and nothing with other bytes escapes the changed list. -/
theorem planned_once_iff (t : Toolchain) (world : World) (db : GraphDb) (changed : List String) :
    t.PlannedOnce world db (t.updatePlan world.still db.files (t.collectScope world)
        (t.reparsed world db) changed) ↔ t.Foreseen world db changed := by
  have hscope : ∀ q ∈ t.collectScope world, world.ignored q = false :=
    fun q => ignored_of_mem_collectScope
  have hext : (t.reparsed world db).Nodup := nodup_pathSet _
  have hsub : ∀ q ∈ t.reparsed world db, q ∈ t.collectScope world :=
    fun q hq => (mem_extractorReparseScope hq).1
  have hnodup : (_ ++ (t.updatePlan world.still db.files (t.collectScope world)
      (t.reparsed world db) changed).parsed).Nodup ↔ _ := nodup_updatePlan_iff hscope hext hsub
  constructor
  · intro h
    refine ⟨hnodup.mp h.nodup, fun p hin hpar hdiff => ?_⟩
    obtain ⟨b, hb⟩ := exists_read_of_differs hdiff
    obtain ⟨m, hm⟩ := FileView.exists_mtime_of_read hb
    have hcount := (h.parsed p hin hpar b m hb hm ((differs_iff hb).mp hdiff)).1
    exact (mem_parsed_of_differs hscope hin hpar hdiff).mp
      (List.count_pos_iff.mp (by rw [hcount]; exact Nat.one_pos))
  · intro h
    refine ⟨hnodup.mpr h.kept, fun p hin hpar b m hb hm hn => ?_⟩
    have hdiff := (differs_iff hb).mpr hn
    have hmem : p ∈ (t.updatePlan world.still db.files (t.collectScope world)
        (t.reparsed world db) changed).parsed :=
      (mem_parsed_of_differs hscope hin hpar hdiff).mpr (h.named p hin hpar hdiff)
    exact ⟨List.count_eq_one_of_mem (nodup_plan_parsed (nodup_pathSet _) hext) hmem,
      fun stored hstored => parseResult_eq hb hm hmem hstored⟩

end PlannedOnce

end Toolchain

/-- `a.py` deleted, with git still tracking it. -/
def deletedWorld : World :=
  { restoredWorld with
    gitStatus := some ["a.py"]
    file := fun _ => .absent }

/-- A parser whose python extractor is newer than the graph. -/
def newerTools : Toolchain :=
  { pythonTools with extractorVersions := [⟨"python", 2, ["python"]⟩] }

/-- The deleted file is removed, and parsed in full. -/
theorem not_plannedOnce_deleted :
    ¬newerTools.PlannedOnce deletedWorld restoredDb
      (newerTools.updatePlan deletedWorld.still restoredDb.files
        (newerTools.collectScope deletedWorld) (newerTools.reparsed deletedWorld restoredDb)
        ["a.py"]) := by
  intro h
  have hremoved : (newerTools.updatePlan deletedWorld.still restoredDb.files
      (newerTools.collectScope deletedWorld) (newerTools.reparsed deletedWorld restoredDb)
      ["a.py"]).removed = ["a.py"] := by decide +kernel
  have hparsed : (newerTools.updatePlan deletedWorld.still restoredDb.files
      (newerTools.collectScope deletedWorld) (newerTools.reparsed deletedWorld restoredDb)
      ["a.py"]).parsed = ["a.py"] := by decide +kernel
  have hnodup := h.nodup
  rw [hremoved, hparsed] at hnodup
  exact absurd hnodup (by decide)

end Dagayn
