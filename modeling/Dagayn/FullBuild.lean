import Dagayn.GraphSync

/-!
# Updates and full builds

`collect_parseable_files` decides what `dagayn build` indexes, and
`filter_incremental_candidates` what `dagayn update` does with the paths it was told
about. The two filters agree on every candidate that no ignore pattern matches; an
ignored candidate is in neither list of the second, and leaves the graph with the
scope.

`Tracked` is a graph that a full build started and updates have followed from tree to
tree, each of them told which files in its scope are new there or changed. Such a
graph has rows for exactly the files a full build of the last tree would give rows
(`InStep`, kept by `inStep_updateFiles`).
-/

namespace Dagayn

/-! ## The two filters -/

/-- The path is spelled as its directory entry is. -/
def World.spelled (world : World) (p : String) : Bool :=
  (world.file p).onDiskSpelling.all (· = p)

namespace Toolchain

variable (t : Toolchain)

/-- The tests `filter_parseable_files` makes on one path. -/
def keeps (world : World) (p : String) : Bool :=
  !world.ignored p && (world.file p).content.isSome && !(world.file p).isSymlink &&
    (t.detectLanguage p (world.file p).read).isSome && !(world.file p).isBinary

theorem keeps_iff {t : Toolchain} {world : World} {p : String}
    (hspelled : world.spelled p = true) :
    t.keeps world p = true ↔ world.ignored p = false ∧ t.parseable (world.file p) p = true := by
  simp only [World.spelled] at hspelled
  simp only [keeps, parseable, hspelled, Bool.and_eq_true, Bool.not_eq_true', and_true]
  tauto

/-- What `filter_incremental_candidates` makes of candidates. -/
structure FilterSplit (world : World) (candidates : List String)
    (r : List String × List String) : Prop where
  /-- The candidates that are not ignored, each in one list as often as it was named. -/
  perm : (r.1 ++ r.2).Perm (candidates.filter (!world.ignored ·))
  exclusive : ∀ p ∈ r.1, p ∉ r.2
  ignored : ∀ p, world.ignored p = true → p ∉ r.1 ∧ p ∉ r.2
  parsed : r.1 = (t.filterParseableFiles world candidates).filter world.spelled

theorem filterSplit (world : World) (candidates : List String) :
    t.FilterSplit world candidates
      (t.filterIncrementalCandidates world.file world.ignored candidates) := by
  simp only [filterIncrementalCandidates, List.partition_eq_filter_filter]
  refine ⟨List.filter_append_perm _ _, fun p hp hp' => ?_, fun p hp => ?_, ?_⟩
  · have h := (List.mem_filter.mp hp).2
    have h' := (List.mem_filter.mp hp').2
    simp [h] at h'
  · simp [List.mem_filter, hp]
  · simp only [filterParseableFiles, List.filter_filter]
    refine List.filter_congr fun p _ => ?_
    simp only [World.spelled, parseable]
    cases (world.ignored p) <;> cases (world.file p).onDiskSpelling.all (· = p) <;>
      simp

/-! ## The full build -/

def collectParseableFiles (world : World) : List String :=
  t.filterParseableFiles world
    (match world.gitIndexableFiles with
      | none | some [] => world.walkFiles
      | some listed => listed)

/-- `parse_and_store`: the files of the Rust parser, then the others. -/
def parseAndStore (w : History) (fails : DbStep → Bool) (files : List String) (db : GraphDb) :
    Except GraphDb (GraphDb × List (String × String)) := do
  let owned := files.filter fun p => t.owns (w.at .plan .owns p) p
  let full := owned.map fun p => (p, t.collectRustOwnedFile w p)
  let db ← storeChunks fails 0 (chunksOf 500 full) db
  let unowned := files.filter fun p => !t.owns (w.at .plan .owns p) p
  let rest := unowned.map fun p => (p, t.collectUnownedFile w p)
  let db ← db.write fails .storeUnowned (select Parsed.write rest)
  return (db, [full, rest].flatMap (select Parsed.message))

/-- The metadata at the end of `full_build`. -/
def finishBuild (w : History) (fails : DbStep → Bool) (db : GraphDb) : Except GraphDb GraphDb :=
  if fails .finish then .error db
  else .ok { storeVcsMetadata (w .stamp) db with
    lastUpdated := true, extractorVersions := t.extractorVersionsStamp }

/-- `full_build` up to its post-processing. -/
def fullBuild (w : History) (fails : DbStep → Bool) (db : GraphDb) :
    Except GraphDb (GraphDb × List (String × String)) :=
  if (w .start).vcs = .jj ∨ (w .start).vcs = .svn ∨ fails .start then .error db
  else do
    let files := t.collectParseableFiles (w .listing)
    let db ← db.write fails .remove (removeWrites (db.files.paths.filter (· ∉ files)))
    let (db, errors) ← t.parseAndStore w fails files db
    let db ← t.finishBuild w fails db
    return (db, errors)

/-! ## What is indexed -/

/-- A full build of the tree gives the path rows. -/
def Indexes (world : World) (p : String) : Prop :=
  p ∈ t.collectScope world ∧ t.keeps world p = true ∧
    ∃ b, (world.file p).read = some b ∧ (t.rowLanguages p b).isSome

/-- The table holds the files a full build of the tree indexes, under the hashes of
what they hold there. -/
structure InStep (world : World) (d : FileTable) : Prop where
  indexed : ∀ p, p ∈ d.paths ↔ t.Indexes world p
  hashed : ∀ {p r b}, d.lookup p = some r → (world.file p).read = some b →
    r.fileHash = t.sha256Hex b

variable {t} {world world' : World} {w : History} {fails : DbStep → Bool}
  {db db' : GraphDb} {d : FileTable} {p : String} {b : Bytes} {m : Int} {v : FileView}

theorem mem_collectParseableFiles :
    p ∈ t.collectParseableFiles world ↔ p ∈ t.collectScope world ∧ t.keeps world p = true := by
  have hfilter : ∀ paths, t.filterParseableFiles world paths = paths.filter (t.keeps world) :=
    fun _ => rfl
  have hnot : t.keeps world p = true → world.ignored p = false := by
    intro hk
    simp only [keeps, Bool.and_eq_true, Bool.not_eq_true'] at hk
    exact hk.1.1.1.1
  cases hg : world.gitIndexableFiles with
  | none =>
      simp only [collectParseableFiles, collectScope, hfilter, hg, List.mem_filter]
      tauto
  | some listed =>
      cases listed with
      | nil =>
          simp only [collectParseableFiles, collectScope, hfilter, hg, List.mem_filter]
          tauto
      | cons q rest =>
          simp only [collectParseableFiles, collectScope, hfilter, hg, List.mem_filter,
            Bool.not_eq_true']
          tauto

theorem exists_read_of_keeps (h : t.keeps world p = true) :
    ∃ b m, (world.file p).read = some b ∧ (world.file p).mtime = some m := by
  simp only [keeps, FileView.isBinary, Bool.and_eq_true] at h
  cases hr : (world.file p).read with
  | none =>
      rw [hr] at h
      cases h.2
  | some b =>
      obtain ⟨m, hm⟩ := FileView.exists_mtime_of_read hr
      exact ⟨b, m, rfl, hm⟩

/-- A full build parses like an update that re-reads everything for its extractors. -/
def buildPlan (t : Toolchain) (w : History) (files : List String) : Plan where
  removed := []
  mtimeOnly := []
  rustFull := files.filter fun p => t.owns (w.at .plan .owns p) p
  rustForced := []
  rustChecked := []
  unowned := files.filter fun p => !t.owns (w.at .plan .owns p) p
  cached := []

theorem fullBuild_ok {errors : List (String × String)}
    (h : t.fullBuild w fails db = .ok (db', errors)) :
    let files := t.collectParseableFiles (w .listing)
    let plan := t.buildPlan w files
    db'.files = t.storeUnowned w plan (t.storeFull w plan
      (db.files.writeAll (removeWrites (db.files.paths.filter (· ∉ files))))) := by
  unfold fullBuild at h
  split at h
  · cases h
  · obtain ⟨db₁, h₁, h⟩ := bind_ok h
    obtain rfl := GraphDb.write_ok h₁
    obtain ⟨⟨db₂, errors₂⟩, h₂, h⟩ := bind_ok h
    unfold parseAndStore at h₂
    obtain ⟨db₃, h₃, h₂⟩ := bind_ok h₂
    obtain rfl := storeChunks_ok h₃
    obtain ⟨db₄, h₄, h₂⟩ := bind_ok h₂
    obtain rfl := GraphDb.write_ok h₄
    simp only [pure, Except.pure, Except.ok.injEq, Prod.mk.injEq] at h₂
    obtain ⟨rfl, -⟩ := h₂
    obtain ⟨db₅, h₅, h⟩ := bind_ok h
    simp only [pure, Except.pure, Except.ok.injEq, Prod.mk.injEq] at h
    obtain ⟨rfl, -⟩ := h
    simp only [finishBuild] at h₅
    split at h₅
    · cases h₅
    · obtain rfl := Except.ok.inj h₅
      exact storeVcsMetadata_files _

theorem lookup_writeAll_rows {ws : List (String × FileWrite)} (hmem : p ∈ ws.map Prod.fst)
    {row : Option FileRow} (h : ∀ write, (p, write) ∈ ws → write = .rows row) :
    (d.writeAll ws).lookup p = row := by
  refine FileTable.lookup_writeAll_of_mem (P := fun r => r = row) hmem ?_ ?_
  · rintro ⟨q, write⟩ hw rfl
    rw [h write hw]
    rfl
  · rintro ⟨q, write⟩ hw rfl r -
    rw [h write hw]
    rfl

section Stored

variable {plan : Plan} (hs : w.Steady p v) (hb : v.read = some b) (hm : v.mtime = some m)

include hs hb hm

theorem lookup_storeFull (hp : p ∈ plan.rustFull) (ho : t.ownsSource p b = true) :
    (t.storeFull w plan d).lookup p = t.rowsOf p ⟨b, t.sha256Hex b, m⟩ := by
  have hc := collectRustOwnedFile_eq hs hb hm ho
  refine lookup_writeAll_rows ?_ fun write hw => ?_
  · exact mem_map_fst.mpr ⟨_, mem_storeFull_writes.mpr ⟨hp, by rw [hc]; rfl⟩⟩
  · have hw := (mem_storeFull_writes.mp hw).2
    rw [hc] at hw
    exact (Option.some.inj hw).symm

theorem lookup_storeUnowned (hp : p ∈ plan.unowned) :
    (t.storeUnowned w plan d).lookup p = t.rowsOf p ⟨b, t.sha256Hex b, m⟩ := by
  have hc := collectUnownedFile_eq (t := t) hs hb hm
  refine lookup_writeAll_rows ?_ fun write hw => ?_
  · exact mem_map_fst.mpr ⟨_, mem_select_map.mpr ⟨hp, by rw [hc]; rfl⟩⟩
  · have hw := (mem_select_map.mp hw).2
    rw [hc] at hw
    exact (Option.some.inj hw).symm

end Stored

theorem lookup_storeFull_of_notMem {plan : Plan} (hp : p ∉ plan.rustFull) :
    (t.storeFull w plan d).lookup p = d.lookup p := by
  refine FileTable.lookup_writeAll_of_notMem fun hmem => ?_
  obtain ⟨write, hw⟩ := mem_map_fst.mp hmem
  exact hp (mem_storeFull_writes.mp hw).1

theorem lookup_storeUnowned_of_notMem {plan : Plan} (hp : p ∉ plan.unowned) :
    (t.storeUnowned w plan d).lookup p = d.lookup p := by
  refine FileTable.lookup_writeAll_of_notMem fun hmem => ?_
  obtain ⟨write, hw⟩ := mem_map_fst.mp hmem
  exact hp (mem_select_map.mp hw).1

/-- A full build of a tree that keeps still leaves the rows of every file it collects,
and no others. -/
theorem lookup_fullBuild {errors : List (String × String)}
    (h : t.fullBuild world.still fails db = .ok (db', errors)) :
    (p ∈ t.collectParseableFiles world → ∃ b m, (world.file p).read = some b ∧
      db'.files.lookup p = t.rowsOf p ⟨b, t.sha256Hex b, m⟩) ∧
    (p ∉ t.collectParseableFiles world → db'.files.lookup p = none) := by
  have hfiles := fullBuild_ok h
  dsimp only at hfiles
  rw [show world.still .listing = world from rfl] at hfiles
  constructor
  · intro hp
    obtain ⟨b, m, hb, hm⟩ := exists_read_of_keeps (mem_collectParseableFiles.mp hp).2
    refine ⟨b, m, hb, ?_⟩
    have hs : world.still.Steady p (world.file p) := steady_still p
    rw [hfiles]
    cases ho : t.owns (world.file p) p with
    | true =>
        rw [lookup_storeUnowned_of_notMem, lookup_storeFull hs hb hm]
        · exact List.mem_filter.mpr ⟨hp, ho⟩
        · exact ownsSource_of_owns ho hb
        · intro hun
          have : (!t.owns (world.file p) p) = true := (List.mem_filter.mp hun).2
          rw [ho] at this
          cases this
    | false =>
        rw [lookup_storeUnowned hs hb hm]
        exact List.mem_filter.mpr ⟨hp, by rw [hs .plan .owns, ho]; rfl⟩
  · intro hp
    rw [hfiles, lookup_storeUnowned_of_notMem fun hun => hp (List.mem_filter.mp hun).1,
      lookup_storeFull_of_notMem fun hfull => hp (List.mem_filter.mp hfull).1]
    by_cases hd : p ∈ db.files.paths
    · exact FileTable.lookup_writeAll_remove (List.mem_filter.mpr ⟨hd, by simpa using hp⟩)
    · have hnone : db.files.lookup p = none := by
        rw [FileTable.mem_paths, ← Option.isSome_iff_exists] at hd
        exact Option.not_isSome_iff_eq_none.mp hd
      rw [FileTable.lookup_writeAll_of_notMem, hnone]
      rw [map_fst_removeWrites]
      exact fun hmem => hd (List.mem_filter.mp hmem).1

theorem mem_paths_rowsOf {b : Bytes} {m : Int}
    (h : d.lookup p = t.rowsOf p ⟨b, t.sha256Hex b, m⟩) :
    p ∈ d.paths ↔ (t.rowLanguages p b).isSome := by
  rw [FileTable.mem_paths, ← Option.isSome_iff_exists, h, rowsOf, Option.isSome_map]

theorem inStep_fullBuild {errors : List (String × String)}
    (h : t.fullBuild world.still fails db = .ok (db', errors)) : t.InStep world db'.files := by
  constructor
  · intro p
    obtain ⟨hin, hout⟩ := lookup_fullBuild (p := p) h
    by_cases hp : p ∈ t.collectParseableFiles world
    · obtain ⟨b, m, hb, hrow⟩ := hin hp
      rw [mem_paths_rowsOf hrow]
      obtain ⟨hscope, hkeeps⟩ := mem_collectParseableFiles.mp hp
      refine ⟨fun hl => ⟨hscope, hkeeps, b, hb, hl⟩, fun ⟨_, _, b', hb', hl⟩ => ?_⟩
      obtain rfl := Option.some.inj (hb.symm.trans hb')
      exact hl
    · refine ⟨fun hmem => ?_, fun ⟨hscope, hkeeps, _⟩ => ?_⟩
      · obtain ⟨row, hrow⟩ := FileTable.mem_paths.mp hmem
        rw [hout hp] at hrow
        cases hrow
      · exact absurd (mem_collectParseableFiles.mpr ⟨hscope, hkeeps⟩) hp
  · intro p r b hr hb
    obtain ⟨hin, hout⟩ := lookup_fullBuild (p := p) h
    by_cases hp : p ∈ t.collectParseableFiles world
    · obtain ⟨b', m, hb', hrow⟩ := hin hp
      obtain rfl := Option.some.inj (hb.symm.trans hb')
      rw [hrow, rowsOf, Option.map_eq_some_iff] at hr
      obtain ⟨languages, -, rfl⟩ := hr
      rfl
    · rw [hout hp] at hr
      cases hr

/-! ## An update keeps step -/

/-- Rows stored under the hash of these bytes are rows the parser gives them. -/
def Backed (t : Toolchain) (p : String) (b : Bytes) (row : Option FileRow) : Prop :=
  ∀ r, row = some r → r.fileHash = t.sha256Hex b → (t.rowLanguages p b).isSome

theorem backed_rowsOf : t.Backed p b (t.rowsOf p ⟨b, t.sha256Hex b, m⟩) := by
  intro r hr _
  rw [rowsOf, Option.map_eq_some_iff] at hr
  obtain ⟨languages, hl, -⟩ := hr
  exact Option.isSome_iff_exists.mpr ⟨languages, hl⟩

/-- A new mtime, a removal and the rows of the bytes themselves all leave the rows backed. -/
theorem backed_writeAll {ws : List (String × FileWrite)}
    (hws : ∀ write, (p, write) ∈ ws → (∃ x, write = .mtime x) ∨ write = .rows none ∨
      write = .rows (t.rowsOf p ⟨b, t.sha256Hex b, m⟩))
    (h : t.Backed p b (d.lookup p)) : t.Backed p b ((d.writeAll ws).lookup p) := by
  refine FileTable.lookup_writeAll_induct ?_ h
  rintro ⟨q, write⟩ hw hq row hrow
  obtain rfl : q = p := hq
  rcases hws write hw with ⟨x, rfl⟩ | rfl | rfl
  · intro r hr hh
    cases row with
    | none => cases hr
    | some r₀ =>
        obtain rfl := Option.some.inj hr
        exact hrow r₀ rfl hh
  · intro r hr
    cases hr
  · exact backed_rowsOf

theorem backed_mtimeWrites {updates : List (String × Int)} (h : t.Backed p b (d.lookup p)) :
    t.Backed p b ((d.writeAll (mtimeWrites updates)).lookup p) := by
  refine backed_writeAll (m := 0) (fun write hw => ?_) h
  obtain ⟨x, -, rfl⟩ := mem_mtimeWrites.mp hw
  exact .inl ⟨x, rfl⟩

theorem backed_removeWrites {paths : List String} (h : t.Backed p b (d.lookup p)) :
    t.Backed p b ((d.writeAll (removeWrites paths)).lookup p) := by
  refine backed_writeAll (m := 0) (fun write hw => ?_) h
  obtain ⟨q, -, heq⟩ := List.mem_map.mp hw
  exact .inr (.inl (Prod.mk.inj heq).2.symm)

section Backed

variable (hs : w.Steady p v) (hb : v.read = some b) (hm : v.mtime = some m)

include hs hb hm

theorem backed_storeChanged {plan : Plan} {paths : List String}
    (hc : ∀ e, plan.cachedEntry p = some e → e = ⟨b, t.sha256Hex b, m⟩)
    (ho : p ∈ paths → t.ownsSource p b = true) (h : t.Backed p b (d.lookup p)) :
    t.Backed p b ((t.storeChanged w plan paths d).lookup p) := by
  refine backed_writeAll (m := m) (fun write hw => ?_) (backed_mtimeWrites h)
  obtain ⟨hp, hw⟩ := mem_select_map.mp hw
  rcases collectChangedRustOwnedFile_eq hs hb hm (plan.cachedEntry p) (d.lookup p) hc (ho hp)
    with ⟨-, he⟩ | he
  · rw [he] at hw
    cases hw
  · rw [he] at hw
    exact .inr (.inr (Option.some.inj hw).symm)

theorem backed_updateChanged {scope changed extractorFiles : List String}
    {report : UpdateReport} {parsed : Bool}
    (h : t.updateChanged w fails db scope extractorFiles changed = .ok (db', report, parsed))
    (h₀ : t.Backed p b (db.files.lookup p)) : t.Backed p b (db'.files.lookup p) := by
  have happly : t.Backed p b
      ((t.appliedFiles w db.files scope extractorFiles changed).lookup p) :=
    backed_mtimeWrites (backed_removeWrites (backed_mtimeWrites h₀))
  rcases updateChanged_ok h with ⟨-, rfl, -, -⟩ | ⟨errors, hparse, -, -⟩
  · exact happly
  · have hc : ∀ e, (t.updatePlan w db.files scope extractorFiles changed).cachedEntry p = some e →
        e = ⟨b, t.sha256Hex b, m⟩ :=
      fun e he => (mem_classify_cached hs hb hm (Plan.cachedEntry_mem he)).1
    obtain ⟨rfl, -⟩ := parsePlanned_ok hparse
    have howns : p ∈ (t.updatePlan w db.files scope extractorFiles changed).rustFull ∨
        p ∈ (t.updatePlan w db.files scope extractorFiles changed).rustForced ∨
        p ∈ (t.updatePlan w db.files scope extractorFiles changed).rustChecked →
        t.ownsSource p b = true :=
      fun hp => ownsSource_of_owns (owns_of_mem_plan hs hp) hb
    refine backed_writeAll (m := m) (fun write hw => ?_)
      (backed_storeChanged hs hb hm hc (fun hp => howns (.inr (.inr hp)))
        (backed_storeChanged hs hb hm hc (fun hp => howns (.inr (.inl hp)))
          (backed_writeAll (m := m) (fun write hw => ?_) happly)))
    · have hw := (mem_select_map.mp hw).2
      rw [collectUnownedFile_eq hs hb hm] at hw
      exact .inr (.inr (Option.some.inj hw).symm)
    · obtain ⟨hp, hw⟩ := mem_storeFull_writes.mp hw
      rw [collectRustOwnedFile_eq hs hb hm (howns (.inl hp))] at hw
      exact .inr (.inr (Option.some.inj hw).symm)

end Backed

variable {changed : List String} {base : String} {report : UpdateReport} {parsed : Bool}

/-- What an update of the graph from one tree to the next may rely on: it is told of
every file in its scope that is new there or changed, no two contents of a file have
one hash, paths are spelled as on disk, and what it re-reads for an outdated extractor
can be parsed. -/
structure Told (t : Toolchain) (world world' : World) (db : GraphDb) (changed : List String) :
    Prop where
  listed : ∀ p ∈ t.collectScope world', p ∉ expandChangedSubmodules world'.still changed →
    p ∈ t.collectScope world ∧ world'.file p = world.file p
  distinct : ∀ p b b', (world.file p).read = some b → (world'.file p).read = some b' →
    t.sha256Hex b = t.sha256Hex b' → b = b'
  spelled : ∀ p ∈ t.collectScope world', world'.spelled p = true
  reread : ∀ p ∈ t.extractorReparseScope world'.still db (t.collectScope world'),
    t.parseable (world'.file p) p = true

theorem keeps_congr (h : world'.file p = world.file p) (hs : p ∈ t.collectScope world)
    (hs' : p ∈ t.collectScope world') : t.keeps world' p = t.keeps world p := by
  simp only [keeps, h, ignored_of_mem_collectScope hs, ignored_of_mem_collectScope hs']

/-- The path is indexed as a full build of the tree would index it. -/
def PathInStep (t : Toolchain) (world : World) (d : FileTable) (p : String) : Prop :=
  (p ∈ d.paths ↔ t.Indexes world p) ∧
    ∀ r b, d.lookup p = some r → (world.file p).read = some b → r.fileHash = t.sha256Hex b

theorem inStep_iff : t.InStep world d ↔ ∀ p, t.PathInStep world d p :=
  ⟨fun h p => ⟨h.indexed p, fun _ _ => h.hashed⟩,
    fun h => ⟨fun p => (h p).1, fun {p r b} => (h p).2 r b⟩⟩

theorem pathInStep_of_none (h : d.lookup p = none) (hn : ¬t.Indexes world p) :
    t.PathInStep world d p := by
  refine ⟨iff_of_false (fun hp => ?_) hn, fun r b hr => ?_⟩
  · obtain ⟨row, hrow⟩ := FileTable.mem_paths.mp hp
    rw [h] at hrow
    cases hrow
  · rw [h] at hr
    cases hr

theorem lookup_of_not_indexes (h : t.PathInStep world d p) (hn : ¬t.Indexes world p) :
    d.lookup p = none := by
  refine Option.eq_none_iff_forall_ne_some.mpr fun row hrow => hn ?_
  exact h.1.mp (FileTable.mem_paths.mpr ⟨row, hrow⟩)

/-- A path in both scopes whose file did not change stays in step while its rows stay. -/
theorem PathInStep.same {d' : FileTable} (h : t.PathInStep world d p)
    (hs : p ∈ t.collectScope world) (hs' : p ∈ t.collectScope world')
    (hfile : world'.file p = world.file p) (hd : d'.lookup p = d.lookup p) :
    t.PathInStep world' d' p := by
  obtain ⟨hin, hhash⟩ := h
  refine ⟨?_, fun r b hr hb => hhash r b (hd ▸ hr) (hfile ▸ hb)⟩
  rw [FileTable.mem_paths, hd, ← FileTable.mem_paths, hin]
  simp only [Indexes, hfile, keeps_congr hfile hs hs', hs, hs']

theorem pathInStep_of_current (hs : p ∈ t.collectScope world) (hk : t.keeps world p = true)
    (hb : (world.file p).read = some b) (hc : t.Current p b m (d.lookup p))
    (hbacked : t.Backed p b (d.lookup p)) : t.PathInStep world d p := by
  have hhash : ∀ r, d.lookup p = some r → r.fileHash = t.sha256Hex b := by
    intro r hr
    have := hc.1
    rw [hr] at this
    exact this
  refine ⟨⟨fun hp => ?_, fun ⟨_, _, b', hb', hl⟩ => ?_⟩, fun r b' hr hb' => ?_⟩
  · obtain ⟨r, hr⟩ := FileTable.mem_paths.mp hp
    exact ⟨hs, hk, b, hb, hbacked r hr (hhash r hr)⟩
  · obtain rfl := Option.some.inj (hb.symm.trans hb')
    rw [FileTable.mem_paths, ← Option.isSome_iff_exists]
    by_contra hnone
    have hdesc := hc.1
    rw [Option.not_isSome_iff_eq_none.mp hnone] at hdesc
    have hl' : t.rowLanguages p b = none := hdesc
    rw [hl'] at hl
    cases hl
  · obtain rfl := Option.some.inj (hb.symm.trans hb')
    exact hhash r hr

/-- Old rows are backed by the new bytes: under the same hash they are the same bytes. -/
theorem backed_of_pathInStep (h : t.PathInStep world d p) {b : Bytes}
    (hdistinct : ∀ b₀, (world.file p).read = some b₀ → t.sha256Hex b₀ = t.sha256Hex b → b₀ = b) :
    t.Backed p b (d.lookup p) := by
  intro r hr hh
  obtain ⟨-, -, b₀, hb₀, hl⟩ := h.1.mp (FileTable.mem_paths.mpr ⟨r, hr⟩)
  obtain rfl := hdistinct b₀ hb₀ ((h.2 r b₀ hr hb₀).symm.trans hh)
  exact hl

theorem pathInStep_updateChanged {db₁ : GraphDb} (hstep : t.PathInStep world db₁.files p)
    (htold : t.Told world world' db changed)
    (h : t.updateChanged world'.still fails db₁ (t.collectScope world')
      (t.extractorReparseScope world'.still db (t.collectScope world'))
      (expandChangedSubmodules world'.still changed) = .ok (db', report, parsed)) :
    t.PathInStep world' db'.files p := by
  have hsteady : world'.still.Steady p (world'.file p) := steady_still p
  by_cases hscope : p ∈ t.collectScope world'
  · have hign := ignored_of_mem_collectScope hscope
    by_cases hpar : t.parseable (world'.file p) p = true
    · -- a file to be indexed: looked into, or as it was
      have hk := (keeps_iff (htold.spelled p hscope)).mpr ⟨hign, hpar⟩
      obtain ⟨b, m, hb, hm⟩ := exists_read_of_keeps hk
      have htouches := updateChanged_touches hsteady hb hm h
        (notMem_removed hsteady hscope hpar)
      have hbacked := backed_updateChanged hsteady hb hm h
        (backed_of_pathInStep hstep fun b₀ hb₀ => htold.distinct p b₀ b hb₀ hb)
      by_cases htouched : t.Touched world'.still db₁.files (t.collectScope world')
          (t.extractorReparseScope world'.still db (t.collectScope world'))
          (expandChangedSubmodules world'.still changed) p
      · exact pathInStep_of_current hscope hk hb (htouches.current htouched) hbacked
      · have hc : p ∉ expandChangedSubmodules world'.still changed := fun hc =>
          htouched (touched_of_mem_candidates hsteady hb hm
            (mem_filterCandidates_fst.mpr ⟨hc, hign, hpar, hscope⟩))
        obtain ⟨hs, hfile⟩ := htold.listed p hscope hc
        exact hstep.same hs hscope hfile (htouches.same htouched)
    · have hpar : t.parseable (world'.file p) p = false := Bool.eq_false_of_not_eq_true hpar
      have hext : p ∉ t.extractorReparseScope world'.still db (t.collectScope world') := by
        intro hp
        rw [htold.reread p hp] at hpar
        cases hpar
      have hnot : ¬t.Indexes world' p := by
        rintro ⟨-, hk, -⟩
        rw [((keeps_iff (htold.spelled p hscope)).mp hk).2] at hpar
        cases hpar
      refine pathInStep_of_none ?_ hnot
      by_cases hc : p ∈ expandChangedSubmodules world'.still changed
      · exact updateChanged_gone hsteady h (fun q hq => (mem_extractorReparseScope hq).1)
          (.inr ⟨hc, hign, hpar⟩) fun hp => absurd hp hext
      · -- not told of it: it was no file to be indexed before either
        obtain ⟨hs, hfile⟩ := htold.listed p hscope hc
        rw [updateChanged_unparsed hsteady h hpar hext]
        refine appliedFiles_of_none (classifiedFiles_of_none (lookup_of_not_indexes hstep ?_))
        rintro ⟨-, hk, hb⟩
        refine hnot ⟨hscope, ?_, hfile ▸ hb⟩
        rw [keeps_congr hfile hs hscope]
        exact hk
  · refine pathInStep_of_none ?_ fun hidx => hscope hidx.1
    exact updateChanged_gone hsteady h (fun q hq => (mem_extractorReparseScope hq).1)
      (.inl hscope) fun _ hp => absurd hp hscope

/-- An update that was told of the changes takes the graph from one tree to the next. -/
theorem inStep_runPipeline (hstep : t.InStep world db.files)
    (htold : t.Told world world' db changed)
    (h : t.runPipeline world'.still fails db base changed = .ok (db', report)) :
    t.InStep world' db'.files := by
  simp only [runPipeline] at h
  obtain ⟨⟨db₁, report₁, parsed⟩, hu, h⟩ := bind_ok h
  obtain ⟨db₂, hf, h⟩ := bind_ok h
  simp only [pure, Except.pure, Except.ok.injEq, Prod.mk.injEq] at h
  obtain ⟨rfl, rfl⟩ := h
  rw [(finish_cases hf).1, inStep_iff]
  intro p
  have hp := inStep_iff.mp hstep p
  rcases updateFiles_ok hu with ⟨rfl, hstale, -, hre, -⟩ | ⟨db₀, hre, hchanged⟩
  · -- nothing to look at: every stored path is in scope, and no file in scope changed
    rw [hre.files]
    by_cases hscope : p ∈ t.collectScope world'
    · obtain ⟨hs, hfile⟩ :=
        htold.listed p hscope (by simp [expandChangedSubmodules, dedupe, keepFirst])
      exact hp.same hs hscope hfile rfl
    · refine pathInStep_of_none ?_ fun hidx => hscope hidx.1
      refine Option.eq_none_iff_forall_ne_some.mpr fun row hrow => ?_
      have hmem : p ∈ staleScope db.files (t.collectScope world') :=
        mem_staleScope.mpr ⟨FileTable.mem_paths.mpr ⟨row, hrow⟩, hscope⟩
      have hstale : staleScope db.files (t.collectScope world') = [] := hstale
      rw [hstale] at hmem
      cases hmem
  · have hstep₀ : t.PathInStep world db₀.files p := by
      rw [hre.files]
      exact hp
    exact pathInStep_updateChanged hstep₀ htold hchanged

/-! ## Whole histories -/

/-- A graph that a full build started and updates, told of the changes, have followed
from tree to tree. -/
inductive Tracked (t : Toolchain) : World → GraphDb → Prop
  | built {world : World} {fails : DbStep → Bool} {db db' : GraphDb}
      {errors : List (String × String)} :
      t.fullBuild world.still fails db = .ok (db', errors) → Tracked t world db'
  | updated {world world' : World} {fails : DbStep → Bool} {db db' : GraphDb} {base : String}
      {changed : List String} {report : UpdateReport} :
      Tracked t world db → t.Told world world' db changed →
      t.runPipeline world'.still fails db base changed = .ok (db', report) →
      Tracked t world' db'

theorem inStep_of_tracked (h : t.Tracked world db) : t.InStep world db.files := by
  induction h with
  | built hbuild => exact inStep_fullBuild hbuild
  | updated _ htold hrun ih => exact inStep_runPipeline ih htold hrun

/-- The incremental filter splits the candidates no pattern ignores as the full build's
filter does, and the files of a graph that updates have followed are those a full
build of the last tree would index. -/
theorem updates_follow_builds (t : Toolchain) :
    (∀ (world : World) (candidates : List String), t.FilterSplit world candidates
      (t.filterIncrementalCandidates world.file world.ignored candidates)) ∧
    ∀ {world : World} {db db₀ db₁ : GraphDb} {fails : DbStep → Bool}
      {errors : List (String × String)}, t.Tracked world db →
      t.fullBuild world.still fails db₀ = .ok (db₁, errors) →
      ∀ p, p ∈ db.files.paths ↔ p ∈ db₁.files.paths := by
  refine ⟨t.filterSplit, fun htracked hbuild p => ?_⟩
  rw [(inStep_of_tracked htracked).indexed p, (inStep_fullBuild hbuild).indexed p]

end Toolchain

/-- `a.py` as it was indexed. -/
def indexedWorld : World :=
  { editedWorld with file := fun p => if p = "a.py" then .regular oneSource 1 else .absent }

/-- `a.py` overwritten with a byte no source has. -/
def binaryWorld : World :=
  { editedWorld with file := fun p => if p = "a.py" then .regular [0] 2 else .absent }

theorem told_binaryWorld (db : GraphDb) :
    pythonTools.Told indexedWorld binaryWorld db ["a.py"] := by
  have hscope : ∀ p ∈ pythonTools.collectScope binaryWorld, p = "a.py" := by
    intro p hp
    have hp := (List.mem_filter.mp hp).1
    simpa using hp
  refine ⟨fun p hp hn => ?_, fun p b b' hb hb' hsha => ?_, fun p hp => ?_, fun p hp => ?_⟩
  · rw [hscope p hp] at hn
    exact absurd (mem_expandChangedSubmodules (List.mem_singleton_self _) rfl) hn
  · by_cases hp : p = "a.py"
    · subst hp
      obtain rfl := Option.some.inj hb
      obtain rfl := Option.some.inj hb'
      exact absurd hsha (by decide)
    · simp [indexedWorld, hp, FileView.read] at hb
  · rw [hscope p hp]
    rfl
  · exact absurd rfl (Toolchain.mem_extractorReparseScope hp).2

theorem exists_ok {ε α : Type} {x : Except ε α} (h : x.toBool = true) : ∃ a, x = .ok a := by
  cases x with
  | error e => cases h
  | ok a => exact ⟨a, rfl⟩

theorem updates_follow_builds_binary :
    pythonTools.FilterSplit binaryWorld ["a.py"]
        (pythonTools.filterIncrementalCandidates binaryWorld.file binaryWorld.ignored ["a.py"]) ∧
      ∃ db, pythonTools.Tracked binaryWorld db ∧
        ∃ db₁ errors, pythonTools.fullBuild binaryWorld.still (fun _ => false) {} =
          .ok (db₁, errors) ∧
          ∀ p, p ∈ db.files.paths ↔ p ∈ db₁.files.paths := by
  obtain ⟨⟨db₁, e₁⟩, h₁⟩ := exists_ok (x := pythonTools.fullBuild binaryWorld.still
    (fun _ => false) {}) (by decide +kernel)
  obtain ⟨⟨db, report⟩, hrun⟩ := exists_ok
    (x := pythonTools.fullBuild indexedWorld.still (fun _ => false) {} >>= fun r =>
      pythonTools.runPipeline binaryWorld.still (fun _ => false) r.1 "c1" ["a.py"])
    (by decide +kernel)
  obtain ⟨⟨db₀, e₀⟩, h₀, h⟩ := bind_ok hrun
  have htracked : pythonTools.Tracked binaryWorld db :=
    .updated (.built h₀) (told_binaryWorld db₀) h
  exact ⟨(Toolchain.updates_follow_builds pythonTools).1 binaryWorld ["a.py"], db, htracked,
    db₁, e₁, h₁, (Toolchain.updates_follow_builds pythonTools).2 htracked h₁⟩

/-- An ignored candidate is in neither list. -/
theorem ignored_in_neither :
    ¬∀ (t : Toolchain) (world : World) (candidates : List String), ∀ p ∈ candidates,
      p ∈ (t.filterIncrementalCandidates world.file world.ignored candidates).1 ∨
        p ∈ (t.filterIncrementalCandidates world.file world.ignored candidates).2 := by
  intro h
  have := h pythonTools { editedWorld with ignored := (· = "a.py") } ["a.py"] "a.py"
    (List.mem_singleton_self _)
  revert this
  decide +kernel

end Dagayn
