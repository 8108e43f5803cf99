import Dagayn.Update

/-!
# What an update does to one path

The update is long, but a path's stored rows change only by the writes at that path.
Fix a path that looks the same at every look of the update and can be read. Each stage
either leaves its rows alone or ends with rows that describe its bytes and mtime
(`Touches`), stages compose, and `updateChanged_touches` says which lists of the plan
decide which of the two it is. `mem_candidates_touched` then says that a path git
reported is always touched.
-/

namespace Dagayn

theorem bind_ok {ε α β : Type} {x : Except ε α} {f : α → Except ε β} {b : β}
    (h : (x >>= f) = .ok b) : ∃ a, x = .ok a ∧ f a = .ok b := by
  cases x with
  | error e => cases h
  | ok a => exact ⟨a, rfl, h⟩

namespace GraphDb

variable {db db' : GraphDb} {fails : DbStep → Bool} {step : DbStep}
  {ws : List (String × FileWrite)}

theorem write_ok (h : db.write fails step ws = .ok db') :
    db' = { db with files := db.files.writeAll ws } := by
  simp only [write] at h
  split at h
  · rename_i hnil
    subst hnil
    exact (Except.ok.inj h).symm
  · split at h
    · cases h
    · exact (Except.ok.inj h).symm

theorem write_error {e : GraphDb} (h : db.write fails step ws = .error e) : e = db := by
  simp only [write] at h
  split at h
  · cases h
  · split at h
    · exact (Except.error.inj h).symm
    · cases h

end GraphDb

theorem FileTable.writeAll_append (d : FileTable) (ws ws' : List (String × FileWrite)) :
    d.writeAll (ws ++ ws') = (d.writeAll ws).writeAll ws' :=
  List.foldl_append

theorem mem_select_map {α β : Type} {f : α → Option β} {g : String → α} {paths : List String}
    {p : String} {x : β} :
    (p, x) ∈ select f (paths.map fun q => (q, g q)) ↔ p ∈ paths ∧ f (g p) = some x := by
  simp only [select, List.mem_filterMap, List.mem_map, Option.map_eq_some_iff]
  constructor
  · rintro ⟨_, ⟨q, hq, rfl⟩, y, hy, heq⟩
    obtain ⟨rfl, rfl⟩ := Prod.mk.inj heq
    exact ⟨hq, hy⟩
  · rintro ⟨hp, hx⟩
    exact ⟨(p, g p), ⟨p, hp, rfl⟩, x, hx, rfl⟩

theorem mem_map_fst {β : Type} {l : List (String × β)} {p : String} :
    p ∈ l.map Prod.fst ↔ ∃ x, (p, x) ∈ l := by
  simp

theorem mem_mtimeWrites {updates : List (String × Int)} {p : String} {write : FileWrite} :
    (p, write) ∈ mtimeWrites updates ↔ ∃ x, (p, x) ∈ updates ∧ write = .mtime x := by
  simp only [mtimeWrites, List.mem_map]
  constructor
  · rintro ⟨⟨q, x⟩, hu, heq⟩
    obtain ⟨rfl, rfl⟩ := Prod.mk.inj heq
    exact ⟨x, hu, rfl⟩
  · rintro ⟨x, hu, rfl⟩
    exact ⟨(p, x), hu, rfl⟩

@[simp] theorem map_fst_mtimeWrites (updates : List (String × Int)) :
    (mtimeWrites updates).map Prod.fst = updates.map Prod.fst := by
  simp [mtimeWrites]

@[simp] theorem map_fst_removeWrites (paths : List String) :
    (removeWrites paths).map Prod.fst = paths := by
  simp [removeWrites, Function.comp_def]

theorem Plan.cachedEntry_mem {plan : Plan} {p : String} {e : CachedRustChangedFile}
    (h : plan.cachedEntry p = some e) : (p, e) ∈ plan.cached := by
  simp only [Plan.cachedEntry, Option.map_eq_some_iff] at h
  obtain ⟨⟨q, e'⟩, hf, rfl⟩ := h
  have hq : q = p := by simpa using List.find?_some hf
  exact hq ▸ List.mem_of_find?_eq_some hf

/-! ## Rows that describe a source -/

/-- Every look of the update at `p` finds the same file. -/
def History.Steady (w : History) (p : String) (v : FileView) : Prop :=
  ∀ phase look, w.at phase look p = v

namespace Toolchain

section Rows

variable (t : Toolchain) (p : String) (b : Bytes) (m : Int)

/-- The stored hash is that of `b`. -/
def HashIs (row : Option FileRow) : Prop := ∃ r, row = some r ∧ r.fileHash = t.sha256Hex b

/-- The stored rows are those of the source `b`: none when it parses to none. -/
def Describes (row : Option FileRow) : Prop :=
  match row with
  | some r => r.fileHash = t.sha256Hex b
  | none => t.rowLanguages p b = none

def Current (row : Option FileRow) : Prop :=
  t.Describes p b row ∧ ∀ r, row = some r → r.mtimeNs = m

/-- A write that leaves current rows, made where the rows are `row`. -/
def Refreshes (row : Option FileRow) : FileWrite → Prop
  | .mtime m' => m' = m ∧ t.HashIs b row
  | .rows r => r = t.rowsOf p ⟨b, t.sha256Hex b, m⟩

/-- From `d` to `d'` the rows of `p` stay as they are, or become current when the
update touches the path. -/
structure Touches (touched : Prop) (d d' : FileTable) : Prop where
  same : ¬touched → d'.lookup p = d.lookup p
  current : touched → t.Current p b m (d'.lookup p)

end Rows

variable {t : Toolchain} {p : String} {b : Bytes} {m : Int} {row : Option FileRow}

theorem any_hash : (row.any fun r => r.fileHash = t.sha256Hex b) = true ↔ t.HashIs b row := by
  cases row <;> simp [HashIs]

theorem HashIs.mtime {m' : Int} (h : t.HashIs b row) :
    t.HashIs b ((FileWrite.mtime m').apply row) := by
  obtain ⟨r, rfl, hr⟩ := h
  exact ⟨_, rfl, hr⟩

theorem current_rowsOf : t.Current p b m (t.rowsOf p ⟨b, t.sha256Hex b, m⟩) := by
  cases h : t.rowLanguages p b with
  | none => exact ⟨by simp [rowsOf, h, Describes], by simp [rowsOf, h]⟩
  | some l => simp [Current, Describes, rowsOf, h]

theorem Refreshes.apply {write : FileWrite} (h : t.Refreshes p b m row write) :
    t.Current p b m (write.apply row) := by
  cases write with
  | mtime m' =>
      obtain ⟨rfl, r, rfl, hr⟩ := h
      exact ⟨hr, fun r' hr' => by obtain rfl := Option.some.inj hr'; rfl⟩
  | rows r =>
      obtain rfl : r = _ := h
      exact current_rowsOf

theorem Refreshes.keep {write : FileWrite} (h : t.Refreshes p b m row write)
    {row' : Option FileRow} (hc : t.Current p b m row') :
    t.Current p b m (write.apply row') := by
  cases write with
  | mtime m' =>
      obtain ⟨rfl, -⟩ := h
      cases row' with
      | none => exact ⟨hc.1, fun _ hr => by cases hr⟩
      | some r => exact ⟨hc.1, fun r' hr' => by obtain rfl := Option.some.inj hr'; rfl⟩
  | rows r =>
      obtain rfl : r = _ := h
      exact current_rowsOf

namespace Touches

variable {d d' d'' : FileTable} {A B : Prop}

theorem trans (h : t.Touches p b m A d d') (h' : t.Touches p b m B d' d'') :
    t.Touches p b m (A ∨ B) d d'' := by
  refine ⟨fun hn => ?_, fun hAB => ?_⟩
  · rw [not_or] at hn
    rw [h'.same hn.2, h.same hn.1]
  · by_cases hB : B
    · exact h'.current hB
    · rw [h'.same hB]
      exact h.current (hAB.resolve_right hB)

theorem congr (h : t.Touches p b m A d d') (hAB : A ↔ B) : t.Touches p b m B d d' :=
  ⟨fun hn => h.same (hAB.not.mpr hn), fun hB => h.current (hAB.mpr hB)⟩

end Touches

theorem touches_writeAll {d : FileTable} (ws : List (String × FileWrite))
    (h : ∀ write, (p, write) ∈ ws → t.Refreshes p b m (d.lookup p) write) :
    t.Touches p b m (p ∈ ws.map Prod.fst) d (d.writeAll ws) := by
  refine ⟨fun hn => FileTable.lookup_writeAll_of_notMem hn, fun hmem => ?_⟩
  refine FileTable.lookup_writeAll_of_mem hmem ?_ ?_
  · rintro ⟨q, write⟩ hw rfl
    exact (h write hw).apply
  · rintro ⟨q, write⟩ hw rfl row hc
    exact (h write hw).keep hc

/-! ## Parse and store -/

section Parse

variable {w : History} {fails : DbStep → Bool} {plan : Plan} {d : FileTable}
  {db db' : GraphDb} {v : FileView}

/-- The full re-parse of `parse_planned`, with its store. -/
def storeFull (t : Toolchain) (w : History) (plan : Plan) (d : FileTable) : FileTable :=
  d.writeAll ((chunksOf 500 (plan.rustFull.map fun p => (p, t.collectRustOwnedFile w p))).flatMap
    (select Parsed.write))

/-- One pass of the loop over forced and checked files. -/
def storeChanged (t : Toolchain) (w : History) (plan : Plan) (paths : List String)
    (d : FileTable) : FileTable :=
  (d.writeAll (mtimeWrites (select Parsed.mtimeUpdate (t.collectChanged w plan d paths)))).writeAll
    (select Parsed.write (t.collectChanged w plan d paths))

def storeUnowned (t : Toolchain) (w : History) (plan : Plan) (d : FileTable) : FileTable :=
  d.writeAll (select Parsed.write (plan.unowned.map fun p => (p, t.collectUnownedFile w p)))

theorem storeChunks_ok : ∀ {chunks : List (List (String × Parsed))} {i : Nat} {db db' : GraphDb},
    storeChunks fails i chunks db = .ok db' →
      db' = { db with files := db.files.writeAll (chunks.flatMap (select Parsed.write)) }
  | [], _, db, db', h => (Except.ok.inj h).symm
  | chunk :: chunks, i, db, db', h => by
      obtain ⟨db₁, h₁, h⟩ := bind_ok h
      obtain rfl := GraphDb.write_ok h₁
      rw [storeChunks_ok h, List.flatMap_cons, FileTable.writeAll_append]

theorem parsePlanned_ok {errors : List (String × String)}
    (h : t.parsePlanned w fails plan db = .ok (db', errors)) :
    let d₁ := t.storeFull w plan db.files
    let d₂ := t.storeChanged w plan plan.rustForced d₁
    let d₃ := t.storeChanged w plan plan.rustChecked d₂
    db' = { db with files := t.storeUnowned w plan d₃ } ∧
      errors = [plan.rustFull.map fun p => (p, t.collectRustOwnedFile w p),
        t.collectChanged w plan d₁ plan.rustForced, t.collectChanged w plan d₂ plan.rustChecked,
        plan.unowned.map fun p => (p, t.collectUnownedFile w p)].flatMap
          (select Parsed.message) := by
  obtain ⟨db₁, h₁, h⟩ := bind_ok h
  obtain rfl := storeChunks_ok h₁
  obtain ⟨db₂, h₂, h⟩ := bind_ok h
  obtain rfl := GraphDb.write_ok h₂
  obtain ⟨db₃, h₃, h⟩ := bind_ok h
  obtain rfl := GraphDb.write_ok h₃
  obtain ⟨db₄, h₄, h⟩ := bind_ok h
  obtain rfl := GraphDb.write_ok h₄
  obtain ⟨db₅, h₅, h⟩ := bind_ok h
  obtain rfl := GraphDb.write_ok h₅
  obtain ⟨db₆, h₆, h⟩ := bind_ok h
  obtain rfl := GraphDb.write_ok h₆
  obtain ⟨rfl, rfl⟩ := Prod.mk.inj (Except.ok.inj h)
  exact ⟨rfl, rfl⟩

theorem changedRustOwnedFileSource_eq (hb : v.read = some b) (hm : v.mtime = some m)
    (stored : Option FileRow) :
    (t.HashIs b stored ∧ t.changedRustOwnedFileSource v v stored = .mtimeOnly m) ∨
      (¬t.HashIs b stored ∧
        t.changedRustOwnedFileSource v v stored = .changed ⟨b, t.sha256Hex b, m⟩) := by
  by_cases h : t.HashIs b stored
  · exact .inl ⟨h, by simp only [changedRustOwnedFileSource, hm, hb, any_hash.mpr h, if_true]⟩
  · refine .inr ⟨h, ?_⟩
    simp only [changedRustOwnedFileSource, hm, hb]
    rw [if_neg (fun ha => h (any_hash.mp ha))]

theorem mem_storeFull_writes {write : FileWrite} :
    (p, write) ∈ (chunksOf 500 (plan.rustFull.map fun p => (p, t.collectRustOwnedFile w p))).flatMap
      (select Parsed.write) ↔
    p ∈ plan.rustFull ∧ (t.collectRustOwnedFile w p).write = some write := by
  rw [← mem_select_map (f := Parsed.write) (g := t.collectRustOwnedFile w)]
  simp only [select, List.mem_flatMap, List.mem_filterMap]
  constructor
  · rintro ⟨c, hc, r, hr, heq⟩
    exact ⟨r, (mem_chunksOf (by decide)).mp ⟨c, hc, hr⟩, heq⟩
  · rintro ⟨r, hr, heq⟩
    obtain ⟨c, hc, hrc⟩ := (mem_chunksOf (n := 500) (by decide)).mpr hr
    exact ⟨c, hc, r, hrc, heq⟩

theorem parsePlanned_same {errors : List (String × String)}
    (h : t.parsePlanned w fails plan db = .ok (db', errors))
    (hread : p ∈ plan.rustFull ∨ p ∈ plan.unowned → (w.at .parse .read p).read = none)
    (hforced : p ∉ plan.rustForced) (hchecked : p ∉ plan.rustChecked) :
    db'.files.lookup p = db.files.lookup p := by
  have hchanged : ∀ {paths : List String} {d : FileTable}, p ∉ paths →
      (t.storeChanged w plan paths d).lookup p = d.lookup p := by
    intro paths d hp
    rw [storeChanged, FileTable.lookup_writeAll_of_notMem, FileTable.lookup_writeAll_of_notMem]
    · rw [map_fst_mtimeWrites, mem_map_fst]
      rintro ⟨x, hx⟩
      exact hp (mem_select_map.mp hx).1
    · rw [mem_map_fst]
      rintro ⟨x, hx⟩
      exact hp (mem_select_map.mp hx).1
  obtain ⟨rfl, -⟩ := parsePlanned_ok h
  simp only [storeUnowned]
  rw [FileTable.lookup_writeAll_of_notMem, hchanged hchecked, hchanged hforced, storeFull,
    FileTable.lookup_writeAll_of_notMem]
  · rw [mem_map_fst]
    rintro ⟨x, hx⟩
    obtain ⟨hp, hx⟩ := mem_storeFull_writes.mp hx
    simp only [collectRustOwnedFile, hread (.inl hp), Parsed.write] at hx
    cases hx
  · rw [mem_map_fst]
    rintro ⟨x, hx⟩
    obtain ⟨hp, hx⟩ := mem_select_map.mp hx
    simp only [collectUnownedFile, hread (.inr hp), Parsed.write] at hx
    cases hx

variable (hs : w.Steady p v) (hb : v.read = some b) (hm : v.mtime = some m)

include hs hb hm

theorem collectRustOwnedFile_eq (ho : t.ownsSource p b = true) :
    t.collectRustOwnedFile w p = .item (t.rowsOf p ⟨b, t.sha256Hex b, m⟩) := by
  simp only [collectRustOwnedFile, hs .parse .read, hs .parse .stat, hb, hm, ho, if_true,
    Option.getD_some]

theorem collectUnownedFile_eq :
    t.collectUnownedFile w p = .item (t.rowsOf p ⟨b, t.sha256Hex b, m⟩) := by
  simp only [collectUnownedFile, hs .parse .read, hs .parse .stat, hb, hm, Option.getD_some]

theorem collectChangedRustOwnedFile_eq (cached : Option CachedRustChangedFile)
    (stored : Option FileRow) (hc : ∀ e, cached = some e → e = ⟨b, t.sha256Hex b, m⟩)
    (ho : t.ownsSource p b = true) :
    (t.HashIs b stored ∧ t.collectChangedRustOwnedFile w cached stored p = .mtimeOnly m) ∨
      t.collectChangedRustOwnedFile w cached stored p
        = .item (t.rowsOf p ⟨b, t.sha256Hex b, m⟩) := by
  have hentry : (t.HashIs b stored ∧ t.changedEntry w cached stored p = .mtimeOnly m) ∨
      t.changedEntry w cached stored p = .changed ⟨b, t.sha256Hex b, m⟩ := by
    simp only [changedEntry, hs .parse .recheck, hs .parse .stat, hs .parse .read]
    split
    · rename_i e he
      rw [hc e (Option.filter_eq_some_iff.mp he).1]
      exact .inr rfl
    · rcases changedRustOwnedFileSource_eq hb hm stored with h | h
      · exact .inl h
      · exact .inr h.2
  rcases hentry with ⟨hh, he⟩ | he
  · exact .inl ⟨hh, by simp only [collectChangedRustOwnedFile, he]⟩
  · exact .inr (by simp only [collectChangedRustOwnedFile, he, ho, if_true])

theorem touches_storeFull (ho : p ∈ plan.rustFull → t.ownsSource p b = true) :
    t.Touches p b m (p ∈ plan.rustFull) d (t.storeFull w plan d) := by
  refine (touches_writeAll _ fun write hw => ?_).congr ?_
  · obtain ⟨hp, hw⟩ := mem_storeFull_writes.mp hw
    rw [collectRustOwnedFile_eq hs hb hm (ho hp)] at hw
    obtain rfl := Option.some.inj hw
    rfl
  · rw [mem_map_fst]
    constructor
    · rintro ⟨write, hw⟩
      exact (mem_storeFull_writes.mp hw).1
    · intro hp
      exact ⟨_, mem_storeFull_writes.mpr
        ⟨hp, by rw [collectRustOwnedFile_eq hs hb hm (ho hp)]; rfl⟩⟩

theorem touches_storeUnowned :
    t.Touches p b m (p ∈ plan.unowned) d (t.storeUnowned w plan d) := by
  refine (touches_writeAll _ fun write hw => ?_).congr ?_
  · have h := (mem_select_map.mp hw).2
    rw [collectUnownedFile_eq hs hb hm] at h
    obtain rfl := Option.some.inj h
    rfl
  · rw [mem_map_fst]
    constructor
    · rintro ⟨write, hw⟩
      exact (mem_select_map.mp hw).1
    · intro hp
      exact ⟨_, mem_select_map.mpr ⟨hp, by rw [collectUnownedFile_eq hs hb hm]; rfl⟩⟩

theorem touches_storeChanged {paths : List String}
    (hc : ∀ e, plan.cachedEntry p = some e → e = ⟨b, t.sha256Hex b, m⟩)
    (ho : p ∈ paths → t.ownsSource p b = true) :
    t.Touches p b m (p ∈ paths) d (t.storeChanged w plan paths d) := by
  have hres (hp : p ∈ paths) :=
    collectChangedRustOwnedFile_eq hs hb hm (plan.cachedEntry p) (d.lookup p) hc (ho hp)
  refine ((touches_writeAll _ fun write hw => ?_).trans
    (touches_writeAll _ fun write hw => ?_)).congr ?_
  · obtain ⟨x, hx, rfl⟩ := mem_mtimeWrites.mp hw
    obtain ⟨hp, hx⟩ := mem_select_map.mp hx
    rcases hres hp with ⟨hh, h⟩ | h
    · rw [h] at hx
      exact ⟨(Option.some.inj hx).symm, hh⟩
    · rw [h] at hx
      cases hx
  · obtain ⟨hp, hw⟩ := mem_select_map.mp hw
    rcases hres hp with ⟨-, h⟩ | h
    · rw [h] at hw
      cases hw
    · rw [h] at hw
      obtain rfl := Option.some.inj hw
      rfl
  · rw [map_fst_mtimeWrites, mem_map_fst, mem_map_fst]
    constructor
    · rintro (⟨x, hx⟩ | ⟨x, hx⟩)
      · exact (mem_select_map.mp hx).1
      · exact (mem_select_map.mp hx).1
    · intro hp
      rcases hres hp with ⟨-, h⟩ | h
      · exact .inl ⟨_, mem_select_map.mpr ⟨hp, by rw [h]; rfl⟩⟩
      · exact .inr ⟨_, mem_select_map.mpr ⟨hp, by rw [h]; rfl⟩⟩

theorem touches_parsePlanned {errors : List (String × String)}
    (h : t.parsePlanned w fails plan db = .ok (db', errors))
    (hc : ∀ e, plan.cachedEntry p = some e → e = ⟨b, t.sha256Hex b, m⟩)
    (ho : p ∈ plan.rustFull ∨ p ∈ plan.rustForced ∨ p ∈ plan.rustChecked →
      t.ownsSource p b = true) :
    t.Touches p b m
      (((p ∈ plan.rustFull ∨ p ∈ plan.rustForced) ∨ p ∈ plan.rustChecked) ∨ p ∈ plan.unowned)
      db.files db'.files := by
  obtain ⟨rfl, -⟩ := parsePlanned_ok h
  have hfull := touches_storeFull (d := db.files) hs hb hm fun hp => ho (.inl hp)
  have hforced := hfull.trans (touches_storeChanged hs hb hm hc fun hp => ho (.inr (.inl hp)))
  have hchecked := hforced.trans (touches_storeChanged hs hb hm hc fun hp => ho (.inr (.inr hp)))
  exact hchecked.trans (touches_storeUnowned hs hb hm)

theorem parsePlanned_clean {errors : List (String × String)} {message : String}
    (h : t.parsePlanned w fails plan db = .ok (db', errors))
    (hc : ∀ e, plan.cachedEntry p = some e → e = ⟨b, t.sha256Hex b, m⟩)
    (ho : p ∈ plan.rustFull ∨ p ∈ plan.rustForced ∨ p ∈ plan.rustChecked →
      t.ownsSource p b = true) : (p, message) ∉ errors := by
  have hchanged : ∀ {paths : List String} {d : FileTable},
      (p ∈ paths → t.ownsSource p b = true) →
      (p, message) ∉ select Parsed.message (t.collectChanged w plan d paths) := by
    intro paths d ho hmem
    obtain ⟨hp, hr⟩ := mem_select_map.mp hmem
    rcases collectChangedRustOwnedFile_eq hs hb hm (plan.cachedEntry p) (d.lookup p) hc (ho hp)
      with ⟨-, he⟩ | he
    · rw [he] at hr
      cases hr
    · rw [he] at hr
      cases hr
  obtain ⟨-, rfl⟩ := parsePlanned_ok h
  simp only [List.flatMap_cons, List.flatMap_nil, List.append_nil, List.mem_append, not_or]
  refine ⟨fun hmem => ?_, hchanged fun hp => ho (.inr (.inl hp)),
    hchanged fun hp => ho (.inr (.inr hp)), fun hmem => ?_⟩
  · obtain ⟨hp, hr⟩ := mem_select_map.mp hmem
    rw [collectRustOwnedFile_eq hs hb hm (ho (.inl hp))] at hr
    cases hr
  · obtain ⟨hp, hr⟩ := mem_select_map.mp hmem
    rw [collectUnownedFile_eq hs hb hm] at hr
    cases hr

end Parse

/-! ## Classify and plan -/

section Plan

variable {w : History} {d d₁ : FileTable} {scope changed paths extractorFiles : List String}
  {phase : Phase} {c : Classified} {v : FileView}

theorem mem_filterCandidates_fst :
    p ∈ (t.filterCandidates w phase scope paths).1 ↔
      p ∈ paths ∧ (w .ignorePatterns).ignored p = false ∧
        t.parseable (w.at phase .read p) p = true ∧ p ∈ scope := by
  simp only [filterCandidates, filterIncrementalCandidates, List.partition_eq_filter_filter,
    List.mem_filter, mem_pathSet, Bool.not_eq_true', decide_eq_true_iff]
  tauto

theorem mem_filterCandidates_snd :
    p ∈ (t.filterCandidates w phase scope paths).2 ↔
      p ∈ paths ∧ (((w .ignorePatterns).ignored p = false ∧
        t.parseable (w.at phase .read p) p = false) ∨ p ∉ scope) := by
  simp only [filterCandidates, filterIncrementalCandidates, List.partition_eq_filter_filter,
    List.mem_append, List.mem_filter, mem_pathSet, Bool.not_eq_true', Function.comp,
    decide_eq_true_iff]
  tauto

theorem mem_indexedOnly : p ∈ indexedOnly d paths ↔ p ∈ paths ∧ p ∈ d.paths := by
  rw [indexedOnly, List.mem_filter, FileTable.mem_paths, Option.isSome_iff_exists]

theorem mem_staleScope : p ∈ staleScope d scope ↔ p ∈ d.paths ∧ p ∉ scope := by
  simp [staleScope]

theorem mem_classify_removed :
    p ∈ (t.classify w d scope changed).removed ↔
      p ∈ d.paths ∧ (p ∉ scope ∨ (p ∈ changed ∧ (w .ignorePatterns).ignored p = false ∧
        t.parseable (w.at .filter .read p) p = false)) := by
  simp only [classify, mem_dedupe, List.mem_append, mem_indexedOnly, mem_filterCandidates_snd,
    mem_staleScope]
  tauto

theorem mem_replan_snd :
    p ∈ (t.replan w d scope c).2 → p ∈ c.removed ∨ p ∉ scope ∨
      ((w .ignorePatterns).ignored p = false ∧
        t.parseable (w.at .refilter .read p) p = false) := by
  intro h
  simp only [replan] at h
  split at h
  · exact .inl h
  · rw [mem_dedupe, List.mem_append, mem_indexedOnly, mem_filterCandidates_snd] at h
    tauto

theorem mem_replan_snd_of_removed (h : p ∈ c.removed) : p ∈ (t.replan w d scope c).2 := by
  simp only [replan]
  split
  · exact h
  · exact mem_dedupe.mpr (List.mem_append_left _ h)

theorem mem_replan_fst (h : p ∈ (t.replan w d scope c).1) :
    p ∈ scope ∧ (p ∈ c.contentChanged ∨ t.parseable (w.at .refilter .read p) p = true) := by
  simp only [replan] at h
  split at h
  · obtain ⟨hp, hscope⟩ := List.mem_filter.mp h
    exact ⟨by simpa using hscope, .inl hp⟩
  · obtain ⟨-, -, hpar, hscope⟩ := mem_filterCandidates_fst.mp h
    exact ⟨hscope, .inr hpar⟩

theorem mem_candidates_of_contentChanged
    (h : p ∈ (t.classify w d scope changed).contentChanged) :
    p ∈ (t.filterCandidates w .filter scope changed).1 := by
  rcases List.mem_append.mp (mem_pathSet.mp h) with h | h
  · obtain ⟨e, he⟩ := mem_map_fst.mp h
    exact (List.mem_filter.mp (mem_select_map.mp he).1).1
  · obtain ⟨⟨q, state⟩, hr, rfl⟩ := List.mem_map.mp h
    obtain ⟨q, hq, heq⟩ := List.mem_map.mp (List.mem_filter.mp hr).1
    obtain ⟨rfl, -⟩ := Prod.mk.inj heq
    exact (List.mem_filter.mp hq).1

theorem mem_replan_source
    (h : p ∈ (t.replan w d scope c).1 ∨ p ∈ (t.replan w d scope c).2) :
    p ∈ c.contentChanged ∨ p ∈ c.removed ∨ p ∈ t.findDependents c.roots := by
  simp only [replan] at h
  split at h
  · rcases h with h | h
    · exact .inl (List.mem_filter.mp h).1
    · exact .inr (.inl h)
  · have hsource : p ∈ c.contentChanged ++ c.removed ++ t.findDependents c.roots →
        p ∈ c.contentChanged ∨ p ∈ c.removed ∨ p ∈ t.findDependents c.roots := by
      simp only [List.mem_append, or_assoc, imp_self]
    rcases h with h | h
    · exact hsource (mem_filterCandidates_fst.mp h).1
    · rw [mem_dedupe, List.mem_append, mem_indexedOnly, mem_filterCandidates_snd] at h
      rcases h with h | h
      · exact .inr (.inl h)
      · exact hsource h.1.1

theorem mem_replan_fst_of_dependent (h : p ∈ t.findDependents c.roots)
    (hi : (w .ignorePatterns).ignored p = false)
    (hpar : t.parseable (w.at .refilter .read p) p = true) (hscope : p ∈ scope) :
    p ∈ (t.replan w d scope c).1 := by
  rw [replan, if_neg (List.ne_nil_of_mem h)]
  exact mem_filterCandidates_fst.mpr ⟨List.mem_append_right _ h, hi, hpar, hscope⟩

theorem mem_replan_snd_of_dependent (h : p ∈ t.findDependents c.roots)
    (hi : (w .ignorePatterns).ignored p = false)
    (hpar : t.parseable (w.at .refilter .read p) p = false) (hindexed : p ∈ d.paths) :
    p ∈ (t.replan w d scope c).2 := by
  rw [replan, if_neg (List.ne_nil_of_mem h)]
  refine mem_dedupe.mpr (List.mem_append_right _ (mem_indexedOnly.mpr ⟨?_, hindexed⟩))
  exact mem_filterCandidates_snd.mpr ⟨List.mem_append_right _ h, .inl ⟨hi, hpar⟩⟩

theorem mem_plan_mtimeOnly_of_state {x : Int} (h : p ∈ (t.replan w d scope c).1)
    (hext : p ∉ extractorFiles) (ho : t.owns (w.at .plan .owns p) p = false)
    (hstate : t.contentState (w.at .plan .stat p) (w.at .plan .read p) (d.lookup p)
      (p ∉ c.contentChanged) = .mtimeOnly x) :
    (p, x) ∈ (t.plan w d scope extractorFiles c).mtimeOnly := by
  refine List.mem_append_right _ (mem_select_map.mpr ⟨?_, by rw [hstate]; rfl⟩)
  refine List.mem_filter.mpr ⟨List.mem_filter.mpr ⟨h, ?_⟩, by rw [ho]; rfl⟩
  simp [hext]

theorem mem_plan_mtimeOnly {x : Int}
    (h : (p, x) ∈ (t.plan w d scope extractorFiles c).mtimeOnly) :
    (p, x) ∈ c.mtimeOnly ∨ p ∈ (t.replan w d scope c).1 := by
  rcases List.mem_append.mp h with h | h
  · exact .inl h
  · exact .inr (List.mem_filter.mp (List.mem_filter.mp (mem_select_map.mp h).1).1).1

theorem mem_plan_rustFull :
    p ∈ (t.plan w d scope extractorFiles c).rustFull ↔
      (p ∈ extractorFiles ∧ p ∉ c.contentChanged) ∧ t.owns (w.at .plan .owns p) p = true := by
  simp only [plan, decide_not, List.mem_filter, Bool.not_eq_eq_eq_not, Bool.not_true,
    decide_eq_false_iff_not, not_and, Decidable.not_not, List.filter_filter, Bool.and_eq_true]
  tauto

theorem mem_plan_rustForced :
    p ∈ (t.plan w d scope extractorFiles c).rustForced ↔
      ((p ∈ (t.replan w d scope c).1 ∧ (p ∈ extractorFiles → p ∈ c.contentChanged)) ∧
        t.owns (w.at .plan .owns p) p = true) ∧ p ∈ c.rustContentChanged := by
  simp only [plan, decide_not, List.mem_filter, Bool.not_eq_eq_eq_not, Bool.not_true,
    decide_eq_false_iff_not, not_and, Decidable.not_not, List.filter_filter, Bool.and_eq_true,
    decide_eq_true_eq]
  tauto

theorem mem_plan_rustChecked :
    p ∈ (t.plan w d scope extractorFiles c).rustChecked ↔
      ((p ∈ (t.replan w d scope c).1 ∧ (p ∈ extractorFiles → p ∈ c.contentChanged)) ∧
        t.owns (w.at .plan .owns p) p = true) ∧
      p ∉ c.rustContentChanged ∧ mtimeMatches (w.at .plan .stat p) (d.lookup p) = false := by
  simp only [plan, decide_not, List.mem_filter, Bool.not_eq_eq_eq_not, Bool.not_true,
    decide_eq_false_iff_not, not_and, Decidable.not_not, List.filter_filter, Bool.and_eq_true,
    decide_eq_true_eq]
  tauto

theorem mem_plan_unowned :
    p ∈ (t.plan w d scope extractorFiles c).unowned ↔
      ((p ∈ extractorFiles ∧ p ∉ c.contentChanged) ∧
        t.owns (w.at .plan .owns p) p = false) ∨
      (((p ∈ (t.replan w d scope c).1 ∧ (p ∈ extractorFiles → p ∈ c.contentChanged)) ∧
        t.owns (w.at .plan .owns p) p = false) ∧
        t.contentState (w.at .plan .stat p) (w.at .plan .read p) (d.lookup p)
          (p ∉ c.contentChanged) = .changed) := by
  simp only [plan, decide_not, List.mem_filter, Bool.not_eq_eq_eq_not, Bool.not_true,
    decide_eq_false_iff_not, not_and, Decidable.not_not, List.filter_filter, Bool.and_eq_true,
    List.mem_append, List.mem_map, decide_eq_true_eq, Prod.exists, Prod.mk.injEq, ↓existsAndEq,
    true_and, exists_and_right, and_true, exists_eq_right]
  tauto

theorem mem_replan_of_contentChanged (h : p ∈ c.contentChanged)
    (hi : (w .ignorePatterns).ignored p = false)
    (hpar : t.parseable (w.at .refilter .read p) p = true) (hscope : p ∈ scope) :
    p ∈ (t.replan w d scope c).1 := by
  simp only [replan]
  split
  · exact List.mem_filter.mpr ⟨h, by simpa using hscope⟩
  · refine mem_filterCandidates_fst.mpr ⟨?_, hi, hpar, hscope⟩
    exact List.mem_append_left _ (List.mem_append_left _ h)

section Readable

variable (hb : v.read = some b) (hm : v.mtime = some m)

include hb hm

theorem contentState_untrusted (stored : Option FileRow) :
    (t.HashIs b stored ∧ t.contentState v v stored false = .mtimeOnly m) ∨
      (¬t.HashIs b stored ∧ t.contentState v v stored false = .changed) := by
  by_cases h : t.HashIs b stored
  · exact .inl ⟨h, by simp [contentState, hm, hb, any_hash.mpr h]⟩
  · refine .inr ⟨h, ?_⟩
    have hany : ¬(stored.any fun row => row.fileHash = t.sha256Hex b) = true :=
      fun ha => h (any_hash.mp ha)
    simp only [contentState, hm, hb, Bool.false_and, Bool.false_eq_true, if_false, if_neg hany]

theorem contentState_mtimeOnly {stored : Option FileRow} {trust : Bool} {x : Int}
    (h : t.contentState v v stored trust = .mtimeOnly x) : x = m ∧ t.HashIs b stored := by
  simp only [contentState, hm, hb] at h
  split at h
  · cases h
  · split at h
    · rename_i ha
      exact ⟨(ContentState.mtimeOnly.inj h).symm, any_hash.mp ha⟩
    · cases h

end Readable

section Steady

variable (hs : w.Steady p v) (hb : v.read = some b) (hm : v.mtime = some m)

include hs hb hm

theorem classifyChangedRustOwnedFile_eq (ho : t.owns v p = true) :
    (t.HashIs b (d.lookup p) ∧ t.classifyChangedRustOwnedFile w d p = .mtimeOnly m) ∨
      (¬t.HashIs b (d.lookup p) ∧
        t.classifyChangedRustOwnedFile w d p = .changed ⟨b, t.sha256Hex b, m⟩) := by
  simp only [classifyChangedRustOwnedFile, hs .classify .stat, hs .classify .read]
  rcases changedRustOwnedFileSource_eq (t := t) hb hm (d.lookup p) with ⟨hh, h⟩ | ⟨hh, h⟩
  · exact .inl ⟨hh, by rw [h]⟩
  · exact .inr ⟨hh, by rw [h]; simp only [ownsSource_of_owns ho hb, if_true]⟩

theorem mem_classify_mtimeUpdates {x : Int}
    (h : (p, x) ∈ (t.classify w d scope changed).mtimeUpdates) :
    x = m ∧ t.HashIs b (d.lookup p) := by
  obtain ⟨hp, hx⟩ := mem_select_map.mp h
  have ho : t.owns v p = true := by simpa [hs .classify .owns] using (List.mem_filter.mp hp).2
  rcases classifyChangedRustOwnedFile_eq hs hb hm (d := d) ho with ⟨hh, h⟩ | ⟨-, h⟩
  · rw [h] at hx
    exact ⟨(Option.some.inj hx).symm, hh⟩
  · rw [h] at hx
    cases hx

theorem mem_classify_cached {e : CachedRustChangedFile}
    (h : (p, e) ∈ (t.classify w d scope changed).cached) :
    e = ⟨b, t.sha256Hex b, m⟩ ∧ ¬t.HashIs b (d.lookup p) := by
  obtain ⟨hp, hx⟩ := mem_select_map.mp h
  have ho : t.owns v p = true := by simpa [hs .classify .owns] using (List.mem_filter.mp hp).2
  rcases classifyChangedRustOwnedFile_eq hs hb hm (d := d) ho with ⟨-, h⟩ | ⟨hh, h⟩
  · rw [h] at hx
    cases hx
  · rw [h] at hx
    exact ⟨(Option.some.inj hx).symm, hh⟩

theorem mem_classify_mtimeOnly {x : Int}
    (h : (p, x) ∈ (t.classify w d scope changed).mtimeOnly) :
    x = m ∧ t.HashIs b (d.lookup p) := by
  obtain ⟨-, hx⟩ := mem_select_map.mp h
  rw [hs .classify .stat, hs .classify .read] at hx
  rcases contentState_untrusted (t := t) hb hm (d.lookup p) with ⟨hh, h⟩ | ⟨-, h⟩
  · rw [h] at hx
    exact ⟨(Option.some.inj hx).symm, hh⟩
  · rw [h] at hx
    cases hx

theorem mem_candidates_cases (h : p ∈ (t.filterCandidates w .filter scope changed).1) :
    p ∈ (t.classify w d scope changed).mtimeUpdates.map Prod.fst ∨
      p ∈ (t.classify w d scope changed).mtimeOnly.map Prod.fst ∨
      p ∈ (t.classify w d scope changed).contentChanged := by
  by_cases ho : t.owns v p = true
  · have hp : p ∈ (t.filterCandidates w .filter scope changed).1.filter fun p =>
        t.owns (w.at .classify .owns p) p :=
      List.mem_filter.mpr ⟨h, by rw [hs .classify .owns]; exact ho⟩
    rcases classifyChangedRustOwnedFile_eq hs hb hm (d := d) ho with ⟨-, hr⟩ | ⟨-, hr⟩
    · exact .inl (mem_map_fst.mpr ⟨m, mem_select_map.mpr ⟨hp, by rw [hr]; rfl⟩⟩)
    · refine .inr (.inr (mem_pathSet.mpr (List.mem_append_left _
        (mem_map_fst.mpr ⟨⟨b, t.sha256Hex b, m⟩, ?_⟩))))
      exact mem_select_map.mpr ⟨hp, by rw [hr]; rfl⟩
  · have hp : p ∈ (t.filterCandidates w .filter scope changed).1.filter fun p =>
        !t.owns (w.at .classify .owns p) p :=
      List.mem_filter.mpr ⟨h, by rw [hs .classify .owns]; simpa using ho⟩
    have hstate : t.contentState (w.at .classify .stat p) (w.at .classify .read p)
        (d.lookup p) false = t.contentState v v (d.lookup p) false := by
      rw [hs .classify .stat, hs .classify .read]
    rcases contentState_untrusted (t := t) hb hm (d.lookup p) with ⟨-, hr⟩ | ⟨-, hr⟩
    · exact .inr (.inl (mem_map_fst.mpr
        ⟨m, mem_select_map.mpr ⟨hp, by rw [hstate, hr]; rfl⟩⟩))
    · refine .inr (.inr (mem_pathSet.mpr (List.mem_append_right _ ?_)))
      refine List.mem_map.mpr ⟨_, List.mem_filter.mpr ⟨List.mem_map.mpr ⟨p, hp, rfl⟩, ?_⟩, rfl⟩
      rw [hstate, hr]
      rfl

/-- A changed path has other bytes than the stored ones, and one the path rules own is
among those with cached bytes. -/
theorem mem_contentChanged_cases (h : p ∈ (t.classify w d scope changed).contentChanged) :
    ¬t.HashIs b (d.lookup p) ∧
      (t.owns v p = true → p ∈ (t.classify w d scope changed).rustContentChanged) := by
  rcases List.mem_append.mp (mem_pathSet.mp h) with h | h
  · obtain ⟨e, he⟩ := mem_map_fst.mp h
    exact ⟨(mem_classify_cached hs hb hm he).2, fun _ => h⟩
  · obtain ⟨⟨q, state⟩, hr, rfl⟩ := List.mem_map.mp h
    obtain ⟨hr, hstate⟩ := List.mem_filter.mp hr
    obtain ⟨q, hq, heq⟩ := List.mem_map.mp hr
    obtain ⟨rfl, rfl⟩ := Prod.mk.inj heq
    have hno := (List.mem_filter.mp hq).2
    rw [hs .classify .owns] at hno
    refine ⟨fun hh => ?_, fun ho => ?_⟩
    · rw [hs .classify .stat, hs .classify .read] at hstate
      rcases contentState_untrusted (t := t) hb hm (d.lookup q) with ⟨-, hc⟩ | ⟨hn, -⟩
      · rw [hc] at hstate
        cases hstate
      · exact hn hh
    · rw [ho] at hno
      cases hno

theorem plan_mtimeOnly {x : Int}
    (h : (p, x) ∈ (t.plan w d₁ scope extractorFiles (t.classify w d scope changed)).mtimeOnly) :
    x = m ∧ (t.HashIs b (d.lookup p) ∨ t.HashIs b (d₁.lookup p)) := by
  rcases List.mem_append.mp h with h | h
  · obtain ⟨hx, hh⟩ := mem_classify_mtimeOnly hs hb hm h
    exact ⟨hx, .inl hh⟩
  · obtain ⟨-, hx⟩ := mem_select_map.mp h
    rw [hs .plan .stat, hs .plan .read] at hx
    cases hst : t.contentState v v (d₁.lookup p)
        (decide (p ∉ (t.classify w d scope changed).contentChanged)) with
    | mtimeOnly x' =>
        rw [hst] at hx
        obtain rfl := Option.some.inj hx
        obtain ⟨hx, hh⟩ := contentState_mtimeOnly hb hm hst
        exact ⟨hx, .inr hh⟩
    | unchanged => rw [hst] at hx; cases hx
    | changed => rw [hst] at hx; cases hx

theorem mem_plan_of_contentChanged (d₁ : FileTable) (extractorFiles : List String)
    (h : p ∈ (t.classify w d scope changed).contentChanged)
    (hh : t.HashIs b (d₁.lookup p) → t.HashIs b (d.lookup p)) :
    p ∈ (t.plan w d₁ scope extractorFiles (t.classify w d scope changed)).rustForced ∨
      p ∈ (t.plan w d₁ scope extractorFiles (t.classify w d scope changed)).unowned := by
  obtain ⟨hn, hrust⟩ := mem_contentChanged_cases hs hb hm h
  obtain ⟨-, hi, hpar, hscope⟩ := mem_filterCandidates_fst.mp (mem_candidates_of_contentChanged h)
  rw [hs .filter .read] at hpar
  have hre := mem_replan_of_contentChanged (d := d₁) h hi (by rw [hs .refilter .read]; exact hpar)
    hscope
  rw [mem_plan_rustForced, mem_plan_unowned, hs .plan .owns, hs .plan .stat, hs .plan .read]
  cases ho : t.owns v p with
  | true => exact .inl ⟨⟨⟨hre, fun _ => h⟩, rfl⟩, hrust ho⟩
  | false =>
      refine .inr (.inr ⟨⟨⟨hre, fun _ => h⟩, rfl⟩, ?_⟩)
      rw [decide_eq_false (not_not.mpr h)]
      rcases contentState_untrusted (t := t) hb hm (d₁.lookup p) with ⟨hh₁, -⟩ | ⟨-, hc⟩
      · exact absurd (hh hh₁) hn
      · exact hc

end Steady

theorem owns_of_mem_plan (hs : w.Steady p v)
    (h : p ∈ (t.plan w d₁ scope extractorFiles c).rustFull ∨
      p ∈ (t.plan w d₁ scope extractorFiles c).rustForced ∨
      p ∈ (t.plan w d₁ scope extractorFiles c).rustChecked) : t.owns v p = true := by
  rw [mem_plan_rustFull, mem_plan_rustForced, mem_plan_rustChecked, hs .plan .owns] at h
  rcases h with h | h | h
  · exact h.2
  · exact h.1.2
  · exact h.1.2

end Plan

/-! ## The update of one path -/

section Update

variable {w : History} {fails : DbStep → Bool} {db db' : GraphDb} {v : FileView}
  {scope changed extractorFiles : List String} {report : UpdateReport} {parsed : Bool}

def classifiedFiles (t : Toolchain) (w : History) (d : FileTable) (scope changed : List String) :
    FileTable :=
  d.writeAll (mtimeWrites (t.classify w d scope changed).mtimeUpdates)

def updatePlan (t : Toolchain) (w : History) (d : FileTable)
    (scope extractorFiles changed : List String) : Plan :=
  t.plan w (t.classifiedFiles w d scope changed) scope extractorFiles
    (t.classify w d scope changed)

def appliedFiles (t : Toolchain) (w : History) (d : FileTable)
    (scope extractorFiles changed : List String) : FileTable :=
  let plan := t.updatePlan w d scope extractorFiles changed
  ((t.classifiedFiles w d scope changed).writeAll (removeWrites plan.removed)).writeAll
    (mtimeWrites plan.mtimeOnly)

theorem updateChanged_ok
    (h : t.updateChanged w fails db scope extractorFiles changed = .ok (db', report, parsed)) :
    let plan := t.updatePlan w db.files scope extractorFiles changed
    let applied := { db with files := t.appliedFiles w db.files scope extractorFiles changed }
    (plan.parseCount = 0 ∧ db' = applied ∧ parsed = false ∧
        report.errors = (t.classify w db.files scope changed).errors) ∨
      ∃ errors, t.parsePlanned w fails plan applied = .ok (db', errors) ∧ parsed = true ∧
        report.errors = (t.classify w db.files scope changed).errors ++ errors := by
  obtain ⟨db₁, h₁, h⟩ := bind_ok h
  obtain rfl := GraphDb.write_ok h₁
  obtain ⟨db₂, h₂, h⟩ := bind_ok h
  obtain rfl := GraphDb.write_ok h₂
  obtain ⟨db₃, h₃, h⟩ := bind_ok h
  obtain rfl := GraphDb.write_ok h₃
  split at h
  · rename_i hcount
    simp only [pure, Except.pure, Except.ok.injEq, Prod.mk.injEq] at h
    obtain ⟨rfl, rfl, rfl⟩ := h
    exact .inl ⟨hcount, rfl, rfl, rfl⟩
  · obtain ⟨⟨db₄, errors⟩, h₄, h⟩ := bind_ok h
    simp only [pure, Except.pure, Except.ok.injEq, Prod.mk.injEq] at h
    obtain ⟨rfl, rfl, rfl⟩ := h
    exact .inr ⟨errors, h₄, rfl, rfl⟩

/-- The update looks into a path: one of its lists names it. -/
def Touched (t : Toolchain) (w : History) (d : FileTable)
    (scope extractorFiles changed : List String) (p : String) : Prop :=
  let plan := t.updatePlan w d scope extractorFiles changed
  ((p ∈ (t.classify w d scope changed).mtimeUpdates.map Prod.fst ∨
      p ∈ plan.mtimeOnly.map Prod.fst) ∨
    ((p ∈ plan.rustFull ∨ p ∈ plan.rustForced) ∨ p ∈ plan.rustChecked) ∨ p ∈ plan.unowned)

variable (hs : w.Steady p v) (hb : v.read = some b) (hm : v.mtime = some m)

include hs hb hm

theorem hashIs_classifiedFiles {d : FileTable} :
    t.HashIs b ((t.classifiedFiles w d scope changed).lookup p) ↔ t.HashIs b (d.lookup p) := by
  by_cases hp : p ∈ (t.classify w d scope changed).mtimeUpdates.map Prod.fst
  · obtain ⟨x, hx⟩ := mem_map_fst.mp hp
    have hh := (mem_classify_mtimeUpdates hs hb hm hx).2
    refine ⟨fun _ => hh, fun _ => FileTable.lookup_writeAll_induct ?_ hh⟩
    rintro ⟨q, write⟩ hw rfl row hrow
    obtain ⟨x, -, rfl⟩ := mem_mtimeWrites.mp hw
    exact hrow.mtime
  · rw [classifiedFiles, FileTable.lookup_writeAll_of_notMem (by rwa [map_fst_mtimeWrites])]

theorem touches_classifiedFiles (d : FileTable) (scope changed : List String) :
    t.Touches p b m (p ∈ (t.classify w d scope changed).mtimeUpdates.map Prod.fst) d
      (t.classifiedFiles w d scope changed) := by
  have h := touches_writeAll (t := t) (p := p) (b := b) (m := m) (d := d)
    (mtimeWrites (t.classify w d scope changed).mtimeUpdates) fun write hw => by
      obtain ⟨x, hx, rfl⟩ := mem_mtimeWrites.mp hw
      exact mem_classify_mtimeUpdates hs hb hm hx
  rwa [map_fst_mtimeWrites] at h

theorem touches_appliedFiles {d : FileTable}
    (hr : p ∉ (t.updatePlan w d scope extractorFiles changed).removed) :
    t.Touches p b m
      (p ∈ (t.classify w d scope changed).mtimeUpdates.map Prod.fst ∨
        p ∈ (t.updatePlan w d scope extractorFiles changed).mtimeOnly.map Prod.fst)
      d (t.appliedFiles w d scope extractorFiles changed) := by
  have hsame : ((t.classifiedFiles w d scope changed).writeAll
      (removeWrites (t.updatePlan w d scope extractorFiles changed).removed)).lookup p
        = (t.classifiedFiles w d scope changed).lookup p :=
    FileTable.lookup_writeAll_of_notMem (by rwa [map_fst_removeWrites])
  have hclassify := touches_classifiedFiles (t := t) hs hb hm d scope changed
  have hremove : t.Touches p b m
      (p ∈ (t.classify w d scope changed).mtimeUpdates.map Prod.fst) d
      ((t.classifiedFiles w d scope changed).writeAll
        (removeWrites (t.updatePlan w d scope extractorFiles changed).removed)) :=
    ⟨fun hn => by rw [hsame, hclassify.same hn],
      fun hp => by rw [hsame]; exact hclassify.current hp⟩
  have happly := hremove.trans (touches_writeAll (t := t) (p := p) (b := b) (m := m)
    (mtimeWrites (t.updatePlan w d scope extractorFiles changed).mtimeOnly)
    fun write hw => by
      obtain ⟨x, hx, rfl⟩ := mem_mtimeWrites.mp hw
      obtain ⟨hxm, hh⟩ := plan_mtimeOnly hs hb hm hx
      rw [hashIs_classifiedFiles hs hb hm, or_self] at hh
      rw [hsame]
      exact ⟨hxm, (hashIs_classifiedFiles hs hb hm).mpr hh⟩)
  rwa [map_fst_mtimeWrites] at happly

theorem updateChanged_touches
    (h : t.updateChanged w fails db scope extractorFiles changed = .ok (db', report, parsed))
    (hr : p ∉ (t.updatePlan w db.files scope extractorFiles changed).removed) :
    t.Touches p b m (t.Touched w db.files scope extractorFiles changed p) db.files db'.files := by
  have happly := touches_appliedFiles (t := t) hs hb hm hr
  rcases updateChanged_ok h with ⟨hcount, rfl, -, -⟩ | ⟨errors, hparse, -, -⟩
  · refine happly.congr ⟨.inl, fun ht => ht.resolve_right ?_⟩
    simp only [Plan.parseCount, Nat.add_eq_zero_iff, List.length_eq_zero_iff] at hcount
    obtain ⟨⟨⟨h₁, h₂⟩, h₃⟩, h₄⟩ := hcount
    rw [h₁, h₂, h₃, h₄]
    simp
  · exact happly.trans (touches_parsePlanned hs hb hm hparse
      (fun e he => (mem_classify_cached hs hb hm (Plan.cachedEntry_mem he)).1)
      (fun ho => ownsSource_of_owns (owns_of_mem_plan hs ho) hb))

theorem updateChanged_clean {message : String}
    (h : t.updateChanged w fails db scope extractorFiles changed = .ok (db', report, parsed)) :
    (p, message) ∉ report.errors := by
  have hclassify : (p, message) ∉ (t.classify w db.files scope changed).errors := by
    intro hmem
    obtain ⟨hp, hr⟩ := mem_select_map.mp hmem
    have ho : t.owns v p = true := by
      simpa [hs .classify .owns] using (List.mem_filter.mp hp).2
    rcases classifyChangedRustOwnedFile_eq hs hb hm (d := db.files) ho with ⟨-, he⟩ | ⟨-, he⟩
    · rw [he] at hr
      cases hr
    · rw [he] at hr
      cases hr
  rcases updateChanged_ok h with ⟨-, -, -, he⟩ | ⟨errors, hparse, -, he⟩
  · rw [he]
    exact hclassify
  · rw [he, List.mem_append, not_or]
    exact ⟨hclassify, parsePlanned_clean hs hb hm hparse
      (fun e he => (mem_classify_cached hs hb hm (Plan.cachedEntry_mem he)).1)
      (fun ho => ownsSource_of_owns (owns_of_mem_plan hs ho) hb)⟩

theorem touched_of_mem_candidates {d : FileTable}
    (h : p ∈ (t.filterCandidates w .filter scope changed).1) :
    t.Touched w d scope extractorFiles changed p := by
  rcases mem_candidates_cases hs hb hm (d := d) h with h | h | h
  · exact .inl (.inl h)
  · refine .inl (.inr ?_)
    obtain ⟨x, hx⟩ := mem_map_fst.mp h
    exact mem_map_fst.mpr ⟨x, List.mem_append_left _ hx⟩
  · rcases mem_plan_of_contentChanged hs hb hm (t.classifiedFiles w d scope changed)
      extractorFiles h (hashIs_classifiedFiles hs hb hm).mp with h | h
    · exact .inr (.inl (.inl (.inr h)))
    · exact .inr (.inr h)

omit hs hb hm

theorem classifiedFiles_of_none {d : FileTable} (h : d.lookup p = none) :
    (t.classifiedFiles w d scope changed).lookup p = none := by
  refine FileTable.lookup_writeAll_induct (P := fun row => row = none) ?_ h
  rintro ⟨q, write⟩ hw - row rfl
  obtain ⟨x, -, rfl⟩ := mem_mtimeWrites.mp hw
  rfl

theorem appliedFiles_of_none {d : FileTable}
    (h : (t.classifiedFiles w d scope changed).lookup p = none) :
    (t.appliedFiles w d scope extractorFiles changed).lookup p = none := by
  refine FileTable.lookup_writeAll_induct (P := fun row => row = none) ?_
    (FileTable.lookup_writeAll_induct (P := fun row => row = none) ?_ h)
  · rintro ⟨q, write⟩ hw - row rfl
    obtain ⟨x, -, rfl⟩ := mem_mtimeWrites.mp hw
    rfl
  · rintro ⟨q, write⟩ hw - row -
    obtain ⟨q', -, heq⟩ := List.mem_map.mp hw
    obtain ⟨-, rfl⟩ := Prod.mk.inj heq
    rfl

theorem appliedFiles_of_removed {d : FileTable}
    (hr : p ∈ (t.updatePlan w d scope extractorFiles changed).removed) :
    (t.appliedFiles w d scope extractorFiles changed).lookup p = none := by
  refine FileTable.lookup_writeAll_induct (P := fun row => row = none) ?_
    (FileTable.lookup_writeAll_remove hr)
  rintro ⟨q, write⟩ hw - row rfl
  obtain ⟨x, -, rfl⟩ := mem_mtimeWrites.mp hw
  rfl

/-- A path that is not planned again, and cannot be read where an extractor asks for it,
is not parsed. -/
theorem updateChanged_unlisted
    (h : t.updateChanged w fails db scope extractorFiles changed = .ok (db', report, parsed))
    (hreplan : p ∉ (t.replan w (t.classifiedFiles w db.files scope changed) scope
      (t.classify w db.files scope changed)).1)
    (hread : p ∈ extractorFiles → (w.at .parse .read p).read = none) :
    db'.files.lookup p = (t.appliedFiles w db.files scope extractorFiles changed).lookup p := by
  rcases updateChanged_ok h with ⟨-, rfl, -, -⟩ | ⟨errors, hparse, -, -⟩
  · rfl
  · refine parsePlanned_same hparse (fun hp => hread ?_) ?_ ?_
    · simp only [updatePlan, mem_plan_rustFull, mem_plan_unowned] at hp
      rcases hp with hp | hp | hp
      · exact hp.1.1
      · exact hp.1.1
      · exact absurd hp.1.1.1 hreplan
    · rw [updatePlan, mem_plan_rustForced]
      exact fun hp => hreplan hp.1.1.1
    · rw [updatePlan, mem_plan_rustChecked]
      exact fun hp => hreplan hp.1.1.1

/-- A path outside the scope, or reported and no longer parseable, has no rows after an
update, unless the re-parse for an outdated extractor reads it again. -/
theorem updateChanged_gone (hs : w.Steady p v)
    (h : t.updateChanged w fails db scope extractorFiles changed = .ok (db', report, parsed))
    (hsub : ∀ q ∈ extractorFiles, q ∈ scope)
    (hgone : p ∉ scope ∨ (p ∈ changed ∧ (w .ignorePatterns).ignored p = false ∧
      t.parseable v p = false))
    (hfull : p ∈ extractorFiles → p ∈ scope → v.read = none) :
    db'.files.lookup p = none := by
  -- The path is in no list that parses, but for the full re-parse.
  have hcand : p ∉ (t.filterCandidates w .filter scope changed).1 := by
    rw [mem_filterCandidates_fst, hs .filter .read]
    rintro ⟨-, -, hpar, hscope⟩
    rcases hgone with hn | ⟨-, -, hpar'⟩
    · exact hn hscope
    · rw [hpar] at hpar'
      cases hpar'
  have hchanged : p ∉ (t.classify w db.files scope changed).contentChanged :=
    fun hp => hcand (mem_candidates_of_contentChanged hp)
  have hreplan : p ∉ (t.replan w (t.classifiedFiles w db.files scope changed) scope
      (t.classify w db.files scope changed)).1 := by
    intro hp
    obtain ⟨hscope, hp⟩ := mem_replan_fst hp
    rcases hgone with hn | ⟨-, -, hpar⟩
    · exact hn hscope
    · rcases hp with hp | hp
      · exact hchanged hp
      · rw [hs .refilter .read, hpar] at hp
        cases hp
  -- Its rows are removed, if there are any, and a new mtime does not bring them back.
  have hnone : (t.appliedFiles w db.files scope extractorFiles changed).lookup p = none := by
    by_cases hp : p ∈ db.files.paths
    · refine appliedFiles_of_removed (mem_replan_snd_of_removed ?_)
      rw [mem_classify_removed, hs .filter .read]
      exact ⟨hp, hgone⟩
    · rw [FileTable.mem_paths, ← Option.isSome_iff_exists] at hp
      exact appliedFiles_of_none
        (classifiedFiles_of_none (Option.not_isSome_iff_eq_none.mp hp))
  rw [updateChanged_unlisted h hreplan]
  · exact hnone
  · intro hp
    rw [hs .parse .read]
    exact hfull hp (hsub p hp)

/-- A path in scope that is not reported, not re-parsed for an extractor and no dependent
of a change keeps its rows. -/
theorem updateChanged_same
    (h : t.updateChanged w fails db scope extractorFiles changed = .ok (db', report, parsed))
    (hscope : p ∈ scope) (hchanged : p ∉ changed) (hext : p ∉ extractorFiles)
    (hdep : p ∉ t.findDependents (t.classify w db.files scope changed).roots) :
    db'.files.lookup p = db.files.lookup p := by
  have hcand : p ∉ (t.filterCandidates w .filter scope changed).1 :=
    fun hp => hchanged (mem_filterCandidates_fst.mp hp).1
  have hreplan : ¬(p ∈ (t.replan w (t.classifiedFiles w db.files scope changed) scope
      (t.classify w db.files scope changed)).1 ∨
      p ∈ (t.replan w (t.classifiedFiles w db.files scope changed) scope
        (t.classify w db.files scope changed)).2) := by
    intro hp
    rcases mem_replan_source hp with hp | hp | hp
    · exact hcand (mem_candidates_of_contentChanged hp)
    · rcases (mem_classify_removed.mp hp).2 with hp | hp
      · exact hp hscope
      · exact hchanged hp.1
    · exact hdep hp
  rw [not_or] at hreplan
  have happlied : (t.appliedFiles w db.files scope extractorFiles changed).lookup p
      = db.files.lookup p := by
    simp only [appliedFiles, classifiedFiles]
    rw [FileTable.lookup_writeAll_of_notMem, FileTable.lookup_writeAll_of_notMem,
      FileTable.lookup_writeAll_of_notMem]
    · rw [map_fst_mtimeWrites, mem_map_fst]
      rintro ⟨x, hx⟩
      exact hcand (List.mem_filter.mp (mem_select_map.mp hx).1).1
    · rw [map_fst_removeWrites]
      exact hreplan.2
    · rw [map_fst_mtimeWrites, mem_map_fst]
      rintro ⟨x, hx⟩
      rcases mem_plan_mtimeOnly hx with hx | hx
      · exact hcand (List.mem_filter.mp (mem_select_map.mp hx).1).1
      · exact hreplan.1 hx
  rw [updateChanged_unlisted h hreplan.1 fun hp => absurd hp hext]
  exact happlied

theorem not_parseable_of_read {v : FileView} (h : v.read = none) : t.parseable v p = false := by
  refine Bool.eq_false_iff.mpr fun hp => ?_
  obtain ⟨b, hb⟩ := exists_read_of_parseable hp
  rw [h] at hb
  cases hb

theorem mem_removed_of_dependent {d : FileTable} (hs : w.Steady p v)
    (hign : (w .ignorePatterns).ignored p = false) (hpar : t.parseable v p = false)
    (hdep : p ∈ t.findDependents (t.classify w d scope changed).roots)
    (hindexed : p ∈ (t.classifiedFiles w d scope changed).paths) :
    p ∈ (t.updatePlan w d scope extractorFiles changed).removed := by
  refine mem_replan_snd_of_dependent hdep hign ?_ hindexed
  rw [hs .refilter .read]
  exact hpar

theorem touched_of_mem_extractorFiles {d : FileTable} (hs : w.Steady p v)
    (hb : v.read = some b) (hm : v.mtime = some m) (hext : p ∈ extractorFiles) :
    t.Touched w d scope extractorFiles changed p := by
  by_cases hc : p ∈ (t.classify w d scope changed).contentChanged
  · exact touched_of_mem_candidates hs hb hm (mem_candidates_of_contentChanged hc)
  · refine .inr ?_
    simp only [updatePlan, mem_plan_rustFull, mem_plan_unowned]
    cases ho : t.owns (w.at .plan .owns p) p with
    | true => exact .inl (.inl (.inl ⟨⟨hext, hc⟩, rfl⟩))
    | false => exact .inr (.inl ⟨⟨hext, hc⟩, rfl⟩)

theorem mtime_of_dependent {d : FileTable} {row : FileRow} (hs : w.Steady p v)
    (hb : v.read = some b) (hm : v.mtime = some m) (hscope : p ∈ scope)
    (hign : (w .ignorePatterns).ignored p = false) (hpar : t.parseable v p = true)
    (hdep : p ∈ t.findDependents (t.classify w d scope changed).roots)
    (hrow : (t.classifiedFiles w d scope changed).lookup p = some row)
    (hun : ¬t.Touched w d scope extractorFiles changed p) : v.mtime = some row.mtimeNs := by
  have hext : p ∉ extractorFiles := fun hp =>
    hun (touched_of_mem_extractorFiles hs hb hm hp)
  have hre : p ∈ (t.replan w (t.classifiedFiles w d scope changed) scope
      (t.classify w d scope changed)).1 := by
    refine mem_replan_fst_of_dependent hdep hign ?_ hscope
    rw [hs .refilter .read]
    exact hpar
  simp only [Touched, not_or] at hun
  obtain ⟨⟨-, hmtime⟩, ⟨⟨-, hforced⟩, hchecked⟩, hunowned⟩ := hun
  simp only [updatePlan] at hmtime hforced hchecked hunowned
  rw [mem_plan_rustForced, hs .plan .owns] at hforced
  rw [mem_plan_rustChecked, hs .plan .owns, hs .plan .stat, hrow] at hchecked
  rw [mem_plan_unowned, hs .plan .owns, hs .plan .stat, hs .plan .read, hrow] at hunowned
  cases ho : t.owns v p with
  | true =>
      -- Only a matching mtime keeps an owned candidate out of the checked files.
      by_contra hne
      have hrust := fun hp => hforced ⟨⟨⟨hre, fun h => absurd h hext⟩, ho⟩, hp⟩
      refine hchecked ⟨⟨⟨hre, fun h => absurd h hext⟩, ho⟩, hrust, ?_⟩
      simpa [mtimeMatches] using hne
  | false =>
      cases hstate : t.contentState v v (some row)
          (p ∉ (t.classify w d scope changed).contentChanged) with
      | changed => exact absurd (.inr ⟨⟨⟨hre, fun h => absurd h hext⟩, ho⟩, hstate⟩) hunowned
      | unchanged =>
          simp only [contentState, hm, hb] at hstate
          split at hstate
          · rename_i htrust
            simp only [Option.any_some, Bool.and_eq_true, decide_eq_true_eq] at htrust
            rw [hm, htrust.2]
          · split at hstate <;> cases hstate
      | mtimeOnly x =>
          refine absurd (mem_map_fst.mpr ⟨x, mem_plan_mtimeOnly_of_state hre hext ?_ ?_⟩) hmtime
          · rw [hs .plan .owns]
            exact ho
          · rw [hs .plan .stat, hs .plan .read, hrow]
            exact hstate

theorem error_of_mem_extractorFiles (hs : w.Steady p v) (hread : v.read = none)
    (h : t.updateChanged w fails db scope extractorFiles changed = .ok (db', report, parsed))
    (hext : p ∈ extractorFiles) : report.errors ≠ [] := by
  have hc : p ∉ (t.classify w db.files scope changed).contentChanged := by
    intro hp
    have hpar := (mem_filterCandidates_fst.mp (mem_candidates_of_contentChanged hp)).2.2.1
    rw [hs .filter .read, not_parseable_of_read hread] at hpar
    cases hpar
  have hread' : (w.at .parse .read p).read = none := by rw [hs .parse .read]; exact hread
  have hmem : p ∈ (t.updatePlan w db.files scope extractorFiles changed).rustFull ∨
      p ∈ (t.updatePlan w db.files scope extractorFiles changed).unowned := by
    simp only [updatePlan, mem_plan_rustFull, mem_plan_unowned]
    cases ho : t.owns (w.at .plan .owns p) p with
    | true => exact .inl ⟨⟨hext, hc⟩, rfl⟩
    | false => exact .inr (.inl ⟨⟨hext, hc⟩, rfl⟩)
  rcases updateChanged_ok h with ⟨hcount, -, -, -⟩ | ⟨errors, hparse, -, he⟩
  · simp only [Plan.parseCount, Nat.add_eq_zero_iff, List.length_eq_zero_iff] at hcount
    rw [hcount.1.1.1, hcount.2] at hmem
    simp at hmem
  · rw [he]
    refine List.append_ne_nil_of_right_ne_nil _ ?_
    obtain ⟨-, rfl⟩ := parsePlanned_ok hparse
    have hmsg : (p, (w.at .parse .read p).ioError) ∈
        select Parsed.message ((t.updatePlan w db.files scope extractorFiles changed).rustFull.map
          fun p => (p, t.collectRustOwnedFile w p)) ∨
        (p, (w.at .parse .read p).ioError) ∈
        select Parsed.message ((t.updatePlan w db.files scope extractorFiles changed).unowned.map
          fun p => (p, t.collectUnownedFile w p)) := by
      rcases hmem with hp | hp
      · exact .inl (mem_select_map.mpr
          ⟨hp, by simp only [collectRustOwnedFile, hread', Parsed.message]⟩)
      · exact .inr (mem_select_map.mpr
          ⟨hp, by simp only [collectUnownedFile, hread', Parsed.message]⟩)
    refine List.ne_nil_of_mem (a := (p, (w.at .parse .read p).ioError)) ?_
    simp only [List.flatMap_cons, List.flatMap_nil, List.append_nil, List.mem_append]
    rcases hmsg with hp | hp
    · exact .inl hp
    · exact .inr (.inr (.inr hp))

theorem updateChanged_unparsed (hs : w.Steady p v)
    (h : t.updateChanged w fails db scope extractorFiles changed = .ok (db', report, parsed))
    (hpar : t.parseable v p = false) (hext : p ∉ extractorFiles) :
    db'.files.lookup p = (t.appliedFiles w db.files scope extractorFiles changed).lookup p := by
  have hreplan : p ∉ (t.replan w (t.classifiedFiles w db.files scope changed) scope
      (t.classify w db.files scope changed)).1 := by
    intro hp
    rcases (mem_replan_fst hp).2 with hp | hp
    · have hp' := (mem_filterCandidates_fst.mp (mem_candidates_of_contentChanged hp)).2.2.1
      rw [hs .filter .read, hpar] at hp'
      cases hp'
    · rw [hs .refilter .read, hpar] at hp
      cases hp
  exact updateChanged_unlisted h hreplan fun hp => absurd hp hext

/-- After an update without errors, a path it had a reason to look into and still stores
has the stored mtime. -/
theorem mtime_of_lookedAt {row : FileRow} (hs : w.Steady p v)
    (h : t.updateChanged w fails db scope extractorFiles changed = .ok (db', report, parsed))
    (herr : report.errors = []) (hsub : ∀ q ∈ extractorFiles, q ∈ scope) (hscope : p ∈ scope)
    (hign : (w .ignorePatterns).ignored p = false)
    (hrow : db'.files.lookup p = some row)
    (hlook : p ∈ changed ∨ p ∈ extractorFiles ∨
      p ∈ t.findDependents (t.classify w db.files scope changed).roots) :
    v.mtime = some row.mtimeNs := by
  cases hb : v.read with
  | none =>
      have hpar : t.parseable v p = false := not_parseable_of_read hb
      have hext : p ∉ extractorFiles := fun hp => error_of_mem_extractorFiles hs hb h hp herr
      have hnone : db'.files.lookup p = none := by
        rcases hlook with hp | hp | hp
        · exact updateChanged_gone hs h hsub (.inr ⟨hp, hign, hpar⟩) fun _ _ => hb
        · exact absurd hp hext
        · rw [updateChanged_unparsed hs h hpar hext]
          by_cases hindexed : p ∈ (t.classifiedFiles w db.files scope changed).paths
          · exact appliedFiles_of_removed (mem_removed_of_dependent hs hign hpar hp hindexed)
          · rw [FileTable.mem_paths, ← Option.isSome_iff_exists] at hindexed
            exact appliedFiles_of_none (Option.not_isSome_iff_eq_none.mp hindexed)
      rw [hnone] at hrow
      cases hrow
  | some b =>
      obtain ⟨m, hm⟩ := FileView.exists_mtime_of_read hb
      by_cases hr : p ∈ (t.updatePlan w db.files scope extractorFiles changed).removed
      · -- The rows were removed: a full re-parse brought them back.
        have hnone := appliedFiles_of_removed hr
        rcases updateChanged_ok h with ⟨-, rfl, -, -⟩ | ⟨errors, hparse, -, -⟩
        · rw [hnone] at hrow
          cases hrow
        · have htouch := touches_parsePlanned hs hb hm hparse
            (fun e he => (mem_classify_cached hs hb hm (Plan.cachedEntry_mem he)).1)
            (fun ho => ownsSource_of_owns (owns_of_mem_plan hs ho) hb)
          by_contra hne
          rw [htouch.same fun ht => hne (hm.trans (by rw [(htouch.current ht).2 row hrow])), hnone]
            at hrow
          cases hrow
      · have htouch := updateChanged_touches hs hb hm h hr
        by_cases ht : t.Touched w db.files scope extractorFiles changed p
        · rw [hm, (htouch.current ht).2 row hrow]
        · have hsame : db.files.lookup p = some row := (htouch.same ht).symm.trans hrow
          have hclass : (t.classifiedFiles w db.files scope changed).lookup p = some row := by
            rw [← hsame]
            exact (touches_classifiedFiles hs hb hm db.files scope changed).same
              fun hp => ht (.inl (.inl hp))
          cases hpar : t.parseable v p with
          | true =>
              rcases hlook with hp | hp | hp
              · have hcand := mem_filterCandidates_fst.mpr ⟨hp, hign,
                  (show t.parseable (w.at .filter .read p) p = true by
                    rw [hs .filter .read]; exact hpar), hscope⟩
                exact absurd (touched_of_mem_candidates hs hb hm hcand) ht
              · exact absurd (touched_of_mem_extractorFiles hs hb hm hp) ht
              · exact mtime_of_dependent hs hb hm hscope hign hpar hp hclass ht
          | false =>
              rcases hlook with hp | hp | hp
              · refine absurd (mem_replan_snd_of_removed (mem_classify_removed.mpr ⟨?_, ?_⟩)) hr
                · exact FileTable.mem_paths.mpr ⟨row, hsame⟩
                · exact .inr ⟨hp, hign, by rw [hs .filter .read]; exact hpar⟩
              · exact absurd (touched_of_mem_extractorFiles hs hb hm hp) ht
              · exact absurd (mem_removed_of_dependent hs hign hpar hp
                  (FileTable.mem_paths.mpr ⟨row, hclass⟩)) hr

end Update

end Toolchain

end Dagayn
