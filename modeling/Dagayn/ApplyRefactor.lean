import Dagayn.Distinct
import Dagayn.DiffHunks
import Dagayn.RenameEdit
import Dagayn.Utf8
import Mathlib

/-!
# Applying a rename

`apply_refactor`: the edits of a pending preview are grouped by the file as they spell
it, each group is planned against the file as it was read, and the plans are written one
after the other. `verdicts` says edit by edit what becomes of it, with a text of its own
for each spelling; the groups come to the same (`planned_spec`).
-/

namespace Dagayn

namespace ApplyRefactor

abbrev Bytes := List UInt8

/-- What a call finds outside: the root it applies under, how paths resolve, which files
can be read, and which previews are too old. -/
structure Host where
  root : Option String → Option (Except String String)
  realpath : String → Option String
  readable : String → Bool
  /-- At `cleanup_expired`. -/
  stale : Float → Bool
  /-- When the preview is looked at. -/
  expired : Float → Bool

/-- The regular files, by resolved path. -/
abbrev Disk := String → Option Bytes

structure State where
  disk : Disk
  /-- The pending previews, with the value their text reads as. -/
  pending : List (String × Option Json)

/-- How a write ends; one that fails leaves the file in some state. -/
inductive WriteResult where
  | ok
  | failed (left : Option Bytes)
deriving DecidableEq

/-- An edit with its resolved path. -/
structure Target where
  edit : Edit
  path : String

structure Group where
  file : String
  path : String
  edits : List Edit

structure Planned where
  file : String
  path : String
  original : List Char
  content : List Char
  count : Nat

/-! ## The pending store -/

/-- `pending::get`. -/
def getPending (pending : List (String × Option Json)) (id : String) : Option (Option Json) :=
  pending.lookup id

/-- `pending::remove`. -/
def removePending (pending : List (String × Option Json)) (id : String) :
    List (String × Option Json) :=
  pending.eraseP fun entry => entry.1 == id

def cleanupExpired (host : Host) (pending : List (String × Option Json)) :
    List (String × Option Json) :=
  pending.filter fun entry =>
    let created := entry.2.bind fun preview => (preview.get "created_at").bind Json.asFloat
    created.all fun created => !host.stale created

/-! ## Before any read -/

def error (message : String) : Json := .obj [("status", .str "error"), ("error", .str message)]

def resolve (host : Host) (root file : String) : Option String :=
  host.realpath (if file.startsWith "/" then file else root ++ "/" ++ file)

def components (path : String) : List (List Char) :=
  (path.toList.splitOn '/').filter fun c => !c.isEmpty

/-- `Path::starts_with`. -/
def isUnder (root path : String) : Bool := (components root).isPrefixOf (components path)

/-- `_validate_edit_paths`: every path inside the root. -/
def resolveAll (host : Host) (root : String) : List Edit → Option (Except String (List Target))
  | [] => some (.ok [])
  | e :: es =>
      match resolve host root e.file with
      | none => none
      | some path =>
          if !isUnder root path then
            some (.error ("Edit path '" ++ e.file ++ "' is outside repo root."))
          else
            (resolveAll host root es).map fun rest => rest.map ({ edit := e, path := path } :: ·)

def emptyReply (dryRun : Bool) : Json :=
  if dryRun then
    .obj [("status", .str "ok"), ("dry_run", .bool true), ("applied", .int 0),
      ("files_modified", .arr []), ("edits_applied", .int 0), ("would_modify", .arr []),
      ("diffs", .obj [])]
  else
    .obj [("status", .str "ok"), ("applied", .int 0), ("files_modified", .arr []),
      ("edits_applied", .int 0)]

/-- What is left to do once the preview has been looked up. -/
inductive Prepared where
  /-- Left to the Python implementation. -/
  | fallback
  | reply (payload : Json)
  | edits (id : String) (dryRun : Bool) (targets : List Target)

def previewEdits (preview : Json) : Option (List Edit) :=
  match preview.get "edits" with
  | none => some []
  | some .null => some []
  | some (.arr items) => items.mapM Edit.parse
  | some _ => none

/-- The part of `apply_refactor` in front of the plans. -/
def prepare (host : Host) (arguments : List (String × Json)) (s : State) : State × Prepared :=
  let declared := ["refactor_id", "repo_root", "dry_run"]
  let parsed : Option (String × Bool × Except String String) := do
    guard (arguments.all fun entry => declared.contains entry.1)
    let id ← (arguments.lookup "refactor_id").bind Json.asStr
    let dryRun ← match arguments.lookup "dry_run" with
      | none => some false
      | some (.bool flag) => some flag
      | some _ => none
    let requested ← match arguments.lookup "repo_root" with
      | none => some none
      | some .null => some none
      | some (.str value) => some (some value)
      | some _ => none
    let root ← host.root requested
    some (id, dryRun, root)
  match parsed with
  | none => (s, .fallback)
  | some (_, _, .error message) => (s, .reply (error message))
  | some (id, dryRun, .ok root) =>
      let s := { s with pending := cleanupExpired host s.pending }
      match getPending s.pending id with
      | none => (s, .reply (error ("Refactor '" ++ id ++ "' not found or expired.")))
      | some none => (s, .fallback)
      | some (some preview) =>
          match (preview.get "created_at").bind Json.asFloat with
          | none => (s, .fallback)
          | some created =>
              if host.expired created then
                ({ s with pending := removePending s.pending id },
                  .reply (error ("Refactor '" ++ id ++ "' has expired.")))
              else
                match previewEdits preview with
                | none => (s, .fallback)
                | some [] => (s, .reply (emptyReply dryRun))
                | some (e :: es) =>
                    match resolveAll host root (e :: es) with
                    | none => (s, .fallback)
                    | some (.error message) => (s, .reply (error message))
                    | some (.ok targets) => (s, .edits id dryRun targets)

/-! ## The plans -/

/-- The edit joins the group of its file, or starts one behind the others. -/
def addToGroups (t : Target) : List Group → List Group
  | [] => [{ file := t.edit.file, path := t.path, edits := [t.edit] }]
  | g :: gs =>
      if g.file = t.edit.file then { g with edits := g.edits ++ [t.edit] } :: gs
      else g :: addToGroups t gs

def groupEdits (targets : List Target) : List Group :=
  targets.foldl (fun groups t => addToGroups t groups) []

/-- The edits of a group in turn: the content, how many were applied, and the reports on
the others. -/
def applyGroup : List Char → List Edit → List Char × Nat × List Json
  | content, [] => (content, 0, [])
  | content, e :: es =>
      match applyEdit content e with
      | .ok next =>
          let (content, count, skipped) := applyGroup next es
          (content, count + 1, skipped)
      | .error reason =>
          let (content, count, skipped) := applyGroup content es
          (content, count, e.skipped reason :: skipped)

def readText (host : Host) (disk : Disk) (path : String) : Except String (List Char) :=
  match disk path with
  | none => .error "file_not_found"
  | some bytes =>
      if host.readable path then .ok (fromUtf8Lossy bytes) else .error "file_unreadable"

def planGroup (host : Host) (disk : Disk) (g : Group) : Option Planned × List Json :=
  match readText host disk g.path with
  | .error reason => (none, g.edits.map (·.skipped reason))
  | .ok original =>
      let (content, count, skipped) := applyGroup original g.edits
      (if 0 < count then
        some { file := g.file, path := g.path, original := original, content := content,
               count := count } else none,
        skipped)

def planEdits (host : Host) (disk : Disk) (targets : List Target) :
    List Planned × List Json :=
  let results := (groupEdits targets).map (planGroup host disk)
  (results.filterMap Prod.fst, results.flatMap Prod.snd)

/-! ## Writing -/

/-- `_write_planned_edits`, from the `k`-th write on: the files, how many edits were
applied and which files modified. -/
def writePlanned (writes : Nat → WriteResult) : Nat → List Planned → Disk × Nat × List String →
    Disk × Nat × List String
  | _, [], acc => acc
  | k, plan :: plans, (disk, applied, modified) =>
      match writes k with
      | .ok =>
          writePlanned writes (k + 1) plans
            (Function.update disk plan.path (some (utf8 plan.content)), applied + plan.count,
              if modified.contains plan.path then modified else modified ++ [plan.path])
      | .failed left =>
          writePlanned writes (k + 1) plans (Function.update disk plan.path left, applied, modified)

def sortedStrings (names : List String) : Json :=
  .arr ((names.mergeSort (· ≤ ·)).map .str)

def dryReply (status : String) (planned : List Planned) (skipped : List Json) : Json :=
  let diff := fun plan : Planned =>
    String.ofList (Difflib.unifiedDiff (Difflib.splitlines plan.original)
      (Difflib.splitlines plan.content) ("a/" ++ plan.file).toList ("b/" ++ plan.file).toList 3)
  .obj [("status", .str status), ("dry_run", .bool true), ("applied", .int 0),
    ("edits_applied", .int (planned.map (·.count)).sum), ("edits_skipped", .int skipped.length),
    ("skipped", .arr skipped), ("would_modify", sortedStrings (planned.map (·.file))),
    ("files_modified", .arr []), ("diffs", .obj (planned.map fun p => (p.file, .str (diff p))))]

def doneReply (status : String) (applied : Nat) (modified : List String) (skipped : List Json) :
    Json :=
  .obj [("status", .str status), ("applied", .int applied),
    ("files_modified", sortedStrings modified), ("edits_applied", .int applied),
    ("edits_skipped", .int skipped.length), ("skipped", .arr skipped)]

def applyRefactor (host : Host) (writes : Nat → WriteResult) (arguments : List (String × Json))
    (s : State) : State × Option Json :=
  match prepare host arguments s with
  | (s, .fallback) => (s, none)
  | (s, .reply payload) => (s, some payload)
  | (s, .edits id dryRun targets) =>
      let (planned, skipped) := planEdits host s.disk targets
      let status := if skipped.isEmpty then "ok" else "partial"
      if dryRun then (s, some (dryReply status planned skipped))
      else
        let (disk, applied, modified) := writePlanned writes 0 planned (s.disk, 0, [])
        ({ disk := disk, pending := removePending s.pending id },
          some (doneReply status applied modified skipped))

/-! ## What becomes of the edits -/

/-- The reason an edit is skipped for, or `none`, and the text behind it. -/
def verdict (text : Except String (List Char)) (e : Edit) :
    Option String × Except String (List Char) :=
  match text with
  | .error reason => (some reason, .error reason)
  | .ok text =>
      match applyEdit text e with
      | .ok next => (none, .ok next)
      | .error reason => (some reason, .ok text)

/-- Edit by edit, in the order of the preview. Each spelling of a file has a text of its
own, which its edits change. -/
def verdicts (texts : String → Except String (List Char)) :
    List Target → List (Target × Option String)
  | [] => []
  | t :: ts =>
      let v := verdict (texts t.edit.file) t.edit
      (t, v.1) :: verdicts (Function.update texts t.edit.file v.2) ts

def textsOf (host : Host) (disk : Disk) (targets : List Target) :
    String → Except String (List Char) := fun file =>
  match targets.find? fun t => t.edit.file == file with
  | some t => readText host disk t.path
  | none => .error "file_not_found"

def verdictsOf (host : Host) (disk : Disk) (targets : List Target) :
    List (Target × Option String) :=
  verdicts (textsOf host disk targets) targets

/-- The edits of a resolved file that are not skipped, in the order of the preview. -/
def keptFor (vs : List (Target × Option String)) (path : String) : List Edit :=
  (vs.filter fun v => v.2.isNone && v.1.path == path).map (·.1.edit)

/-- Edits applied in order, none of them skipped. -/
def replay (text : List Char) : List Edit → Option (List Char)
  | [] => some text
  | e :: es =>
      match applyEdit text e with
      | .ok next => replay next es
      | .error _ => none

def textOf (disk : Disk) (path : String) : Option (List Char) := (disk path).map fromUtf8Lossy

def Resolved (resolve : String → Option String) (targets : List Target) : Prop :=
  ∀ t ∈ targets, resolve t.edit.file = some t.path

/-! ## Groups are spellings -/

def editsOf (targets : List Target) (file : String) : List Edit :=
  (targets.filter fun t => t.edit.file == file).map (·.edit)

/-- One group for each spelling, with its edits in order. -/
structure GroupsInv (resolve : String → Option String) (targets : List Target)
    (groups : List Group) : Prop where
  nodup : (groups.map (·.file)).Nodup
  edits : ∀ g ∈ groups, g.edits = editsOf targets g.file ∧ resolve g.file = some g.path
  files : ∀ file, file ∈ groups.map (·.file) ↔ ∃ t ∈ targets, t.edit.file = file

theorem addToGroups_files (t : Target) (groups : List Group) :
    (addToGroups t groups).map (·.file) =
      if t.edit.file ∈ groups.map (·.file) then groups.map (·.file)
      else groups.map (·.file) ++ [t.edit.file] := by
  induction groups with
  | nil => simp [addToGroups]
  | cons g gs ih =>
      rw [addToGroups]
      by_cases hg : g.file = t.edit.file
      · simp [hg]
      · rw [if_neg hg, List.map_cons, ih]
        have hne : t.edit.file ≠ g.file := Ne.symm hg
        by_cases hmem : t.edit.file ∈ gs.map (·.file)
        · rw [if_pos hmem, if_pos (by simp [hmem])]
          rfl
        · rw [if_neg hmem, if_neg (by simpa [hne] using hmem)]
          rfl

theorem mem_addToGroups {t : Target} {groups : List Group} {g : Group}
    (h : g ∈ addToGroups t groups) (hnodup : (groups.map (·.file)).Nodup) :
    (g ∈ groups ∧ g.file ≠ t.edit.file) ∨
      (∃ g' ∈ groups, g'.file = t.edit.file ∧ g = { g' with edits := g'.edits ++ [t.edit] }) ∨
      (t.edit.file ∉ groups.map (·.file) ∧
        g = { file := t.edit.file, path := t.path, edits := [t.edit] }) := by
  induction groups with
  | nil => exact .inr (.inr ⟨by simp, List.mem_singleton.mp h⟩)
  | cons g' gs ih =>
      obtain ⟨hnot, hrest⟩ := List.nodup_cons.mp hnodup
      rw [addToGroups] at h
      by_cases hg : g'.file = t.edit.file
      · rw [if_pos hg] at h
        rcases List.mem_cons.mp h with rfl | h
        · exact .inr (.inl ⟨g', List.mem_cons_self, hg, rfl⟩)
        · refine .inl ⟨List.mem_cons_of_mem _ h, fun heq => hnot ?_⟩
          exact List.mem_map.mpr ⟨g, h, heq.trans hg.symm⟩
      · rw [if_neg hg] at h
        rcases List.mem_cons.mp h with rfl | h
        · exact .inl ⟨List.mem_cons_self, hg⟩
        · rcases ih h hrest with ⟨hmem, hne⟩ | ⟨g₀, hmem, hfile, rfl⟩ | ⟨hno, rfl⟩
          · exact .inl ⟨List.mem_cons_of_mem _ hmem, hne⟩
          · exact .inr (.inl ⟨g₀, List.mem_cons_of_mem _ hmem, hfile, rfl⟩)
          · exact .inr (.inr ⟨by simpa [Ne.symm hg] using hno, rfl⟩)

theorem editsOf_append (targets : List Target) (t : Target) (file : String) :
    editsOf (targets ++ [t]) file =
      editsOf targets file ++ if t.edit.file = file then [t.edit] else [] := by
  unfold editsOf
  rw [List.filter_append, List.map_append]
  congr 1
  by_cases h : t.edit.file = file <;> simp [h]

theorem editsOf_eq_nil {targets : List Target} {file : String}
    (h : ¬ ∃ t ∈ targets, t.edit.file = file) : editsOf targets file = [] := by
  unfold editsOf
  rw [List.map_eq_nil_iff, List.filter_eq_nil_iff]
  intro t ht heq
  exact h ⟨t, ht, by simpa using heq⟩

theorem groupsInv_add {resolve : String → Option String} {targets : List Target}
    {groups : List Group} {t : Target} (h : GroupsInv resolve targets groups)
    (ht : resolve t.edit.file = some t.path) :
    GroupsInv resolve (targets ++ [t]) (addToGroups t groups) := by
  refine ⟨?_, fun g hg => ?_, fun file => ?_⟩
  · rw [addToGroups_files]
    split
    · exact h.nodup
    · rename_i hno
      exact List.nodup_append.mpr ⟨h.nodup, List.nodup_singleton _, fun a ha b hb hab =>
        hno (by rw [← List.mem_singleton.mp hb, ← hab]; exact ha)⟩
  · rw [editsOf_append]
    rcases mem_addToGroups hg h.nodup with ⟨hmem, hne⟩ | ⟨g', hmem, hfile, rfl⟩ | ⟨hno, rfl⟩
    · rw [if_neg (Ne.symm hne), List.append_nil]
      exact h.edits g hmem
    · obtain ⟨hedits, hpath⟩ := h.edits g' hmem
      rw [if_pos hfile.symm, hedits]
      exact ⟨rfl, hpath⟩
    · rw [if_pos rfl, editsOf_eq_nil fun hex => hno ((h.files _).mpr hex)]
      exact ⟨rfl, ht⟩
  · rw [addToGroups_files]
    have hfiles := h.files file
    split
    · rename_i hin
      rw [hfiles]
      constructor
      · rintro ⟨u, hu, hfile⟩
        exact ⟨u, List.mem_append_left _ hu, hfile⟩
      · rintro ⟨u, hu, hfile⟩
        rcases List.mem_append.mp hu with hu | hu
        · exact ⟨u, hu, hfile⟩
        · rw [List.mem_singleton.mp hu] at hfile
          exact hfiles.mp (hfile ▸ hin)
    · rw [List.mem_append, hfiles, List.mem_singleton]
      constructor
      · rintro (⟨u, hu, hfile⟩ | rfl)
        · exact ⟨u, List.mem_append_left _ hu, hfile⟩
        · exact ⟨t, List.mem_append_right _ (List.mem_singleton_self t), rfl⟩
      · rintro ⟨u, hu, hfile⟩
        rcases List.mem_append.mp hu with hu | hu
        · exact .inl ⟨u, hu, hfile⟩
        · rw [List.mem_singleton.mp hu] at hfile
          exact .inr hfile.symm

theorem groupsInv_groupEdits {resolve : String → Option String} {targets : List Target}
    (h : Resolved resolve targets) : GroupsInv resolve targets (groupEdits targets) := by
  induction targets using List.reverseRecOn with
  | nil => exact ⟨List.nodup_nil, by simp [groupEdits], by simp [groupEdits]⟩
  | append_singleton targets t ih =>
      have hrest := ih fun u hu => h u (List.mem_append_left _ hu)
      rw [groupEdits, List.foldl_append]
      exact groupsInv_add hrest (h t (List.mem_append_right _ (List.mem_singleton_self t)))

/-! ## A group's plan and the verdicts -/

def verdictsFor (vs : List (Target × Option String)) (file : String) :
    List (Target × Option String) :=
  vs.filter fun v => v.1.edit.file == file

def reports (vs : List (Target × Option String)) : List Json :=
  vs.filterMap fun v => v.2.map v.1.edit.skipped

def kept (vs : List (Target × Option String)) : List Edit :=
  (vs.filter fun v => v.2.isNone).map (·.1.edit)

def groupVerdicts : Except String (List Char) → List Target → List (Target × Option String)
  | _, [] => []
  | text, t :: ts =>
      let v := verdict text t.edit
      (t, v.1) :: groupVerdicts v.2 ts

theorem verdictsFor_verdicts (texts : String → Except String (List Char)) (file : String)
    (targets : List Target) :
    verdictsFor (verdicts texts targets) file =
      groupVerdicts (texts file) (targets.filter fun t => t.edit.file == file) := by
  induction targets generalizing texts with
  | nil => rfl
  | cons t ts ih =>
      have ih := ih (Function.update texts t.edit.file (verdict (texts t.edit.file) t.edit).2)
      rw [verdicts, verdictsFor]
      by_cases hfile : t.edit.file = file
      · subst hfile
        rw [Function.update_self] at ih
        rw [List.filter_cons_of_pos (by simp), List.filter_cons_of_pos (by simp), groupVerdicts,
          ← ih]
        rfl
      · rw [Function.update_of_ne (Ne.symm hfile)] at ih
        rw [List.filter_cons_of_neg (by simpa using hfile),
          List.filter_cons_of_neg (by simpa using hfile), ← ih]
        rfl

theorem reports_cons (v : Target × Option String) (vs : List (Target × Option String)) :
    reports (v :: vs) = (v.2.map v.1.edit.skipped).toList ++ reports vs := by
  unfold reports
  rw [List.filterMap_cons]
  cases v.2 <;> rfl

theorem kept_cons (v : Target × Option String) (vs : List (Target × Option String)) :
    kept (v :: vs) = (if v.2.isNone then [v.1.edit] else []) ++ kept vs := by
  unfold kept
  rw [List.filter_cons]
  split <;> rfl

theorem groupVerdicts_error (reason : String) (targets : List Target) :
    reports (groupVerdicts (.error reason) targets) =
        (targets.map (·.edit)).map (·.skipped reason) ∧
      kept (groupVerdicts (.error reason) targets) = [] := by
  induction targets with
  | nil => exact ⟨rfl, rfl⟩
  | cons t ts ih =>
      obtain ⟨hreports, hkept⟩ := ih
      rw [groupVerdicts, reports_cons, kept_cons]
      simp only [verdict]
      rw [hreports, hkept]
      exact ⟨rfl, rfl⟩

theorem applyGroup_verdicts (text : List Char) (targets : List Target) :
    (applyGroup text (targets.map (·.edit))).2.1 =
        (kept (groupVerdicts (.ok text) targets)).length ∧
      (applyGroup text (targets.map (·.edit))).2.2 = reports (groupVerdicts (.ok text) targets) ∧
      replay text (kept (groupVerdicts (.ok text) targets)) =
        some (applyGroup text (targets.map (·.edit))).1 := by
  induction targets generalizing text with
  | nil => exact ⟨rfl, rfl, rfl⟩
  | cons t ts ih =>
      rw [groupVerdicts, kept_cons, reports_cons, List.map_cons, applyGroup]
      cases happly : applyEdit text t.edit with
      | ok next =>
          obtain ⟨hcount, hreports, hreplay⟩ := ih next
          simp only [verdict, happly]
          refine ⟨?_, hreports, ?_⟩
          · rw [hcount]
            simp [Nat.add_comm]
          · simp only [Option.isNone_none, if_true, List.singleton_append, replay, happly]
            exact hreplay
      | error reason =>
          obtain ⟨hcount, hreports, hreplay⟩ := ih text
          simp only [verdict, happly]
          refine ⟨hcount, ?_, hreplay⟩
          rw [hreports]
          rfl

/-- Some edit of a group is applied exactly if some edit applies to the text as read. -/
theorem applyGroup_pos_iff (text : List Char) (es : List Edit) :
    0 < (applyGroup text es).2.1 ↔ ∃ e ∈ es, ∃ next, applyEdit text e = .ok next := by
  induction es with
  | nil => simp [applyGroup]
  | cons e es ih =>
      rw [applyGroup]
      cases happly : applyEdit text e with
      | ok next => simp [happly]
      | error reason => simp [happly, ih]

def Applies (text : List Char) (e : Edit) : Prop := ∃ next, applyEdit text e = .ok next

theorem planGroup_eq_some {host : Host} {disk : Disk} {g : Group} {plan : Planned}
    (h : (planGroup host disk g).1 = some plan) :
    plan.file = g.file ∧ plan.path = g.path ∧ ∃ text, readText host disk g.path = .ok text ∧
      plan.content = (applyGroup text g.edits).1 ∧ ∃ e ∈ g.edits, Applies text e := by
  unfold planGroup at h
  cases htext : readText host disk g.path with
  | error reason =>
      rw [htext] at h
      cases h
  | ok text =>
      rw [htext] at h
      simp only at h
      split at h
      · rename_i hpos
        cases h
        exact ⟨rfl, rfl, text, rfl, rfl, (applyGroup_pos_iff text g.edits).mp hpos⟩
      · cases h

theorem exists_plan {host : Host} {disk : Disk} {g : Group} {text : List Char} {e : Edit}
    (htext : readText host disk g.path = .ok text) (he : e ∈ g.edits) (happly : Applies text e) :
    ∃ plan, (planGroup host disk g).1 = some plan := by
  have hpos := (applyGroup_pos_iff text g.edits).mpr ⟨e, he, happly⟩
  unfold planGroup
  rw [htext]
  simp only
  rw [if_pos hpos]
  exact ⟨_, rfl⟩

/-! ## The plans of a call -/

section Call

variable {host : Host} {disk : Disk} {targets : List Target} {resolve : String → Option String}

theorem mem_editsOf {file : String} {e : Edit} :
    e ∈ editsOf targets file ↔ ∃ t ∈ targets, t.edit.file = file ∧ t.edit = e := by
  simp only [editsOf, List.mem_map, List.mem_filter, beq_iff_eq]
  constructor
  · rintro ⟨t, ⟨ht, hfile⟩, heq⟩
    exact ⟨t, ht, hfile, heq⟩
  · rintro ⟨t, ht, hfile, heq⟩
    exact ⟨t, ⟨ht, hfile⟩, heq⟩

theorem mem_planned {plan : Planned} :
    plan ∈ (planEdits host disk targets).1 ↔
      ∃ g ∈ groupEdits targets, (planGroup host disk g).1 = some plan := by
  simp only [planEdits, List.mem_filterMap, List.mem_map]
  constructor
  · rintro ⟨_, ⟨g, hg, rfl⟩, h⟩
    exact ⟨g, hg, h⟩
  · rintro ⟨g, hg, h⟩
    exact ⟨_, ⟨g, hg, rfl⟩, h⟩

theorem path_of_file (hres : Resolved resolve targets) {t : Target} {g : Group}
    (ht : t ∈ targets) (hg : g ∈ groupEdits targets) (hfile : t.edit.file = g.file) :
    t.path = g.path := by
  have hpath := ((groupsInv_groupEdits hres).edits g hg).2
  rw [← hfile, hres t ht] at hpath
  exact Option.some.inj hpath

theorem exists_group (hres : Resolved resolve targets) {t : Target} (ht : t ∈ targets) :
    ∃ g ∈ groupEdits targets, g.file = t.edit.file ∧ g.path = t.path ∧ t.edit ∈ g.edits := by
  have hinv := groupsInv_groupEdits hres
  obtain ⟨g, hg, hfile⟩ := List.mem_map.mp ((hinv.files t.edit.file).mpr ⟨t, ht, rfl⟩)
  refine ⟨g, hg, hfile, (path_of_file hres ht hg hfile.symm).symm, ?_⟩
  rw [(hinv.edits g hg).1]
  exact mem_editsOf.mpr ⟨t, ht, hfile.symm, rfl⟩

theorem textsOf_group (hres : Resolved resolve targets) {g : Group} (hg : g ∈ groupEdits targets) :
    textsOf host disk targets g.file = readText host disk g.path := by
  have hinv := groupsInv_groupEdits hres
  unfold textsOf
  cases hfind : targets.find? fun t => t.edit.file == g.file with
  | none =>
      obtain ⟨t, ht, hfile⟩ := (hinv.files g.file).mp (List.mem_map_of_mem hg)
      exact absurd (by simpa using hfile) (List.find?_eq_none.mp hfind t ht)
  | some t =>
      have hfile : t.edit.file = g.file := by simpa using List.find?_some hfind
      simp only
      rw [path_of_file hres (List.mem_of_find?_eq_some hfind) hg hfile]

theorem verdictsFor_group (hres : Resolved resolve targets) {g : Group}
    (hg : g ∈ groupEdits targets) :
    verdictsFor (verdictsOf host disk targets) g.file =
      groupVerdicts (readText host disk g.path)
        (targets.filter fun t => t.edit.file == g.file) := by
  rw [verdictsOf, verdictsFor_verdicts, textsOf_group hres hg]

theorem replay_of_plan (hres : Resolved resolve targets) {g : Group} {plan : Planned}
    (hg : g ∈ groupEdits targets) (hplan : (planGroup host disk g).1 = some plan) :
    ∃ text, readText host disk plan.path = .ok text ∧
      replay text (kept (verdictsFor (verdictsOf host disk targets) plan.file)) =
        some plan.content := by
  obtain ⟨hfile, hpath, text, htext, hcontent, -⟩ := planGroup_eq_some hplan
  refine ⟨text, hpath ▸ htext, ?_⟩
  rw [hfile, verdictsFor_group hres hg, htext, hcontent, ((groupsInv_groupEdits hres).edits g hg).1]
  exact (applyGroup_verdicts text _).2.2

theorem map_fst_verdicts (texts : String → Except String (List Char)) (ts : List Target) :
    (verdicts texts ts).map Prod.fst = ts := by
  induction ts generalizing texts with
  | nil => rfl
  | cons t ts ih => rw [verdicts, List.map_cons, ih]

theorem plan_of_kept (hres : Resolved resolve targets) {v : Target × Option String}
    (hv : v ∈ verdictsOf host disk targets) (hkept : v.2 = none) :
    ∃ g ∈ groupEdits targets, ∃ plan, (planGroup host disk g).1 = some plan ∧
      plan.file = v.1.edit.file ∧ plan.path = v.1.path := by
  have ht : v.1 ∈ targets := by
    have := List.mem_map_of_mem (f := Prod.fst) hv
    rwa [verdictsOf, map_fst_verdicts] at this
  obtain ⟨g, hg, hfile, hpath, -⟩ := exists_group hres ht
  have hmem : v.1.edit ∈ kept (verdictsFor (verdictsOf host disk targets) g.file) := by
    refine List.mem_map.mpr ⟨v, List.mem_filter.mpr ⟨List.mem_filter.mpr ⟨hv, ?_⟩, ?_⟩, rfl⟩
    · simp [hfile]
    · simp [hkept]
  rw [verdictsFor_group hres hg] at hmem
  cases htext : readText host disk g.path with
  | error reason =>
      rw [htext, (groupVerdicts_error reason _).2] at hmem
      cases hmem
  | ok text =>
      -- something of the group is kept, so it counts
      rw [htext] at hmem
      have hcount := (applyGroup_verdicts text (targets.filter fun t => t.edit.file == g.file)).1
      have hpos : 0 < (applyGroup text g.edits).2.1 := by
        rw [((groupsInv_groupEdits hres).edits g hg).1, editsOf, hcount]
        exact List.length_pos_of_mem hmem
      obtain ⟨e, he, happly⟩ := (applyGroup_pos_iff text g.edits).mp hpos
      obtain ⟨plan, hplan⟩ := exists_plan htext he happly
      obtain ⟨hf, hp, -⟩ := planGroup_eq_some hplan
      exact ⟨g, hg, plan, hplan, hf.trans hfile, hp.trans hpath⟩

/-- No two edits under different spellings of one file both apply to the file as read. -/
def NoConflict (host : Host) (disk : Disk) (targets : List Target) : Prop :=
  ∀ t ∈ targets, ∀ u ∈ targets, t.path = u.path → t.edit.file ≠ u.edit.file →
    ∀ text, readText host disk t.path = .ok text →
      ¬ (Applies text t.edit ∧ Applies text u.edit)

theorem groups_pairwise (hres : Resolved resolve targets) :
    (groupEdits targets).Pairwise fun g h => g.file ≠ h.file :=
  List.pairwise_map.mp (groupsInv_groupEdits hres).nodup

theorem planned_pairwise_iff (hres : Resolved resolve targets) :
    (planEdits host disk targets).1.Pairwise (fun p q => p.path ≠ q.path) ↔
      NoConflict host disk targets := by
  have hinv := groupsInv_groupEdits hres
  constructor
  · rintro hpair t ht u hu hpath hne text htext ⟨hat, hau⟩
    obtain ⟨g, hg, hgf, hgp, hge⟩ := exists_group hres ht
    obtain ⟨h, hh, hhf, hhp, hhe⟩ := exists_group hres hu
    obtain ⟨p, hp⟩ := exists_plan (g := g) (by rw [hgp]; exact htext) hge hat
    obtain ⟨q, hq⟩ := exists_plan (g := h) (by rw [hhp, ← hpath]; exact htext) hhe hau
    obtain ⟨hpf, hpp, -⟩ := planGroup_eq_some hp
    obtain ⟨hqf, hqp, -⟩ := planGroup_eq_some hq
    have hpq : p ≠ q := by
      rintro rfl
      exact hne (by rw [← hgf, ← hpf, hqf, hhf])
    have hsymm : Std.Symm fun p q : Planned => p.path ≠ q.path := ⟨fun _ _ h => Ne.symm h⟩
    refine hpair.forall (mem_planned.mpr ⟨g, hg, hp⟩) (mem_planned.mpr ⟨h, hh, hq⟩) hpq ?_
    rw [hpp, hqp, hgp, hhp, hpath]
  · intro hno
    refine List.pairwise_filterMap.mpr (List.pairwise_map.mpr ?_)
    refine (groups_pairwise hres).imp_of_mem fun {g h} hg hh hne p hp q hq hpath => ?_
    obtain ⟨-, hpp, text, htext, -, e, he, hae⟩ := planGroup_eq_some hp
    obtain ⟨-, hqp, text', htext', -, e', he', hae'⟩ := planGroup_eq_some hq
    have hsame : g.path = h.path := by rw [← hpp, ← hqp, hpath]
    rw [← hsame, htext] at htext'
    cases htext'
    rw [(hinv.edits g hg).1] at he
    rw [(hinv.edits h hh).1] at he'
    obtain ⟨t, ht, htf, rfl⟩ := mem_editsOf.mp he
    obtain ⟨u, hu, huf, rfl⟩ := mem_editsOf.mp he'
    have htp := path_of_file hres ht hg htf
    have hup := path_of_file hres hu hh huf
    exact hno t ht u hu (by rw [htp, hup, hsame]) (by rw [htf, huf]; exact hne) text
      (by rw [htp]; exact htext) ⟨hae, hae'⟩

/-! ## What is written -/

/-- Without failures, the file of each plan holds its content, and no other file changes. -/
theorem writePlanned_ok {writes : Nat → WriteResult} (hwrites : ∀ k, writes k = .ok) (k : Nat)
    (plans : List Planned) (acc : Disk × Nat × List String)
    (hpair : plans.Pairwise fun p q => p.path ≠ q.path) :
    (∀ p ∈ plans, (writePlanned writes k plans acc).1 p.path = some (utf8 p.content)) ∧
      ∀ path, (∀ p ∈ plans, p.path ≠ path) →
        (writePlanned writes k plans acc).1 path = acc.1 path := by
  induction plans generalizing k acc with
  | nil => exact ⟨by simp, fun path _ => rfl⟩
  | cons p ps ih =>
      obtain ⟨hp, hps⟩ := List.pairwise_cons.mp hpair
      obtain ⟨disk, applied, modified⟩ := acc
      rw [writePlanned, hwrites]
      simp only
      obtain ⟨hmem, hother⟩ := ih (k + 1) (Function.update disk p.path (some (utf8 p.content)),
        applied + p.count, if modified.contains p.path then modified else modified ++ [p.path]) hps
      refine ⟨fun q hq => ?_, fun path hpath => ?_⟩
      · rcases List.mem_cons.mp hq with rfl | hq
        · rw [hother q.path fun r hr => Ne.symm (hp r hr)]
          exact Function.update_self ..
        · exact hmem q hq
      · rw [hother path fun r hr => hpath r (List.mem_cons_of_mem _ hr)]
        exact Function.update_of_ne (Ne.symm (hpath p List.mem_cons_self)) _ _

theorem readText_eq_ok {path : String} {text : List Char}
    (h : readText host disk path = .ok text) : textOf disk path = some text := by
  unfold readText at h
  unfold textOf
  cases hdisk : disk path with
  | none =>
      rw [hdisk] at h
      cases h
  | some bytes =>
      rw [hdisk] at h
      simp only at h
      split at h
      · cases h
        rfl
      · cases h

theorem keptFor_of_plan (hres : Resolved resolve targets)
    (hpair : (planEdits host disk targets).1.Pairwise fun p q => p.path ≠ q.path)
    {plan : Planned} (hplan : plan ∈ (planEdits host disk targets).1) :
    keptFor (verdictsOf host disk targets) plan.path =
      kept (verdictsFor (verdictsOf host disk targets) plan.file) := by
  have hsymm : Std.Symm fun p q : Planned => p.path ≠ q.path := ⟨fun _ _ h => Ne.symm h⟩
  obtain ⟨g, hg, hgplan⟩ := mem_planned.mp hplan
  obtain ⟨hfile, hpath, -⟩ := planGroup_eq_some hgplan
  unfold keptFor kept verdictsFor
  rw [List.filter_filter]
  congr 1
  refine List.filter_congr fun v hv => ?_
  cases hkept : v.2 with
  | some reason => simp
  | none =>
      have ht : v.1 ∈ targets := by
        have := List.mem_map_of_mem (f := Prod.fst) hv
        rwa [verdictsOf, map_fst_verdicts] at this
      have hiff : v.1.path = plan.path ↔ v.1.edit.file = plan.file := by
        constructor
        · intro hvp
          obtain ⟨h, hh, q, hq, hqf, hqp⟩ := plan_of_kept hres hv hkept
          by_contra hne
          have hpq : q ≠ plan := by
            rintro rfl
            exact hne hqf.symm
          exact hpair.forall (mem_planned.mpr ⟨h, hh, hq⟩) hplan hpq (hqp.trans hvp)
        · intro hvf
          rw [path_of_file hres ht hg (hvf.trans hfile), hpath]
      by_cases hvp : v.1.path = plan.path
      · simp [hvp, hiff.mp hvp]
      · simp [hvp, mt hiff.mpr hvp]

/-- The files behind a call hold their texts with all edits that are not skipped, whatever
the spelling, and no plan's file is written by another plan. -/
def KeepsEdits (host : Host) (disk disk' : Disk) (targets : List Target) : Prop :=
  (∀ path, textOf disk' path = (textOf disk path).bind fun text =>
      replay text (keptFor (verdictsOf host disk targets) path)) ∧
    (planEdits host disk targets).1.Pairwise fun p q => p.path ≠ q.path

theorem keepsEdits_iff (hres : Resolved resolve targets) {writes : Nat → WriteResult}
    (hwrites : ∀ k, writes k = .ok) :
    KeepsEdits host disk
        (writePlanned writes 0 (planEdits host disk targets).1 (disk, 0, [])).1 targets ↔
      NoConflict host disk targets := by
  rw [KeepsEdits, ← planned_pairwise_iff hres]
  refine and_iff_right_of_imp fun hpair path => ?_
  obtain ⟨hwritten, hother⟩ := writePlanned_ok hwrites 0 _ (disk, 0, []) hpair
  by_cases hplan : ∃ p ∈ (planEdits host disk targets).1, p.path = path
  · obtain ⟨p, hp, rfl⟩ := hplan
    obtain ⟨g, hg, hgplan⟩ := mem_planned.mp hp
    obtain ⟨text, htext, hreplay⟩ := replay_of_plan hres hg hgplan
    rw [readText_eq_ok htext, Option.bind_some, keptFor_of_plan hres hpair hp, hreplay, textOf,
      hwritten p hp, Option.map_some, fromUtf8Lossy_utf8]
  · -- no plan: nothing is kept, and the file stays
    have hnone : ∀ p ∈ (planEdits host disk targets).1, p.path ≠ path := fun p hp h =>
      hplan ⟨p, hp, h⟩
    have hkept : keptFor (verdictsOf host disk targets) path = [] := by
      unfold keptFor
      rw [List.map_eq_nil_iff, List.filter_eq_nil_iff]
      intro v hv hboth
      rw [Bool.and_eq_true, Option.isNone_iff_eq_none, beq_iff_eq] at hboth
      obtain ⟨g, hg, p, hp, -, hpp⟩ := plan_of_kept hres hv hboth.1
      exact hnone p (mem_planned.mpr ⟨g, hg, hp⟩) (hpp.trans hboth.2)
    have hstay : (writePlanned writes 0 (planEdits host disk targets).1 (disk, 0, [])).1 path =
        disk path := hother path hnone
    rw [hkept, textOf, textOf, hstay]
    cases disk path with
    | none => rfl
    | some bytes => rfl

end Call

/-! ## Whole calls -/

theorem resolveAll_spec {host : Host} {root : String} {es : List Edit} {targets : List Target}
    (h : resolveAll host root es = some (.ok targets)) :
    Resolved (resolve host root) targets ∧ targets.map (·.edit) = es := by
  induction es generalizing targets with
  | nil =>
      cases h
      exact ⟨by simp [Resolved], rfl⟩
  | cons e es ih =>
      rw [resolveAll] at h
      cases hpath : resolve host root e.file with
      | none =>
          rw [hpath] at h
          cases h
      | some path =>
          rw [hpath] at h
          simp only at h
          split at h
          · cases h
          · cases hrest : resolveAll host root es with
            | none =>
                rw [hrest] at h
                cases h
            | some rest =>
                rw [hrest] at h
                cases rest with
                | error message => cases h
                | ok rest =>
                    cases h
                    obtain ⟨hres, hedits⟩ := ih hrest
                    refine ⟨fun t ht => ?_, by rw [List.map_cons, hedits]⟩
                    rcases List.mem_cons.mp ht with rfl | ht
                    · exact hpath
                    · exact hres t ht

theorem prepare_edits {host : Host} {arguments : List (String × Json)} {s s₀ : State} {id : String}
    {dryRun : Bool} {targets : List Target}
    (h : prepare host arguments s = (s₀, .edits id dryRun targets)) :
    (∃ root, Resolved (resolve host root) targets) ∧ targets ≠ [] ∧
      getPending s₀.pending id ≠ none := by
  unfold prepare at h
  simp only at h
  split at h
  · cases (Prod.mk.inj h).2
  · cases (Prod.mk.inj h).2
  · rename_i id' dryRun' root _
    split at h
    · cases (Prod.mk.inj h).2
    · cases (Prod.mk.inj h).2
    · rename_i preview hget
      split at h
      · cases (Prod.mk.inj h).2
      · split at h
        · cases (Prod.mk.inj h).2
        · split at h
          · cases (Prod.mk.inj h).2
          · cases (Prod.mk.inj h).2
          · rename_i e es _
            split at h
            · cases (Prod.mk.inj h).2
            · cases (Prod.mk.inj h).2
            · rename_i ts hall
              obtain ⟨rfl, hprep⟩ := Prod.mk.inj h
              cases hprep
              obtain ⟨hres, hedits⟩ := resolveAll_spec hall
              refine ⟨⟨root, hres⟩, ?_, by rw [hget]; simp⟩
              rintro rfl
              cases hedits

theorem applyRefactor_edits {host : Host} {arguments : List (String × Json)} {s s₀ : State}
    {id : String} {targets : List Target} (writes : Nat → WriteResult)
    (h : prepare host arguments s = (s₀, .edits id false targets)) :
    (applyRefactor host writes arguments s).1.disk =
        (writePlanned writes 0 (planEdits host s₀.disk targets).1 (s₀.disk, 0, [])).1 ∧
      (applyRefactor host writes arguments s).1.pending = removePending s₀.pending id := by
  unfold applyRefactor
  rw [h]
  exact ⟨rfl, rfl⟩

/-- A call whose writes succeed keeps all edits exactly if no two of them are in conflict. -/
theorem applyRefactor_keepsEdits_iff {host : Host} {arguments : List (String × Json)}
    {s s₀ : State} {id : String} {targets : List Target} {writes : Nat → WriteResult}
    (hprep : prepare host arguments s = (s₀, .edits id false targets))
    (hwrites : ∀ k, writes k = .ok) :
    KeepsEdits host s₀.disk (applyRefactor host writes arguments s).1.disk targets ↔
      NoConflict host s₀.disk targets := by
  obtain ⟨⟨root, hres⟩, -, -⟩ := prepare_edits hprep
  rw [(applyRefactor_edits writes hprep).1]
  exact keepsEdits_iff hres hwrites

theorem prepare_of_preview {host : Host} {s : State} {id root : String} {preview : Json}
    {created : Float} {e : Edit} {es : List Edit} {targets : List Target}
    (hroot : host.root none = some (.ok root))
    (hget : getPending (cleanupExpired host s.pending) id = some (some preview))
    (hcreated : (preview.get "created_at").bind Json.asFloat = some created)
    (hfresh : host.expired created = false) (hedits : previewEdits preview = some (e :: es))
    (hall : resolveAll host root (e :: es) = some (.ok targets)) :
    prepare host [("refactor_id", .str id)] s =
      ({ s with pending := cleanupExpired host s.pending }, .edits id false targets) := by
  unfold prepare
  simp [guard, List.lookup, Json.asStr, hroot, hget, hcreated, hfresh, hedits, hall]

/-! ### Two spellings of one file -/

section TwoSpellings

def editJson (file old new : String) : Json :=
  .obj [("file", .str file), ("line", .int 1), ("old", .str old), ("new", .str new)]

/-- `x z` on one line; one edit names the file `a`, the other `./a`. -/
def twoHost : Host where
  root := fun _ => some (.ok "/r")
  realpath := fun path => some (if path = "/r/./a" then "/r/a" else path)
  readable := fun _ => true
  stale := fun _ => false
  expired := fun _ => false

def twoState : State where
  disk := fun path => if path = "/r/a" then some (utf8 ['x', ' ', 'z', '\n']) else none
  pending := [("p", some (.obj [("created_at", .int 0),
    ("edits", .arr [editJson "a" "x" "y", editJson "./a" "z" "w"])]))]

def firstTarget : Target :=
  { edit := { file := "a", line := some 1, old := ['x'], new := ['y'],
              raw := editJson "a" "x" "y" }, path := "/r/a" }

def secondTarget : Target :=
  { edit := { file := "./a", line := some 1, old := ['z'], new := ['w'],
              raw := editJson "./a" "z" "w" }, path := "/r/a" }

theorem prepare_two : prepare twoHost [("refactor_id", .str "p")] twoState =
    (twoState, .edits "p" false [firstTarget, secondTarget]) := by
  have hunder : isUnder "/r" "/r/a" = true := by decide +kernel
  have hfirst : resolve twoHost "/r" "a" = some "/r/a" := by decide +kernel
  have hsecond : resolve twoHost "/r" "./a" = some "/r/a" := by decide +kernel
  have hall : resolveAll twoHost "/r" [firstTarget.edit, secondTarget.edit] =
      some (.ok [firstTarget, secondTarget]) := by
    simp [resolveAll, firstTarget, secondTarget, hfirst, hsecond, hunder, Except.map]
  have hroot : twoHost.root none = some (.ok "/r") := rfl
  exact prepare_of_preview hroot rfl rfl rfl rfl hall

theorem readText_two : readText twoHost twoState.disk "/r/a" = .ok ['x', ' ', 'z', '\n'] := by
  simp [readText, twoHost, twoState, fromUtf8Lossy_utf8]

theorem applies_of_isOk {text : List Char} {e : Edit} (h : (applyEdit text e).isOk = true) :
    Applies text e := by
  cases happly : applyEdit text e with
  | ok next => exact ⟨next, happly⟩
  | error reason =>
      rw [happly] at h
      cases h

/-- Both edits are planned against the file as it was, and the second write takes the first
edit back. -/
theorem twoSpellings_lost : ∃ writes : Nat → WriteResult, (∀ k, writes k = .ok) ∧
    ¬ KeepsEdits twoHost twoState.disk
      (applyRefactor twoHost writes [("refactor_id", .str "p")] twoState).1.disk
      [firstTarget, secondTarget] := by
  refine ⟨fun _ => .ok, fun _ => rfl, fun hkeeps => ?_⟩
  obtain ⟨⟨root, hres⟩, -, -⟩ := prepare_edits prepare_two
  rw [(applyRefactor_edits _ prepare_two).1, keepsEdits_iff hres fun _ => rfl] at hkeeps
  refine hkeeps firstTarget (by simp) secondTarget (by simp) rfl (by decide) _ readText_two ⟨?_, ?_⟩
  · exact applies_of_isOk (by decide +kernel)
  · exact applies_of_isOk (by decide +kernel)

theorem applyRefactor_keepsEdits_two :
    KeepsEdits twoHost twoState.disk
        (applyRefactor twoHost (fun _ => .ok) [("refactor_id", .str "p")] twoState).1.disk
        [firstTarget, secondTarget] ↔
      NoConflict twoHost twoState.disk [firstTarget, secondTarget] :=
  applyRefactor_keepsEdits_iff prepare_two fun _ => rfl

end TwoSpellings

/-! ## Status and removal -/

def Written (writes : Nat → WriteResult) (planned : List Planned)
    (v : Target × Option String) : Prop :=
  v.2 = none ∧ ∃ k plan, planned[k]? = some plan ∧ plan.file = v.1.edit.file ∧ writes k = .ok

def reportedIn (reply : Option Json) : List Json :=
  ((reply.bind (·.get "skipped")).bind Json.asList).getD []

/-- A call says `ok` and drops the preview only if every edit is in its file, and an edit
that is not is reported and can be tried again. -/
def Honest (host : Host) (writes : Nat → WriteResult) (s₀ : State) (targets : List Target)
    (outcome : State × Option Json) : Prop :=
  let vs := verdictsOf host s₀.disk targets
  let planned := (planEdits host s₀.disk targets).1
  (∀ reply, outcome.2 = some reply → reply.getStr "status" = some "ok" →
      ∀ v ∈ vs, Written writes planned v) ∧
    (outcome.1.pending ≠ s₀.pending → ∀ v ∈ vs, Written writes planned v) ∧
    ∀ v ∈ vs, ¬ Written writes planned v → outcome.1.pending = s₀.pending ∧
      ∃ reason, v.1.edit.skipped reason ∈ reportedIn outcome.2

/-- Every edit applies in its turn, and as many writes succeed as there are spellings. -/
def AllApply (host : Host) (writes : Nat → WriteResult) (disk : Disk) (targets : List Target) :
    Prop :=
  (∀ v ∈ verdictsOf host disk targets, v.2 = none) ∧
    ∀ k < (targets.map (·.edit.file)).dedup.length, writes k = .ok

theorem removePending_ne {pending : List (String × Option Json)} {id : String}
    (h : getPending pending id ≠ none) : removePending pending id ≠ pending := by
  have hmem : ∃ entry ∈ pending, (entry.1 == id) = true := by
    by_contra hno
    push Not at hno
    refine h (List.lookup_eq_none_iff.mpr fun entry hentry => ?_)
    have hne : entry.1 ≠ id := fun heq => hno entry hentry (beq_iff_eq.mpr heq)
    simpa using Ne.symm hne
  obtain ⟨entry, hentry, hid⟩ := hmem
  intro heq
  have hlen := congrArg List.length heq
  rw [removePending, List.length_eraseP_of_mem hentry hid] at hlen
  have := List.length_pos_of_mem hentry
  omega

section Counts

variable {host : Host} {disk : Disk} {targets : List Target} {resolve : String → Option String}

theorem length_groupEdits (hres : Resolved resolve targets) :
    (groupEdits targets).length = (targets.map (·.edit.file)).dedup.length := by
  have hinv := groupsInv_groupEdits hres
  have hperm : ((groupEdits targets).map (·.file)).Perm (targets.map (·.edit.file)).dedup := by
    refine (List.perm_ext_iff_of_nodup hinv.nodup (List.nodup_dedup _)).mpr fun file => ?_
    rw [hinv.files, List.mem_dedup, List.mem_map]
  rw [← hperm.length_eq, List.length_map]

theorem length_planned_le :
    (planEdits host disk targets).1.length ≤ (groupEdits targets).length := by
  rw [planEdits]
  refine (List.length_filterMap_le _ _).trans ?_
  rw [List.length_map]

variable (host disk) in
theorem planned_files (hres : Resolved resolve targets) :
    (planEdits host disk targets).1.Pairwise fun p q => p.file ≠ q.file := by
  refine List.pairwise_filterMap.mpr (List.pairwise_map.mpr ?_)
  refine (groups_pairwise hres).imp fun {g h} hne p hp q hq => ?_
  rw [(planGroup_eq_some hp).1, (planGroup_eq_some hq).1]
  exact hne

variable (host disk) in
theorem exists_verdict {t : Target} (ht : t ∈ targets) :
    ∃ v ∈ verdictsOf host disk targets, v.1 = t := by
  have hmap := map_fst_verdicts (textsOf host disk targets) targets
  rw [← hmap] at ht
  obtain ⟨v, hv, hvt⟩ := List.mem_map.mp ht
  exact ⟨v, hv, hvt⟩

theorem length_planned (hres : Resolved resolve targets)
    (hall : ∀ v ∈ verdictsOf host disk targets, v.2 = none) :
    (planEdits host disk targets).1.length = (targets.map (·.edit.file)).dedup.length := by
  refine Nat.le_antisymm (length_groupEdits hres ▸ length_planned_le) ?_
  have hsub : (targets.map (·.edit.file)).dedup ⊆
      (planEdits host disk targets).1.map (·.file) := by
    intro file hfile
    obtain ⟨t, ht, rfl⟩ := List.mem_map.mp (List.mem_dedup.mp hfile)
    obtain ⟨v, hv, rfl⟩ := exists_verdict host disk ht
    obtain ⟨g, hg, p, hp, hpf, -⟩ := plan_of_kept hres hv (hall v hv)
    exact List.mem_map.mpr ⟨p, mem_planned.mpr ⟨g, hg, hp⟩, hpf⟩
  have hle := (List.subperm_of_subset (List.nodup_dedup _) hsub).length_le
  rwa [List.length_map] at hle

theorem allWritten_iff (hres : Resolved resolve targets) {writes : Nat → WriteResult} :
    (∀ v ∈ verdictsOf host disk targets, Written writes (planEdits host disk targets).1 v) ↔
      AllApply host writes disk targets := by
  constructor
  · intro hall
    have hnone : ∀ v ∈ verdictsOf host disk targets, v.2 = none := fun v hv => (hall v hv).1
    refine ⟨hnone, fun k hk => ?_⟩
    rw [← length_planned hres hnone] at hk
    -- the `k`-th plan has an edit, and that edit's file is written at no other place
    obtain ⟨g, hg, hgplan⟩ := mem_planned.mp (List.getElem_mem hk)
    obtain ⟨t, ht, htf⟩ := ((groupsInv_groupEdits hres).files g.file).mp (List.mem_map_of_mem hg)
    obtain ⟨v, hv, rfl⟩ := exists_verdict host disk ht
    obtain ⟨-, l, q, hq, hqf, hok⟩ := hall v hv
    obtain ⟨hl, hlq⟩ := List.getElem?_eq_some_iff.mp hq
    have hfile : ((planEdits host disk targets).1[k]).file =
        ((planEdits host disk targets).1[l]).file := by
      rw [hlq, hqf, htf, (planGroup_eq_some hgplan).1]
    have hfiles := planned_files host disk hres
    rcases Nat.lt_trichotomy k l with hlt | rfl | hlt
    · exact absurd hfile (List.pairwise_iff_getElem.mp hfiles k l hk hl hlt)
    · exact hok
    · exact absurd hfile.symm (List.pairwise_iff_getElem.mp hfiles l k hl hk hlt)
  · rintro ⟨hnone, hwrites⟩ v hv
    obtain ⟨g, hg, p, hp, hpf, -⟩ := plan_of_kept hres hv (hnone v hv)
    obtain ⟨k, hk⟩ := List.mem_iff_getElem?.mp (mem_planned.mpr ⟨g, hg, hp⟩)
    have hlt := (List.getElem?_eq_some_iff.mp hk).1
    rw [length_planned hres hnone] at hlt
    exact ⟨hnone v hv, k, p, hk, hpf, hwrites k hlt⟩

end Counts

theorem honest_iff {host : Host} {s₀ : State} {targets : List Target}
    {outcome : State × Option Json}
    {resolve : String → Option String} (hres : Resolved resolve targets)
    (writes : Nat → WriteResult) (hremoved : outcome.1.pending ≠ s₀.pending) :
    Honest host writes s₀ targets outcome ↔ AllApply host writes s₀.disk targets := by
  rw [← allWritten_iff hres]
  constructor
  · intro h
    exact h.2.1 hremoved
  · intro h
    exact ⟨fun _ _ _ => h, fun _ => h, fun v hv hno => absurd (h v hv) hno⟩

theorem applyRefactor_removes {host : Host} {arguments : List (String × Json)} {s s₀ : State}
    {id : String} {targets : List Target} (writes : Nat → WriteResult)
    (hprep : prepare host arguments s = (s₀, .edits id false targets)) :
    (applyRefactor host writes arguments s).1.pending ≠ s₀.pending := by
  rw [(applyRefactor_edits writes hprep).2]
  exact removePending_ne (prepare_edits hprep).2.2

/-- A call is honest exactly if every edit applies and every file can be written. -/
theorem applyRefactor_honest_iff {host : Host} {arguments : List (String × Json)}
    {s s₀ : State} {id : String} {targets : List Target} (writes : Nat → WriteResult)
    (hprep : prepare host arguments s = (s₀, .edits id false targets)) :
    Honest host writes s₀ targets (applyRefactor host writes arguments s) ↔
      AllApply host writes s₀.disk targets := by
  obtain ⟨⟨root, hres⟩, -, -⟩ := prepare_edits hprep
  exact honest_iff hres writes (applyRefactor_removes writes hprep)

theorem applyRefactor_honest_two :
    Honest twoHost (fun _ => .ok) twoState [firstTarget, secondTarget]
        (applyRefactor twoHost (fun _ => .ok) [("refactor_id", .str "p")] twoState) ↔
      AllApply twoHost (fun _ => .ok) twoState.disk [firstTarget, secondTarget] :=
  applyRefactor_honest_iff _ prepare_two

theorem writePlanned_failed (left : Option Bytes) (k : Nat) (plans : List Planned)
    (acc : Disk × Nat × List String) :
    (writePlanned (fun _ => .failed left) k plans acc).2 = acc.2 := by
  induction plans generalizing k acc with
  | nil => rfl
  | cons p ps ih =>
      obtain ⟨disk, applied, modified⟩ := acc
      rw [writePlanned, ih]

/-- When no file can be written, the reply is still `ok`, and the preview is gone. -/
theorem failedWrites_ok : ∃ writes : Nat → WriteResult,
    (applyRefactor twoHost writes [("refactor_id", .str "p")] twoState).2 =
        some (doneReply "ok" 0 [] []) ∧
      ¬ Honest twoHost writes twoState [firstTarget, secondTarget]
        (applyRefactor twoHost writes [("refactor_id", .str "p")] twoState) := by
  refine ⟨fun _ => .failed none, ?_, fun h => ?_⟩
  · have hplan : (planEdits twoHost twoState.disk [firstTarget, secondTarget]).2 = [] :=
      List.isEmpty_iff.mp (by decide +kernel)
    have hwritten := writePlanned_failed none 0
      (planEdits twoHost twoState.disk [firstTarget, secondTarget]).1 (twoState.disk, 0, [])
    unfold applyRefactor
    rw [prepare_two]
    simp only [hplan, List.isEmpty_nil, if_true, hwritten]
    rfl
  · obtain ⟨⟨root, hres⟩, -, -⟩ := prepare_edits prepare_two
    rw [honest_iff hres _ (applyRefactor_removes _ prepare_two)] at h
    have hzero := h.2 0 (by decide)
    cases hzero

/-! ## The report -/

section Report

variable {host : Host} {arguments : List (String × Json)} {s s₀ : State} {id : String}
  {dryRun : Bool} {targets : List Target}

/-- The edits are planned file by file, and what is skipped is what they skip one by one. -/
theorem skipped_perm {disk : Disk} {resolve : String → Option String}
    (hres : Resolved resolve targets) :
    (planEdits host disk targets).2.Perm (reports (verdictsOf host disk targets)) := by
  have hinv := groupsInv_groupEdits hres
  have hgroup : ∀ g ∈ groupEdits targets, (planGroup host disk g).2 =
      reports (verdictsFor (verdictsOf host disk targets) g.file) := by
    intro g hg
    rw [verdictsFor_group hres hg, planGroup, (hinv.edits g hg).1, editsOf]
    cases htext : readText host disk g.path with
    | error reason => exact (groupVerdicts_error reason _).1.symm
    | ok text => exact (applyGroup_verdicts text _).2.1
  have hparts := perm_flatMap_filter (fun v : Target × Option String => v.1.edit.file)
    hinv.nodup (verdictsOf host disk targets) fun v hv => (hinv.files _).mpr
      ⟨v.1, map_fst_verdicts _ targets ▸ List.mem_map_of_mem hv, rfl⟩
  rw [List.flatMap_map] at hparts
  rw [planEdits, List.flatMap_map, List.flatMap_congr hgroup]
  unfold reports
  rw [← List.filterMap_flatMap]
  exact hparts.filterMap _

/-- Whatever becomes of the writes, a call reports each edit that is skipped in its turn, with
its reason, and no other; a dry run writes nothing. -/
theorem applyRefactor_reports (writes : Nat → WriteResult)
    (hprep : prepare host arguments s = (s₀, .edits id dryRun targets)) :
    (reportedIn (applyRefactor host writes arguments s).2).Perm
        (reports (verdictsOf host s₀.disk targets)) ∧
      (dryRun = true → (applyRefactor host writes arguments s).1 = s₀) := by
  obtain ⟨⟨root, hres⟩, -, -⟩ := prepare_edits hprep
  unfold applyRefactor
  rw [hprep]
  cases dryRun with
  | true => exact ⟨skipped_perm hres, fun _ => rfl⟩
  | false => exact ⟨skipped_perm hres, fun h => absurd h Bool.false_ne_true⟩

theorem applyRefactor_reports_two :
    (reportedIn (applyRefactor twoHost (fun _ => .ok) [("refactor_id", .str "p")] twoState).2).Perm
      (reports (verdictsOf twoHost twoState.disk [firstTarget, secondTarget])) :=
  (applyRefactor_reports _ prepare_two).1

end Report

end ApplyRefactor

end Dagayn
