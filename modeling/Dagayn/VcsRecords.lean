import Dagayn.Records
import Dagayn.Text
import Dagayn.Utf8
import Dagayn.WorkTree

/-!
# The change lists git prints

`parse_name_status`, `parse_renames` and `parse_porcelain` read what `git diff --name-status
-z` and `git status --porcelain -z` print: fields that each end in a NUL. A diff record is a
status and then one path, two for a rename or a copy, the old path first; a status entry
carries its two letters before the path, and the path a rename or a copy came from is a field
of its own behind it. `Change` and `StatusEntry` are what git prints them for. The loops are
`Records.Reader`s, and reading a printed list gives its paths back (`parseNameStatus_text`,
`parseRenames_text`, `parsePorcelain_text`).
-/

namespace Dagayn

namespace VcsRecords

open Records

/-! ## Fields -/

def nul : Char := '\x00'

def nulFields (payload : List Char) : List (List Char) :=
  (payload.splitOn nul).filter fun field => !field.isEmpty

def terminated (fields : List (List Char)) : List Char := fields.flatMap (· ++ [nul])

/-- A text that can be a field: neither empty nor with a NUL in it. -/
def IsField (field : List Char) : Prop := field ≠ [] ∧ nul ∉ field

theorem nulFields_terminated : ∀ {fields : List (List Char)}, (∀ f ∈ fields, IsField f) →
    nulFields (terminated fields) = fields
  | [], _ => rfl
  | f :: fields, h => by
      have hf := h f List.mem_cons_self
      have ih := nulFields_terminated fun g hg => h g (List.mem_cons_of_mem _ hg)
      have hsplit : (terminated (f :: fields)).splitOn nul =
          f :: (terminated fields).splitOn nul := by
        rw [terminated, List.flatMap_cons, List.append_assoc]
        exact List.splitOn_append_cons_self_of_not_mem hf.2 _
      rw [nulFields, hsplit, List.filter_cons_of_pos (by simpa using hf.1)]
      exact congrArg (f :: ·) ih

/-! ## The readers -/

/-- `starts_with(['R', 'C'])`. -/
def isMove (status : List Char) : Bool :=
  status.head? = some 'R' || status.head? = some 'C'

/-- The loop of `parse_name_status`. -/
def nameStatusReader : Reader (List Char) (List String) where
  wanted status := if isMove status then 2 else 1
  consume files _ paths := some (files ++ paths.map String.ofList)

def parseNameStatus (payload : List Char) : LoopEnd (List String) :=
  (nameStatusReader.run (nulFields payload) []).map dedupe

/-- The loop of `_parse_name_status`, whose test is `status[:1] in {"R", "C"}`. -/
def pyNameStatusReader : Reader (List Char) (List String) where
  wanted status := if status.take 1 ∈ [['R'], ['C']] then 2 else 1
  consume files _ paths := some (files ++ paths.map String.ofList)

/-- `_parse_name_status`. -/
def pyParseNameStatus (payload : List Char) : LoopEnd (List String) :=
  (pyNameStatusReader.run (nulFields payload) []).map dedupe

/-- The loop of `parse_renames`: a record cut off before its second path counts for nothing. -/
def renameReader : Reader (List Char) (Dict String String) where
  wanted status := if isMove status then 2 else 1
  consume renames status paths :=
    match paths with
    | [old, new] =>
        if status.head? = some 'R' then
          some (renames.insert (String.ofList new) (String.ofList old))
        else some renames
    | _ => some renames

/-- `parse_renames`: `{new_path: old_path}`. -/
def parseRenames (payload : List Char) : LoopEnd (Dict String String) :=
  renameReader.run (nulFields payload) ∅

structure Worktree where
  staged : List String := []
  unstaged : List String := []
  untracked : List String := []
deriving DecidableEq, Repr

def moveByte (b : UInt8) : Bool := b = 'R'.toUInt8 || b = 'C'.toUInt8

def statusBytes (entry : List Char) : Option (UInt8 × UInt8) :=
  match utf8 entry with
  | x :: y :: _ :: _ :: _ => some (x, y)
  | _ => none

def Worktree.add (w : Worktree) (x y : UInt8) (paths : List String) : Worktree :=
  if x = '?'.toUInt8 ∧ y = '?'.toUInt8 then { w with untracked := w.untracked ++ paths }
  else
    { w with
      staged := if x ≠ ' '.toUInt8 then w.staged ++ paths else w.staged
      unstaged := if y ≠ ' '.toUInt8 then w.unstaged ++ paths else w.unstaged }

/-- The loop of `parse_porcelain`. -/
def porcelainReader : Reader (List Char) Worktree where
  wanted entry :=
    match statusBytes entry with
    | none => 0
    | some (x, y) => if moveByte x || moveByte y then 1 else 0
  consume changes entry old :=
    match statusBytes entry with
    | none => some changes
    -- `entry[3..]` panics where there is no slice
    | some (x, y) => (sliceFrom 3 entry).map fun path => changes.add x y ((path :: old).map .ofList)

def parsePorcelain (payload : List Char) : LoopEnd Worktree :=
  porcelainReader.run (nulFields payload) {}

theorem pyParseNameStatus_eq : pyParseNameStatus = parseNameStatus := by
  have hreader : pyNameStatusReader = nameStatusReader := by
    unfold pyNameStatusReader nameStatusReader isMove
    congr 1
    funext status
    cases status with
    | nil => rfl
    | cons c rest => simp
  unfold pyParseNameStatus parseNameStatus
  rw [hreader]

/-! ## What git prints -/

/-- A path git can print. -/
structure TreePath where
  text : List Char
  isField : IsField text

def TreePath.path (p : TreePath) : String := .ofList p.text

/-- The statuses of a diff record with one path. -/
inductive DiffStatus where
  | added
  | deleted
  | modified
  | typeChanged
  | unmerged
  | unknown
  | pairingBroken
deriving DecidableEq, Repr

def DiffStatus.letter : DiffStatus → Char
  | .added => 'A'
  | .deleted => 'D'
  | .modified => 'M'
  | .typeChanged => 'T'
  | .unmerged => 'U'
  | .unknown => 'X'
  | .pairingBroken => 'B'

/-- A record of `git diff --name-status`. -/
inductive Change where
  | one (status : DiffStatus) (path : TreePath)
  | renamed (score : Nat) (old new : TreePath)
  | copied (score : Nat) (old new : TreePath)

namespace Change

/-- `%03d`. -/
def scoreText (score : Nat) : List Char :=
  let digits := Nat.toDigits 10 score
  .replicate (3 - digits.length) '0' ++ digits

def status : Change → List Char
  | .one status _ => [status.letter]
  | .renamed score _ _ => 'R' :: scoreText score
  | .copied score _ _ => 'C' :: scoreText score

def treePaths : Change → List TreePath
  | .one _ path => [path]
  | .renamed _ old new => [old, new]
  | .copied _ old new => [old, new]

def paths (c : Change) : List String := c.treePaths.map TreePath.path

def renamePair : Change → Option (String × String)
  | .renamed _ old new => some (new.path, old.path)
  | _ => none

/-- `git diff --name-status -z`. -/
def text (changes : List Change) : List Char :=
  terminated (Reader.encode status (fun c => c.treePaths.map TreePath.text) changes)

end Change

/-- One of the two letters of a status entry of a tracked path. -/
inductive StatusLetter where
  | unmodified
  | modified
  | typeChanged
  | added
  | deleted
  | renamed
  | copied
  | unmerged
deriving DecidableEq, Repr

def StatusLetter.letter : StatusLetter → Char
  | .unmodified => ' '
  | .modified => 'M'
  | .typeChanged => 'T'
  | .added => 'A'
  | .deleted => 'D'
  | .renamed => 'R'
  | .copied => 'C'
  | .unmerged => 'U'

def StatusLetter.moves (l : StatusLetter) : Bool := l = .renamed || l = .copied

/-- An entry of `git status --porcelain`. The path a file came from is there when one of the
letters says that it moved. -/
inductive StatusEntry where
  | untracked (path : TreePath)
  | tracked (x y : StatusLetter) (path : TreePath) (source : Option TreePath)
      (isSome_source : source.isSome = (x.moves || y.moves))

namespace StatusEntry

def first : StatusEntry → List Char
  | .untracked path => '?' :: '?' :: ' ' :: path.text
  | .tracked x y path _ _ => x.letter :: y.letter :: ' ' :: path.text

def sources : StatusEntry → List TreePath
  | .untracked _ => []
  | .tracked _ _ _ source _ => source.toList

def paths : StatusEntry → List String
  | .untracked path => [path.path]
  | .tracked _ _ path source _ => (path :: source.toList).map TreePath.path

def isStaged : StatusEntry → Bool
  | .untracked _ => false
  | .tracked x _ _ _ _ => x ≠ .unmodified

def isUnstaged : StatusEntry → Bool
  | .untracked _ => false
  | .tracked _ y _ _ _ => y ≠ .unmodified

def isUntracked : StatusEntry → Bool
  | .untracked _ => true
  | .tracked .. => false

/-- `git status --porcelain -z`. -/
def text (entries : List StatusEntry) : List Char :=
  terminated (Reader.encode first (fun e => e.sources.map TreePath.text) entries)

end StatusEntry

/-! ## The printed texts are fields -/

theorem isField_cons {c : Char} {cs : List Char} (hc : c ≠ nul) (hcs : nul ∉ cs) :
    IsField (c :: cs) :=
  ⟨List.cons_ne_nil _ _, by simpa using ⟨hc.symm, hcs⟩⟩

theorem Change.nul_notMem_scoreText (score : Nat) : nul ∉ Change.scoreText score := by
  intro h
  rcases List.mem_append.mp h with h | h
  · exact absurd (List.eq_of_mem_replicate h) (by decide)
  · have hdigit : nul.isDigit = true := Nat.isDigit_of_mem_toDigits (by omega) (by omega) h
    exact absurd hdigit (by decide)

theorem Change.isField_status (c : Change) : IsField c.status := by
  cases c with
  | one status path => exact isField_cons (by cases status <;> decide) (by simp)
  | renamed score old new => exact isField_cons (by decide) (nul_notMem_scoreText score)
  | copied score old new => exact isField_cons (by decide) (nul_notMem_scoreText score)

theorem StatusLetter.letter_ne_nul (l : StatusLetter) : l.letter ≠ nul := by
  cases l <;> decide

theorem StatusEntry.isField_first (e : StatusEntry) : IsField e.first := by
  have hspace (path : TreePath) : nul ∉ ' ' :: path.text :=
    (isField_cons (by decide) path.isField.2).2
  cases e with
  | untracked path =>
      exact isField_cons (by decide) (isField_cons (by decide) (hspace path)).2
  | tracked x y path source h =>
      exact isField_cons x.letter_ne_nul (isField_cons y.letter_ne_nul (hspace path)).2

theorem nulFields_encode {ρ : Type} {first : ρ → List Char} {rest : ρ → List TreePath}
    (hfirst : ∀ x, IsField (first x)) (records : List ρ) :
    nulFields (terminated (Reader.encode first (fun x => (rest x).map TreePath.text) records)) =
      Reader.encode first (fun x => (rest x).map TreePath.text) records := by
  refine nulFields_terminated fun f hf => ?_
  obtain ⟨x, -, hx⟩ := List.mem_flatMap.mp hf
  rcases List.mem_cons.mp hx with rfl | hx
  · exact hfirst x
  · obtain ⟨path, -, rfl⟩ := List.mem_map.mp hx
    exact path.isField

/-! ## Reading a diff -/

theorem Change.length_treePaths (c : Change) :
    c.treePaths.length = if isMove c.status then 2 else 1 := by
  cases c with
  | one status path => cases status <;> rfl
  | renamed score old new => rfl
  | copied score old new => rfl

theorem parseNameStatus_text (changes : List Change) :
    parseNameStatus (Change.text changes) = .returned (dedupe (changes.flatMap Change.paths)) := by
  have hread := nameStatusReader.run_encode Change.status
    (fun c => c.treePaths.map TreePath.text) (fun files c => files ++ c.paths)
    (fun c => by rw [List.length_map]; exact c.length_treePaths)
    (fun files c => by simp [nameStatusReader, Change.paths, TreePath.path]) changes []
  rw [parseNameStatus, Change.text, nulFields_encode Change.isField_status, hread,
    List.foldl_append_eq_append, List.nil_append, ← List.flatMap_def]
  rfl

/-- The step of `parse_renames` on a record. -/
def addRenaming (renames : Dict String String) (c : Change) : Dict String String :=
  match c.renamePair with
  | some (new, old) => renames.insert new old
  | none => renames

theorem lookup_addRenaming (changes : List Change) : ∀ (renames : Dict String String) (p : String),
    (changes.foldl addRenaming renames).lookup p =
      ((changes.filterMap Change.renamePair).reverse.lookup p).or (renames.lookup p) := by
  induction changes with
  | nil => simp
  | cons c changes ih =>
      intro renames p
      rw [List.foldl_cons, ih, addRenaming]
      cases hc : c.renamePair with
      | none => rw [List.filterMap_cons_none hc]
      | some r =>
          obtain ⟨new, old⟩ := r
          rw [List.filterMap_cons_some hc, List.reverse_cons, List.lookup_append,
            Dict.lookup_insert_ite, Option.or_assoc]
          congr 1
          by_cases hp : p = new
          · simp [hp]
          · rw [if_neg hp, List.lookup_cons, beq_false_of_ne hp]
            rfl

theorem parseRenames_text (changes : List Change) :
    ∃ renames, parseRenames (Change.text changes) = .returned renames ∧
      ∀ new, renames.lookup new = (changes.filterMap Change.renamePair).reverse.lookup new := by
  have hread := renameReader.run_encode Change.status
    (fun c => c.treePaths.map TreePath.text) addRenaming
    (fun c => by rw [List.length_map]; exact c.length_treePaths)
    (fun renames c => by
      cases c with
      | one status path => rfl
      | renamed score old new => rfl
      | copied score old new => rfl) changes ∅
  refine ⟨changes.foldl addRenaming ∅, ?_, fun new => ?_⟩
  · rw [parseRenames, Change.text, nulFields_encode Change.isField_status, hread]
  · rw [lookup_addRenaming]
    simp

theorem lookup_reverse_iff {pairs : List (String × String)} (h : (pairs.map Prod.fst).Nodup)
    {k v : String} : pairs.reverse.lookup k = some v ↔ (k, v) ∈ pairs := by
  rw [List.lookup_eq_some_iff]
  constructor
  · rintro ⟨before, after, heq, -⟩
    have hmem : (k, v) ∈ pairs.reverse := by simp [heq]
    exact List.mem_reverse.mp hmem
  · intro hmem
    obtain ⟨before, after, heq⟩ := List.append_of_mem (List.mem_reverse.mpr hmem)
    refine ⟨before, after, heq, fun p hp => ?_⟩
    have hnodup : (pairs.reverse.map Prod.fst).Nodup := by
      rw [List.map_reverse]
      exact List.nodup_reverse.mpr h
    rw [heq, List.map_append, List.map_cons, List.nodup_append] at hnodup
    have hne := hnodup.2.2 _ (List.mem_map_of_mem hp) _ List.mem_cons_self
    simpa using hne.symm

/-! ## Reading the status -/

/-- The step of `parse_porcelain` on an entry. -/
def addEntry (w : Worktree) (e : StatusEntry) : Worktree where
  staged := w.staged ++ if e.isStaged then e.paths else []
  unstaged := w.unstaged ++ if e.isUnstaged then e.paths else []
  untracked := w.untracked ++ if e.isUntracked then e.paths else []

theorem utf8_letter (l : StatusLetter) : String.utf8EncodeChar l.letter = [l.letter.toUInt8] := by
  cases l <;> rfl

theorem utf8_ne_nil {text : List Char} (h : text ≠ []) : utf8 text ≠ [] := by
  obtain ⟨c, cs, rfl⟩ := List.exists_cons_of_ne_nil h
  intro hnil
  have hlen := congrArg List.length hnil
  have hpos := c.utf8Size_pos
  rw [utf8, List.flatMap_cons, List.length_append, String.length_utf8EncodeChar] at hlen
  simp only [List.length_nil] at hlen
  omega

theorem statusBytes_letters {x y : Char} {xb yb : UInt8} (path : TreePath)
    (hx : String.utf8EncodeChar x = [xb]) (hy : String.utf8EncodeChar y = [yb]) :
    statusBytes (x :: y :: ' ' :: path.text) = some (xb, yb) := by
  have hbytes : utf8 (x :: y :: ' ' :: path.text) = xb :: yb :: ' '.toUInt8 :: utf8 path.text := by
    simp only [utf8, List.flatMap_cons, hx, hy]
    rfl
  obtain ⟨b, bs, hpath⟩ := List.exists_cons_of_ne_nil (utf8_ne_nil path.isField.1)
  rw [statusBytes, hbytes, hpath]

theorem sliceFrom_letters {x y : Char} (text : List Char) (hx : x.utf8Size = 1)
    (hy : y.utf8Size = 1) : sliceFrom 3 (x :: y :: ' ' :: text) = some text := by
  have hspace : (' ').utf8Size = 1 := rfl
  simp [sliceFrom, hx, hy, hspace]

theorem StatusLetter.utf8Size_letter (l : StatusLetter) : l.letter.utf8Size = 1 := by
  cases l <;> rfl

theorem moveByte_letter (l : StatusLetter) : moveByte l.letter.toUInt8 = l.moves := by
  cases l <;> rfl

theorem letter_eq_space_iff (l : StatusLetter) :
    l.letter.toUInt8 = ' '.toUInt8 ↔ l = .unmodified := by
  cases l <;> decide

theorem letter_ne_question (l : StatusLetter) : l.letter.toUInt8 ≠ '?'.toUInt8 := by
  cases l <;> decide

theorem length_sources (e : StatusEntry) :
    (e.sources.map TreePath.text).length = porcelainReader.wanted e.first := by
  cases e with
  | untracked path =>
      have hbytes := statusBytes_letters (x := '?') (y := '?') path rfl rfl
      simp only [porcelainReader, StatusEntry.first, hbytes]
      rfl
  | tracked x y path source h =>
      have hbytes := statusBytes_letters path (utf8_letter x) (utf8_letter y)
      simp only [porcelainReader, StatusEntry.first, hbytes, moveByte_letter, ← h]
      cases source <;> rfl

theorem consume_entry (w : Worktree) (e : StatusEntry) :
    porcelainReader.consume w e.first (e.sources.map TreePath.text) = some (addEntry w e) := by
  cases e with
  | untracked path =>
      have hmark : String.utf8EncodeChar '?' = ['?'.toUInt8] := rfl
      have hbytes := statusBytes_letters path hmark hmark
      have hslice := sliceFrom_letters (x := '?') (y := '?') path.text rfl rfl
      simp only [porcelainReader, StatusEntry.first, hbytes, hslice, Option.map_some]
      rw [Worktree.add, if_pos ⟨rfl, rfl⟩]
      simp [addEntry, StatusEntry.isStaged, StatusEntry.isUnstaged, StatusEntry.isUntracked,
        StatusEntry.paths, StatusEntry.sources, TreePath.path]
  | tracked x y path source h =>
      have hbytes := statusBytes_letters path (utf8_letter x) (utf8_letter y)
      have hslice := sliceFrom_letters path.text x.utf8Size_letter y.utf8Size_letter
      simp only [porcelainReader, StatusEntry.first, hbytes, hslice, Option.map_some]
      have hpaths : (path.text :: source.toList.map TreePath.text).map String.ofList =
          (path :: source.toList).map TreePath.path := by
        cases source <;> rfl
      have hnot : ¬ (x.letter.toUInt8 = '?'.toUInt8 ∧ y.letter.toUInt8 = '?'.toUInt8) :=
        fun hq => letter_ne_question x hq.1
      simp only [Worktree.add, if_neg hnot, StatusEntry.sources, hpaths, addEntry,
        StatusEntry.isStaged, StatusEntry.isUnstaged, StatusEntry.isUntracked,
        StatusEntry.paths, ne_eq, letter_eq_space_iff, decide_not]
      by_cases hx : x = .unmodified <;> by_cases hy : y = .unmodified <;> simp [hx, hy]

def listed (entries : List StatusEntry) : Worktree where
  staged := (entries.filter StatusEntry.isStaged).flatMap StatusEntry.paths
  unstaged := (entries.filter StatusEntry.isUnstaged).flatMap StatusEntry.paths
  untracked := (entries.filter StatusEntry.isUntracked).flatMap StatusEntry.paths

theorem foldl_addEntry (entries : List StatusEntry) : ∀ w : Worktree,
    entries.foldl addEntry w =
      { staged := w.staged ++ (listed entries).staged
        unstaged := w.unstaged ++ (listed entries).unstaged
        untracked := w.untracked ++ (listed entries).untracked } := by
  induction entries with
  | nil => intro w; simp [listed]
  | cons e entries ih =>
      intro w
      rw [List.foldl_cons, ih]
      simp only [addEntry, listed, List.append_assoc, List.filter_cons]
      congr 2 <;> split <;> simp

theorem parsePorcelain_text (entries : List StatusEntry) :
    parsePorcelain (StatusEntry.text entries) = .returned (listed entries) := by
  have hread := porcelainReader.run_encode StatusEntry.first
    (fun e => e.sources.map TreePath.text) addEntry
    (fun e => length_sources e) (fun w e => consume_entry w e) entries {}
  rw [parsePorcelain, StatusEntry.text, nulFields_encode StatusEntry.isField_first, hread,
    foldl_addEntry]
  simp

/-! ## Every payload -/

theorem parsePorcelain_ne_unfinished (payload : List Char) :
    parsePorcelain payload ≠ .unfinished :=
  porcelainReader.run_ne_unfinished _ _

theorem exists_parseNameStatus (payload : List Char) :
    ∃ files, parseNameStatus payload = .returned files := by
  obtain ⟨files, hfiles⟩ := nameStatusReader.exists_run_eq (fun _ _ _ => rfl)
    (nulFields payload) []
  exact ⟨dedupe files, by rw [parseNameStatus, hfiles]; rfl⟩

theorem exists_parseRenames (payload : List Char) :
    ∃ renames, parseRenames payload = .returned renames := by
  refine renameReader.exists_run_eq (fun renames status paths => ?_) _ _
  unfold renameReader
  dsimp only
  split
  · split <;> rfl
  · rfl

/-- What git prints is read back, and every text is read to its end. -/
theorem payloads_round_trip :
    (∀ changes : List Change,
      parseNameStatus (Change.text changes) =
        .returned (dedupe (changes.flatMap Change.paths)) ∧
      pyParseNameStatus (Change.text changes) =
        .returned (dedupe (changes.flatMap Change.paths)) ∧
      ∃ renames, parseRenames (Change.text changes) = .returned renames ∧
        (∀ new, renames.lookup new =
          (changes.filterMap Change.renamePair).reverse.lookup new) ∧
        (((changes.filterMap Change.renamePair).map Prod.fst).Nodup → ∀ new old,
          renames.lookup new = some old ↔ (new, old) ∈ changes.filterMap Change.renamePair)) ∧
    (∀ entries : List StatusEntry,
      parsePorcelain (StatusEntry.text entries) = .returned (listed entries)) ∧
    ∀ payload : List Char,
      (∃ files, parseNameStatus payload = .returned files) ∧
      (∃ files, pyParseNameStatus payload = .returned files) ∧
      (∃ renames, parseRenames payload = .returned renames) ∧
      parsePorcelain payload ≠ .unfinished := by
  refine ⟨fun changes => ?_, parsePorcelain_text, fun payload => ?_⟩
  · obtain ⟨renames, hread, hlookup⟩ := parseRenames_text changes
    refine ⟨parseNameStatus_text changes, ?_, renames, hread, hlookup, fun h new old => ?_⟩
    · rw [pyParseNameStatus_eq]
      exact parseNameStatus_text changes
    · rw [hlookup]
      exact lookup_reverse_iff h
  · rw [pyParseNameStatus_eq]
    exact ⟨exists_parseNameStatus payload, exists_parseNameStatus payload,
      exists_parseRenames payload, parsePorcelain_ne_unfinished payload⟩

end VcsRecords

end Dagayn
