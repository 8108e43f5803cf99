import Dagayn.Dict
import Dagayn.Distinct
import Mathlib

/-!
# The work tree an update looks at

`dagayn update` asks git and the file system many separate questions, and both may
answer differently from one question to the next: a commit lands, a file is edited or
becomes unreadable, a git command fails. A `World` is what they would answer at one
moment, and a `History` gives the world of every single observation of the update
(`Moment`), so a statement about all histories covers every interleaving of the
update with other writers.

The parser is `Toolchain`: what the update uses of it is which names it owns, the
language it reads off a name or a shebang, whether a source gives rows, and the hash of
a source. `ownsSource` is the part of `ownership.rs` that ties these together.
-/

namespace Dagayn

abbrev Bytes := List UInt8

/-! ## Files -/

/-- What the file system says about one path. `is_file` is itself a successful `stat`,
so a regular file has an mtime, and it is not a directory. -/
structure FileView where
  /-- The bytes of the regular file behind the path, links followed. -/
  content : Option Bytes
  readable : Bool := true
  isSymlink : Bool := false
  /-- `file_mtime_ns`. -/
  mtime : Option Int
  /-- `on_disk_spelling`: the entry's spelling when it is not the path's own. -/
  onDiskSpelling : Option String := none
  /-- For a directory with a `.git`: what `git ls-files` lists in it. -/
  submodule : Option (List String) := none
  /-- The text of the error a failing call returns. -/
  ioError : String := ""
  stat_of_file : content.isSome → mtime.isSome := by simp
  not_dir_of_file : content.isSome → submodule = none := by simp

namespace FileView

abbrev regular (content : Bytes) (mtime : Int) : FileView :=
  { content := some content, mtime := some mtime }

abbrev absent : FileView := { content := none, mtime := none }

def read (v : FileView) : Option Bytes := if v.readable then v.content else none

/-- `is_binary`: a file that cannot be opened counts as binary. -/
def isBinary (v : FileView) : Bool :=
  match v.read with
  | none => true
  | some b => (b.take 8192).contains 0

variable {v : FileView} {b : Bytes}

theorem content_of_read (h : v.read = some b) : v.content = some b := by
  simp only [read] at h
  split at h
  · exact h
  · cases h

theorem exists_mtime_of_read (h : v.read = some b) : ∃ m, v.mtime = some m := by
  have hs := v.stat_of_file (by rw [content_of_read h]; rfl)
  exact Option.isSome_iff_exists.mp hs

end FileView

/-- An entry of `extractor_versions`. -/
structure ExtractorVersion where
  extractor : String
  version : Nat
  languages : List String

/-- What the update uses of the parser, the hash and the stored edges. -/
structure Toolchain where
  sha256Hex : Bytes → String
  /-- `detect_language`: by the name, else by the shebang of a file that can be read. -/
  detectLanguage : String → Option Bytes → Option String
  /-- `rust_parser_owns_path`. -/
  ownsPath : String → Bool
  hasExtension : String → Bool
  /-- The shebang of the source names a language of the Rust parser. -/
  ownsShebang : Bytes → Bool
  /-- The languages of the rows a source is parsed to; `none` when it gives no rows. -/
  rowLanguages : String → Bytes → Option (List String)
  extractorVersions : List ExtractorVersion
  /-- `get_direct_dependents` over the edges stored when the update asks. -/
  directDependents : List String → List String
  /-- `CRG_DEPENDENT_HOPS`. -/
  dependentHops : Nat := 2

namespace Toolchain

variable (t : Toolchain)

/-- `rust_parser_owns_source`. -/
def ownsSource (path : String) (source : Bytes) : Bool :=
  t.ownsPath path || (!t.hasExtension path && t.ownsShebang source)

/-- `owns_path`. -/
def owns (v : FileView) (path : String) : Bool :=
  t.ownsPath path || (!t.hasExtension path && v.read.any (t.ownsSource path))

/-- The tests `filter_incremental_candidates` makes on a path that is not ignored. -/
def parseable (v : FileView) (path : String) : Bool :=
  v.content.isSome && !v.isSymlink && (t.detectLanguage path v.read).isSome &&
    !v.isBinary && v.onDiskSpelling.all (· = path)

/-- `filter_incremental_candidates`: `(parseable, removed)`; ignored paths are neither. -/
def filterIncrementalCandidates (view : String → FileView) (ignored : String → Bool)
    (paths : List String) : List String × List String :=
  (paths.filter (!ignored ·)).partition fun p => t.parseable (view p) p

variable {t} {v : FileView} {path : String} {b : Bytes}

theorem exists_read_of_parseable (h : t.parseable v path = true) : ∃ b, v.read = some b := by
  simp only [parseable, FileView.isBinary, Bool.and_eq_true] at h
  have hb := h.1.2
  cases hr : v.read with
  | none => rw [hr] at hb; cases hb
  | some b => exact ⟨b, rfl⟩

theorem ownsSource_of_owns (h : t.owns v path = true) (hb : v.read = some b) :
    t.ownsSource path b = true := by
  simp only [owns, hb, Option.any_some, Bool.or_eq_true, Bool.and_eq_true] at h
  rcases h with h | ⟨-, h⟩
  · simp [ownsSource, h]
  · exact h

end Toolchain

/-! ## The repository at one moment -/

inductive Vcs where
  | git
  | jj
  | svn
  | none
deriving DecidableEq, Repr

structure World where
  vcs : Vcs := .git
  /-- `git rev-parse HEAD`, empty when it fails. -/
  head : String
  /-- `git rev-parse --verify --quiet ref^{commit}`, empty when it fails. -/
  revParse : String → String
  /-- The paths of `git diff --name-status -M base HEAD`; `none` when it fails. -/
  gitDiff : String → Option (List String)
  /-- The paths of `git status --porcelain`; `none` when it fails. -/
  gitStatus : Option (List String)
  /-- `get_git_indexable_files`. -/
  gitIndexableFiles : Option (List String)
  /-- `walk_files`. -/
  walkFiles : List String := []
  /-- A path the ignore patterns match. -/
  ignored : String → Bool
  file : String → FileView

/-- The phases of an update that look at files. -/
inductive Phase where
  | extractor
  | expand
  | filter
  | classify
  | refilter
  | plan
  | parse
deriving DecidableEq, Repr

/-- The calls a phase makes on a path. -/
inductive Look where
  | owns
  | stat
  | read
  | recheck
deriving DecidableEq, Repr

/-- The observations of an update. -/
inductive Moment where
  | start
  | diff
  | status
  | ignorePatterns
  | resolve
  | listing
  | look (phase : Phase) (look : Look) (path : String)
  | stamp
deriving DecidableEq, Repr

abbrev History := Moment → World

/-- The file behind `path` as the call of that phase finds it. -/
def History.at (w : History) (phase : Phase) (look : Look) (path : String) : FileView :=
  (w (.look phase look path)).file path

/-! ## Git -/

def isSafeGitRef (reference : String) : Bool :=
  let chars := reference.toList
  let chars := if chars.getLast? = some '\n' then chars.dropLast else chars
  chars ≠ [] && chars.all fun c =>
    c.isAlphanum || "_.~^/@\x7b\x7d-".toList.contains c

def resolveCommitSha (world : World) (reference : String) : Option String :=
  if !isSafeGitRef reference then none
  else if world.revParse reference = "" then none
  else some (world.revParse reference)

def dedupe (paths : List String) : List String := keepFirst id paths

@[simp] theorem mem_dedupe {paths : List String} {p : String} :
    p ∈ dedupe paths ↔ p ∈ paths := by
  constructor
  · exact mem_of_mem_keepFirst
  · intro h
    obtain ⟨q, hq, hqp⟩ : ∃ q ∈ keepFirst id paths, id q = id p := exists_mem_keepFirst h
    obtain rfl : q = p := hqp
    exact hq

/-- `BTreeSet<String>`: each path once, in order. -/
def pathSet (paths : List String) : List String := paths.dedup.insertionSort (· ≤ ·)

@[simp] theorem mem_pathSet {paths : List String} {p : String} :
    p ∈ pathSet paths ↔ p ∈ paths := by
  simp [pathSet]

theorem nodup_pathSet (paths : List String) : (pathSet paths).Nodup :=
  (List.perm_insertionSort _ _).nodup_iff.mpr (List.nodup_dedup paths)

/-- `changed_files`: a command that fails contributes nothing. -/
def changedFiles (w : History) (base : String) : List String :=
  if !isSafeGitRef base then []
  else dedupe (((w .diff).gitDiff base).getD [] ++ (w .status).gitStatus.getD [])

def expandChangedSubmodules (w : History) (paths : List String) : List String :=
  dedupe (paths.flatMap fun p =>
    match (w.at .expand .read p).submodule with
    | none | some [] => [p]
    | some inner => inner.map (p ++ "/" ++ ·))

namespace Toolchain

variable (t : Toolchain)

def filterParseableFiles (world : World) (paths : List String) : List String :=
  paths.filter fun p =>
    !world.ignored p && (world.file p).content.isSome && !(world.file p).isSymlink &&
      (t.detectLanguage p (world.file p).read).isSome && !(world.file p).isBinary

/-- `collect_vcs_scope`, else `collect_parseable_files`. -/
def collectScope (world : World) : List String :=
  match world.gitIndexableFiles with
  | none | some [] => t.filterParseableFiles world world.walkFiles
  | some listed => listed.filter (!world.ignored ·)

end Toolchain

end Dagayn
