import Dagayn.CallPasses
import Dagayn.Grouping
import Dagayn.Propagation

/-!
# The files a file can name symbols from

`import_targets_conn`: the files a file imports from, what those re-export, and everything
a module it glob-imports sees itself. The fixed point is `Propagation.loop` on the three
maps of the query; `importTargetsConn_least` says which relation it is, in whatever order
the hash maps are gone through.
-/

namespace Dagayn

def startsNonzero (text : String) : Bool :=
  let cs := text.toList.dropWhile fun c => c = ' ' || ('\t' ≤ c && c ≤ '\r')
  let cs :=
    match cs with
    | '-' :: rest => rest
    | '+' :: rest => rest
    | _ => cs
  let integer := cs.takeWhile Char.isDigit
  let fraction :=
    match cs.drop integer.length with
    | '.' :: rest => rest.takeWhile Char.isDigit
    | _ => []
  (integer ++ fraction).any (· ≠ '0')

/-- `COALESCE(json_extract(extra, '$.key'), 0)` as an operand of `OR`. -/
def Json.truth (extra : Json) (key : String) : Bool :=
  match extra.get key with
  | some (.bool b) => b
  | some (.int n) => n ≠ 0
  | some (.float x) => x != 0.0
  | some (.str text) => startsNonzero text
  | _ => false

/-- `COALESCE(json_extract(extra, '$.key'), 0)` read as an integer, then `!= 0`; a text or a
double is an error. -/
def Json.flag (extra : Json) (key : String) : Option Bool :=
  match extra.get key with
  | none => some false
  | some .null => some false
  | some (.bool b) => some b
  | some (.int n) => some (n ≠ 0)
  | some _ => none

/-- `path LIKE '%/__init__.py'`: the underscores stand for any character. -/
def likeInitPy (path : String) : Bool :=
  let pattern := "/__init__.py".toList
  let cs := path.toList
  let last := cs.drop (cs.length - pattern.length)
  last.length = pattern.length && (pattern.zip last).all fun p => p.1 = '_' || p.1 = p.2.toLower

def nodeFileFromQualified (qualified fallback : String) : String :=
  ((splitOnce "::" qualified).map Prod.fst).getD fallback

/-- A row of the import query, with the file its target is in. -/
structure ImportRead where
  file : String
  target : String
  reExport : Bool
  glob : Bool
deriving DecidableEq

def readImport (r : EdgeRow) : Option ImportRead :=
  (r.extra.flag "glob").map fun glob =>
    { file := r.filePath
      target := nodeFileFromQualified r.target r.target
      reExport := r.extra.truth "re_export" || likeInitPy r.filePath || r.filePath = "__init__.py"
      glob := glob }

/-- The relations that contain the direct imports and are closed under re-exports and glob
imports. -/
structure SeesClosed (reads : List ImportRead) (P : String → String → Prop) : Prop where
  direct : ∀ r ∈ reads, P r.file r.target
  reExport : ∀ file module, P file module →
    ∀ r ∈ reads, r.reExport = true → r.file = module → P file r.target
  glob : ∀ r ∈ reads, r.glob = true → ∀ file, P r.target file → P r.file file

open Grouping Propagation

namespace ImportRead

/-- The imported file under the importing one. -/
def pair (r : ImportRead) : String × String := (r.file, r.target)

variable (reads : List ImportRead)

def direct : Dict String (List String) := setMap (reads.map pair)

def reExports : Dict String (List String) :=
  setMap ((reads.filter fun r => r.reExport).map pair)

def globs : Dict String (List String) := setMap ((reads.filter fun r => r.glob).map pair)

/-- The body of `import_targets_conn` behind the query; `none` when the steps run out. -/
def importTargets (o : Orders String) (fuel : Nat) : Option (Dict String (List String)) :=
  if (reExports reads).keys.isEmpty && (globs reads).keys.isEmpty then some (direct reads)
  else
    loop o (fun module => (reExports reads).getD module []) (fun file => (globs reads).getD file [])
      fuel fuel 0 (direct reads)

end ImportRead

namespace Store

/-- The rows of the query; a `glob` column that is no integer is an error. -/
def importReads (s : Store) : Option (List ImportRead) :=
  (s.edges.rows.filter fun r => r.kind = "IMPORTS_FROM" && r.extra.unset "path_use" &&
    r.extra.unset "package_import").mapM readImport

def importTargetsConn (s : Store) (o : Orders String) (fuel : Nat) :
    Option (Dict String (List String)) :=
  s.importReads.bind fun reads => ImportRead.importTargets reads o fuel

end Store

namespace ImportRead

variable {reads : List ImportRead}

theorem mem_direct {file target : String} :
    target ∈ (direct reads).getD file [] ↔ ∃ r ∈ reads, r.file = file ∧ r.target = target := by
  simp [direct, mem_getD_setMap, pair]

theorem mem_reExports {file target : String} :
    target ∈ (reExports reads).getD file [] ↔
      ∃ r ∈ reads, r.reExport = true ∧ r.file = file ∧ r.target = target := by
  simp [reExports, mem_getD_setMap, pair, and_assoc]

theorem mem_globs {file target : String} :
    target ∈ (globs reads).getD file [] ↔
      ∃ r ∈ reads, r.glob = true ∧ r.file = file ∧ r.target = target := by
  simp [globs, mem_getD_setMap, pair, and_assoc]

theorem mem_keys_direct {file : String} : file ∈ direct reads ↔ ∃ r ∈ reads, r.file = file := by
  simp [direct, mem_setMap, pair]

theorem closed_iff {P : String → String → Prop} :
    Closed (fun file => (direct reads).getD file []) (fun m => (reExports reads).getD m [])
      (fun file => (globs reads).getD file []) P ↔ SeesClosed reads P := by
  constructor
  · intro h
    refine ⟨fun r hr => ?_, fun file module hP r hr hre hfile => ?_, fun r hr hglob file hP => ?_⟩
    · exact h.first r.file r.target (mem_direct.mpr ⟨r, hr, rfl, rfl⟩)
    · exact h.next file module hP r.target (mem_reExports.mpr ⟨r, hr, hre, hfile, rfl⟩)
    · exact h.inherit r.file r.target (mem_globs.mpr ⟨r, hr, hglob, rfl, rfl⟩) file hP
  · intro h
    refine ⟨fun file target ht => ?_, fun file module hP target ht => ?_,
      fun file module hm target hP => ?_⟩
    · obtain ⟨r, hr, rfl, rfl⟩ := mem_direct.mp ht
      exact h.direct r hr
    · obtain ⟨r, hr, hre, hfile, rfl⟩ := mem_reExports.mp ht
      exact h.reExport file module hP r hr hre hfile
    · obtain ⟨r, hr, hglob, rfl, rfl⟩ := mem_globs.mp hm
      exact h.glob r hr hglob target hP

theorem growing_direct :
    Growing (fun file => (direct reads).getD file []) (fun m => (reExports reads).getD m [])
      (fun file => (globs reads).getD file []) (direct reads).keys (reads.map ImportRead.target)
      (direct reads) where
  keys _ := AList.mem_keys
  nodup := nodup_getD_setMap _
  bounded file target ht := by
    obtain ⟨r, hr, -, rfl⟩ := mem_direct.mp ht
    exact List.mem_map_of_mem hr
  grown _ _ ht := ht
  sound _ hP := hP.first

theorem reExports_subset (module : String) :
    (reExports reads).getD module [] ⊆ reads.map ImportRead.target := by
  intro target ht
  obtain ⟨r, hr, -, -, rfl⟩ := mem_reExports.mp ht
  exact List.mem_map_of_mem hr

theorem getD_of_isEmpty {d : Dict String (List String)} (h : d.keys.isEmpty = true)
    (file : String) : d.getD file [] = [] := by
  have hnone : d.lookup file = none := AList.lookup_eq_none.mpr fun hin => by
    rw [AList.mem_keys, List.isEmpty_iff.mp h] at hin
    exact absurd hin List.not_mem_nil
  rw [Dict.getD, hnone]
  rfl

theorem closed_direct (hre : (reExports reads).keys.isEmpty = true)
    (hglob : (globs reads).keys.isEmpty = true) :
    Closed (fun file => (direct reads).getD file []) (fun m => (reExports reads).getD m [])
      (fun file => (globs reads).getD file []) (fun file x => x ∈ (direct reads).getD file []) where
  first _ _ h := h
  next _ module _ target ht := by
    rw [getD_of_isEmpty hre] at ht
    exact absurd ht List.not_mem_nil
  inherit file module hm := by
    rw [getD_of_isEmpty hglob] at hm
    exact absurd hm List.not_mem_nil

theorem importTargets_least {o : Orders String} {fuel : Nat} {targets : Dict String (List String)}
    (h : importTargets reads o fuel = some targets) :
    (∀ file, file ∈ targets ↔ ∃ r ∈ reads, r.file = file) ∧
      SeesClosed reads (fun file x => x ∈ targets.getD file []) ∧
      ∀ P, SeesClosed reads P → ∀ file x, x ∈ targets.getD file [] → P file x := by
  unfold importTargets at h
  split at h
  · rename_i hnone
    obtain ⟨hre, hglob⟩ := Bool.and_eq_true_iff.mp hnone
    obtain rfl := Option.some.inj h
    exact ⟨fun file => mem_keys_direct, closed_iff.mp (closed_direct hre hglob),
      fun P hP file x hx => (closed_iff.mpr hP).first file x hx⟩
  · have hparents : ∀ file, (globs reads).getD file [] ≠ [] → file ∈ (direct reads).keys := by
      intro file hne
      obtain ⟨target, ht⟩ := List.exists_mem_of_ne_nil _ hne
      obtain ⟨r, hr, -, hfile, -⟩ := mem_globs.mp ht
      exact AList.mem_keys.mp (mem_keys_direct.mpr ⟨r, hr, hfile⟩)
    obtain ⟨hkeys, hclosed, hleast⟩ := loop_least reExports_subset hparents growing_direct h
    refine ⟨fun file => ?_, closed_iff.mp hclosed, fun P hP => hleast P (closed_iff.mpr hP)⟩
    rw [hkeys, ← AList.mem_keys, mem_keys_direct]

theorem exists_importTargets (reads : List ImportRead) :
    ∃ bound, ∀ fuel, bound ≤ fuel → ∀ o, ∃ targets, importTargets reads o fuel = some targets := by
  let bound := (direct reads).keys.length * (reads.map ImportRead.target).length
  refine ⟨(reads.map ImportRead.target).length + (bound + 1), fun fuel hfuel o => ?_⟩
  unfold importTargets
  split
  · exact ⟨_, rfl⟩
  · exact exists_loop reExports_subset (by omega) growing_direct
      (show bound < fuel + _ by omega)

end ImportRead

namespace Store

/-- With enough steps `import_targets_conn` returns, for any orders of the hash maps; what it
returns is the least relation that contains the direct imports and is closed under
re-exports and glob imports, and two runs return the same sets. -/
theorem importTargetsConn_least {s : Store} {reads : List ImportRead}
    (hreads : s.importReads = some reads) :
    (∃ bound, ∀ fuel, bound ≤ fuel → ∀ o, ∃ targets, s.importTargetsConn o fuel = some targets) ∧
      ∀ o fuel targets, s.importTargetsConn o fuel = some targets →
        (∀ file, file ∈ targets ↔ ∃ r ∈ reads, r.file = file) ∧
        SeesClosed reads (fun file x => x ∈ targets.getD file []) ∧
        (∀ P, SeesClosed reads P → ∀ file x, x ∈ targets.getD file [] → P file x) ∧
        ∀ o' fuel' targets', s.importTargetsConn o' fuel' = some targets' → ∀ file,
          (file ∈ targets ↔ file ∈ targets') ∧
          ∀ x, x ∈ targets.getD file [] ↔ x ∈ targets'.getD file [] := by
  have hconn : ∀ o fuel, s.importTargetsConn o fuel = ImportRead.importTargets reads o fuel := by
    intro o fuel
    rw [importTargetsConn, hreads, Option.bind_some]
  simp only [hconn]
  refine ⟨ImportRead.exists_importTargets reads, fun o fuel targets h => ?_⟩
  obtain ⟨hkeys, hclosed, hleast⟩ := ImportRead.importTargets_least h
  refine ⟨hkeys, hclosed, hleast, fun o' fuel' targets' h' file => ?_⟩
  obtain ⟨hkeys', hclosed', hleast'⟩ := ImportRead.importTargets_least h'
  exact ⟨(hkeys file).trans (hkeys' file).symm, fun x =>
    ⟨hleast _ hclosed' file x, hleast' _ hclosed file x⟩⟩

/-- `lib.rs` glob-imports `a.rs`, which re-exports `b.rs`, which glob-imports `lib.rs`. -/
def cyclicImports : Store where
  edges := [("lib.rs", "a.rs", "glob"), ("a.rs", "b.rs::B", "re_export"),
    ("b.rs", "lib.rs", "glob")].foldl (fun t row => t.insert (EdgeInput.row
      { kind := "IMPORTS_FROM", source := row.1, target := row.2.1, filePath := row.1, line := 1 }
      (.obj [(row.2.2, .bool true)]))) .empty

def plainOrders : Orders String where
  files _ l := l
  pending _ _ l := l
  modules _ _ l := l
  inherited _ _ _ l := l
  exported _ _ _ l := l
  files_perm _ l := .refl l
  pending_perm _ _ l := .refl l
  modules_perm _ _ l := .refl l
  inherited_perm _ _ _ l := .refl l
  exported_perm _ _ _ l := .refl l

theorem cyclicImports_least :
    ∃ reads fuel targets, cyclicImports.importReads = some reads ∧
      cyclicImports.importTargetsConn plainOrders fuel = some targets ∧
      SeesClosed reads (fun file x => x ∈ targets.getD file []) := by
  have hsome : cyclicImports.importReads.isSome = true := by decide
  obtain ⟨reads, hreads⟩ := Option.isSome_iff_exists.mp hsome
  obtain ⟨⟨bound, hbound⟩, hleast⟩ := importTargetsConn_least hreads
  obtain ⟨targets, ht⟩ := hbound bound (Nat.le_refl bound) plainOrders
  exact ⟨reads, bound, targets, hreads, ht, (hleast _ _ _ ht).2.1⟩

example : (cyclicImports.importTargetsConn plainOrders 9).map (fun t => t.getD "b.rs" []) =
    some ["b.rs", "a.rs", "lib.rs"] := by decide

end Store

end Dagayn
