import Dagayn.ImpactRadius
import Dagayn.PathKeys
import Dagayn.Update

/-!
# The files that depend on changed files

`get_direct_dependents` over the stored nodes and edges, and `find_dependents` as the update
calls it on them. A file depends on another when one of its edges imports that file or calls,
imports, extends or implements a node of it; the keys under which the files are looked up are
those of `PathKeys`. `find_dependents` goes out hop by hop: its list is the levels of
`Levels.levelsFrom`, cut off behind 500 files (`findDependents_levels`).
-/

namespace Dagayn

namespace Dependents

open Impact Levels

def expandFileKeys (k : PathKeys) (filePaths : List String) : List String :=
  keepFirst id (filePaths.flatMap k.fileKeyCandidates)

def dependencyKinds : List String := ["CALLS", "IMPORTS_FROM", "INHERITS", "IMPLEMENTS"]

/-- `SELECT file_path FROM edges WHERE target_qualified IN (…) AND kind IN (…)`, in chunks. -/
def filesOfEdgesTo (rows : Impact.GraphRows) (kinds targets : List String) : List String :=
  (chunksOf 450 targets).flatMap fun chunk =>
    (rows.edges.filter fun e => e.target ∈ chunk ∧ e.kind ∈ kinds).map (·.filePath)

/-- `SELECT qualified_name FROM nodes WHERE file_path IN (…)`, in chunks. -/
def namesInFiles (rows : Impact.GraphRows) (fileKeys : List String) : List String :=
  (chunksOf 450 fileKeys).flatMap fun chunk =>
    (rows.nodes.rows.filter (·.input.filePath ∈ chunk)).map NodeRow.qualifiedName

def getDirectDependents (k : PathKeys) (rows : Impact.GraphRows) (filePaths : List String) :
    List String :=
  if filePaths = [] then []
  else
    let fpKeys := keepFirst id (filePaths.flatMap k.qualifiedKeyCandidates)
    let nodeQns := namesInFiles rows (expandFileKeys k filePaths)
    let dependents := filesOfEdgesTo rows ["IMPORTS_FROM"] fpKeys ++
      filesOfEdgesTo rows dependencyKinds nodeQns
    pathSet (dependents.filter (· ∉ filePaths))

/-- An edge in file `v` leads to file `u` or to a node of it. -/
def Depends (k : PathKeys) (rows : Impact.GraphRows) (u v : String) : Prop :=
  ∃ e ∈ rows.edges, e.filePath = v ∧
    ((e.kind = "IMPORTS_FROM" ∧ e.target ∈ k.qualifiedKeyCandidates u) ∨
      (e.kind ∈ dependencyKinds ∧ ∃ node ∈ rows.nodes.rows,
        node.input.filePath ∈ k.fileKeyCandidates u ∧ node.qualifiedName = e.target))

/-- The toolchain of an update whose store holds these rows. -/
def onRows (k : PathKeys) (rows : Impact.GraphRows) (t : Toolchain) : Toolchain :=
  { t with directDependents := getDirectDependents k rows }

variable {k : PathKeys} {rows : Impact.GraphRows} {t : Toolchain}

/-! ## The queries -/

theorem mem_filesOfEdgesTo {kinds targets : List String} {f : String} :
    f ∈ filesOfEdgesTo rows kinds targets ↔
      ∃ e ∈ rows.edges, e.filePath = f ∧ e.kind ∈ kinds ∧ e.target ∈ targets := by
  simp only [filesOfEdgesTo, List.mem_flatMap, List.mem_map, List.mem_filter, decide_eq_true_eq]
  constructor
  · rintro ⟨chunk, hchunk, e, ⟨he, htarget, hkind⟩, rfl⟩
    exact ⟨e, he, rfl, hkind, (mem_chunksOf (by omega)).mp ⟨chunk, hchunk, htarget⟩⟩
  · rintro ⟨e, he, rfl, hkind, htarget⟩
    obtain ⟨chunk, hchunk, htarget⟩ := (mem_chunksOf (n := 450) (by omega)).mpr htarget
    exact ⟨chunk, hchunk, e, ⟨he, htarget, hkind⟩, rfl⟩

theorem mem_namesInFiles {fileKeys : List String} {qn : String} :
    qn ∈ namesInFiles rows fileKeys ↔
      ∃ node ∈ rows.nodes.rows, node.input.filePath ∈ fileKeys ∧ node.qualifiedName = qn := by
  simp only [namesInFiles, List.mem_flatMap, List.mem_map, List.mem_filter, decide_eq_true_eq]
  constructor
  · rintro ⟨chunk, hchunk, node, ⟨hnode, hfile⟩, rfl⟩
    exact ⟨node, hnode, (mem_chunksOf (by omega)).mp ⟨chunk, hchunk, hfile⟩, rfl⟩
  · rintro ⟨node, hnode, hfile, rfl⟩
    obtain ⟨chunk, hchunk, hfile⟩ := (mem_chunksOf (n := 450) (by omega)).mpr hfile
    exact ⟨chunk, hchunk, node, ⟨hnode, hfile⟩, rfl⟩

theorem mem_keys {keys : String → List String} {filePaths : List String} {key : String} :
    key ∈ keepFirst id (filePaths.flatMap keys) ↔ ∃ u ∈ filePaths, key ∈ keys u := by
  rw [← List.mem_flatMap]
  exact mem_dedupe

theorem pathSet_sorted (paths : List String) : (pathSet paths).Pairwise (· < ·) :=
  ((List.pairwise_insertionSort (· ≤ ·) paths.dedup).and (nodup_pathSet paths)).imp
    fun h => lt_of_le_of_ne h.1 h.2

/-- The dependents of a list of files are those of its members, less the files themselves. -/
theorem mem_getDirectDependents {filePaths : List String} {v : String} :
    v ∈ getDirectDependents k rows filePaths ↔
      v ∉ filePaths ∧ ∃ u ∈ filePaths, Depends k rows u v := by
  unfold getDirectDependents
  split
  · rename_i hnil
    simp [hnil]
  · simp only [mem_pathSet, List.mem_filter, List.mem_append, decide_eq_true_eq,
      mem_filesOfEdgesTo, mem_namesInFiles, expandFileKeys, mem_keys, List.mem_singleton]
    rw [and_comm]
    refine and_congr_right fun _ => ?_
    constructor
    · rintro (⟨e, he, hfile, hkind, u, hu, htarget⟩ |
        ⟨e, he, hfile, hkind, node, hnode, ⟨u, hu, hkey⟩, hname⟩)
      · exact ⟨u, hu, e, he, hfile, .inl ⟨hkind, htarget⟩⟩
      · exact ⟨u, hu, e, he, hfile, .inr ⟨hkind, node, hnode, hkey, hname⟩⟩
    · rintro ⟨u, hu, e, he, hfile, ⟨hkind, htarget⟩ | ⟨hkind, node, hnode, hkey, hname⟩⟩
      · exact .inl ⟨e, he, hfile, hkind, u, hu, htarget⟩
      · exact .inr ⟨e, he, hfile, hkind, node, hnode, ⟨u, hu, hkey⟩, hname⟩

/-! ## The hops -/

/-- What one hop of `find_dependents` adds. -/
def hop (t : Toolchain) (visited frontier : List String) : List String :=
  pathSet ((t.directDependents frontier).filter (· ∉ visited))

theorem mem_hop {visited frontier : List String} (h : frontier ⊆ visited) (v : String) :
    v ∈ hop (onRows k rows t) visited frontier ↔
      v ∉ visited ∧ ∃ u ∈ frontier, Depends k rows u v := by
  rw [hop, mem_pathSet, List.mem_filter, decide_eq_true_eq, and_comm]
  refine and_congr_right fun hv => ?_
  have hmem : v ∈ getDirectDependents k rows frontier ↔
      v ∉ frontier ∧ ∃ u ∈ frontier, Depends k rows u v := mem_getDirectDependents
  exact hmem.trans (and_iff_right fun hin => hv (h hin))

theorem hop_nil (h : t.directDependents [] = []) (visited : List String) :
    hop t visited [] = [] := by
  rw [hop, h]
  rfl

theorem flatten_levelsFrom_nil (h : t.directDependents [] = []) : ∀ (n : Nat)
    (visited : List String), (levelsFrom (hop t) n visited []).flatten = []
  | 0, _ => rfl
  | n + 1, visited => by
      rw [levelsFrom, hop_nil h, List.flatten_cons, flatten_levelsFrom_nil h n]
      rfl

/-- The loop appends the levels and cuts their list off: what a later hop would add comes
behind the cap. -/
theorem dependentsFrom_eq (h : t.directDependents [] = []) : ∀ (n : Nat)
    (visited frontier ordered : List String), ordered.length ≤ 500 →
    t.dependentsFrom n visited frontier ordered =
      (ordered ++ (levelsFrom (hop t) n visited frontier).flatten).take 500 := by
  intro n
  induction n with
  | zero =>
      intro visited frontier ordered hlen
      rw [Toolchain.dependentsFrom, levelsFrom, List.flatten_nil, List.append_nil,
        List.take_of_length_le hlen]
  | succ n ih =>
      intro visited frontier ordered hlen
      rw [Toolchain.dependentsFrom]
      by_cases hfrontier : frontier = []
      · rw [if_pos hfrontier, hfrontier, flatten_levelsFrom_nil h, List.append_nil,
          List.take_of_length_le hlen]
      · rw [if_neg hfrontier, levelsFrom, List.flatten_cons, ← List.append_assoc]
        change (if 500 < (ordered ++ hop t visited frontier).length then
          (ordered ++ hop t visited frontier).take 500
          else t.dependentsFrom n (visited ++ hop t visited frontier) (hop t visited frontier)
            (ordered ++ hop t visited frontier)) = _
        by_cases hcap : 500 < (ordered ++ hop t visited frontier).length
        · have hle : 500 ≤ (ordered ++ hop t visited frontier).length := by omega
          rw [if_pos hcap, List.take_append_of_le_length hle]
        · rw [if_neg hcap]
          exact ih _ _ _ (by omega)

/-- The dependents come by hop and, of one hop, by name; the list is cut off behind 500
files. Up to there it is made of the files at each distance up to the hop limit, each once. -/
theorem findDependents_levels (k : PathKeys) (rows : Impact.GraphRows) (t : Toolchain)
    (roots : List String) :
    ∃ levels : List (List String),
      levels.length = t.dependentHops ∧
      (∀ i level, levels[i]? = some level → level.Pairwise (· < ·) ∧
        ∀ f, f ∈ level ↔ AtDistance (Depends k rows) (· ∈ roots) (i + 1) f) ∧
      (onRows k rows t).findDependents roots = levels.flatten.take 500 ∧
      levels.flatten.Nodup ∧
      (∀ f ∈ (onRows k rows t).findDependents roots, f ∉ roots) ∧
      ∀ f, f ∈ levels.flatten ↔ ∃ n, 1 ≤ n ∧ n ≤ t.dependentHops ∧
        AtDistance (Depends k rows) (· ∈ roots) n f := by
  obtain ⟨levels, hlevels⟩ :
      ∃ levels, levels = levelsFrom (hop (onRows k rows t)) t.dependentHops roots roots := ⟨_, rfl⟩
  have hlength : levels.length = t.dependentHops := hlevels ▸ length_levelsFrom _ _ _ _
  have hexact : ∀ i level, levels[i]? = some level →
      ∀ f, f ∈ level ↔ AtDistance (Depends k rows) (· ∈ roots) (i + 1) f := by
    intro i level hlevel f
    rw [hlevels] at hlevel
    have h := @levelsFrom_exact _ (Depends k rows) (· ∈ roots) _
      (fun visited frontier hsub v => mem_hop (t := t) hsub v) t.dependentHops 0 roots roots
      (fun v => by simp [atDistance_zero]) (fun v => atDistance_zero.symm) i level hlevel f
    rwa [Nat.zero_add, Nat.add_comm] at h
  have hsorted : ∀ level ∈ levels, level.Pairwise (· < ·) := by
    intro level hlevel
    obtain ⟨visited, frontier, rfl⟩ := mem_levelsFrom (hlevels ▸ hlevel)
    exact pathSet_sorted _
  have hmem : ∀ f, f ∈ levels.flatten ↔ ∃ n, 1 ≤ n ∧ n ≤ t.dependentHops ∧
      AtDistance (Depends k rows) (· ∈ roots) n f := by
    intro f
    rw [List.mem_flatten]
    constructor
    · rintro ⟨level, hlevel, hf⟩
      obtain ⟨i, hi⟩ := List.mem_iff_getElem?.mp hlevel
      have hlt : i < levels.length := (List.getElem?_eq_some_iff.mp hi).1
      exact ⟨i + 1, by omega, by omega, (hexact i level hi f).mp hf⟩
    · rintro ⟨n, hpos, hn, hat⟩
      obtain ⟨i, rfl⟩ : ∃ i, n = i + 1 := ⟨n - 1, by omega⟩
      have hlt : i < levels.length := by omega
      have hlevel := List.getElem?_eq_getElem hlt
      exact ⟨levels[i], List.getElem_mem hlt, (hexact i _ hlevel f).mpr hat⟩
  have hfind : (onRows k rows t).findDependents roots = levels.flatten.take 500 := by
    rw [hlevels]
    exact dependentsFrom_eq rfl _ roots roots [] (Nat.zero_le _)
  refine ⟨levels, hlength, fun i level hlevel =>
    ⟨hsorted level (List.mem_of_getElem? hlevel), hexact i level hlevel⟩, hfind, ?_, ?_, hmem⟩
  · refine @nodup_flatten_of_distances _ (Depends k rows) (· ∈ roots) levels 1
      (fun level hlevel => (hsorted level hlevel).imp ne_of_lt) ?_
    intro i level hlevel f hf
    rw [Nat.add_comm]
    exact (hexact i level hlevel f).mp hf
  · intro f hf hroot
    rw [hfind] at hf
    obtain ⟨n, hpos, -, hat⟩ := (hmem f).mp (List.mem_of_mem_take hf)
    have := hat.unique (atDistance_zero.mpr hroot)
    omega

end Dependents

end Dagayn
