import Dagayn.Grouping
import Dagayn.PathKeys
import Dagayn.Sorted
import Dagayn.Store
import Mathlib

/-!
# Single and batched lookups

`get_edges_by_source`, `get_edges_by_target`, `get_node` and `get_nodes_by_file` ask for one
name under its candidates; `get_edges_by_endpoints`, `get_nodes_by_qualified_names` and
`get_nodes_by_files` collect the candidates of many names, ask for them in chunks and file
each row under the names it answers. `lookups_agree` is that they give the same rows.
-/

namespace Dagayn

namespace Lookups

open Grouping

/-- The order in which a `HashSet` or the keys of a `HashMap` come. -/
structure HashOrder where
  order : List String → List String
  perm : ∀ l, (order l).Perm l

section Single

variable (k : PathKeys) (s : Store)

def getEdgesByEndpoint (column : EdgeRow → String) (qualifiedName : String) : List EdgeRow :=
  keepFirst EdgeRow.id ((k.qualifiedKeyCandidates qualifiedName).flatMap fun key =>
    s.edges.rows.filter fun e => column e = key)

def getEdgesBySource : String → List EdgeRow := getEdgesByEndpoint k s EdgeRow.source

def getEdgesByTarget : String → List EdgeRow := getEdgesByEndpoint k s EdgeRow.target

def getNode (qualifiedName : String) : Option NodeRow :=
  (k.qualifiedKeyCandidates qualifiedName).findSome? s.nodes.find

def getNodesByFile (filePath : String) : List NodeRow :=
  keepFirst NodeRow.id ((k.fileKeyCandidates filePath).flatMap fun key =>
    s.nodes.rows.filter fun n => n.input.filePath = key)

end Single

section Batched

variable (k : PathKeys) (h : HashOrder) (s : Store)

def normalizedToOriginals (qualifiedNames : List String) : Dict String (List String) :=
  multimap (qualifiedNames.map fun qn => (k.normalizeQualifiedKey qn, qn))

/-- The names an edge is filed under by one of its ends. -/
def endpointRoute (qualifiedNames : List String) (column : EdgeRow → String) (e : EdgeRow) :
    List String :=
  match (normalizedToOriginals k qualifiedNames).lookup (column e) with
  | some originals => originals
  | none => if column e ∈ qualifiedNames then [column e] else []

/-- The sorted keys of `get_edges_by_endpoints`. -/
def endpointKeys (qualifiedNames : List String) : List String :=
  sortBy id (keepFirst id (qualifiedNames.flatMap fun qn => [qn, k.normalizeQualifiedKey qn]))

def endpointRows (qualifiedNames : List String) : List EdgeRow :=
  (chunksOf 225 (endpointKeys k qualifiedNames)).flatMap fun chunk =>
    s.edges.rows.filter fun e => e.source ∈ chunk ∨ e.target ∈ chunk

/-- `get_edges_by_endpoints`: the outgoing and the incoming edges. -/
def getEdgesByEndpoints (qualifiedNames : List String) :
    Dict String (List EdgeRow) × Dict String (List EdgeRow) :=
  let empty : Groups String EdgeRow Nat := start qualifiedNames
  if qualifiedNames = [] then (empty.rows, empty.rows)
  else
    let found := (endpointRows k s qualifiedNames).foldl (fun g e =>
      (fileRow EdgeRow.id (endpointRoute k qualifiedNames EdgeRow.source) g.1 e,
        fileRow EdgeRow.id (endpointRoute k qualifiedNames EdgeRow.target) g.2 e)) (empty, empty)
    (found.1.rows, found.2.rows)

/-- `entry(key).or_insert(value)`. -/
def orInsert {ν : Type} (d : Dict String ν) (key : String) (value : ν) : Dict String ν :=
  if (d.lookup key).isSome then d else d.insert key value

/-- The rows `get_nodes_by_qualified_names` asks for. -/
def qualifiedRows (qualifiedNames : List String) : List NodeRow :=
  let keys := keepFirst id (qualifiedNames.flatMap fun qn =>
    let normalized := k.normalizeQualifiedKey qn
    if normalized = qn then [qn] else [qn, normalized])
  (chunksOf 450 (h.order keys)).flatMap fun chunk =>
    s.nodes.rows.filter fun n => n.qualifiedName ∈ chunk

def rowsByQn (qualifiedNames : List String) : Dict String NodeRow :=
  (qualifiedRows k h s qualifiedNames).foldl (fun d n => orInsert d n.qualifiedName n) ∅

def getNodesByQualifiedNames (qualifiedNames : List String) : Dict String NodeRow :=
  if qualifiedNames = [] then ∅
  else
    let normalizedFor : Dict String String :=
      qualifiedNames.foldl (fun d qn => d.insert qn (k.normalizeQualifiedKey qn)) ∅
    let rows := rowsByQn k h s qualifiedNames
    qualifiedNames.foldl (fun out original =>
      match rows.lookup original with
      | some node => out.insert original node
      | none =>
          match (normalizedFor.lookup original).bind fun normalized => rows.lookup normalized with
          | some node => out.insert original node
          | none => out) ∅

def keyToOriginals (filePaths : List String) : Dict String (List String) :=
  multimap (filePaths.flatMap fun p => (k.fileKeyCandidates p).map fun key => (key, p))

def getNodesByFiles (filePaths : List String) : Dict String (List NodeRow) :=
  let empty : Groups String NodeRow Nat := start filePaths
  if filePaths = [] then empty.rows
  else
    let originals := keyToOriginals k filePaths
    (fileRows NodeRow.id (fun n => (originals.lookup n.input.filePath).getD []) empty
      ((chunksOf 450 (h.order originals.keys)).flatMap fun chunk =>
        s.nodes.rows.filter fun n => n.input.filePath ∈ chunk)).rows

end Batched

/-! ## Edges by their ends -/

section Edges

variable {k : PathKeys} {s : Store} {qualifiedNames : List String}

theorem mem_qualifiedKeyCandidates {key qn : String} :
    key ∈ k.qualifiedKeyCandidates qn ↔ key = qn ∨ key = k.normalizeQualifiedKey qn := by
  simp only [PathKeys.qualifiedKeyCandidates]
  split
  · rename_i heq
    simp [heq]
  · simp

theorem lookup_normalizedToOriginals (key : String) :
    (normalizedToOriginals k qualifiedNames).lookup key =
      if ∃ qn ∈ qualifiedNames, k.normalizeQualifiedKey qn = key then
        some (qualifiedNames.filter fun qn => k.normalizeQualifiedKey qn = key)
      else none := by
  rw [normalizedToOriginals, lookup_multimap, List.map_map, List.filter_map, List.map_map]
  have hkeys : key ∈ qualifiedNames.map (Prod.fst ∘ fun qn => (k.normalizeQualifiedKey qn, qn)) ↔
      ∃ qn ∈ qualifiedNames, k.normalizeQualifiedKey qn = key := List.mem_map
  simp only [hkeys]
  split
  · exact congrArg some (List.map_id _)
  · rfl

/-- A name has the edges that one of its candidates has. The case to see: the end is the
normal form of one name and itself another one; then it is its own normal form. -/
theorem mem_endpointRoute {column : EdgeRow → String} {e : EdgeRow} {qn : String}
    (hqn : qn ∈ qualifiedNames) :
    qn ∈ endpointRoute k qualifiedNames column e ↔ column e ∈ k.qualifiedKeyCandidates qn := by
  rw [mem_qualifiedKeyCandidates, endpointRoute, lookup_normalizedToOriginals]
  by_cases hnormal : ∃ other ∈ qualifiedNames, k.normalizeQualifiedKey other = column e
  · rw [if_pos hnormal]
    simp only [List.mem_filter, decide_eq_true_eq, hqn, true_and]
    constructor
    · exact fun heq => .inr heq.symm
    · rintro (heq | heq)
      · obtain ⟨other, -, hother⟩ := hnormal
        rw [← heq, ← hother, k.normalizeQualifiedKey_idem]
      · exact heq.symm
  · rw [if_neg hnormal]
    change qn ∈ (if column e ∈ qualifiedNames then [column e] else []) ↔ _
    constructor
    · intro hmem
      split at hmem
      · exact .inl (List.mem_singleton.mp hmem).symm
      · cases hmem
    · rintro (heq | heq)
      · rw [if_pos (heq ▸ hqn), heq]
        exact List.mem_singleton_self qn
      · exact absurd ⟨qn, hqn, heq.symm⟩ hnormal

theorem mem_endpointKeys {key : String} : key ∈ endpointKeys k qualifiedNames ↔
    ∃ qn ∈ qualifiedNames, key ∈ k.qualifiedKeyCandidates qn := by
  have hkept : ∀ keys : List String, key ∈ keepFirst id keys ↔ key ∈ keys := fun keys =>
    mem_keepFirst_of_inj fun _ _ _ _ heq => heq
  rw [endpointKeys, (sortBy_perm _ _).mem_iff, hkept, List.mem_flatMap]
  simp [mem_qualifiedKeyCandidates]

theorem mem_endpointRows {e : EdgeRow} : e ∈ endpointRows k s qualifiedNames ↔
    e ∈ s.edges.rows ∧
      (e.source ∈ endpointKeys k qualifiedNames ∨ e.target ∈ endpointKeys k qualifiedNames) := by
  have hchunks : ∀ key, (∃ chunk ∈ chunksOf 225 (endpointKeys k qualifiedNames), key ∈ chunk) ↔
      key ∈ endpointKeys k qualifiedNames := fun key => mem_chunksOf (by decide)
  simp only [endpointRows, List.mem_flatMap, List.mem_filter, decide_eq_true_eq]
  constructor
  · rintro ⟨chunk, hchunk, he, hend | hend⟩
    · exact ⟨he, .inl ((hchunks _).mp ⟨chunk, hchunk, hend⟩)⟩
    · exact ⟨he, .inr ((hchunks _).mp ⟨chunk, hchunk, hend⟩)⟩
  · rintro ⟨he, hend | hend⟩
    · obtain ⟨chunk, hchunk, hin⟩ := (hchunks _).mpr hend
      exact ⟨chunk, hchunk, he, .inl hin⟩
    · obtain ⟨chunk, hchunk, hin⟩ := (hchunks _).mpr hend
      exact ⟨chunk, hchunk, he, .inr hin⟩

theorem filed_perm {column : EdgeRow → String} {qn : String} (hqn : qn ∈ qualifiedNames)
    (hcolumn : ∀ e, column e ∈ endpointKeys k qualifiedNames →
      e.source ∈ endpointKeys k qualifiedNames ∨ e.target ∈ endpointKeys k qualifiedNames) :
    (keepFirst EdgeRow.id ((endpointRows k s qualifiedNames).filter fun e =>
      decide (qn ∈ endpointRoute k qualifiedNames column e))).Perm
        (getEdgesByEndpoint k s column qn) := by
  have hsingle : ∀ e, e ∈ (k.qualifiedKeyCandidates qn).flatMap (fun key =>
      s.edges.rows.filter fun e => column e = key) ↔
        e ∈ s.edges.rows ∧ column e ∈ k.qualifiedKeyCandidates qn := by
    intro e
    simp only [List.mem_flatMap, List.mem_filter, decide_eq_true_eq]
    constructor
    · rintro ⟨key, hkey, he, rfl⟩
      exact ⟨he, hkey⟩
    · exact fun ⟨he, hkey⟩ => ⟨column e, hkey, he, rfl⟩
  refine keepFirst_perm (fun a ha b hb => ?_) fun e => ?_
  · exact List.inj_on_of_nodup_map s.edges.ids_nodup ((hsingle a).mp ha).1 ((hsingle b).mp hb).1
  · rw [hsingle, List.mem_filter, mem_endpointRows, decide_eq_true_eq, mem_endpointRoute hqn]
    constructor
    · exact fun ⟨⟨he, _⟩, hkey⟩ => ⟨he, hkey⟩
    · exact fun ⟨he, hkey⟩ => ⟨⟨he, hcolumn e (mem_endpointKeys.mpr ⟨qn, hqn, hkey⟩)⟩, hkey⟩

theorem foldl_pair {α β γ : Type} (f : α → γ → α) (g : β → γ → β) (cs : List γ) :
    ∀ (a : α) (b : β), cs.foldl (fun p c => (f p.1 c, g p.2 c)) (a, b) =
      (cs.foldl f a, cs.foldl g b) := by
  induction cs with
  | nil => exact fun _ _ => rfl
  | cons c cs ih => exact fun a b => ih (f a c) (g b c)

theorem getEdgesByEndpoints_eq (k : PathKeys) (s : Store) (qualifiedNames : List String) :
    getEdgesByEndpoints k s qualifiedNames =
      ((fileRows EdgeRow.id (endpointRoute k qualifiedNames EdgeRow.source)
          (start qualifiedNames) (endpointRows k s qualifiedNames)).rows,
        (fileRows EdgeRow.id (endpointRoute k qualifiedNames EdgeRow.target)
          (start qualifiedNames) (endpointRows k s qualifiedNames)).rows) := by
  unfold getEdgesByEndpoints
  split
  · rename_i hnil
    subst hnil
    have hrows : endpointRows k s [] = [] := by
      rw [endpointRows, show endpointKeys k [] = [] from rfl, chunksOf_nil (by decide)]
      rfl
    rw [hrows]
    rfl
  · simp only [foldl_pair, fileRows]

theorem getEdgesByEndpoints_perm (k : PathKeys) (s : Store) (qualifiedNames : List String) :
    (∀ qn ∈ qualifiedNames,
      (∃ out, (getEdgesByEndpoints k s qualifiedNames).1.lookup qn = some out ∧
        out.Perm (getEdgesBySource k s qn)) ∧
      ∃ found, (getEdgesByEndpoints k s qualifiedNames).2.lookup qn = some found ∧
        found.Perm (getEdgesByTarget k s qn)) ∧
    ∀ qn ∉ qualifiedNames, (getEdgesByEndpoints k s qualifiedNames).1.lookup qn = none ∧
      (getEdgesByEndpoints k s qualifiedNames).2.lookup qn = none := by
  rw [getEdgesByEndpoints_eq]
  simp only [lookup_fileRows]
  refine ⟨fun qn hqn => ⟨⟨_, if_pos hqn, ?_⟩, ⟨_, if_pos hqn, ?_⟩⟩,
    fun qn hqn => ⟨if_neg hqn, if_neg hqn⟩⟩
  · exact filed_perm hqn fun e he => .inl he
  · exact filed_perm hqn fun e he => .inr he

end Edges

/-! ## Nodes by name -/

section Nodes

variable {k : PathKeys} {h : HashOrder} {s : Store} {qualifiedNames : List String}

theorem lookup_orInsert {ν : Type} (d : Dict String ν) (key key' : String) (v : ν) :
    (orInsert d key v).lookup key' =
      (d.lookup key').or (if key' = key then some v else none) := by
  unfold orInsert
  by_cases hsome : (d.lookup key).isSome = true
  · rw [if_pos hsome]
    split
    · rename_i heq
      obtain ⟨v', hv'⟩ := Option.isSome_iff_exists.mp hsome
      rw [heq, hv']
      rfl
    · rw [Option.or_none]
  · rw [if_neg hsome, Dict.lookup_insert_ite]
    split
    · rename_i heq
      rw [heq, Option.not_isSome_iff_eq_none.mp hsome]
      rfl
    · rw [Option.or_none]

theorem lookup_foldl_orInsert {ν : Type} (name : ν → String) (rows : List ν) :
    ∀ (d : Dict String ν) (key : String),
      (rows.foldl (fun d r => orInsert d (name r) r) d).lookup key =
        (d.lookup key).or (rows.find? fun r => name r = key) := by
  induction rows with
  | nil => simp
  | cons r rows ih =>
      intro d key
      rw [List.foldl_cons, ih, lookup_orInsert, List.find?_cons, Option.or_assoc]
      by_cases hkey : key = name r
      · simp [hkey]
      · simp [hkey, Ne.symm hkey]

theorem lookup_rowsByQn {key qn : String} (hqn : qn ∈ qualifiedNames)
    (hkey : key ∈ k.qualifiedKeyCandidates qn) :
    (rowsByQn k h s qualifiedNames).lookup key = s.nodes.find key := by
  have hmem : ∀ n ∈ qualifiedRows k h s qualifiedNames, n ∈ s.nodes.rows := by
    intro n hn
    obtain ⟨chunk, -, hn⟩ := List.mem_flatMap.mp hn
    exact (List.mem_filter.mp hn).1
  have hnamed : ∀ n ∈ s.nodes.rows, n.qualifiedName = key →
      n ∈ qualifiedRows k h s qualifiedNames := by
    intro n hn hname
    have hkept : key ∈ keepFirst id (qualifiedNames.flatMap k.qualifiedKeyCandidates) :=
      (mem_keepFirst_of_inj fun _ _ _ _ heq => heq).mpr (List.mem_flatMap.mpr ⟨qn, hqn, hkey⟩)
    obtain ⟨chunk, hchunk, hin⟩ :=
      (mem_chunksOf (n := 450) (by decide)).mpr ((h.perm _).mem_iff.mpr hkept)
    exact List.mem_flatMap.mpr
      ⟨chunk, hchunk, List.mem_filter.mpr ⟨hn, by simpa [hname] using hin⟩⟩
  rw [rowsByQn, lookup_foldl_orInsert NodeRow.qualifiedName, AList.lookup_empty, Option.none_or,
    NodeTable.find]
  cases hfind : s.nodes.rows.find? fun r => decide (r.qualifiedName = key) with
  | none =>
      rw [List.find?_eq_none] at hfind ⊢
      exact fun n hn => hfind n (hmem n hn)
  | some n =>
      have hname : n.qualifiedName = key := by simpa using List.find?_some hfind
      have hn := List.mem_of_find?_eq_some hfind
      obtain ⟨m, hm⟩ : ∃ m, (qualifiedRows k h s qualifiedNames).find?
          (fun r => decide (r.qualifiedName = key)) = some m := by
        rw [← Option.isSome_iff_exists, List.find?_isSome]
        exact ⟨n, hnamed n hn hname, decide_eq_true hname⟩
      have hmname : m.qualifiedName = key := by simpa using List.find?_some hm
      rw [hm, List.inj_on_of_nodup_map s.nodes.names_nodup (hmem m (List.mem_of_find?_eq_some hm))
        hn (hmname.trans hname.symm)]

theorem getNode_eq (k : PathKeys) (s : Store) (qn : String) :
    getNode k s qn = (s.nodes.find qn).or (s.nodes.find (k.normalizeQualifiedKey qn)) := by
  simp only [getNode, PathKeys.qualifiedKeyCandidates]
  split
  · rename_i heq
    rw [heq, Option.or_self]
    cases hfind : s.nodes.find qn <;> simp [List.findSome?, hfind]
  · cases hfind : s.nodes.find qn <;> simp [List.findSome?, hfind]
    cases s.nodes.find (k.normalizeQualifiedKey qn) <;> rfl

theorem lookup_foldl_insert_of {ν : Type} (f : String → ν) (keys : List String) :
    ∀ (d : Dict String ν) (key : String),
      (keys.foldl (fun d k => d.insert k (f k)) d).lookup key =
        if key ∈ keys then some (f key) else d.lookup key := by
  induction keys with
  | nil => simp
  | cons a keys ih =>
      intro d key
      rw [List.foldl_cons, ih, Dict.lookup_insert_ite]
      by_cases hmem : key ∈ keys
      · simp [hmem]
      · by_cases hka : key = a
        · simp [hka]
        · simp [hmem, hka]

theorem lookup_foldl_insert_some {ν : Type} (f : String → Option ν) (keys : List String) :
    ∀ (d : Dict String ν) (key : String), (∀ v, d.lookup key = some v → f key = some v) →
      (keys.foldl (fun d k => match f k with | some v => d.insert k v | none => d) d).lookup key =
        if key ∈ keys then f key else d.lookup key := by
  induction keys with
  | nil => simp
  | cons a keys ih =>
      intro d key hd
      rw [List.foldl_cons]
      cases hfa : f a with
      | none =>
          rw [ih d key hd]
          by_cases hmem : key ∈ keys
          · simp [hmem]
          · by_cases hka : key = a
            · subst hka
              have hnone : d.lookup key = none := by
                by_contra hsome
                obtain ⟨v, hv⟩ := Option.ne_none_iff_exists'.mp hsome
                rw [hd v hv] at hfa
                cases hfa
              simp [hmem, hfa, hnone]
            · simp [hmem, hka]
      | some v =>
          rw [ih _ key fun v' hv' => ?_, Dict.lookup_insert_ite]
          · by_cases hmem : key ∈ keys
            · simp [hmem]
            · by_cases hka : key = a
              · subst hka
                simp [hmem, hfa]
              · simp [hmem, hka]
          · rw [Dict.lookup_insert_ite] at hv'
            split at hv'
            · rename_i hka
              rw [hka, hfa, ← hv']
            · exact hd v' hv'

theorem lookup_getNodesByQualifiedNames (k : PathKeys) (h : HashOrder) (s : Store)
    (qualifiedNames : List String) (qn : String) :
    (getNodesByQualifiedNames k h s qualifiedNames).lookup qn =
      if qn ∈ qualifiedNames then getNode k s qn else none := by
  unfold getNodesByQualifiedNames
  split
  · rename_i hnil
    subst hnil
    rfl
  · let found := fun original => ((rowsByQn k h s qualifiedNames).lookup original).or
      (((qualifiedNames.foldl (fun d qn => d.insert qn (k.normalizeQualifiedKey qn))
        (∅ : Dict String String)).lookup original).bind
          (rowsByQn k h s qualifiedNames).lookup)
    have hfold := lookup_foldl_insert_some found qualifiedNames ∅ qn nofun
    refine Eq.trans ?_ (hfold.trans ?_)
    · refine congrArg (AList.lookup qn) (List.foldl_ext _ _ _ fun out original _ => ?_)
      simp only [found]
      cases (rowsByQn k h s qualifiedNames).lookup original with
      | some node => rfl
      | none =>
          rw [Option.none_or]
          generalize Option.bind _ _ = second
          cases second <;> rfl
    · split
      · rename_i hqn
        have hself : qn ∈ k.qualifiedKeyCandidates qn := mem_qualifiedKeyCandidates.mpr (.inl rfl)
        have hnormal : k.normalizeQualifiedKey qn ∈ k.qualifiedKeyCandidates qn :=
          mem_qualifiedKeyCandidates.mpr (.inr rfl)
        simp only [found]
        rw [lookup_foldl_insert_of, if_pos hqn, Option.bind_some, lookup_rowsByQn hqn hself,
          lookup_rowsByQn hqn hnormal, getNode_eq]
      · rfl

end Nodes

/-! ## Nodes by file -/

section Files

variable {k : PathKeys} {filePaths : List String}

theorem mem_keyToOriginals {key path : String} :
    path ∈ ((keyToOriginals k filePaths).lookup key).getD [] ↔
      path ∈ filePaths ∧ key ∈ k.fileKeyCandidates path := by
  have hpair : ∀ key path, (key, path) ∈ (filePaths.flatMap fun p =>
      (k.fileKeyCandidates p).map fun key => (key, p)) ↔
        path ∈ filePaths ∧ key ∈ k.fileKeyCandidates path := by
    intro key path
    simp only [List.mem_flatMap, List.mem_map, Prod.mk.injEq]
    constructor
    · rintro ⟨p, hp, key', hkey', rfl, rfl⟩
      exact ⟨hp, hkey'⟩
    · exact fun ⟨hp, hkey⟩ => ⟨path, hp, key, hkey, rfl, rfl⟩
  rw [keyToOriginals, lookup_multimap, ← hpair]
  generalize (filePaths.flatMap fun p => (k.fileKeyCandidates p).map fun key => (key, p)) = pairs
  split
  · simp only [Option.getD_some, List.mem_map, List.mem_filter, decide_eq_true_eq]
    constructor
    · rintro ⟨⟨key', path'⟩, ⟨hmem, rfl⟩, rfl⟩
      exact hmem
    · exact fun hmem => ⟨(key, path), ⟨hmem, rfl⟩, rfl⟩
  · rename_i hnone
    simp only [Option.getD_none, List.not_mem_nil, false_iff]
    exact fun hmem => hnone (List.mem_map_of_mem hmem)

theorem getNodesByFiles_perm (k : PathKeys) (h : HashOrder) (s : Store) (filePaths : List String) :
    (∀ path ∈ filePaths, ∃ found, (getNodesByFiles k h s filePaths).lookup path = some found ∧
      found.Perm (getNodesByFile k s path)) ∧
    ∀ path ∉ filePaths, (getNodesByFiles k h s filePaths).lookup path = none := by
  have heq : getNodesByFiles k h s filePaths =
      (fileRows NodeRow.id
        (fun n => ((keyToOriginals k filePaths).lookup n.input.filePath).getD []) (start filePaths)
        ((chunksOf 450 (h.order (keyToOriginals k filePaths).keys)).flatMap fun chunk =>
          s.nodes.rows.filter fun n => n.input.filePath ∈ chunk)).rows := by
    unfold getNodesByFiles
    split
    · rename_i hnil
      subst hnil
      have hkeys : h.order (keyToOriginals k []).keys = [] := (h.perm []).eq_nil
      rw [hkeys, chunksOf_nil (by decide)]
      rfl
    · rfl
  rw [heq]
  simp only [lookup_fileRows]
  refine ⟨fun path hpath => ⟨_, if_pos hpath, ?_⟩, fun path hpath => if_neg hpath⟩
  have hsingle : ∀ n, n ∈ (k.fileKeyCandidates path).flatMap (fun key =>
      s.nodes.rows.filter fun n => n.input.filePath = key) ↔
        n ∈ s.nodes.rows ∧ n.input.filePath ∈ k.fileKeyCandidates path := by
    intro n
    simp only [List.mem_flatMap, List.mem_filter, decide_eq_true_eq]
    constructor
    · rintro ⟨key, hkey, hn, rfl⟩
      exact ⟨hn, hkey⟩
    · rintro ⟨hn, hkey⟩
      exact ⟨n.input.filePath, hkey, hn, rfl⟩
  have hkeyed : ∀ key, key ∈ k.fileKeyCandidates path →
      ∃ chunk ∈ chunksOf 450 (h.order (keyToOriginals k filePaths).keys), key ∈ chunk := by
    intro key hkey
    refine (mem_chunksOf (by decide)).mpr ((h.perm _).mem_iff.mpr (AList.lookup_isSome.mp ?_))
    have hmem := mem_keyToOriginals.mpr ⟨hpath, hkey⟩
    cases hlookup : (keyToOriginals k filePaths).lookup key with
    | none =>
        rw [hlookup] at hmem
        cases hmem
    | some originals => rfl
  refine keepFirst_perm (fun a ha b hb => ?_) fun n => ?_
  · exact List.inj_on_of_nodup_map s.nodes.ids_nodup ((hsingle a).mp ha).1 ((hsingle b).mp hb).1
  · rw [hsingle, List.mem_filter, decide_eq_true_eq, mem_keyToOriginals, List.mem_flatMap]
    constructor
    · rintro ⟨⟨chunk, -, hn⟩, -, hkey⟩
      exact ⟨(List.mem_filter.mp hn).1, hkey⟩
    · rintro ⟨hn, hkey⟩
      obtain ⟨chunk, hchunk, hin⟩ := hkeyed _ hkey
      exact ⟨⟨chunk, hchunk, List.mem_filter.mpr ⟨hn, by simpa using hin⟩⟩, hpath, hkey⟩

end Files

/-- The batched lookups give each name what the single ones give it, and no other name
anything. -/
theorem lookups_agree (k : PathKeys) (h : HashOrder) (s : Store) (names : List String) :
    (∀ qn ∈ names,
      (∃ out, (getEdgesByEndpoints k s names).1.lookup qn = some out ∧
        out.Perm (getEdgesBySource k s qn)) ∧
      (∃ found, (getEdgesByEndpoints k s names).2.lookup qn = some found ∧
        found.Perm (getEdgesByTarget k s qn)) ∧
      (getNodesByQualifiedNames k h s names).lookup qn = getNode k s qn ∧
      ∃ nodes, (getNodesByFiles k h s names).lookup qn = some nodes ∧
        nodes.Perm (getNodesByFile k s qn)) ∧
    ∀ qn ∉ names,
      (getEdgesByEndpoints k s names).1.lookup qn = none ∧
      (getEdgesByEndpoints k s names).2.lookup qn = none ∧
      (getNodesByQualifiedNames k h s names).lookup qn = none ∧
      (getNodesByFiles k h s names).lookup qn = none := by
  obtain ⟨hedges, hnoEdges⟩ := getEdgesByEndpoints_perm k s names
  obtain ⟨hfiles, hnoFiles⟩ := getNodesByFiles_perm k h s names
  constructor
  · intro qn hqn
    refine ⟨(hedges qn hqn).1, (hedges qn hqn).2, ?_, hfiles qn hqn⟩
    rw [lookup_getNodesByQualifiedNames, if_pos hqn]
  · intro qn hqn
    refine ⟨(hnoEdges qn hqn).1, (hnoEdges qn hqn).2, ?_, hnoFiles qn hqn⟩
    rw [lookup_getNodesByQualifiedNames, if_neg hqn]

end Lookups

end Dagayn
