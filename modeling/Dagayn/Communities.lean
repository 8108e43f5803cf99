import Dagayn.Distinct
import Dagayn.Entries
import Dagayn.Store

/-!
# The community tables

`nodes.community_id` and the `communities` table, with the queries that select nodes and
edges by a list of community ids. A list longer than SQLite takes as parameters is asked
for in chunks of 450. The edge query relates two ends, and asks for both in one chunk:
`within_iff` says which edges that misses.
-/

namespace Dagayn

namespace Communities

/-- A row of `nodes` with its `community_id`. -/
structure CommunityNode extends NodeRow where
  communityId : Option Int

def CommunityNode.isFile (n : CommunityNode) : Bool := n.input.kind = "File"

/-- A row of `communities`. -/
structure CommunityRow where
  id : Int
  name : String
  level : Int
  cohesion : Float
  size : Int
  dominantLanguage : String
  description : String

/-- The tables; `communities.id` is `AUTOINCREMENT`, with `seq` the last id given out. -/
structure CommunityStore where
  nodes : List CommunityNode
  edges : EdgeTable
  communities : List CommunityRow
  seq : Int
  names_nodup : (nodes.map fun n => n.qualifiedName).Nodup
  ids_le : ∀ c ∈ communities, c.id ≤ seq

namespace CommunityStore

def inCommunities (ids : List Int) (n : CommunityNode) : Bool :=
  !n.isFile && n.communityId.any (· ∈ ids)

def getNodesByCommunityIds (s : CommunityStore) (ids : List Int) : List CommunityNode :=
  (chunksOf 450 ids).flatMap fun chunk => s.nodes.filter (inCommunities chunk)

def countNodesInCommunityIds (s : CommunityStore) (ids : List Int) : Nat :=
  ((chunksOf 450 ids).map fun chunk => s.nodes.countP (inCommunities chunk)).sum

def countNonFileNodes (s : CommunityStore) : Nat := s.nodes.countP fun n => !n.isFile

/-- The query of `get_edges_within_community_ids` for one list of ids: a row for each edge
with a source and a target node. -/
def edgesWithin (s : CommunityStore) (ids : List Int) : List EdgeRow :=
  s.edges.rows.flatMap fun e =>
    (s.nodes.filter fun n => n.qualifiedName = e.source && inCommunities ids n).flatMap fun _ =>
      (s.nodes.filter fun n => n.qualifiedName = e.target && inCommunities ids n).map fun _ => e

/-- `get_edges_within_community_ids`. The map gives its values in an order of its own; here
it is that of their first insertion. -/
def getEdgesWithinCommunityIds (s : CommunityStore) (ids : List Int) : List EdgeRow :=
  (Entries.setAll [] (((chunksOf 450 ids).flatMap s.edgesWithin).map fun e => (e.id, e))).map
    Prod.snd

end CommunityStore

open CommunityStore

/-! ## What the edge query finds -/

section Within

variable {s : CommunityStore} {ids : List Int} {e : EdgeRow}

def HasEnd (s : CommunityStore) (ids : List Int) (qualified : String) : Prop :=
  ∃ n ∈ s.nodes, n.qualifiedName = qualified ∧ inCommunities ids n = true

def Within (s : CommunityStore) (ids : List Int) (e : EdgeRow) : Prop :=
  HasEnd s ids e.source ∧ HasEnd s ids e.target

theorem hasEnd_mono {ids' : List Int} (h : ids ⊆ ids') {qualified : String}
    (hend : HasEnd s ids qualified) : HasEnd s ids' qualified := by
  obtain ⟨n, hn, hname, hin⟩ := hend
  refine ⟨n, hn, hname, ?_⟩
  rw [inCommunities, Bool.and_eq_true, Option.any_eq_true] at hin ⊢
  obtain ⟨hfile, c, hc, hmem⟩ := hin
  exact ⟨hfile, c, hc, by simpa using h (by simpa using hmem)⟩

theorem ends_cases (s : CommunityStore) (ids : List Int) (qualified : String) :
    (¬ HasEnd s ids qualified ∧
      (s.nodes.filter fun n => n.qualifiedName = qualified && inCommunities ids n) = []) ∨
    (HasEnd s ids qualified ∧
      ∃ n, (s.nodes.filter fun n => n.qualifiedName = qualified && inCommunities ids n) = [n]) := by
  have hmem : ∀ n, n ∈ (s.nodes.filter fun n => n.qualifiedName = qualified &&
      inCommunities ids n) ↔ n ∈ s.nodes ∧ n.qualifiedName = qualified ∧ inCommunities ids n := by
    simp [List.mem_filter]
  have hnodup : ((s.nodes.filter fun n => n.qualifiedName = qualified &&
      inCommunities ids n).map fun n => n.qualifiedName).Nodup :=
    s.names_nodup.sublist (List.filter_sublist.map _)
  rcases hrows : s.nodes.filter fun n => n.qualifiedName = qualified && inCommunities ids n with
    _ | ⟨n, _ | ⟨m, rest⟩⟩
  · left
    refine ⟨fun ⟨n, hn, hname, hin⟩ => ?_, hrows⟩
    have := (hmem n).mpr ⟨hn, hname, hin⟩
    rw [hrows] at this
    cases this
  · right
    obtain ⟨hn, hname, hin⟩ := (hmem n).mp (hrows ▸ List.mem_singleton_self n)
    exact ⟨⟨n, hn, hname, hin⟩, n, hrows⟩
  · have hn := (hmem n).mp (hrows ▸ List.mem_cons_self)
    have hm := (hmem m).mp (hrows ▸ List.mem_cons_of_mem _ List.mem_cons_self)
    rw [hrows, List.map_cons, List.nodup_cons, List.map_cons] at hnodup
    exact absurd (List.mem_cons.mpr (.inl (hn.2.1.trans hm.2.1.symm))) hnodup.1

theorem edgesWithin_eq (s : CommunityStore) (ids : List Int)
    [DecidablePred (Within s ids)] :
    s.edgesWithin ids = s.edges.rows.filter fun e => decide (Within s ids e) := by
  unfold edgesWithin
  induction s.edges.rows with
  | nil => rfl
  | cons e rows ih =>
      rw [List.flatMap_cons, ih, List.filter_cons]
      rcases ends_cases s ids e.source with ⟨hsource, hs⟩ | ⟨hsource, n, hs⟩
      · rw [hs, if_neg (by simpa using fun h : Within s ids e => hsource h.1)]
        rfl
      · rcases ends_cases s ids e.target with ⟨htarget, ht⟩ | ⟨htarget, m, ht⟩
        · rw [hs, ht, if_neg (by simpa using fun h : Within s ids e => htarget h.2)]
          rfl
        · have hwithin : Within s ids e := ⟨hsource, htarget⟩
          rw [hs, ht, if_pos (decide_eq_true hwithin)]
          rfl

theorem mem_edgesWithin : e ∈ s.edgesWithin ids ↔ e ∈ s.edges.rows ∧ Within s ids e := by
  classical
  rw [edgesWithin_eq, List.mem_filter, decide_eq_true_eq]

theorem edgesWithin_nodup (s : CommunityStore) (ids : List Int) :
    ((s.edgesWithin ids).map EdgeRow.id).Nodup := by
  classical
  rw [edgesWithin_eq]
  exact s.edges.ids_nodup.sublist (List.filter_sublist.map _)

theorem mem_getEdgesWithin : e ∈ s.getEdgesWithinCommunityIds ids ↔
    e ∈ s.edges.rows ∧ ∃ chunk ∈ chunksOf 450 ids, Within s chunk e := by
  have hrow : ∀ e, e ∈ (chunksOf 450 ids).flatMap s.edgesWithin ↔
      e ∈ s.edges.rows ∧ ∃ chunk ∈ chunksOf 450 ids, Within s chunk e := by
    intro e
    simp only [List.mem_flatMap, mem_edgesWithin]
    constructor
    · rintro ⟨chunk, hchunk, he, hwithin⟩
      exact ⟨he, chunk, hchunk, hwithin⟩
    · rintro ⟨he, chunk, hchunk, hwithin⟩
      exact ⟨chunk, hchunk, he, hwithin⟩
  rw [← hrow, getEdgesWithinCommunityIds]
  refine Entries.mem_values fun a ha b hb hid => ?_
  exact List.inj_on_of_nodup_map s.edges.ids_nodup ((hrow a).mp ha).1 ((hrow b).mp hb).1 hid

theorem getEdgesWithin_nodup (s : CommunityStore) (ids : List Int) :
    ((s.getEdgesWithinCommunityIds ids).map EdgeRow.id).Nodup := by
  rw [getEdgesWithinCommunityIds, Entries.map_key_values]
  exact Entries.nodup_setAll_nil _

/-- What the query is for: the edges within the communities, each once, as one statement for
all ids gives them. -/
structure WithinExact (s : CommunityStore) (ids : List Int) (found : List EdgeRow) : Prop where
  exact : ∀ e, e ∈ found ↔ e ∈ s.edges.rows ∧ Within s ids e
  once : (found.map EdgeRow.id).Nodup
  unchunked : found.Perm (s.edgesWithin ids)

/-- The edges are all found exactly when no edge has its ends in different chunks only. -/
theorem within_iff (s : CommunityStore) (ids : List Int) :
    WithinExact s ids (s.getEdgesWithinCommunityIds ids) ↔
      ∀ e ∈ s.edges.rows, Within s ids e → ∃ chunk ∈ chunksOf 450 ids, Within s chunk e := by
  constructor
  · intro h e he hwithin
    exact (mem_getEdgesWithin.mp ((h.exact e).mpr ⟨he, hwithin⟩)).2
  · intro h
    have hexact : ∀ e, e ∈ s.getEdgesWithinCommunityIds ids ↔
        e ∈ s.edges.rows ∧ Within s ids e := by
      intro e
      rw [mem_getEdgesWithin]
      constructor
      · rintro ⟨he, chunk, hchunk, hsource, htarget⟩
        have hsub : chunk ⊆ ids := fun c hc => (mem_chunksOf (by decide)).mp ⟨chunk, hchunk, hc⟩
        exact ⟨he, hasEnd_mono hsub hsource, hasEnd_mono hsub htarget⟩
      · exact fun ⟨he, hwithin⟩ => ⟨he, h e he hwithin⟩
    have honce := getEdgesWithin_nodup s ids
    refine ⟨hexact, honce, ?_⟩
    refine (List.perm_ext_iff_of_nodup honce.of_map (edgesWithin_nodup s ids).of_map).mpr ?_
    exact fun e => (hexact e).trans mem_edgesWithin.symm

/-! ### Two communities that fall into different chunks -/

def farNode (id : Nat) (name : String) (community : Int) : CommunityNode where
  id := id
  qualifiedName := name
  input := { kind := "Function", name := name, filePath := "a.rs" }
  fileHash := ""
  mtimeNs := 0
  communityId := some community

def farEdge : EdgeRow :=
  { EdgeInput.row { kind := "CALLS", source := "f", target := "g", filePath := "a.rs" } .null with
    id := 1 }

def farStore : CommunityStore where
  nodes := [farNode 1 "f" 0, farNode 2 "g" 450]
  edges := { rows := [farEdge], seq := 1, ids_nodup := by decide, ids_le := by decide }
  communities := []
  seq := 0
  names_nodup := by decide
  ids_le := nofun

/-- With 451 ids the edge between the first and the last community is missed. -/
theorem not_withinExact_far :
    ¬ ∀ s ids, WithinExact s ids (s.getEdgesWithinCommunityIds ids) := by
  intro hall
  have hfar := (hall farStore ((List.range 451).map Int.ofNat)).exact farEdge
  have hmem : ∀ c : Nat, c < 451 → (c : Int) ∈ (List.range 451).map Int.ofNat := fun c hc =>
    List.mem_map.mpr ⟨c, List.mem_range.mpr hc, rfl⟩
  have hwithin : Within farStore ((List.range 451).map Int.ofNat) farEdge := by
    refine ⟨⟨farNode 1 "f" 0, by simp [farStore], rfl, ?_⟩,
      ⟨farNode 2 "g" 450, by simp [farStore], rfl, ?_⟩⟩
    · exact Bool.and_eq_true_iff.mpr ⟨rfl, decide_eq_true (hmem 0 (by decide))⟩
    · exact Bool.and_eq_true_iff.mpr ⟨rfl, decide_eq_true (hmem 450 (by decide))⟩
  obtain ⟨-, chunk, hchunk, hsource, htarget⟩ :=
    mem_getEdgesWithin.mp (hfar.mpr ⟨List.mem_singleton_self _, hwithin⟩)
  have hzero : (0 : Int) ∈ chunk := by
    obtain ⟨n, hn, hname, hin⟩ := hsource
    rcases List.mem_cons.mp hn with rfl | hn
    · exact of_decide_eq_true (Bool.and_eq_true_iff.mp hin).2
    · rw [List.mem_singleton.mp hn] at hname
      exact absurd hname (by decide)
  have hlast : (450 : Int) ∈ chunk := by
    obtain ⟨n, hn, hname, hin⟩ := htarget
    rcases List.mem_cons.mp hn with rfl | hn
    · exact absurd hname (by decide)
    · rw [List.mem_singleton.mp hn] at hin
      exact of_decide_eq_true (Bool.and_eq_true_iff.mp hin).2
  obtain ⟨i, -, rfl⟩ := List.mem_map.mp hchunk
  obtain ⟨j, hj, hjget⟩ := List.mem_iff_getElem.mp hzero
  obtain ⟨k, hk, hkget⟩ := List.mem_iff_getElem.mp hlast
  simp only [List.getElem_take, List.getElem_drop, List.getElem_map, List.getElem_range] at hjget
  simp only [List.getElem_take, List.getElem_drop, List.getElem_map, List.getElem_range] at hkget
  rw [List.length_take] at hj hk
  simp only [Int.ofNat_eq_natCast] at hjget hkget
  omega

end Within

end Communities

end Dagayn
