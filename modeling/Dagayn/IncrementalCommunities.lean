import Dagayn.CommunityParts

/-!
# Detecting communities after an update

`incremental_detect_communities`: the communities with a node in a changed file and those an
edge links them to are the region. While it holds half of the nodes at most, only its nodes
are detected again and only its communities are replaced; else everything is. An id is given
out once (`seq`), so no new community takes the id of one that was deleted.
-/

namespace Dagayn

namespace Communities

namespace CommunityStore

variable (s : CommunityStore)

/-! ## The region -/

def idsOfFiles (filePaths : List String) : List Int :=
  ((chunksOf 450 filePaths).flatMap fun chunk =>
    (s.nodes.filter fun n => n.input.filePath ∈ chunk).filterMap fun n => n.communityId).dedup

def countAffectedCommunities (filePaths : List String) : Int :=
  let ids := s.idsOfFiles filePaths
  if !ids.isEmpty then ids.length
  else if s.communities.isEmpty then 0
  else if (chunksOf 450 filePaths).any fun chunk => 0 < s.nodes.countP fun n =>
      n.communityId.isNone && !n.isFile && n.input.filePath ∈ chunk then 1
  else 0

/-- The communities at the other ends of the edges of some communities. -/
def linkedIds (ids : List Int) : List Int :=
  s.edges.rows.flatMap fun e =>
    let sources := s.nodes.filter fun n => n.qualifiedName = e.source
    let targets := s.nodes.filter fun n => n.qualifiedName = e.target
    ((sources.filter fun n => n.communityId.any (· ∈ ids)).flatMap fun _ =>
        targets.filterMap fun n => n.communityId) ++
      ((targets.filter fun n => n.communityId.any (· ∈ ids)).flatMap fun _ =>
        sources.filterMap fun n => n.communityId)

def expandNeighborCommunityIds (o : HashOrders) (ids : List Int) : List Int :=
  (ids ++ (chunksOf 450 (o.order [0] ids)).flatMap s.linkedIds).dedup

/-- `community_region_ids`. For counts below `2^53` the quotient of the doubles is above 0.5
when twice the one count is above the other. -/
def communityRegionIds (o : HashOrders) (changedFiles : List String) : Option (List Int) :=
  let ids := s.idsOfFiles changedFiles
  if ids.isEmpty then none
  else
    let region := o.order [1] (s.expandNeighborCommunityIds o ids)
    let count := s.countNodesInCommunityIds region
    if count = 0 || s.countNonFileNodes = 0 || s.countNonFileNodes < 2 * count then none
    else some region

/-! ## Writing communities -/

def withIds (id : CommunityNode → Option Int) : CommunityStore :=
  { s with
    nodes := s.nodes.map fun n => { n with communityId := id n }
    names_nodup := by
      rw [List.map_map]
      exact s.names_nodup }

/-- `DELETE FROM communities WHERE …`. -/
def deleteCommunities (p : CommunityRow → Bool) : CommunityStore :=
  { s with
    communities := s.communities.filter fun c => !p c
    ids_le := fun c hc => s.ids_le c (List.mem_of_mem_filter hc) }

def insertCommunity (c : DetectedCommunity) : CommunityStore :=
  let row : CommunityRow :=
    { id := s.seq + 1, name := c.name, level := c.level, cohesion := c.cohesion, size := c.size,
      dominantLanguage := c.dominantLanguage, description := c.description }
  let inserted : CommunityStore :=
    { s with
      communities := s.communities ++ [row]
      seq := s.seq + 1
      ids_le := fun c hc => by
        rcases List.mem_append.mp hc with hc | hc
        · have hle := s.ids_le c hc
          omega
        · rw [List.mem_singleton.mp hc] }
  (chunksOf 450 c.members).foldl (fun s chunk =>
    s.withIds fun n => if n.qualifiedName ∈ chunk then some row.id else n.communityId) inserted

/-- `store_communities_json`, behind the JSON. -/
def storeCommunities (communities : List DetectedCommunity) : CommunityStore × Int :=
  (communities.foldl insertCommunity ((s.deleteCommunities fun _ => true).withIds fun _ => none),
    communities.length)

/-- The two statements that take a chunk of communities away. -/
def clearCommunities (ids : List Int) : CommunityStore :=
  (s.withIds fun n => if n.communityId.any (· ∈ ids) then none else n.communityId).deleteCommunities
    fun c => c.id ∈ ids

def replaceCommunities (replaceIds : List Int) (communities : List DetectedCommunity) :
    CommunityStore × Int :=
  (communities.foldl insertCommunity ((chunksOf 450 replaceIds).foldl clearCommunities s),
    communities.length)

/-! ## The detection -/

/-- Which nodes are detected again. -/
inductive DetectionPlan where
  | nothing
  | whole
  | region (ids : List Int)
deriving DecidableEq

/-- The branches of `incremental_detect_communities`. -/
def detectionPlan (o : HashOrders) (changedFiles : List String) (preAffectedCount : Option Int) :
    DetectionPlan :=
  if changedFiles.isEmpty then .nothing
  else if preAffectedCount.getD (s.countAffectedCommunities changedFiles) = 0 then .nothing
  else
    match s.communityRegionIds o changedFiles with
    | none => .whole
    | some ids => if (s.getNodesByCommunityIds ids).isEmpty then .whole else .region ids

/-- The nodes handed to `detect_communities_from`. -/
def handed : DetectionPlan → List CommunityNode
  | .nothing => []
  | .whole => s.nodes.filter fun n => !n.isFile
  | .region ids => s.getNodesByCommunityIds ids

def incrementalDetectCommunities (o : HashOrders) (leiden : LeidenLibrary)
    (changedFiles : List String) (minSize : Int) (preAffectedCount : Option Int) :
    CommunityStore × Int :=
  let plan := s.detectionPlan o changedFiles preAffectedCount
  let nodes := (s.handed plan).map CommunityNode.toNodeRow
  match plan with
  | .nothing => (s, 0)
  | .whole => s.storeCommunities (detectCommunitiesFrom o leiden nodes s.edges.rows minSize)
  | .region ids =>
      s.replaceCommunities ids (detectCommunitiesFrom o leiden nodes
        (o.order [2] (s.getEdgesWithinCommunityIds ids)) minSize)

/-! ## What the writes do to a node -/

section Writes

variable {s} {n : CommunityNode} {c : DetectedCommunity}

theorem foldl_withIds (id : Int) (chunks : List (List String)) : ∀ s : CommunityStore,
    (chunks.foldl (fun s chunk =>
        s.withIds fun n => if n.qualifiedName ∈ chunk then some id else n.communityId) s).nodes =
      (s.nodes.map fun n => { n with
        communityId := if ∃ chunk ∈ chunks, n.qualifiedName ∈ chunk then some id
          else n.communityId }) ∧
    (chunks.foldl (fun s chunk =>
        s.withIds fun n => if n.qualifiedName ∈ chunk then some id else n.communityId)
          s).communities =
      s.communities ∧
    (chunks.foldl (fun s chunk =>
        s.withIds fun n => if n.qualifiedName ∈ chunk then some id else n.communityId) s).seq =
      s.seq := by
  induction chunks with
  | nil => simp
  | cons chunk chunks ih =>
      intro s
      obtain ⟨hnodes, hcommunities, hseq⟩ := ih (s.withIds fun n =>
        if n.qualifiedName ∈ chunk then some id else n.communityId)
      rw [List.foldl_cons]
      refine ⟨?_, hcommunities, hseq⟩
      rw [hnodes, withIds, List.map_map]
      refine List.map_congr_left fun n _ => ?_
      simp only [Function.comp_apply, List.mem_cons, exists_eq_or_imp]
      by_cases hin : n.qualifiedName ∈ chunk
      · simp [hin]
      · simp [hin]

theorem insertCommunity_nodes (s : CommunityStore) (c : DetectedCommunity) :
    (s.insertCommunity c).nodes = (s.nodes.map fun n => { n with
      communityId := if n.qualifiedName ∈ c.members then some (s.seq + 1) else n.communityId }) ∧
    (s.insertCommunity c).communities.map CommunityRow.id =
      s.communities.map CommunityRow.id ++ [s.seq + 1] ∧
    (s.insertCommunity c).seq = s.seq + 1 := by
  obtain ⟨hnodes, hcommunities, hseq⟩ := foldl_withIds (s.seq + 1) (chunksOf 450 c.members) _
  refine ⟨hnodes.trans ?_, ?_, hseq⟩
  · simp only [mem_chunksOf (show 0 < 450 by decide)]
  · rw [insertCommunity, hcommunities, List.map_append]
    rfl

def SameNode (n n' : CommunityNode) : Prop := n' = { n with communityId := n'.communityId }

/-- The new communities: a node keeps its community or gets a new one, no community goes, and
who is no member keeps its row. -/
theorem foldl_insertCommunity (cs : List DetectedCommunity) : ∀ s : CommunityStore,
    (∀ n' ∈ (cs.foldl insertCommunity s).nodes, ∃ n ∈ s.nodes, SameNode n n' ∧
      (n'.communityId = n.communityId ∨ ∃ k, n'.communityId = some k ∧ s.seq < k ∧
        k ∈ (cs.foldl insertCommunity s).communities.map CommunityRow.id)) ∧
    (∀ k ∈ s.communities.map CommunityRow.id,
      k ∈ (cs.foldl insertCommunity s).communities.map CommunityRow.id) ∧
    ∀ n ∈ s.nodes, (∀ c ∈ cs, n.qualifiedName ∉ c.members) →
      n ∈ (cs.foldl insertCommunity s).nodes := by
  induction cs with
  | nil => exact fun s => ⟨fun n hn => ⟨n, hn, rfl, .inl rfl⟩, fun _ hk => hk, fun _ hn _ => hn⟩
  | cons c cs ih =>
      intro s
      obtain ⟨hfrom, hkept, hstays⟩ := ih (s.insertCommunity c)
      obtain ⟨hnodes, hids, hseq⟩ := insertCommunity_nodes s c
      have hold : ∀ k ∈ s.communities.map CommunityRow.id,
          k ∈ (s.insertCommunity c).communities.map CommunityRow.id := by
        intro k hk
        rw [hids]
        exact List.mem_append_left _ hk
      rw [List.foldl_cons]
      refine ⟨fun n' hn' => ?_, fun k hk => hkept k (hold k hk), fun n hn hno => ?_⟩
      · obtain ⟨mid, hmid, hsame, hid⟩ := hfrom n' hn'
        rw [hnodes] at hmid
        obtain ⟨n, hn, rfl⟩ := List.mem_map.mp hmid
        refine ⟨n, hn, hsame, ?_⟩
        rcases hid with hid | ⟨k, hid, hlt, hk⟩
        · split at hid
          · refine .inr ⟨s.seq + 1, hid, by omega, hkept _ ?_⟩
            rw [hids]
            exact List.mem_append_right _ (List.mem_singleton_self _)
          · exact .inl hid
        · exact .inr ⟨k, hid, by omega, hk⟩
      · refine hstays n ?_ fun c' hc' => hno c' (List.mem_cons_of_mem _ hc')
        rw [hnodes]
        refine List.mem_map.mpr ⟨n, hn, ?_⟩
        rw [if_neg (hno c List.mem_cons_self)]

theorem foldl_clearCommunities (chunks : List (List Int)) : ∀ s : CommunityStore,
    (chunks.foldl clearCommunities s).nodes = (s.nodes.map fun n => { n with
      communityId := if n.communityId.any (fun k => ∃ chunk ∈ chunks, k ∈ chunk) then none
        else n.communityId }) ∧
    (chunks.foldl clearCommunities s).communities =
      (s.communities.filter fun c => ¬ ∃ chunk ∈ chunks, c.id ∈ chunk) ∧
    (chunks.foldl clearCommunities s).seq = s.seq := by
  induction chunks with
  | nil =>
      intro s
      refine ⟨?_, by simp, rfl⟩
      refine (List.map_id s.nodes).symm.trans (List.map_congr_left fun n _ => ?_)
      cases hid : n.communityId <;> simp [← hid]
  | cons chunk chunks ih =>
      intro s
      obtain ⟨hnodes, hcommunities, hseq⟩ := ih (s.clearCommunities chunk)
      rw [List.foldl_cons]
      refine ⟨?_, ?_, hseq⟩
      · rw [hnodes, clearCommunities, deleteCommunities, withIds, List.map_map]
        refine List.map_congr_left fun n _ => ?_
        cases hid : n.communityId with
        | none => simp [hid]
        | some k =>
            by_cases hk : k ∈ chunk
            · simp [hid, hk]
            · simp [hid, hk]
      · rw [hcommunities, clearCommunities, deleteCommunities, withIds, List.filter_filter]
        refine List.filter_congr fun c _ => ?_
        by_cases hk : c.id ∈ chunk
        · simp [hk]
        · simp [hk]

theorem foldl_clearCommunities_chunks (s : CommunityStore) (ids : List Int) :
    ((chunksOf 450 ids).foldl clearCommunities s).nodes = (s.nodes.map fun n => { n with
      communityId := if n.communityId.any (· ∈ ids) then none else n.communityId }) ∧
    ((chunksOf 450 ids).foldl clearCommunities s).communities =
      s.communities.filter (fun c => c.id ∉ ids) ∧
    ((chunksOf 450 ids).foldl clearCommunities s).seq = s.seq := by
  obtain ⟨hnodes, hcommunities, hseq⟩ := foldl_clearCommunities (chunksOf 450 ids) s
  refine ⟨hnodes.trans ?_, hcommunities.trans ?_, hseq⟩
  · simp only [mem_chunksOf (show 0 < 450 by decide)]
  · simp only [mem_chunksOf (show 0 < 450 by decide)]

end Writes

/-! ## The region is the affected communities and their neighbours -/

/-- A node of one of the files is in the community. -/
def Affected (s : CommunityStore) (files : List String) (c : Int) : Prop :=
  ∃ n ∈ s.nodes, n.input.filePath ∈ files ∧ n.communityId = some c

/-- An edge has one end in the one community and one in the other. -/
def Linked (s : CommunityStore) (c c' : Int) : Prop :=
  ∃ e ∈ s.edges.rows, ∃ n ∈ s.nodes, ∃ n' ∈ s.nodes, n.communityId = some c ∧
    n'.communityId = some c' ∧
      (n.qualifiedName = e.source ∧ n'.qualifiedName = e.target ∨
        n.qualifiedName = e.target ∧ n'.qualifiedName = e.source)

section Region

variable {s} {ids : List Int} {files : List String} {c : Int}

theorem mem_idsOfFiles : c ∈ s.idsOfFiles files ↔ s.Affected files c := by
  rw [idsOfFiles, List.mem_dedup, List.mem_flatMap]
  constructor
  · rintro ⟨chunk, hchunk, hc⟩
    obtain ⟨n, hn, hid⟩ := List.mem_filterMap.mp hc
    obtain ⟨hn, hfile⟩ := List.mem_filter.mp hn
    exact ⟨n, hn, (mem_chunksOf (by decide)).mp ⟨chunk, hchunk, of_decide_eq_true hfile⟩, hid⟩
  · rintro ⟨n, hn, hfile, hid⟩
    obtain ⟨chunk, hchunk, hin⟩ := (mem_chunksOf (show 0 < 450 by decide)).mpr hfile
    exact ⟨chunk, hchunk, List.mem_filterMap.mpr
      ⟨n, List.mem_filter.mpr ⟨hn, decide_eq_true hin⟩, hid⟩⟩

theorem mem_linkedIds : c ∈ s.linkedIds ids ↔ ∃ c' ∈ ids, s.Linked c' c := by
  simp only [linkedIds, List.mem_flatMap, List.mem_append, List.mem_filter, List.mem_filterMap,
    decide_eq_true_eq, Option.any_eq_true]
  constructor
  · rintro ⟨e, he, ⟨n, ⟨⟨hn, hsource⟩, c', hc', hin⟩, n', ⟨hn', htarget⟩, hc⟩ |
      ⟨n, ⟨⟨hn, htarget⟩, c', hc', hin⟩, n', ⟨hn', hsource⟩, hc⟩⟩
    · exact ⟨c', hin, e, he, n, hn, n', hn', hc', hc, .inl ⟨hsource, htarget⟩⟩
    · exact ⟨c', hin, e, he, n, hn, n', hn', hc', hc, .inr ⟨htarget, hsource⟩⟩
  · rintro ⟨c', hin, e, he, n, hn, n', hn', hc', hc, ⟨hsource, htarget⟩ | ⟨htarget, hsource⟩⟩
    · exact ⟨e, he, .inl ⟨n, ⟨⟨hn, hsource⟩, c', hc', hin⟩, n', ⟨hn', htarget⟩, hc⟩⟩
    · exact ⟨e, he, .inr ⟨n, ⟨⟨hn, htarget⟩, c', hc', hin⟩, n', ⟨hn', hsource⟩, hc⟩⟩

theorem mem_expandNeighborCommunityIds {o : HashOrders} :
    c ∈ s.expandNeighborCommunityIds o ids ↔ c ∈ ids ∨ ∃ c' ∈ ids, s.Linked c' c := by
  rw [expandNeighborCommunityIds, List.mem_dedup, List.mem_append, List.mem_flatMap]
  refine or_congr_right ⟨?_, ?_⟩
  · rintro ⟨chunk, hchunk, hc⟩
    obtain ⟨c', hc', hlinked⟩ := mem_linkedIds.mp hc
    exact ⟨c', (o.perm _ _).mem_iff.mp ((mem_chunksOf (by decide)).mp ⟨chunk, hchunk, hc'⟩),
      hlinked⟩
  · rintro ⟨c', hc', hlinked⟩
    obtain ⟨chunk, hchunk, hin⟩ := (mem_chunksOf (show 0 < 450 by decide)).mpr
      ((o.perm [0] ids).mem_iff.mpr hc')
    exact ⟨chunk, hchunk, mem_linkedIds.mpr ⟨c', hin, hlinked⟩⟩

theorem communityRegionIds_spec {o : HashOrders} (h : s.communityRegionIds o files = some ids) :
    ids.Nodup ∧ ∀ c, c ∈ ids ↔ s.Affected files c ∨ ∃ c', s.Affected files c' ∧ s.Linked c' c := by
  simp only [communityRegionIds] at h
  split at h
  · cases h
  · split at h
    · cases h
    · obtain rfl := Option.some.inj h
      refine ⟨(o.perm _ _).nodup_iff.mpr (List.nodup_dedup _), fun c => ?_⟩
      rw [(o.perm _ _).mem_iff, mem_expandNeighborCommunityIds]
      simp only [mem_idsOfFiles]

theorem mem_getNodesByCommunityIds {n : CommunityNode} : n ∈ s.getNodesByCommunityIds ids ↔
    n ∈ s.nodes ∧ n.isFile = false ∧ ∃ c ∈ ids, n.communityId = some c := by
  simp only [getNodesByCommunityIds, List.mem_flatMap, List.mem_filter, inCommunities,
    Bool.and_eq_true, Bool.not_eq_true', Option.any_eq_true, decide_eq_true_eq]
  constructor
  · rintro ⟨chunk, hchunk, hn, hfile, c, hc, hin⟩
    exact ⟨hn, hfile, c, (mem_chunksOf (by decide)).mp ⟨chunk, hchunk, hin⟩, hc⟩
  · rintro ⟨hn, hfile, c, hin, hc⟩
    obtain ⟨chunk, hchunk, hin⟩ := (mem_chunksOf (show 0 < 450 by decide)).mpr hin
    exact ⟨chunk, hchunk, hn, hfile, c, hc, hin⟩

theorem nodup_getNodesByCommunityIds (hids : ids.Nodup) :
    ((s.getNodesByCommunityIds ids).map fun n => n.qualifiedName).Nodup := by
  have hrows : s.nodes.Nodup := s.names_nodup.of_map
  have hchunks : (chunksOf 450 ids).flatten.Nodup := by
    rw [flatten_chunksOf (by decide)]
    exact hids
  have hnodup : (s.getNodesByCommunityIds ids).Nodup := by
    rw [getNodesByCommunityIds, List.nodup_flatMap]
    refine ⟨fun chunk _ => hrows.sublist List.filter_sublist,
      (List.nodup_flatten.mp hchunks).2.imp fun hdisj n hn hn' => ?_⟩
    simp only [List.mem_filter, inCommunities, Bool.and_eq_true, Option.any_eq_true,
      decide_eq_true_eq] at hn
    simp only [List.mem_filter, inCommunities, Bool.and_eq_true, Option.any_eq_true,
      decide_eq_true_eq] at hn'
    obtain ⟨-, -, c, hc, hin⟩ := hn
    obtain ⟨-, -, c', hc', hin'⟩ := hn'
    obtain rfl := Option.some.inj (hc.symm.trans hc')
    exact hdisj hin hin'
  refine List.Nodup.map_on (fun a ha b hb heq => ?_) hnodup
  exact List.inj_on_of_nodup_map s.names_nodup (mem_getNodesByCommunityIds.mp ha).1
    (mem_getNodesByCommunityIds.mp hb).1 heq

end Region

/-! ## A run -/

section Run

variable {s} {o : HashOrders} {leiden : LeidenLibrary} {files : List String} {minSize : Int}
  {pre : Option Int} {ids : List Int}

theorem plan_region (h : s.detectionPlan o files pre = .region ids) :
    s.communityRegionIds o files = some ids := by
  unfold detectionPlan at h
  split at h
  · cases h
  · split at h
    · cases h
    · split at h
      · cases h
      · rename_i ids' hids
        split at h
        · cases h
        · obtain rfl := DetectionPlan.region.inj h
          exact hids

theorem member_of_detected {nodes : List CommunityNode} {edges : List EdgeRow}
    (hnodes : (nodes.map fun n => n.qualifiedName).Nodup) {c : DetectedCommunity}
    (hc : c ∈ detectCommunitiesFrom o leiden (nodes.map CommunityNode.toNodeRow) edges minSize)
    {m : String} (hm : m ∈ c.members) : ∃ n ∈ nodes, n.qualifiedName = m := by
  have hdistinct : ((nodes.map CommunityNode.toNodeRow).map NodeRow.qualifiedName).Nodup := by
    rw [List.map_map]
    exact hnodes
  have hname := (parts_detectCommunitiesFrom o leiden edges minSize hdistinct).given c hc m hm
  rw [List.map_map] at hname
  obtain ⟨n, hn, heq⟩ := List.mem_map.mp hname
  exact ⟨n, hn, heq⟩

/-- What replacing communities leaves: no node at a community that went, and the nodes of the
others where they were. -/
theorem replaceCommunities_spec {communities : List DetectedCommunity} :
    (∀ n' ∈ (s.replaceCommunities ids communities).1.nodes, ∀ c, n'.communityId = some c →
      c ∈ s.communities.map CommunityRow.id →
      c ∈ (s.replaceCommunities ids communities).1.communities.map CommunityRow.id) ∧
    ∀ n ∈ s.nodes, ∀ c, n.communityId = some c → c ∉ ids →
      (∀ d ∈ communities, n.qualifiedName ∉ d.members) →
      n ∈ (s.replaceCommunities ids communities).1.nodes := by
  obtain ⟨hnodes, hcommunities, hseq⟩ := foldl_clearCommunities_chunks s ids
  obtain ⟨hfrom, hkept, hstays⟩ :=
    foldl_insertCommunity communities ((chunksOf 450 ids).foldl clearCommunities s)
  refine ⟨fun n' hn' c hc hold => ?_, fun n hn c hc hout hno => ?_⟩
  · obtain ⟨k, hk, rfl⟩ := List.mem_map.mp hold
    obtain ⟨n, hn, -, hid | ⟨c', hid, hlt, -⟩⟩ := hfrom n' hn'
    · rw [hnodes] at hn
      obtain ⟨m, -, rfl⟩ := List.mem_map.mp hn
      rw [hc] at hid
      split at hid
      · cases hid
      · rename_i hnot
        refine hkept k.id ?_
        rw [hcommunities]
        refine List.mem_map.mpr
          ⟨k, List.mem_filter.mpr ⟨hk, decide_eq_true fun hin => hnot ?_⟩, rfl⟩
        rw [← hid]
        exact decide_eq_true hin
    · obtain rfl := Option.some.inj (hc.symm.trans hid)
      have hle := s.ids_le k hk
      omega
  · refine hstays n ?_ hno
    rw [hnodes]
    refine List.mem_map.mpr ⟨n, hn, ?_⟩
    rw [hc, if_neg (by simpa using hout), ← hc]

theorem storeCommunities_spec {communities : List DetectedCommunity} {n' : CommunityNode}
    (hn' : n' ∈ (s.storeCommunities communities).1.nodes) {c : Int}
    (hc : n'.communityId = some c) : s.seq < c := by
  obtain ⟨hfrom, -, -⟩ :=
    foldl_insertCommunity communities ((s.deleteCommunities fun _ => true).withIds fun _ => none)
  obtain ⟨n, hn, -, hid | ⟨c', hid, hlt, -⟩⟩ := hfrom n' hn'
  · obtain ⟨m, -, rfl⟩ := List.mem_map.mp hn
    rw [hc] at hid
    cases hid
  · obtain rfl := Option.some.inj (hc.symm.trans hid)
    exact hlt

theorem mem_of_region (h : s.detectionPlan o files pre = .region ids) {n : CommunityNode}
    (hn : n ∈ s.nodes) {c : Int} (hc : n.communityId = some c) (hout : c ∉ ids) :
    n ∈ (s.incrementalDetectCommunities o leiden files minSize pre).1.nodes := by
  simp only [incrementalDetectCommunities, h]
  refine replaceCommunities_spec.2 n hn c hc hout fun d hd hm => ?_
  obtain ⟨m, hm, hname⟩ := member_of_detected
    (nodup_getNodesByCommunityIds (communityRegionIds_spec (plan_region h)).1) hd hm
  obtain ⟨hm, -, c', hin, hc'⟩ := mem_getNodesByCommunityIds.mp hm
  obtain rfl := List.inj_on_of_nodup_map s.names_nodup hm hn hname
  obtain rfl := Option.some.inj (hc.symm.trans hc')
  exact hout hin

theorem kept_of_pointed {n' : CommunityNode}
    (hn' : n' ∈ (s.incrementalDetectCommunities o leiden files minSize pre).1.nodes) {c : Int}
    (hc : n'.communityId = some c) (hold : c ∈ s.communities.map CommunityRow.id) :
    c ∈ (s.incrementalDetectCommunities o leiden files minSize pre).1.communities.map
      CommunityRow.id := by
  cases hplan : s.detectionPlan o files pre with
  | nothing =>
      simp only [incrementalDetectCommunities, hplan]
      exact hold
  | whole =>
      simp only [incrementalDetectCommunities, hplan] at hn'
      obtain ⟨k, hk, rfl⟩ := List.mem_map.mp hold
      have hlt := storeCommunities_spec hn' hc
      have hle := s.ids_le k hk
      omega
  | region ids =>
      simp only [incrementalDetectCommunities, hplan] at hn' ⊢
      exact replaceCommunities_spec.1 n' hn' c hc hold

/-- Where nothing is affected nothing changes. A detection of everything is handed every node but
the files. One of a region is that of the affected communities and their neighbours: it is
handed every such node of a changed file that is in a community, and the nodes of other
communities keep theirs. After any of them no node points at a community that was deleted. -/
theorem incrementalDetectCommunities_keeps (s : CommunityStore) (o : HashOrders)
    (leiden : LeidenLibrary) (files : List String) (minSize : Int) (pre : Option Int) :
    (s.detectionPlan o files pre = .nothing →
      s.incrementalDetectCommunities o leiden files minSize pre = (s, 0)) ∧
    (s.detectionPlan o files pre = .whole → ∀ n ∈ s.nodes, n.isFile = false →
      n ∈ s.handed (s.detectionPlan o files pre)) ∧
    (∀ ids, s.detectionPlan o files pre = .region ids →
      (∀ c, c ∈ ids ↔ s.Affected files c ∨ ∃ c', s.Affected files c' ∧ s.Linked c' c) ∧
      (∀ n ∈ s.nodes, n.isFile = false → n.input.filePath ∈ files → ∀ c, n.communityId = some c →
        n ∈ s.handed (s.detectionPlan o files pre)) ∧
      ∀ n ∈ s.nodes, ∀ c, n.communityId = some c → c ∉ ids →
        n ∈ (s.incrementalDetectCommunities o leiden files minSize pre).1.nodes) ∧
    ∀ n' ∈ (s.incrementalDetectCommunities o leiden files minSize pre).1.nodes, ∀ c,
      n'.communityId = some c → c ∈ s.communities.map CommunityRow.id →
      c ∈ (s.incrementalDetectCommunities o leiden files minSize pre).1.communities.map
        CommunityRow.id := by
  refine ⟨fun hplan => ?_, fun hplan n hn hfile => ?_, fun ids hplan => ⟨?_, ?_, ?_⟩,
    fun n' hn' c hc hold => kept_of_pointed hn' hc hold⟩
  · simp only [incrementalDetectCommunities, hplan]
  · rw [hplan]
    exact List.mem_filter.mpr ⟨hn, by rw [hfile]; rfl⟩
  · exact (communityRegionIds_spec (plan_region hplan)).2
  · intro n hn hfile hin c hc
    rw [hplan]
    have hmem := ((communityRegionIds_spec (plan_region hplan)).2 c).mpr (.inl ⟨n, hn, hin, hc⟩)
    exact mem_getNodesByCommunityIds.mpr ⟨hn, hfile, c, hmem, hc⟩
  · exact fun n hn c hc hout => mem_of_region hplan hn hc hout

end Run

/-! ### A fresh node beside an old one, and a region above half -/

def communityNode (id : Nat) (name file : String) (community : Option Int) : CommunityNode where
  id := id
  qualifiedName := name
  input := { kind := "Function", name := name, filePath := file }
  fileHash := ""
  mtimeNs := 0
  communityId := community

def communityRow (id : Int) : CommunityRow where
  id := id
  name := "cluster"
  level := 0
  cohesion := 0.0
  size := 0
  dominantLanguage := ""
  description := ""

/-- Two communities, and a function of `c.rs` in none. -/
def freshStore : CommunityStore where
  nodes := [communityNode 1 "f" "a.rs" (some 1), communityNode 2 "g" "b.rs" (some 2),
    communityNode 3 "h" "b.rs" (some 2), communityNode 4 "k" "b.rs" (some 2),
    communityNode 5 "new" "c.rs" none]
  edges := .empty
  communities := [communityRow 1, communityRow 2]
  seq := 2
  names_nodup := by decide
  ids_le := by decide

/-- The fresh function of a changed file is not handed over beside a file that has a community;
and where the changed file's community is most of the graph, a function of another file and
community loses its own. -/
theorem not_hands_all_keeps_all :
    (∃ n ∈ freshStore.nodes, n.isFile = false ∧ n.input.filePath ∈ ["a.rs", "c.rs"] ∧
      n ∉ freshStore.handed (freshStore.detectionPlan insertionOrder ["a.rs", "c.rs"] none)) ∧
    ∃ n ∈ freshStore.nodes, ∃ c, n.communityId = some c ∧ ¬ freshStore.Affected ["b.rs"] c ∧
      n ∉ (freshStore.incrementalDetectCommunities insertionOrder (fun _ => none) ["b.rs"] 1
        none).1.nodes := by
  constructor
  · have hplan : freshStore.detectionPlan insertionOrder ["a.rs", "c.rs"] none = .region [1] := by
      decide
    refine ⟨communityNode 5 "new" "c.rs" none, by simp [freshStore], by decide, by decide, ?_⟩
    rw [hplan]
    intro hin
    obtain ⟨-, -, c, -, hc⟩ := mem_getNodesByCommunityIds.mp hin
    cases hc
  · have hplan : freshStore.detectionPlan insertionOrder ["b.rs"] none = .whole := by decide
    refine ⟨communityNode 1 "f" "a.rs" (some 1), by simp [freshStore], 1, rfl, ?_, fun hin => ?_⟩
    · simp [Affected, freshStore, communityNode]
    · simp only [incrementalDetectCommunities, hplan] at hin
      exact absurd (storeCommunities_spec hin rfl) (by decide)

end CommunityStore

end Communities

end Dagayn
