import Dagayn.CommunityDetection
import Mathlib

/-!
# Communities partition the nodes

What `detect_communities_from` returns for nodes of distinct names: disjoint communities of
given nodes, as large as they say, with nothing lost or doubled by the split, and the same
whatever the orders of the hash maps. Cohesion is the ratio a set has by itself
(`computeCohesionBatch_eq`), and so a community is made from its group alone
(`communitiesOf_eq`).
-/

namespace Dagayn

namespace Communities

open Grouping

/-! ## Cohesion, set by set -/

section Cohesion

variable {index : Dict String Nat} {sets : List (List String)}

theorem lookup_setIndex (o : HashOrders) (place : List Nat) (hsets : sets.flatten.Nodup)
    {qn : String} {i : Nat} :
    (setIndex o place sets).lookup qn = some i ↔ ∃ set, sets[i]? = some set ∧ qn ∈ set := by
  induction sets using List.reverseRecOn generalizing i with
  | nil => simp [setIndex]
  | append_singleton sets last ih =>
      rw [List.flatten_append, List.flatten_singleton, List.nodup_append] at hsets
      obtain ⟨hfront, -, hapart⟩ := hsets
      have hstep : (setIndex o place (sets ++ [last])).lookup qn =
          if qn ∈ last then some sets.length else (setIndex o place sets).lookup qn := by
        rw [setIndex, List.zipIdx_append, List.foldl_append]
        simp only [List.zipIdx_singleton, List.foldl_cons, List.foldl_nil, Nat.zero_add]
        rw [lookup_foldl_insert]
        simp only [(o.perm _ last).mem_iff]
        rfl
      rw [hstep]
      by_cases hqn : qn ∈ last
      · rw [if_pos hqn, Option.some.injEq]
        constructor
        · rintro rfl
          exact ⟨last, by simp, hqn⟩
        · rintro ⟨set, hset, hmem⟩
          rcases Nat.lt_trichotomy i sets.length with hlt | heq | hgt
          · rw [List.getElem?_append_left hlt] at hset
            exact absurd rfl (hapart qn (List.mem_flatten.mpr
              ⟨set, List.mem_of_getElem? hset, hmem⟩) qn hqn)
          · exact heq.symm
          · rw [List.getElem?_eq_none (by simp; omega)] at hset
            cases hset
      · rw [if_neg hqn, ih hfront]
        constructor
        · rintro ⟨set, hset, hmem⟩
          obtain ⟨hlt, -⟩ := List.getElem?_eq_some_iff.mp hset
          exact ⟨set, (List.getElem?_append_left hlt).trans hset, hmem⟩
        · rintro ⟨set, hset, hmem⟩
          rcases Nat.lt_trichotomy i sets.length with hlt | heq | hgt
          · exact ⟨set, (List.getElem?_append_left hlt).symm.trans hset, hmem⟩
          · rw [heq, List.getElem?_concat_length] at hset
            exact absurd ((Option.some.inj hset) ▸ hmem) hqn
          · rw [List.getElem?_eq_none (by simp; omega)] at hset
            cases hset

def countsEdge (e : EdgeRow) : Bool := !(e.kind = "CALLS" && !hasScope e.target)

def within (index : Dict String Nat) (i : Nat) (e : EdgeRow) : Bool :=
  countsEdge e && index.lookup e.source = some i && index.lookup e.target = some i

def leaving (index : Dict String Nat) (i : Nat) (e : EdgeRow) : Bool :=
  countsEdge e &&
    (decide (index.lookup e.source = some i) != decide (index.lookup e.target = some i))

theorem countEdge_apply (index : Dict String Nat) (counts : (Nat → Nat) × (Nat → Nat))
    (e : EdgeRow) (i : Nat) :
    (countEdge index counts e).1 i = counts.1 i + (if within index i e then 1 else 0) ∧
      (countEdge index counts e).2 i = counts.2 i + (if leaving index i e then 1 else 0) := by
  unfold countEdge within leaving countsEdge
  cases e.kind = "CALLS" && !hasScope e.target with
  | true => simp
  | false =>
      cases index.lookup e.source with
      | none =>
          cases index.lookup e.target with
          | none => simp
          | some right =>
              by_cases hi : i = right
              · simp [hi]
              · simp [hi, Ne.symm hi]
      | some left =>
          cases index.lookup e.target with
          | none =>
              by_cases hi : i = left
              · simp [hi]
              · simp [hi, Ne.symm hi]
          | some right =>
              by_cases hsame : left = right
              · subst hsame
                by_cases hi : i = left
                · simp [hi]
                · simp [hi, Ne.symm hi]
              · by_cases hi : i = left
                · subst hi
                  simp [hsame, Ne.symm hsame]
                · by_cases hi' : i = right
                  · subst hi'
                    simp [hsame, hi]
                  · simp [hsame, hi, hi', Ne.symm hi, Ne.symm hi']

theorem foldl_countEdge (index : Dict String Nat) (i : Nat) (edges : List EdgeRow) :
    ∀ counts : (Nat → Nat) × (Nat → Nat),
      (edges.foldl (countEdge index) counts).1 i = counts.1 i + edges.countP (within index i) ∧
      (edges.foldl (countEdge index) counts).2 i = counts.2 i + edges.countP (leaving index i) := by
  induction edges with
  | nil => exact fun counts => ⟨rfl, rfl⟩
  | cons e edges ih =>
      intro counts
      obtain ⟨hinside, houtside⟩ := countEdge_apply index counts e i
      rw [List.foldl_cons, List.countP_cons, List.countP_cons, (ih _).1, (ih _).2, hinside,
        houtside]
      omega

def cohesionOf (edges : List EdgeRow) (set : List String) : Float :=
  cohesionRatio
    (edges.countP fun e => countsEdge e && decide (e.source ∈ set) && decide (e.target ∈ set))
    (edges.countP fun e => countsEdge e && (decide (e.source ∈ set) != decide (e.target ∈ set)))

theorem computeCohesionBatch_eq (o : HashOrders) (place : List Nat) (hsets : sets.flatten.Nodup)
    (edges : List EdgeRow) :
    computeCohesionBatch o place sets edges = sets.map (cohesionOf edges) := by
  refine List.ext_getElem (by simp [computeCohesionBatch]) fun i hi hi' => ?_
  rw [List.length_map] at hi'
  have hin : ∀ qn, (setIndex o place sets).lookup qn = some i ↔ qn ∈ sets[i] := by
    intro qn
    rw [lookup_setIndex o place hsets, List.getElem?_eq_getElem hi']
    exact ⟨fun ⟨set, hset, hqn⟩ => (Option.some.inj hset) ▸ hqn, fun hqn => ⟨_, rfl, hqn⟩⟩
  have hinside : within (setIndex o place sets) i =
      fun e => countsEdge e && decide (e.source ∈ sets[i]) && decide (e.target ∈ sets[i]) := by
    funext e
    simp only [within, hin]
  have houtside : leaving (setIndex o place sets) i =
      fun e => countsEdge e && (decide (e.source ∈ sets[i]) != decide (e.target ∈ sets[i])) := by
    funext e
    simp only [leaving, hin]
  obtain ⟨hfst, hsnd⟩ := foldl_countEdge (setIndex o place sets) i edges (fun _ => 0, fun _ => 0)
  simp only [computeCohesionBatch, List.getElem_map, List.getElem_range]
  rw [hfst, hsnd, hinside, houtside, Nat.zero_add, Nat.zero_add, cohesionOf]

end Cohesion

/-! ## The communities of some groups -/

/-- The orders in which everything comes as it was put in. -/
def insertionOrder : HashOrders where
  order _ l := l
  perm _ l := .refl l

/-- The community of a group, its members sorted. -/
def communityOf (edges : List EdgeRow) (p : String × List NodeRow) : DetectedCommunity where
  name := generateCommunityName insertionOrder [] p.2
  level := 0
  size := p.2.length
  cohesion := roundCohesion (cohesionOf edges (nameSet p.2))
  dominantLanguage := dominantLanguage insertionOrder [] p.2
  description := p.1
  members := (nameSet p.2).insertionSort (· ≤ ·)

def groupNames (group : List NodeRow) : List String := group.map NodeRow.qualifiedName

theorem insertionSort_of_perm {l l' : List String} (h : l.Perm l') :
    l.insertionSort (· ≤ ·) = l'.insertionSort (· ≤ ·) := by
  have hsorted : sortBy id l = sortBy id l' := sortBy_of_perm h fun _ _ _ _ heq => heq
  exact hsorted

theorem map_nameSet {pending : List (String × List NodeRow)}
    (hnodup : (pending.flatMap fun p => groupNames p.2).Nodup) :
    (pending.map fun p => nameSet p.2) = pending.map fun p => groupNames p.2 :=
  List.map_congr_left fun p hp => ((List.nodup_flatMap.mp hnodup).1 p hp).dedup

theorem communitiesOf_eq (o : HashOrders) (place : List Nat) (edges : List EdgeRow)
    {pending : List (String × List NodeRow)}
    (hnodup : (pending.flatMap fun p => groupNames p.2).Nodup) :
    (communitiesOf o place edges pending).map sortMembers = pending.map (communityOf edges) := by
  have hsets : (pending.map fun p => nameSet p.2).flatten.Nodup := by
    rw [map_nameSet hnodup]
    exact hnodup
  rw [communitiesOf, computeCohesionBatch_eq o _ hsets, List.map_map]
  refine List.ext_getElem (by simp) fun i hi hi' => ?_
  simp only [List.getElem_map, List.getElem_zipIdx, List.getElem_zip, Function.comp_apply]
  rw [sortMembers, communityOf, generateCommunityName_order o insertionOrder _ [],
    dominantLanguage_order o insertionOrder _ [], insertionSort_of_perm (o.perm _ _)]

/-! ## Parts -/

/-- Disjoint communities of given names, as large as they say. -/
structure Parts (names : List String) (cs : List DetectedCommunity) : Prop where
  nodup : (cs.flatMap DetectedCommunity.members).Nodup
  given : ∀ c ∈ cs, ∀ m ∈ c.members, m ∈ names
  size : ∀ c ∈ cs, c.size = c.members.length
  nonempty : ∀ c ∈ cs, c.members ≠ []

structure Grouped (names : List String) (pending : List (String × List NodeRow)) : Prop where
  nodup : (pending.flatMap fun p => groupNames p.2).Nodup
  given : ∀ p ∈ pending, ∀ n ∈ p.2, n.qualifiedName ∈ names
  nonempty : ∀ p ∈ pending, p.2 ≠ []

section Parts

variable {names : List String} {cs cs' : List DetectedCommunity}

theorem Parts.of_perm (h : Parts names cs) (hperm : cs'.Perm cs) : Parts names cs' where
  nodup := (hperm.flatMap_right _).nodup_iff.mpr h.nodup
  given c hc := h.given c (hperm.mem_iff.mp hc)
  size c hc := h.size c (hperm.mem_iff.mp hc)
  nonempty c hc := h.nonempty c (hperm.mem_iff.mp hc)

theorem members_communityOf (edges : List EdgeRow) {pending : List (String × List NodeRow)}
    (h : Grouped names pending) {p : String × List NodeRow} (hp : p ∈ pending) :
    (communityOf edges p).members.Perm (groupNames p.2) := by
  have hnodup : (groupNames p.2).Nodup := (List.nodup_flatMap.mp h.nodup).1 p hp
  rw [communityOf, nameSet, ← groupNames, hnodup.dedup]
  exact List.perm_insertionSort _ _

theorem Grouped.parts {pending : List (String × List NodeRow)} (h : Grouped names pending)
    (edges : List EdgeRow) : Parts names (pending.map (communityOf edges)) where
  nodup := by
    rw [List.flatMap_map]
    refine (List.Perm.nodup_iff ?_).mpr h.nodup
    exact List.Perm.flatMap_left _ fun p hp => members_communityOf edges h hp
  given c hc m hm := by
    obtain ⟨p, hp, rfl⟩ := List.mem_map.mp hc
    obtain ⟨n, hn, rfl⟩ := List.mem_map.mp ((members_communityOf edges h hp).mem_iff.mp hm)
    exact h.given p hp n hn
  size c hc := by
    obtain ⟨p, hp, rfl⟩ := List.mem_map.mp hc
    rw [(members_communityOf edges h hp).length_eq, groupNames, List.length_map]
    rfl
  nonempty c hc := by
    obtain ⟨p, hp, rfl⟩ := List.mem_map.mp hc
    intro hnil
    have hlen := (members_communityOf edges h hp).length_eq
    rw [hnil, groupNames, List.length_map] at hlen
    exact h.nonempty p hp (List.length_eq_zero_iff.mp hlen.symm)

theorem Parts.eq_of_firstMember (h : Parts names cs) {a b : DetectedCommunity} (ha : a ∈ cs)
    (hb : b ∈ cs) (heq : firstMember a = firstMember b) : a = b := by
  by_contra hne
  obtain ⟨m, hm⟩ : ∃ m, a.members.head? = some m := by
    cases hmembers : a.members with
    | nil => exact absurd hmembers (h.nonempty a ha)
    | cons m _ => exact ⟨m, rfl⟩
  have hm' : b.members.head? = some m := heq.symm.trans hm
  have : Std.Symm (Function.onFun List.Disjoint DetectedCommunity.members) :=
    ⟨fun _ _ hdisj => hdisj.symm⟩
  have hdisj := (List.nodup_flatMap.mp h.nodup).2.forall ha hb hne
  exact hdisj (List.mem_of_head? hm) (List.mem_of_head? hm')

theorem members_sortMembers (c : DetectedCommunity) : (sortMembers c).members.Perm c.members :=
  List.perm_insertionSort _ _

theorem flatMap_sortCommunities (cs : List DetectedCommunity) :
    ((sortCommunities cs).flatMap DetectedCommunity.members).Perm
      (cs.flatMap DetectedCommunity.members) := by
  refine ((sortBy_perm _ _).flatMap_right _).trans ?_
  rw [List.flatMap_map]
  exact List.Perm.flatMap_left _ fun c _ => members_sortMembers c

theorem Parts.sortCommunities (h : Parts names cs) : Parts names (sortCommunities cs) := by
  refine Parts.of_perm ?_ (sortBy_perm _ _)
  have hmembers : ∀ c ∈ cs.map sortMembers, ∃ c' ∈ cs, c.members.Perm c'.members ∧
      c.size = c'.size := by
    intro c hc
    obtain ⟨c', hc', rfl⟩ := List.mem_map.mp hc
    exact ⟨c', hc', members_sortMembers c', rfl⟩
  refine ⟨?_, fun c hc m hm => ?_, fun c hc => ?_, fun c hc hnil => ?_⟩
  · rw [List.flatMap_map]
    exact (List.Perm.flatMap_left _ fun c _ => members_sortMembers c).nodup_iff.mpr h.nodup
  · obtain ⟨c', hc', hperm, -⟩ := hmembers c hc
    exact h.given c' hc' m (hperm.mem_iff.mp hm)
  · obtain ⟨c', hc', hperm, hsize⟩ := hmembers c hc
    rw [hsize, h.size c' hc', hperm.length_eq]
  · obtain ⟨c', hc', hperm, -⟩ := hmembers c hc
    rw [hnil] at hperm
    exact h.nonempty c' hc' hperm.symm.eq_nil

theorem Parts.sortBy_eq (h : Parts names cs) (hperm : cs.Perm cs') :
    sortBy firstMember cs = sortBy firstMember cs' :=
  sortBy_of_perm hperm fun _ ha _ hb => h.eq_of_firstMember ha hb

end Parts

/-! ## Clusters and directories -/

section Grouped

variable {nodes : List NodeRow} {minSize : Nat}

theorem filterMap_getElem? {α : Type} (l : List α) :
    (List.range l.length).filterMap (fun i => l[i]?) = l := by
  induction l using List.reverseRecOn with
  | nil => rfl
  | append_singleton l a ih =>
      have hfront : (List.range l.length).filterMap (fun i => (l ++ [a])[i]?) =
          (List.range l.length).filterMap fun i => l[i]? :=
        List.filterMap_congr fun i hi => List.getElem?_append_left (List.mem_range.mp hi)
      rw [List.length_append, List.length_singleton, List.range_succ, List.filterMap_append, hfront,
        ih]
      simp

theorem clusters_perm (f : Nat → Nat) (nodes : List NodeRow) :
    ((clustersOf f nodes.length).map (clusterMembers nodes)).flatten.Perm nodes := by
  have hclusters : (clustersOf f nodes.length).flatten.Perm (List.range nodes.length) := by
    have hperm := multimap_perm ((List.range nodes.length).map fun idx => (f idx, idx))
      (List.perm_insertionSort (· ≤ ·) _)
    rw [List.map_map, Function.comp_def, List.map_id'] at hperm
    exact hperm
  have hmembers : ((clustersOf f nodes.length).map (clusterMembers nodes)).flatten =
      (clustersOf f nodes.length).flatten.filterMap fun idx => nodes[idx]? := by
    rw [List.filterMap_flatten]
    rfl
  have hall := hclusters.filterMap fun idx => nodes[idx]?
  rw [filterMap_getElem?] at hall
  rw [hmembers]
  exact hall

theorem grouped_of_perm {groups pending : List (String × List NodeRow)}
    (hnodes : (groupNames nodes).Nodup) (hgroups : (groups.flatMap Prod.snd).Perm nodes)
    (hsub : pending.Sublist groups) (hmin : ∀ p ∈ pending, p.2 ≠ []) :
    Grouped (groupNames nodes) pending := by
  have hnames : (groups.flatMap fun p => groupNames p.2).Perm (groupNames nodes) := by
    have hmap := hgroups.map NodeRow.qualifiedName
    rw [List.map_flatMap] at hmap
    exact hmap
  refine ⟨(hnames.nodup_iff.mpr hnodes).sublist (hsub.flatMap _), fun p hp n hn => ?_, hmin⟩
  exact List.mem_map_of_mem (hgroups.mem_iff.mp
    (List.mem_flatMap.mpr ⟨p, hsub.subset hp, hn⟩))

theorem ne_nil_of_le_length {α : Type} {l : List α} (hmin : 1 ≤ minSize)
    (h : minSize ≤ l.length) : l ≠ [] := by
  rintro rfl
  rw [List.length_nil] at h
  omega

theorem grouped_leidenPending {leiden : LeidenLibrary} {edges : List EdgeRow}
    {clusters : List (List NodeRow)} (hnodes : (groupNames nodes).Nodup)
    (h : leidenClusters leiden nodes edges = some clusters) (hmin : 1 ≤ minSize) :
    Grouped (groupNames nodes) (leidenPending clusters minSize) := by
  have hperm : clusters.flatten.Perm nodes := by
    simp only [leidenClusters] at h
    split at h
    · cases h
    · obtain ⟨f, -, rfl⟩ := Option.map_eq_some_iff.mp h
      exact clusters_perm f nodes
  refine grouped_of_perm hnodes ?_ (List.filter_sublist.map _) fun p hp => ?_
  · rw [List.flatMap_map]
    rw [← List.flatMap_id] at hperm
    exact hperm
  · obtain ⟨members, hmembers, rfl⟩ := List.mem_map.mp hp
    exact ne_nil_of_le_length hmin (of_decide_eq_true (List.mem_filter.mp hmembers).2)

theorem exists_bestGroups (group : Nat → Dict String (List NodeRow)) (minSize : Nat)
    (depths : List Nat) : ∀ d, ∃ depth,
      bestGroups group minSize depths (group d) = group depth := by
  induction depths with
  | nil => exact fun d => ⟨d, rfl⟩
  | cons depth depths ih =>
      intro d
      rw [bestGroups]
      split
      · exact ⟨depth, rfl⟩
      · exact ih depth

theorem grouped_filePending (o : HashOrders) (place : List Nat) (hnodes : (groupNames nodes).Nodup)
    (hmin : 1 ≤ minSize) : Grouped (groupNames nodes) (filePending o place nodes minSize) := by
  refine grouped_of_perm hnodes ?_ List.filter_sublist fun p hp =>
    ne_nil_of_le_length hmin (of_decide_eq_true (List.mem_filter.mp hp).2)
  obtain ⟨depth, hdepth⟩ : ∃ depth, fileGroups nodes minSize =
      groupAtDepth nodes (sharedDirs (nodes.map dirParts)) depth := exists_bestGroups _ _ _ 1
  have hperm := multimap_perm (nodes.map fun n =>
    (groupKey (sharedDirs (nodes.map dirParts)) depth n, n)) (o.perm place _)
  rw [List.map_map, Function.comp_def, List.map_id'] at hperm
  rw [List.flatMap_map, hdepth]
  exact hperm

end Grouped

/-! ## Before the split -/

section Unsplit

variable {nodes : List NodeRow} {edges : List EdgeRow} {leiden : LeidenLibrary} {minSize : Nat}

theorem detectFileBased_sorted (o : HashOrders) (place : List Nat)
    (hnodes : (groupNames nodes).Nodup) (hmin : 1 ≤ minSize) :
    sortCommunities (detectFileBased o place nodes edges minSize) =
      sortBy firstMember ((filePending insertionOrder [] nodes minSize).map
        (communityOf edges)) := by
  have hgrouped := grouped_filePending o place hnodes hmin
  have hperm : (filePending o place nodes minSize).Perm
      (filePending insertionOrder [] nodes minSize) :=
    ((o.perm_order insertionOrder _ _ _).map _).filter _
  rw [sortCommunities, detectFileBased, communitiesOf_eq o place edges hgrouped.nodup]
  exact (hgrouped.parts edges).sortBy_eq (hperm.map _)

theorem detectUnsplit_eq (leiden : LeidenLibrary) (edges : List EdgeRow)
    (hnodes : (groupNames nodes).Nodup) (hmin : 1 ≤ minSize) :
    ∃ pending, Grouped (groupNames nodes) pending ∧ ∀ o,
      detectUnsplit o leiden nodes edges minSize =
        sortBy firstMember (pending.map (communityOf edges)) := by
  have hfile : ∀ o : HashOrders, ∀ results : List DetectedCommunity,
      results = [] ∨ results = detectFileBased o [1, 0] nodes edges minSize →
      sortCommunities (if results.isEmpty then detectFileBased o [1] nodes edges minSize
        else results) =
        sortBy firstMember ((filePending insertionOrder [] nodes minSize).map
          (communityOf edges)) := by
    rintro o results (rfl | rfl)
    · exact detectFileBased_sorted o [1] hnodes hmin
    · split
      · exact detectFileBased_sorted o [1] hnodes hmin
      · exact detectFileBased_sorted o [1, 0] hnodes hmin
  by_cases hempty : nodes.isEmpty = true
  · refine ⟨_, grouped_filePending insertionOrder [] hnodes hmin, fun o => hfile o _ (.inl ?_)⟩
    rw [detectLeiden, if_pos hempty]
  · cases hclusters : leidenClusters leiden nodes edges with
    | none =>
        refine ⟨_, grouped_filePending insertionOrder [] hnodes hmin, fun o => hfile o _ (.inr ?_)⟩
        rw [detectLeiden, if_neg hempty, hclusters]
    | some clusters =>
        have hleiden : ∀ o, detectLeiden o [0] leiden nodes edges minSize =
            communitiesOf o [0, 0] edges (leidenPending clusters minSize) := by
          intro o
          rw [detectLeiden, if_neg hempty, hclusters]
        have hgrouped := grouped_leidenPending hnodes hclusters hmin
        have hsorted : ∀ o, (communitiesOf o [0, 0] edges (leidenPending clusters minSize)).map
            sortMembers = (leidenPending clusters minSize).map (communityOf edges) := fun o =>
          communitiesOf_eq o [0, 0] edges hgrouped.nodup
        by_cases hnone : leidenPending clusters minSize = []
        · refine ⟨_, grouped_filePending insertionOrder [] hnodes hmin,
            fun o => hfile o _ (.inl ?_)⟩
          rw [hleiden, ← List.map_eq_nil_iff (f := sortMembers), hsorted, hnone, List.map_nil]
        · refine ⟨_, hgrouped, fun o => ?_⟩
          have hsome : communitiesOf o [0, 0] edges (leidenPending clusters minSize) ≠ [] := by
            intro hnil
            have hmap := hsorted o
            rw [hnil, List.map_nil] at hmap
            exact hnone (List.map_eq_nil_iff.mp hmap.symm)
          rw [detectUnsplit, hleiden, if_neg (by simpa using hsome), sortCommunities, hsorted]

end Unsplit

/-! ## The split -/

section Split

variable {names : List String} {nodes : List NodeRow} {edges : List EdgeRow}
  {leiden : LeidenLibrary} {c : DetectedCommunity}

theorem lookup_nodesByQn {qn : String} (h : qn ∈ groupNames nodes) :
    ∃ n, (nodesByQn nodes).lookup qn = some n ∧ n.qualifiedName = qn := by
  induction nodes using List.reverseRecOn with
  | nil => cases h
  | append_singleton nodes n ih =>
      rw [nodesByQn, List.foldl_append, List.foldl_cons, List.foldl_nil, ← nodesByQn,
        Dict.lookup_insert_ite]
      by_cases heq : qn = n.qualifiedName
      · exact ⟨n, if_pos heq, heq.symm⟩
      · rw [if_neg heq]
        rw [groupNames, List.map_append, List.mem_append] at h
        exact ih (h.resolve_right fun hlast => heq (List.mem_singleton.mp hlast))

theorem groupNames_memberNodes {members : List String} (hnodup : members.Nodup)
    (hgiven : ∀ m ∈ members, m ∈ groupNames nodes) :
    groupNames (memberNodes (nodesByQn nodes) members) = members := by
  rw [memberNodes, keepFirst_eq_self (by rw [List.map_id]; exact hnodup)]
  clear hnodup
  induction members with
  | nil => rfl
  | cons m members ih =>
      obtain ⟨n, hn, hname⟩ := lookup_nodesByQn (hgiven m List.mem_cons_self)
      have htail := ih fun m' hm' => hgiven m' (List.mem_cons_of_mem _ hm')
      rw [List.filterMap_cons, hn, groupNames, List.map_cons, hname, ← groupNames, htail]

def Sized (c : DetectedCommunity) : Prop := c.size = c.members.length ∧ c.members ≠ []

theorem flatMap_zipIdx {α β : Type} (g : α → List β) (l : List α) (k : Nat) :
    ((l.zipIdx k).flatMap fun p => g p.1) = l.flatMap g := by
  have hmap := List.flatMap_map Prod.fst g (l.zipIdx k)
  rw [List.zipIdx_map_fst] at hmap
  exact hmap.symm

theorem detectLeidenSubgraph_cases (o : HashOrders) (place : List Nat) (leiden : LeidenLibrary)
    (nodes : List NodeRow) (edges : List EdgeRow) (resolution : Float) :
    detectLeidenSubgraph o place leiden nodes edges resolution = [] ∨
      ((detectLeidenSubgraph o place leiden nodes edges resolution).flatMap
        DetectedCommunity.members).Perm (groupNames nodes) ∧
      ∀ c ∈ detectLeidenSubgraph o place leiden nodes edges resolution, Sized c := by
  simp only [detectLeidenSubgraph]
  split
  · exact .inl rfl
  · split
    · exact .inl rfl
    · rename_i f _
      refine .inr ⟨?_, fun c hc => ?_⟩
      · have hperm := (clusters_perm f nodes).map NodeRow.qualifiedName
        rw [← List.flatten_filter_not_isEmpty, List.map_flatten, ← List.flatMap_def] at hperm
        rw [List.flatMap_map]
        exact (List.Perm.of_eq (flatMap_zipIdx groupNames _ 0)).trans hperm
      · obtain ⟨p, hp, rfl⟩ := List.mem_map.mp hc
        have hcluster := (List.mem_filter.mp (List.fst_mem_of_mem_zipIdx hp)).2
        refine ⟨by simp, fun hnil => ?_⟩
        rw [List.map_eq_nil_iff.mp hnil] at hcluster
        cases hcluster

theorem detectLeidenSubgraph_order (o o' : HashOrders) (place : List Nat) (nodes : List NodeRow)
    (edges : List EdgeRow) (resolution : Float) :
    detectLeidenSubgraph o place leiden nodes edges resolution =
      detectLeidenSubgraph o' place leiden nodes edges resolution := by
  simp only [detectLeidenSubgraph, generateCommunityName_order o insertionOrder _ [],
    generateCommunityName_order o' insertionOrder _ [],
    dominantLanguage_order o insertionOrder _ [], dominantLanguage_order o' insertionOrder _ []]

theorem flatMap_numberParts (c : DetectedCommunity) (k : Nat) (parts : List DetectedCommunity) :
    (numberParts c k parts).flatMap DetectedCommunity.members =
      parts.flatMap DetectedCommunity.members := by
  rw [numberParts, List.flatMap_map]
  exact flatMap_zipIdx DetectedCommunity.members parts k

theorem sized_numberParts {k : Nat} {parts : List DetectedCommunity} (h : ∀ p ∈ parts, Sized p) :
    ∀ p ∈ numberParts c k parts, Sized p := by
  intro p hp
  obtain ⟨q, hq, rfl⟩ := List.mem_map.mp hp
  exact h q.1 (List.fst_mem_of_mem_zipIdx hq)

variable (byCommunity : Dict Nat (List EdgeRow)) (threshold : Int) (minSplitSize nextId idx : Nat)

theorem splitCommunity_spec (o : HashOrders) (place : List Nat) (hnodup : c.members.Nodup)
    (hgiven : ∀ m ∈ c.members, m ∈ groupNames nodes) (hsized : Sized c) :
    ((splitCommunity o place leiden (nodesByQn nodes) byCommunity threshold minSplitSize nextId c
        idx).1.flatMap DetectedCommunity.members).Perm c.members ∧
      ∀ p ∈ (splitCommunity o place leiden (nodesByQn nodes) byCommunity threshold minSplitSize
        nextId c idx).1, Sized p := by
  have hself : ([c].flatMap DetectedCommunity.members).Perm c.members ∧ ∀ p ∈ [c], Sized p :=
    ⟨by simp, fun p hp => List.mem_singleton.mp hp ▸ hsized⟩
  simp only [splitCommunity]
  split
  · exact hself
  · split
    · exact hself
    · split
      · exact hself
      · rename_i hparts
        rcases detectLeidenSubgraph_cases o (idx :: place) leiden
            (memberNodes (nodesByQn nodes) c.members) (byCommunity.getD idx []) 0.5 with
          hnil | ⟨hperm, hall⟩
        · rw [hnil] at hparts
          exact absurd (Nat.zero_le 1) hparts
        · rw [groupNames_memberNodes hnodup hgiven] at hperm
          rw [flatMap_numberParts]
          exact ⟨hperm, sized_numberParts hall⟩

theorem splitCommunity_order (o o' : HashOrders) (place : List Nat) (byQn : Dict String NodeRow) :
    splitCommunity o place leiden byQn byCommunity threshold minSplitSize =
      splitCommunity o' place leiden byQn byCommunity threshold minSplitSize := by
  funext nextId c idx
  simp only [splitCommunity, detectLeidenSubgraph_order o o']

theorem foldl_splitLoop (split : Nat → DetectedCommunity → Nat → List DetectedCommunity × Nat)
    (L : List (DetectedCommunity × Nat))
    (hsplit : ∀ c ∈ L, ∀ k, ((split k c.1 c.2).1.flatMap DetectedCommunity.members).Perm
      c.1.members ∧ ∀ p ∈ (split k c.1 c.2).1, Sized p) :
    ∀ acc : List DetectedCommunity × Nat, (∀ p ∈ acc.1, Sized p) →
      ((L.foldl (splitLoop split) acc).1.flatMap DetectedCommunity.members).Perm
        (acc.1.flatMap DetectedCommunity.members ++ L.flatMap fun c => c.1.members) ∧
      ∀ p ∈ (L.foldl (splitLoop split) acc).1, Sized p := by
  induction L with
  | nil => exact fun acc hacc => ⟨by simp, hacc⟩
  | cons c L ih =>
      intro acc hacc
      obtain ⟨hperm, hsized⟩ := hsplit c List.mem_cons_self acc.2
      obtain ⟨hrest, hall⟩ := ih (fun c' hc' => hsplit c' (List.mem_cons_of_mem _ hc'))
        (splitLoop split acc c) fun p hp =>
          (List.mem_append.mp hp).elim (hacc p) (hsized p)
      refine ⟨hrest.trans ?_, hall⟩
      rw [splitLoop, List.flatMap_append, List.append_assoc, List.flatMap_cons]
      exact (hperm.append_right _).append_left _

def backfilled (edges : List EdgeRow) (c : DetectedCommunity) : DetectedCommunity :=
  if c.cohesion == 0.0 then
    { c with cohesion := roundCohesion (cohesionOf edges c.members.dedup) }
  else c

theorem members_backfilled (edges : List EdgeRow) (c : DetectedCommunity) :
    (backfilled edges c).members = c.members ∧ (backfilled edges c).size = c.size := by
  unfold backfilled
  split <;> exact ⟨rfl, rfl⟩

theorem backfillSplitCohesion_eq (o : HashOrders) (place : List Nat) {cs : List DetectedCommunity}
    (hnodup : (cs.flatMap DetectedCommunity.members).Nodup) :
    backfillSplitCohesion o place cs edges = cs.map (backfilled edges) := by
  have hsets : (cs.map fun c => c.members.dedup) = cs.map DetectedCommunity.members :=
    List.map_congr_left fun c hc => ((List.nodup_flatMap.mp hnodup).1 c hc).dedup
  have hflat : (cs.map fun c => c.members.dedup).flatten.Nodup := by
    rw [hsets]
    exact hnodup
  rw [backfillSplitCohesion, computeCohesionBatch_eq o place hflat, List.map_map,
    ← List.map_prod_left_eq_zip, List.map_map]
  rfl

variable {cs : List DetectedCommunity} (thresholdPct : Float)

theorem foldl_splitCommunity (o : HashOrders) (place : List Nat) (leiden : LeidenLibrary)
    (h : Parts (groupNames nodes) cs) :
    ((cs.zipIdx.foldl (splitLoop (splitCommunity o place leiden (nodesByQn nodes) byCommunity
        threshold minSplitSize)) ([], 1)).1.flatMap DetectedCommunity.members).Perm
        (cs.flatMap DetectedCommunity.members) ∧
      ∀ p ∈ (cs.zipIdx.foldl (splitLoop (splitCommunity o place leiden (nodesByQn nodes)
        byCommunity threshold minSplitSize)) ([], 1)).1, Sized p := by
  obtain ⟨hperm, hsized⟩ := foldl_splitLoop (splitCommunity o place leiden (nodesByQn nodes)
    byCommunity threshold minSplitSize) cs.zipIdx (fun c hc k =>
      have hmem : c.1 ∈ cs := List.fst_mem_of_mem_zipIdx hc
      splitCommunity_spec byCommunity threshold minSplitSize k c.2 o place
        ((List.nodup_flatMap.mp h.nodup).1 c.1 hmem) (h.given c.1 hmem)
        ⟨h.size c.1 hmem, h.nonempty c.1 hmem⟩) ([], 1) nofun
  rw [List.flatMap_nil, List.nil_append, flatMap_zipIdx DetectedCommunity.members] at hperm
  exact ⟨hperm, hsized⟩

theorem splitOversized_spec (o : HashOrders) (place : List Nat) (leiden : LeidenLibrary)
    (edges : List EdgeRow) (h : Parts (groupNames nodes) cs) :
    ((splitOversized o place leiden cs nodes edges thresholdPct minSplitSize).flatMap
        DetectedCommunity.members).Perm (cs.flatMap DetectedCommunity.members) ∧
      (∀ c ∈ splitOversized o place leiden cs nodes edges thresholdPct minSplitSize, Sized c) ∧
      ∀ o', splitOversized o' place leiden cs nodes edges thresholdPct minSplitSize =
        splitOversized o place leiden cs nodes edges thresholdPct minSplitSize := by
  simp only [splitOversized]
  split
  · exact ⟨.refl _, fun c hc => ⟨h.size c hc, h.nonempty c hc⟩, fun _ => rfl⟩
  · obtain ⟨hperm, hsized⟩ := foldl_splitCommunity (edgesByCommunity (oversizedIndex cs
      (splitThreshold cs thresholdPct minSplitSize)) edges)
      (splitThreshold cs thresholdPct minSplitSize) minSplitSize o (0 :: place) leiden h
    have hnodup := hperm.nodup_iff.mpr h.nodup
    refine ⟨?_, fun c hc => ?_, fun o' => ?_⟩
    · rw [backfillSplitCohesion_eq o _ hnodup, List.flatMap_map]
      simp only [members_backfilled]
      exact hperm
    · rw [backfillSplitCohesion_eq o _ hnodup] at hc
      obtain ⟨p, hp, rfl⟩ := List.mem_map.mp hc
      rw [Sized, (members_backfilled edges p).1, (members_backfilled edges p).2]
      exact hsized p hp
    · rw [splitCommunity_order _ _ _ o' o, backfillSplitCohesion_eq o' _ hnodup,
        backfillSplitCohesion_eq o _ hnodup]

end Split

section Whole

variable {nodes : List NodeRow} {minSize : Nat} (o : HashOrders) (leiden : LeidenLibrary)
  (edges : List EdgeRow)

theorem parts_detectUnsplit (hnodes : (nodes.map NodeRow.qualifiedName).Nodup)
    (hmin : 1 ≤ minSize) :
    Parts (nodes.map NodeRow.qualifiedName) (detectUnsplit o leiden nodes edges minSize) := by
  obtain ⟨pending, hgrouped, hunsplit⟩ := detectUnsplit_eq leiden edges hnodes hmin
  rw [hunsplit]
  exact (hgrouped.parts edges).of_perm (sortBy_perm _ _)

theorem Parts.splitOversized {cs : List DetectedCommunity}
    (h : Parts (nodes.map NodeRow.qualifiedName) cs) (place : List Nat) (thresholdPct : Float)
    (minSplitSize : Nat) :
    Parts (nodes.map NodeRow.qualifiedName)
      (splitOversized o place leiden cs nodes edges thresholdPct minSplitSize) := by
  obtain ⟨hperm, hsized, -⟩ := splitOversized_spec minSplitSize thresholdPct o place leiden edges h
  refine ⟨hperm.nodup_iff.mpr h.nodup, fun c hc m hm => ?_, fun c hc => (hsized c hc).1,
    fun c hc => (hsized c hc).2⟩
  obtain ⟨c', hc', hm'⟩ := List.mem_flatMap.mp
    (hperm.mem_iff.mp (List.mem_flatMap.mpr ⟨c, hc, hm⟩))
  exact h.given c' hc' m hm'

theorem parts_detectCommunitiesFrom (minSize : Int)
    (hnodes : (nodes.map NodeRow.qualifiedName).Nodup) :
    Parts (nodes.map NodeRow.qualifiedName)
      (detectCommunitiesFrom o leiden nodes edges minSize) :=
  ((parts_detectUnsplit o leiden edges hnodes (by omega)).splitOversized o leiden edges [2] 0.25
    10).sortCommunities

end Whole

/-- What `detect_communities_from` returns for nodes of distinct names, with whatever orders and
whatever Leiden says: disjoint communities of given nodes, as large as they say, that hold
the members there were before the split, each once; and always the same. -/
theorem detectCommunitiesFrom_parts (leiden : LeidenLibrary) (nodes : List NodeRow)
    (edges : List EdgeRow) (minSize : Int) (hnodes : (nodes.map NodeRow.qualifiedName).Nodup)
    (o : HashOrders) :
    Parts (nodes.map NodeRow.qualifiedName) (detectCommunitiesFrom o leiden nodes edges minSize) ∧
      ((detectCommunitiesFrom o leiden nodes edges minSize).flatMap
        DetectedCommunity.members).Perm
        ((detectUnsplit o leiden nodes edges (max minSize 1).toNat).flatMap
          DetectedCommunity.members) ∧
      ∀ o', detectCommunitiesFrom o' leiden nodes edges minSize =
        detectCommunitiesFrom o leiden nodes edges minSize := by
  have hmin : 1 ≤ (max minSize 1).toNat := by omega
  obtain ⟨hperm, -, horder⟩ := splitOversized_spec 10 0.25 o [2] leiden edges
    (parts_detectUnsplit o leiden edges hnodes hmin)
  refine ⟨parts_detectCommunitiesFrom o leiden edges minSize hnodes,
    (flatMap_sortCommunities _).trans hperm, fun o' => ?_⟩
  obtain ⟨pending, -, hunsplit⟩ := detectUnsplit_eq leiden edges hnodes hmin
  rw [detectCommunitiesFrom, hunsplit o', ← hunsplit o, horder o', ← detectCommunitiesFrom]

/-! ### Two nodes of one name -/

def functionNode (id : Nat) (name : String) : NodeRow where
  id := id
  qualifiedName := "a.py::" ++ name
  input := { kind := "Function", name := name, filePath := "a.py", language := "python" }
  fileHash := ""
  mtimeNs := 0

def callOf (source target : String) : EdgeRow where
  id := 1
  kind := "CALLS"
  source := "a.py::" ++ source
  target := "a.py::" ++ target
  targetName := target
  filePath := "a.py"
  line := 1
  extra := .null
  confidence := 1.0
  tier := .extracted

/-- `f` calls `g`, and Leiden takes them apart from `h`: each of the three is in one community. -/
theorem detectCommunitiesFrom_two :
    let leiden := fun _ => some fun vertex => vertex / 2
    let found := detectCommunitiesFrom insertionOrder leiden
      [functionNode 1 "f", functionNode 2 "g", functionNode 3 "h"] [callOf "f" "g"] 1
    Parts ["a.py::f", "a.py::g", "a.py::h"] found ∧
      (found.flatMap DetectedCommunity.members).Perm ["a.py::f", "a.py::g", "a.py::h"] := by
  intro leiden found
  obtain ⟨hparts, hperm, -⟩ := detectCommunitiesFrom_parts leiden
    [functionNode 1 "f", functionNode 2 "g", functionNode 3 "h"] [callOf "f" "g"] 1 (by decide)
    insertionOrder
  have hunsplit : (detectUnsplit insertionOrder (fun _ => some fun vertex => vertex / 2)
      [functionNode 1 "f", functionNode 2 "g", functionNode 3 "h"] [callOf "f" "g"] 1).map
        DetectedCommunity.members = [["a.py::f", "a.py::g"], ["a.py::h"]] := by decide +kernel
  refine ⟨hparts, hperm.trans (List.Perm.of_eq ?_)⟩
  rw [List.flatMap_def]
  exact congrArg List.flatten hunsplit

section Small

variable {cs : List DetectedCommunity} {minSplitSize : Nat}

theorem foldl_splitLoop_self
    (split : Nat → DetectedCommunity → Nat → List DetectedCommunity × Nat)
    (L : List (DetectedCommunity × Nat)) (h : ∀ c ∈ L, ∀ k, split k c.1 c.2 = ([c.1], k)) :
    ∀ acc : List DetectedCommunity × Nat,
      (L.foldl (splitLoop split) acc).1 = acc.1 ++ L.map Prod.fst := by
  induction L with
  | nil => exact fun acc => (List.append_nil _).symm
  | cons c L ih =>
      intro acc
      have hstep : splitLoop split acc c = (acc.1 ++ [c.1], acc.2) := by
        simp only [splitLoop, h c List.mem_cons_self acc.2]
      rw [List.foldl_cons, hstep, ih fun c' hc' => h c' (List.mem_cons_of_mem _ hc'), List.map_cons,
        List.append_assoc, List.singleton_append]

theorem splitOversized_small (o : HashOrders) (place : List Nat) (leiden : LeidenLibrary)
    (nodes : List NodeRow) (edges : List EdgeRow) (thresholdPct : Float)
    (h : ∀ c ∈ cs, c.size ≤ minSplitSize) :
    (splitOversized o place leiden cs nodes edges thresholdPct minSplitSize).map
        (fun c => (c.size, c.members)) = cs.map fun c => (c.size, c.members) := by
  simp only [splitOversized]
  split
  · rfl
  · have hself : ∀ c ∈ cs.zipIdx, ∀ k, splitCommunity o (0 :: place) leiden (nodesByQn nodes)
        (edgesByCommunity (oversizedIndex cs (splitThreshold cs thresholdPct minSplitSize)) edges)
        (splitThreshold cs thresholdPct minSplitSize) minSplitSize k c.1 c.2 = ([c.1], k) := by
      intro c hc k
      exact if_pos ((h c.1 (List.fst_mem_of_mem_zipIdx hc)).trans (le_max_right _ _))
    rw [foldl_splitLoop_self _ _ hself, List.nil_append, List.zipIdx_map_fst, backfillSplitCohesion,
      List.map_map]
    have hlength : cs.length ≤ (computeCohesionBatch o (1 :: place)
        (cs.map fun c => c.members.dedup) edges).length := by simp [computeCohesionBatch]
    conv_rhs => rw [← List.map_fst_zip hlength, List.map_map]
    refine List.map_congr_left fun p _ => ?_
    simp only [Function.comp_apply]
    split <;> rfl

end Small

/-- A community of two nodes of one name has one member and the size two. -/
theorem not_parts_same_name :
    ¬ ∀ (leiden : LeidenLibrary) (nodes : List NodeRow) (edges : List EdgeRow) (minSize : Int)
      (o : HashOrders), ∀ c ∈ detectCommunitiesFrom o leiden nodes edges minSize,
        c.size = c.members.length := by
  intro hall
  let nodes := [functionNode 1 "f", functionNode 2 "f"]
  have hbefore : (detectUnsplit insertionOrder (fun _ => none) nodes [] 1).map
      (fun c => (c.size, c.members)) = [(2, ["a.py::f"])] := by decide +kernel
  have hsmall : ∀ c ∈ detectUnsplit insertionOrder (fun _ => none) nodes [] 1,
      c.size ≤ (10 : Nat) := by
    intro c hc
    have hmem : (c.size, c.members) ∈ [((2 : Int), ["a.py::f"])] := hbefore ▸ List.mem_map_of_mem hc
    rw [(Prod.mk.inj (List.mem_singleton.mp hmem)).1]
    decide
  have hafter := (splitOversized_small insertionOrder [2] (fun _ => none) nodes [] 0.25
    hsmall).trans hbefore
  obtain ⟨c, hc, hshape⟩ := List.map_eq_singleton_iff.mp hafter
  obtain ⟨hsize, hmembers⟩ := Prod.mk.inj hshape
  have hsorted : detectCommunitiesFrom insertionOrder (fun _ => none) nodes [] 1 =
      [sortMembers c] := congrArg sortCommunities hc
  have hwrong := hall (fun _ => none) nodes [] 1 insertionOrder (sortMembers c)
    (hsorted ▸ List.mem_singleton_self _)
  rw [(members_sortMembers c).length_eq, hmembers] at hwrong
  exact absurd (hsize.symm.trans hwrong) (by decide)

end Communities

end Dagayn
