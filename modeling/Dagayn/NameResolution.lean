import Dagayn.JapaneseFts
import Dagayn.KeywordQuery

/-!
# The node that a bare name stands for

`resolve` takes a name for the nodes of that name among the hits of a search. The search ranks the
rows that FTS5 matches and stops at 200, so a node of the name can be beyond. `resolve_right_iff`
says for which names the answer is right whatever the ranks.
-/

namespace Dagayn

namespace NameResolution

open JapaneseFts (segmentJapaneseFtsQuery splitSegments)

/-! ## The search -/

/-- `_NAME_RESOLUTION_SEARCH_LIMIT`. -/
def nameSearchLimit : Int := 200

def commonFtsSegments : List String :=
  ["py", "rs", "ts", "js", "go", "src", "test", "tests", "index", "main", "lib", "mod", "api",
    "app", "util", "utils", "common", "core"]

/-- The order of the keys of `most_selective_segment`, for two segments. -/
def selectiveLe (a b : String) : Bool :=
  let commonA := decide (a ∈ commonFtsSegments)
  let commonB := decide (b ∈ commonFtsSegments)
  if commonA ≠ commonB then commonA
  else if a.utf8ByteSize ≠ b.utf8ByteSize then a.utf8ByteSize < b.utf8ByteSize
  else a ≤ b

/-- `most_selective_segment`: of segments with equal keys the last. -/
def mostSelectiveSegment (segments : List String) : String :=
  match segments with
  | [] => ""
  | first :: rest =>
      rest.foldl (fun best segment => if selectiveLe best segment then segment else best) first

def quoteFts (value : String) : String :=
  "\"" ++ String.ofList (value.toList.flatMap fun c => if c = '"' then ['"', '"'] else [c]) ++ "\""

/-- `build_fts_match_queries`, without the name of the mode. -/
def buildFtsMatchQueries (ftsQuery : List Char) : String × String :=
  let segments := (splitSegments ftsQuery).map String.ofList
  if 1 < segments.length then
    let quoted := segments.map quoteFts
    let anchor := quoteFts (mostSelectiveSegment segments)
    (" AND ".intercalate quoted, "(" ++ " OR ".intercalate quoted ++ ") AND " ++ anchor)
  else
    let safeQuery := quoteFts (String.ofList ftsQuery)
    (safeQuery, safeQuery)

/-- FTS5: the ids of the rows that a query matches, each of them once; none where it fails. -/
structure Fts where
  matched : String → Option (List Nat)
  nodup : ∀ {q ids}, matched q = some ids → ids.Nodup

/-- `ORDER BY score`. -/
structure Ranking where
  order : String → List Nat → List Nat
  perm : ∀ q ids, (order q ids).Perm ids

/-- `LIMIT ?`: a negative one is none. -/
def limited (limit : Int) (ids : List Nat) : List Nat :=
  if limit < 0 then ids else ids.take limit.toNat

section Search

/- The dictionary, the index, and the orders of its hits and of the rows of the store. -/
variable (morphTokens : List Char → Bool → Option (List (List Char))) (fts : Fts)
  (ranking : Ranking) (o : RowOrders) (s : Store)

/-- The query whose rows `fts_query` returns: the fallback where the first one matches nothing. -/
def answeredQuery (query : String) : String :=
  let (safeQuery, fallbackQuery) :=
    buildFtsMatchQueries (segmentJapaneseFtsQuery morphTokens query.toList)
  if fts.matched safeQuery = some [] then fallbackQuery else safeQuery

/-- `fts_query`, by the ids of its hits. -/
def ftsQuery (query : String) (limit : Int) : List Nat :=
  let (safeQuery, fallbackQuery) :=
    buildFtsMatchQueries (segmentJapaneseFtsQuery morphTokens query.toList)
  let run := fun matchQuery =>
    (fts.matched matchQuery).map fun ids => limited limit (ranking.order matchQuery ids)
  match run safeQuery with
  | some (hit :: hits) => hit :: hits
  | some [] => if fallbackQuery ≠ safeQuery then (run fallbackQuery).getD [] else []
  | none => []

def nodesInHitOrder (ids : List Nat) : List NodeRow :=
  ids.filterMap fun id => s.nodes.rows.find? (·.id = id)

/-- The ids of the hits of `search_nodes`. -/
def searchIds (query : String) (limit : Int) : List Nat :=
  let hits := ftsQuery morphTokens fts ranking query limit
  if hits ≠ [] then hits else (s.keywordQuery o query limit).map Prod.fst

def searchNodes (query : String) (limit : Int) : List NodeRow :=
  nodesInHitOrder s (searchIds morphTokens fts ranking o s query limit)

def getNodesByName (name : String) : List NodeRow :=
  s.nodes.rows.filter (·.input.name = name)

end Search

/-! ## The resolution -/

inductive Resolution where
  | exact
  | exactName
  | fuzzy
  | externalPackage
  deriving DecidableEq

def looksLikeFileTarget (target : String) : Bool :=
  let path := ((splitFirst "::".toList target.toList).map Prod.fst).getD target.toList
  '/' ∈ path || '\\' ∈ path ||
    fileTargetSuffixes.any fun suffix =>
      suffix.toList.isSuffixOf (toLowercase (String.ofList path)).toList

def shownCandidates : Nat := 5

def testsLast (candidates : List NodeRow) : List NodeRow :=
  candidates.filter (!·.input.isTest) ++ candidates.filter (·.input.isTest)

structure Ambiguity where
  candidates : List NodeRow
  total : Nat
  exactName : Bool

def Ambiguity.new (found : List NodeRow) (total : Nat) (exactName : Bool) : Ambiguity :=
  ⟨(testsLast found).take shownCandidates, total, exactName⟩

inductive Outcome where
  | found (node : Option NodeRow) (resolution : Resolution)
  | notFound (file : Bool)
  | ambiguous (ambiguity : Ambiguity)

/-- What `resolve` is asked, and what it asks the store but for the search: the node of the
qualified name, those of its other spellings, whether an external edge leads to the target, whether
a directory of the name has files, and whether a file of the name is indexed. -/
structure Request where
  pattern : String
  target : String
  exactNode : Option NodeRow := none
  respelled : List NodeRow := []
  external : Bool := false
  hasFiles : Bool := false
  indexed : Bool := false

/-- The rest of `resolve` for a target that no node has as its qualified name, with the hits of
the search. -/
def resolveName (r : Request) (hits : List NodeRow) : Outcome :=
  let namedExists := hits.any (·.input.name = r.target)
  if r.pattern = "callers_of" ∧ !namedExists ∧ r.external then .found none .externalPackage
  else if r.pattern = "importers_of" ∧ !namedExists ∧ r.hasFiles then .found none .exact
  else if r.pattern = "file_summary" ∧ looksLikeFileTarget r.target then
    if r.indexed then .found none .exact else .notFound true
  else if !looksLikeFileTarget r.target then
    let named := hits.filter (·.input.name = r.target)
    let ambiguity :=
      if named = [] then Ambiguity.new (hits.take shownCandidates) hits.length false
      else Ambiguity.new named named.length true
    match named, ambiguity.candidates with
    | [node], _ => .found (some node) .exactName
    | _, [node] => .found (some node) .fuzzy
    | _, _ :: _ :: _ => .ambiguous ambiguity
    | _, [] => if r.pattern = "file_summary" then .found none .exact else .notFound false
  else .notFound false

def resolve (morphTokens : List Char → Bool → Option (List (List Char))) (fts : Fts)
    (ranking : Ranking) (o : RowOrders) (s : Store) (r : Request) : Outcome :=
  let respelled := if r.exactNode.isSome then [] else r.respelled
  if 1 < respelled.length then .ambiguous (Ambiguity.new respelled respelled.length true)
  else
    match r.exactNode, respelled.getLast? with
    | some node, _ => .found (some node) .exact
    | none, some node => .found (some node) .exactName
    | none, none => resolveName r (searchNodes morphTokens fts ranking o s r.target nameSearchLimit)

/-! ## Right answers -/

/-- A name stands for the one node that has it, and for none where several have it. -/
structure Right (named : List NodeRow) (outcome : Outcome) : Prop where
  unique : ∀ node, outcome = .found (some node) .exactName → named = [node]
  several : 1 < named.length →
    ∃ a, outcome = .ambiguous a ∧ a.exactName = true ∧ a.total = named.length

/-! ## The answer from the hits -/

section Name

variable {r : Request} {hits named : List NodeRow}

theorem named_of_exactName {node : NodeRow}
    (h : resolveName r hits = .found (some node) .exactName) :
    hits.filter (·.input.name = r.target) = [node] := by
  rw [resolveName] at h
  split at h
  · cases h
  split at h
  · cases h
  split at h
  · split at h <;> cases h
  split at h
  · dsimp only at h
    split at h
    · rename_i heq
      cases h
      exact heq
    · cases h
    · cases h
    · split at h <;> cases h
  · cases h

theorem total_of_ambiguous {a : Ambiguity} (h : resolveName r hits = .ambiguous a)
    (hexact : a.exactName = true) :
    a.total = (hits.filter (·.input.name = r.target)).length := by
  rw [resolveName] at h
  split at h
  · cases h
  split at h
  · cases h
  split at h
  · split at h <;> cases h
  split at h
  · dsimp only at h
    split at h
    · cases h
    · cases h
    · cases h
      by_cases hnil : hits.filter (·.input.name = r.target) = []
      · rw [if_pos hnil] at hexact
        cases hexact
      · rw [if_neg hnil]
        rfl
    · split at h <;> cases h
  · cases h

theorem length_testsLast (candidates : List NodeRow) :
    (testsLast candidates).length = candidates.length := by
  have hsplit := List.length_eq_length_filter_add (l := candidates) (!·.input.isTest)
  rw [testsLast, List.length_append, hsplit]
  congr 2
  simp

theorem ambiguous_of_several (hname : looksLikeFileTarget r.target = false)
    (h : 1 < (hits.filter (·.input.name = r.target)).length) :
    resolveName r hits = .ambiguous (Ambiguity.new (hits.filter (·.input.name = r.target))
      (hits.filter (·.input.name = r.target)).length true) := by
  have hexists : hits.any (·.input.name = r.target) = true := by
    obtain ⟨node, hnode⟩ := List.exists_mem_of_length_pos (Nat.lt_trans Nat.one_pos h)
    obtain ⟨hmem, heq⟩ := List.mem_filter.mp hnode
    exact List.any_eq_true.mpr ⟨node, hmem, heq⟩
  have hne : hits.filter (·.input.name = r.target) ≠ [] := by
    intro hnil
    rw [hnil] at h
    cases h
  have hshown : 1 < (Ambiguity.new (hits.filter (·.input.name = r.target))
      (hits.filter (·.input.name = r.target)).length true).candidates.length := by
    rw [Ambiguity.new, List.length_take, length_testsLast]
    exact Nat.lt_min.mpr ⟨by decide, h⟩
  rw [resolveName]
  simp only [hexists, hname, if_neg hne]
  simp only [Bool.not_true, Bool.false_eq_true, false_and, and_false, if_false, Bool.not_false,
    if_true]
  split
  · rename_i heq
    rw [heq] at h
    exact absurd h (Nat.lt_irrefl 1)
  · rename_i heq _
    rw [heq] at hshown
    exact absurd hshown (Nat.lt_irrefl 1)
  · rfl
  · rename_i heq _
    rw [heq] at hshown
    cases hshown

theorem right_iff (hname : looksLikeFileTarget r.target = false)
    (hmem : ∀ node ∈ hits.filter (·.input.name = r.target), node ∈ named) :
    Right named (resolveName r hits) ↔
      named.length ≤ 1 ∨ (hits.filter (·.input.name = r.target)).length = named.length := by
  -- a node of the name is the only one where there is one
  have hone : ∀ node, hits.filter (·.input.name = r.target) = [node] → named.length ≤ 1 →
      named = [node] := by
    intro node heq hlength
    have hin := hmem node (heq ▸ List.mem_singleton_self node)
    obtain ⟨m, rfl⟩ := List.length_eq_one_iff.mp
      (Nat.le_antisymm hlength (List.length_pos_of_mem hin))
    rw [List.mem_singleton.mp hin]
  constructor
  · intro h
    refine (Nat.lt_or_ge 1 named.length).symm.imp id fun hseveral => ?_
    obtain ⟨a, hambiguous, hexact, htotal⟩ := h.several hseveral
    rw [← htotal, total_of_ambiguous hambiguous hexact]
  · intro h
    constructor
    · intro node hfound
      have heq := named_of_exactName hfound
      refine hone node heq (h.elim id fun hlength => ?_)
      rw [← hlength, heq]
      exact Nat.le_refl 1
    · intro hseveral
      have hlength := h.resolve_left (Nat.not_le.mpr hseveral)
      rw [← hlength] at hseveral
      exact ⟨_, ambiguous_of_several hname hseveral, rfl, hlength⟩

end Name

/-! ## The hits of a search -/

theorem find_row (s : Store) {node : NodeRow} (h : node ∈ s.nodes.rows) :
    s.nodes.rows.find? (·.id = node.id) = some node := by
  obtain ⟨found, hfound⟩ : ∃ found, s.nodes.rows.find? (·.id = node.id) = some found := by
    rw [← Option.isSome_iff_exists, List.find?_isSome]
    exact ⟨node, h, by simp⟩
  have hid : found.id = node.id := by simpa using List.find?_some hfound
  rw [hfound, List.inj_on_of_nodup_map s.nodes.ids_nodup (List.mem_of_find?_eq_some hfound) h hid]

theorem mem_nodesInHitOrder (s : Store) (ids : List Nat) (node : NodeRow) :
    node ∈ nodesInHitOrder s ids ↔ node ∈ s.nodes.rows ∧ node.id ∈ ids := by
  rw [nodesInHitOrder, List.mem_filterMap]
  constructor
  · rintro ⟨id, hid, hfind⟩
    have heq : node.id = id := by simpa using List.find?_some hfind
    exact ⟨List.mem_of_find?_eq_some hfind, heq ▸ hid⟩
  · exact fun ⟨hmem, hid⟩ => ⟨node.id, hid, find_row s hmem⟩

theorem nodup_nodesInHitOrder (s : Store) {ids : List Nat} (h : ids.Nodup) :
    (nodesInHitOrder s ids).Nodup := by
  refine h.filterMap fun id id' node hnode hnode' => ?_
  have heq : node.id = id := by simpa using List.find?_some hnode
  have heq' : node.id = id' := by simpa using List.find?_some hnode'
  exact heq.symm.trans heq'

theorem length_named (s : Store) (name : String) {ids : List Nat} (h : ids.Nodup) :
    ((nodesInHitOrder s ids).filter (·.input.name = name)).length =
      ((getNodesByName s name).filter (·.id ∈ ids)).length := by
  have hrows : s.nodes.rows.Nodup := s.nodes.ids_nodup.of_map _
  refine List.Perm.length_eq ((List.perm_ext_iff_of_nodup
    ((nodup_nodesInHitOrder s h).filter _) ((hrows.filter _).filter _)).mpr fun node => ?_)
  simp only [List.mem_filter, mem_nodesInHitOrder, decide_eq_true_eq]
  tauto

section Search

variable {morphTokens : List Char → Bool → Option (List (List Char))} {fts : Fts}
  {ranking : Ranking} {o : RowOrders} {s : Store}

def matchedIds (morphTokens : List Char → Bool → Option (List (List Char))) (fts : Fts)
    (query : String) : List Nat :=
  (fts.matched (answeredQuery morphTokens fts query)).getD []

theorem limited_eq_nil_iff {limit : Int} (h : 0 < limit) {ids : List Nat} :
    limited limit ids = [] ↔ ids = [] := by
  rw [limited, if_neg (by omega), List.take_eq_nil_iff]
  exact or_iff_right (by omega)

theorem ftsQuery_eq {limit : Int} (h : 0 < limit) (query : String) :
    ftsQuery morphTokens fts ranking query limit =
      limited limit (ranking.order (answeredQuery morphTokens fts query)
        (matchedIds morphTokens fts query)) := by
  have hnil : ∀ q, ranking.order q [] = [] := fun q => (ranking.perm q []).eq_nil
  have hempty : limited limit [] = [] := (limited_eq_nil_iff h).mpr rfl
  rw [ftsQuery, matchedIds, answeredQuery]
  generalize buildFtsMatchQueries (segmentJapaneseFtsQuery morphTokens query.toList) = queries
  obtain ⟨safeQuery, fallbackQuery⟩ := queries
  dsimp only
  cases hsafe : fts.matched safeQuery with
  | none =>
      have hno : (none : Option (List Nat)) ≠ some [] := fun h => by cases h
      rw [if_neg hno, hsafe, Option.getD_none, hnil, hempty]
      rfl
  | some ids =>
      cases ids with
      | nil =>
          rw [if_pos rfl, Option.map_some, hnil, hempty]
          dsimp only
          split
          · cases fts.matched fallbackQuery with
            | none => rw [Option.getD_none, hnil, hempty, Option.map_none, Option.getD_none]
            | some ids => rfl
          · rename_i heq
            rw [Decidable.not_not.mp heq, hsafe, Option.getD_some, hnil, hempty]
      | cons id ids =>
          have hno : some (id :: ids) ≠ some [] := fun h => by cases h
          rw [if_neg hno, hsafe, Option.map_some, Option.getD_some]
          have hne : limited limit (ranking.order safeQuery (id :: ids)) ≠ [] := by
            rw [ne_eq, limited_eq_nil_iff h]
            exact fun hperm => absurd (hperm ▸ ranking.perm safeQuery (id :: ids)).nil_eq nofun
          obtain ⟨hit, hits, heq⟩ := List.exists_cons_of_ne_nil hne
          rw [heq]

theorem nodup_matchedIds (query : String) : (matchedIds morphTokens fts query).Nodup := by
  rw [matchedIds]
  cases hmatched : fts.matched (answeredQuery morphTokens fts query) with
  | none => exact List.nodup_nil
  | some ids => exact fts.nodup hmatched

theorem keywordIds_sublist (query : String) (rows : List NodeRow) :
    ((rows.filterMap (keywordHit query)).map Prod.fst).Sublist (rows.map NodeRow.id) := by
  induction rows with
  | nil => exact List.Sublist.refl _
  | cons r rows ih =>
      cases hr : keywordHit query r with
      | none =>
          rw [List.filterMap_cons_none hr]
          exact ih.cons r.id
      | some hit =>
          rw [List.filterMap_cons_some hr, List.map_cons, List.map_cons, id_of_keywordHit hr]
          exact ih.cons_cons r.id

theorem nodup_keywordIds (query : String) (limit : Int) :
    ((s.keywordQuery o query limit).map Prod.fst).Nodup := by
  have hrows : ((s.keywordRows o query limit).map NodeRow.id).Nodup := by
    rw [Store.keywordRows]
    split
    · refine List.Nodup.sublist ?_ (((o.filtered_perm s.nodes.rows).map _).nodup_iff.mpr
        s.nodes.ids_nodup)
      exact ((sqlLimit_sublist _ _).trans List.filter_sublist).map _
    · exact ((o.scanned_perm s.nodes.rows).map _).nodup_iff.mpr s.nodes.ids_nodup
  rw [Store.keywordQuery]
  split
  · exact List.nodup_nil
  · refine List.Nodup.sublist ((List.take_sublist _ _).map _) ?_
    refine ((List.perm_insertionSort _ _).map _).nodup_iff.mpr ?_
    exact List.Nodup.sublist (keywordIds_sublist query _) hrows

/-- Whatever the ranks, the nodes of the name are among the hits. -/
def InReach (morphTokens : List Char → Bool → Option (List (List Char))) (fts : Fts)
    (o : RowOrders) (s : Store) (target : String) : Prop :=
  if matchedIds morphTokens fts target ≠ [] then
    (∀ node ∈ getNodesByName s target, node.id ∈ matchedIds morphTokens fts target) ∧
      (matchedIds morphTokens fts target).length ≤ 200
  else ∀ node ∈ getNodesByName s target,
    node.id ∈ (s.keywordQuery o target nameSearchLimit).map Prod.fst

theorem searchIds_eq (query : String) :
    searchIds morphTokens fts ranking o s query nameSearchLimit =
      if matchedIds morphTokens fts query ≠ [] then
        (ranking.order (answeredQuery morphTokens fts query)
          (matchedIds morphTokens fts query)).take 200
      else (s.keywordQuery o query nameSearchLimit).map Prod.fst := by
  have hpos : (0 : Int) < nameSearchLimit := by decide
  have hperm := ranking.perm (answeredQuery morphTokens fts query)
    (matchedIds morphTokens fts query)
  have hnil : limited nameSearchLimit (ranking.order (answeredQuery morphTokens fts query)
      (matchedIds morphTokens fts query)) = [] ↔ matchedIds morphTokens fts query = [] := by
    rw [limited_eq_nil_iff hpos]
    exact ⟨fun h => (h ▸ hperm).nil_eq.symm, fun h => List.perm_nil.mp (h ▸ hperm)⟩
  rw [searchIds, ftsQuery_eq hpos]
  exact if_congr (not_congr hnil) rfl rfl

theorem nodup_searchIds (query : String) :
    (searchIds morphTokens fts ranking o s query nameSearchLimit).Nodup := by
  rw [searchIds_eq]
  split
  · refine List.Nodup.sublist (List.take_sublist _ _) ?_
    exact (ranking.perm _ _).nodup_iff.mpr (nodup_matchedIds query)
  · exact nodup_keywordIds query nameSearchLimit

end Search

def lastRanking (id : Nat) : Ranking where
  order _ ids := if id ∈ ids then ids.erase id ++ [id] else ids
  perm _ ids := by
    split
    · rename_i h
      exact (List.perm_append_singleton id _).trans (List.perm_cons_erase h).symm
    · exact List.Perm.refl ids

/-- Under one ranking the answer is right where at most one node has the name, or all of them are
among the hits. -/
theorem right_resolve_iff (morphTokens : List Char → Bool → Option (List (List Char))) (fts : Fts)
    (ranking : Ranking) (o : RowOrders) (s : Store) {r : Request}
    (hbare : looksLikeFileTarget r.target = false) (hexact : r.exactNode = none)
    (hrespelled : r.respelled = []) :
    Right (getNodesByName s r.target) (resolve morphTokens fts ranking o s r) ↔
      (getNodesByName s r.target).length ≤ 1 ∨ ∀ node ∈ getNodesByName s r.target,
        node.id ∈ searchIds morphTokens fts ranking o s r.target nameSearchLimit := by
  have hresolve : resolve morphTokens fts ranking o s r =
      resolveName r (searchNodes morphTokens fts ranking o s r.target nameSearchLimit) := by
    rw [resolve, hexact, hrespelled]
    rfl
  rw [hresolve, right_iff hbare, searchNodes, length_named s _ (nodup_searchIds r.target),
    List.length_filter_eq_length_iff]
  · simp only [decide_eq_true_eq]
  · intro node hnode
    obtain ⟨hmem, hname⟩ := List.mem_filter.mp hnode
    exact List.mem_filter.mpr ⟨((mem_nodesInHitOrder s _ node).mp hmem).1, hname⟩

/-- The answer for a bare name is right under every ranking exactly where at most one node has the
name, or the search has them all: FTS5 matches them and no more than 200 rows, or it matches none
and they are among the hits of the keyword search. -/
theorem resolve_right_iff (morphTokens : List Char → Bool → Option (List (List Char))) (fts : Fts)
    (o : RowOrders) (s : Store) (r : Request) (hbare : looksLikeFileTarget r.target = false)
    (hexact : r.exactNode = none) (hrespelled : r.respelled = []) :
    (∀ ranking, Right (getNodesByName s r.target) (resolve morphTokens fts ranking o s r)) ↔
      (getNodesByName s r.target).length ≤ 1 ∨ InReach morphTokens fts o s r.target := by
  simp only [right_resolve_iff morphTokens fts _ o s hbare hexact hrespelled]
  rcases Nat.lt_or_ge 1 (getNodesByName s r.target).length with hseveral | hone
  · have hnot : ¬ (getNodesByName s r.target).length ≤ 1 := Nat.not_le.mpr hseveral
    simp only [hnot, false_or, searchIds_eq]
    rw [InReach]
    split
    · rename_i hmatched
      constructor
      · intro hall
        refine ⟨fun node hnode => ?_, ?_⟩
        · exact ((lastRanking 0).perm _ _).subset (List.mem_of_mem_take (hall _ node hnode))
        · -- a node of the name may come last
          obtain ⟨node, hnode⟩ := List.exists_mem_of_length_pos (Nat.lt_trans Nat.one_pos hseveral)
          have htake := hall (lastRanking node.id) node hnode
          have hmem := ((lastRanking node.id).perm _ _).subset (List.mem_of_mem_take htake)
          have hnodup : (matchedIds morphTokens fts r.target).Nodup := nodup_matchedIds r.target
          by_contra hlong
          have horder : (lastRanking node.id).order (answeredQuery morphTokens fts r.target)
              (matchedIds morphTokens fts r.target) =
                (matchedIds morphTokens fts r.target).erase node.id ++ [node.id] := if_pos hmem
          have hlength := List.length_erase_of_mem hmem
          rw [horder, List.take_append_of_le_length (by omega)] at htake
          exact hnodup.not_mem_erase (List.mem_of_mem_take htake)
      · rintro ⟨hin, hshort⟩ ranking node hnode
        have hperm := ranking.perm (answeredQuery morphTokens fts r.target)
          (matchedIds morphTokens fts r.target)
        rw [List.take_of_length_le (hperm.length_eq.trans_le hshort)]
        exact hperm.symm.subset (hin node hnode)
    · exact ⟨fun hall => hall (lastRanking 0), fun hall _ => hall⟩
  · exact iff_of_true (fun _ => .inl hone) (.inl hone)

/-- Functions of one file each; the first and the last one are named `render`. -/
def renderRow (count i : Nat) : NodeRow where
  id := i + 1
  qualifiedName := String.ofList (List.replicate i 'm' ++ "/page.py::render".toList)
  input := {
    kind := "Function", name := if i = 0 ∨ i + 1 = count then "render" else "render_page",
    filePath := String.ofList (List.replicate i 'm' ++ "/page.py".toList) }
  fileHash := ""
  mtimeNs := 0

def renderStore (count : Nat) : Store where
  nodes := {
    rows := (List.range count).map (renderRow count)
    seq := count
    ids_nodup := by
      rw [List.map_map]
      exact List.nodup_range.map fun i j h => Nat.succ_injective h
    names_nodup := by
      rw [List.map_map]
      refine List.nodup_range.map fun i j h => ?_
      have hlength := congrArg List.length (String.ofList_injective h)
      simpa using hlength
    ids_le := fun r hr => by
      obtain ⟨i, hi, rfl⟩ := List.mem_map.mp hr
      exact List.mem_range.mp hi }

/-- All the functions have the word in their names. -/
def renderFts (count : Nat) : Fts where
  matched q := if q = "\"render\"" then some (List.range' 1 count) else some []
  nodup {q ids} h := by
    split at h <;> obtain rfl := Option.some.inj h
    · exact List.nodup_range'
    · exact List.nodup_nil

theorem resolve_right_two : Right (getNodesByName (renderStore 2) "render")
    (resolve JapaneseFts.noMorphTokens (renderFts 2) ⟨fun _ ids => ids, fun _ ids => .refl ids⟩
      Store.tableOrders (renderStore 2) { pattern := "callers_of", target := "render" }) := by
  have hbare : looksLikeFileTarget "render" = false := by decide +kernel
  refine (resolve_right_iff _ _ _ _ { pattern := "callers_of", target := "render" }
    hbare rfl rfl).mpr (.inr ?_) _
  have hmatched : matchedIds JapaneseFts.noMorphTokens (renderFts 2) "render" = [1, 2] := by
    decide +kernel
  have hnamed : ∀ node ∈ getNodesByName (renderStore 2) "render", node.id ∈ [1, 2] :=
    forall_mem_of_all (by decide +kernel)
  rw [InReach]
  dsimp only
  rw [hmatched, if_pos (List.cons_ne_nil 1 [2])]
  exact ⟨hnamed, by decide⟩

/-- The second of two functions of the name is behind 201 others. -/
theorem not_resolve_right : ¬ ∀ (fts : Fts) (ranking : Ranking) (s : Store) (r : Request),
    looksLikeFileTarget r.target = false → r.exactNode = none → r.respelled = [] →
      Right (getNodesByName s r.target)
        (resolve JapaneseFts.noMorphTokens fts ranking Store.tableOrders s r) := by
  intro hall
  have hright := hall (renderFts 202) ⟨fun _ ids => ids, fun _ ids => .refl ids⟩ (renderStore 202)
    { pattern := "callers_of", target := "render" } (by decide +kernel) rfl rfl
  rw [right_resolve_iff _ _ _ _ _ (by decide +kernel) rfl rfl, searchIds_eq] at hright
  have hmatched : matchedIds JapaneseFts.noMorphTokens (renderFts 202) "render" =
      List.range' 1 202 := by decide +kernel
  have hnamed : (getNodesByName (renderStore 202) "render").map NodeRow.id = [1, 202] := by
    decide +kernel
  rcases hright with hone | hin
  · have hlength := congrArg List.length hnamed
    rw [List.length_map] at hlength
    dsimp only at hone
    rw [hlength] at hone
    exact absurd hone (by decide)
  · obtain ⟨node, hnode, hid⟩ := List.mem_map.mp (hnamed ▸ by simp : 202 ∈
      (getNodesByName (renderStore 202) "render").map NodeRow.id)
    have hmem := hin node hnode
    dsimp only at hmem
    rw [hmatched, hid, if_pos (by decide)] at hmem
    exact absurd hmem (by decide +kernel)

end NameResolution

end Dagayn
