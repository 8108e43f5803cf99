import Dagayn.Lowercase
import Dagayn.Store
import Mathlib

/-!
# Searching names without the index

`keyword_query`: the nodes whose lower-cased name contains every word of the query, best
scores first. With ASCII words SQL filters names and qualified names and stops at four times
the limit, before the names are looked at; with other words all names are. The answer is the
one promised exactly where none of the best matches is beyond that stop or is written with a
letter that only Unicode folds to ASCII.
-/

namespace Dagayn

/-! ## `LIKE` -/

/-- The pattern matches from some position on. -/
def likeAnywhere (rest : List Char → Bool) : List Char → Bool
  | [] => rest []
  | c :: text => rest (c :: text) || likeAnywhere rest text

/-- `text LIKE pattern`: `%` is any text, `_` any character, ASCII letters have no case. -/
def like : List Char → List Char → Bool
  | [], text => text.isEmpty
  | p :: pattern, text =>
      if p = '%' then likeAnywhere (like pattern) text
      else
        match text with
        | [] => false
        | c :: text => (p = '_' || p.toLower = c.toLower) && like pattern text

/-! ## The query -/

/-- The orders in which the two statements go through the nodes. -/
structure RowOrders where
  filtered : List NodeRow → List NodeRow
  scanned : List NodeRow → List NodeRow
  filtered_perm : ∀ rows, (filtered rows).Perm rows
  scanned_perm : ∀ rows, (scanned rows).Perm rows

/-- `query.to_lowercase().split_whitespace()`. -/
def keywordWords (query : String) : List (List Char) :=
  ((toLowercase query).toList.splitOnP isWhitespace).filter fun word => !word.isEmpty

def allAscii (words : List (List Char)) : Bool := words.all fun word => word.all (·.toNat < 128)

/-- `LIMIT ?`: a negative one is none. -/
def sqlLimit (limit : Int) (rows : List NodeRow) : List NodeRow :=
  if limit < 0 then rows else rows.take limit.toNat

/-- `limit.saturating_mul(4)`. -/
def fourfold (limit : Int) : Int := max (-2 ^ 63) (min (2 ^ 63 - 1) (limit * 4))

/-- `name LIKE ? OR qualified_name LIKE ?` for each word. -/
def likesWords (words : List (List Char)) (r : NodeRow) : Bool :=
  words.all fun word =>
    let pattern := '%' :: (word ++ ['%'])
    like pattern r.input.name.toList || like pattern r.qualifiedName.toList

/-- The id and the score of a node whose lower-cased name contains every word. -/
def keywordHit (query : String) (r : NodeRow) : Option (Nat × Nat) :=
  let lowered := (toLowercase query).toList
  let name := (toLowercase r.input.name).toList
  if (keywordWords query).all fun word => word <:+: name then
    some (r.id, if name = lowered then 3 else if lowered <+: name then 2 else 1)
  else none

/-- The hits among the rows, the best scores first and the rows' order among equals. -/
def rankedHits (query : String) (rows : List NodeRow) : List (Nat × Nat) :=
  (rows.filterMap (keywordHit query)).insertionSort fun a b => b.2 ≤ a.2

def bestHits (query : String) (limit : Int) (rows : List NodeRow) : List (Nat × Nat) :=
  (rankedHits query rows).take (max limit 0).toNat

namespace Store

section Query

variable (o : RowOrders) (s : Store) (query : String) (limit : Int)

/-- The rows of the statement with the `LIKE`s, in front of its `LIMIT`. -/
def likedRows : List NodeRow :=
  (o.filtered s.nodes.rows).filter (likesWords (keywordWords query))

def keywordRows : List NodeRow :=
  if allAscii (keywordWords query) then sqlLimit (fourfold limit) (likedRows o s query)
  else o.scanned s.nodes.rows

def keywordQuery : List (Nat × Nat) :=
  if keywordWords query = [] then [] else bestHits query limit (keywordRows o s query limit)

/-- `keyword_query` on the path that scans all names. -/
def scanQuery : List (Nat × Nat) :=
  if keywordWords query = [] then [] else bestHits query limit (o.scanned s.nodes.rows)

/-- All nodes, in the order the statement goes through them. -/
def visitedRows : List NodeRow :=
  if allAscii (keywordWords query) then o.filtered s.nodes.rows else o.scanned s.nodes.rows

/-- The answer is made of all nodes, and an ASCII query gets it on both paths. -/
def KeywordExact : Prop :=
  keywordQuery o s query limit = bestHits query limit (visitedRows o s query) ∧
    (allAscii (keywordWords query) = true →
      keywordQuery o s query limit = scanQuery o s query limit)

/-- A query without words has no answer to miss, and of an ASCII query the best hits are rows
that SQL returns and both statements come upon them in one order. -/
structure WithinCap : Prop where
  words : keywordWords query = [] → limit ≤ 0 ∨ s.nodes.rows = []
  cap : keywordWords query ≠ [] → allAscii (keywordWords query) = true →
    ∀ hit ∈ bestHits query limit (o.filtered s.nodes.rows),
      ∃ r ∈ sqlLimit (fourfold limit) (likedRows o s query), r.id = hit.1
  order : keywordWords query ≠ [] → allAscii (keywordWords query) = true →
    bestHits query limit (o.filtered s.nodes.rows) = bestHits query limit (o.scanned s.nodes.rows)

end Query

end Store

/-! ## The stable sort of a part -/

theorem insertionSort_sublist {l l' : List (Nat × Nat)} (h : l'.Sublist l) :
    (l'.insertionSort fun a b => b.2 ≤ a.2).Sublist (l.insertionSort fun a b => b.2 ≤ a.2) := by
  have htotal : Std.Total fun a b : Nat × Nat => b.2 ≤ a.2 := ⟨fun a b => Nat.le_total b.2 a.2⟩
  have htrans : IsTrans (Nat × Nat) fun a b => b.2 ≤ a.2 := ⟨fun _ _ _ hab hbc => hbc.trans hab⟩
  induction h with
  | slnil => exact List.Sublist.refl _
  | cons a _ ih =>
      rw [List.insertionSort_cons]
      exact ih.trans (List.sublist_orderedInsert _ _)
  | cons_cons a _ ih =>
      rw [List.insertionSort_cons, List.insertionSort_cons]
      exact ih.orderedInsert_sublist _ (List.pairwise_insertionSort _ _)

theorem take_eq_of_sublist {α : Type} {l l' : List α} (hsub : l'.Sublist l) (hnodup : l.Nodup)
    {n : Nat} (hmem : ∀ a ∈ l.take n, a ∈ l') : l'.take n = l.take n := by
  induction n generalizing l l' with
  | zero => rfl
  | succ n ih =>
      cases l with
      | nil => rw [List.sublist_nil.mp hsub]
      | cons a l =>
          obtain ⟨ha, hnodup⟩ := List.nodup_cons.mp hnodup
          have hin : a ∈ l' := hmem a (by simp)
          cases hsub with
          | cons _ hsub => exact absurd (hsub.subset hin) ha
          | cons_cons _ hsub =>
              rw [List.take_succ_cons, List.take_succ_cons, ih hsub hnodup fun b hb => ?_]
              have hb' := hmem b (by rw [List.take_succ_cons]; exact List.mem_cons_of_mem _ hb)
              refine (List.mem_cons.mp hb').resolve_left fun heq => ha ?_
              exact heq ▸ List.mem_of_mem_take hb

/-! ## The answer -/

theorem id_of_keywordHit {query : String} {r : NodeRow} {hit : Nat × Nat}
    (h : keywordHit query r = some hit) : hit.1 = r.id := by
  simp only [keywordHit] at h
  split at h
  · obtain rfl := Option.some.inj h
    rfl
  · cases h

theorem mem_rankedHits {query : String} {rows : List NodeRow} {hit : Nat × Nat} :
    hit ∈ rankedHits query rows ↔ ∃ r ∈ rows, keywordHit query r = some hit := by
  rw [rankedHits, List.mem_insertionSort, List.mem_filterMap]

theorem nodup_rankedHits {query : String} {rows : List NodeRow} (h : (rows.map NodeRow.id).Nodup) :
    (rankedHits query rows).Nodup := by
  refine (List.perm_insertionSort _ _).nodup_iff.mpr ?_
  induction rows with
  | nil => exact List.nodup_nil
  | cons r rows ih =>
      rw [List.map_cons, List.nodup_cons] at h
      cases hr : keywordHit query r with
      | none =>
          rw [List.filterMap_cons_none hr]
          exact ih h.2
      | some hit =>
          rw [List.filterMap_cons_some hr, List.nodup_cons]
          refine ⟨fun hin => h.1 ?_, ih h.2⟩
          obtain ⟨r', hr', hhit⟩ := List.mem_filterMap.mp hin
          rw [← id_of_keywordHit hr, id_of_keywordHit hhit]
          exact List.mem_map_of_mem hr'

/-- The best hits of some of the rows are the best of all where those are among them. -/
theorem bestHits_sublist_iff {query : String} {limit : Int} {rows some_ : List NodeRow}
    (hsub : some_.Sublist rows) (hids : (rows.map NodeRow.id).Nodup) :
    bestHits query limit some_ = bestHits query limit rows ↔
      ∀ hit ∈ bestHits query limit rows, ∃ r ∈ some_, r.id = hit.1 := by
  constructor
  · intro heq hit hhit
    rw [← heq, bestHits] at hhit
    obtain ⟨r, hr, hrhit⟩ := mem_rankedHits.mp (List.mem_of_mem_take hhit)
    exact ⟨r, hr, (id_of_keywordHit hrhit).symm⟩
  · intro hall
    refine take_eq_of_sublist (insertionSort_sublist (hsub.filterMap _)) (nodup_rankedHits hids)
      fun hit hhit => ?_
    obtain ⟨r, hr, hid⟩ := hall hit hhit
    obtain ⟨r', hr', hrhit⟩ := mem_rankedHits.mp (List.mem_of_mem_take hhit)
    -- the row with the id of the hit is the row of the hit
    obtain rfl := List.inj_on_of_nodup_map hids (hsub.subset hr) hr'
      (hid.trans (id_of_keywordHit hrhit))
    exact mem_rankedHits.mpr ⟨r, hr, hrhit⟩

theorem bestHits_eq_nil_iff {query : String} {limit : Int} {rows : List NodeRow}
    (hwords : keywordWords query = []) : bestHits query limit rows = [] ↔
      limit ≤ 0 ∨ rows = [] := by
  have hhits : rankedHits query rows = [] ↔ rows = [] := by
    rw [List.eq_nil_iff_forall_not_mem, List.eq_nil_iff_forall_not_mem]
    constructor
    · intro h r hr
      have hall : (keywordHit query r).isSome = true := by simp [keywordHit, hwords]
      obtain ⟨hit, hhit⟩ := Option.isSome_iff_exists.mp hall
      exact h hit (mem_rankedHits.mpr ⟨r, hr, hhit⟩)
    · intro h hit hhit
      obtain ⟨r, hr, -⟩ := mem_rankedHits.mp hhit
      exact h r hr
  have hlimit : (max limit 0).toNat = 0 ↔ limit ≤ 0 := by omega
  rw [bestHits, List.take_eq_nil_iff, hhits, hlimit]

theorem sqlLimit_sublist (limit : Int) (rows : List NodeRow) :
    (sqlLimit limit rows).Sublist rows := by
  unfold sqlLimit
  split
  · exact List.Sublist.refl _
  · exact List.take_sublist _ _

namespace Store

/-- When `keyword_query` gives the best of all nodes, on either path. -/
theorem keywordExact_iff (o : RowOrders) (s : Store) (query : String) (limit : Int) :
    KeywordExact o s query limit ↔ WithinCap o s query limit := by
  have hids : ((o.filtered s.nodes.rows).map NodeRow.id).Nodup :=
    ((o.filtered_perm _).map _).nodup_iff.mpr s.nodes.ids_nodup
  have hcapped : (sqlLimit (fourfold limit) (likedRows o s query)).Sublist
      (o.filtered s.nodes.rows) := (sqlLimit_sublist _ _).trans List.filter_sublist
  by_cases hwords : keywordWords query = []
  · have hascii : allAscii (keywordWords query) = true := by rw [hwords]; rfl
    have hnil : o.filtered s.nodes.rows = [] ↔ s.nodes.rows = [] := by
      rw [← List.length_eq_zero_iff, (o.filtered_perm _).length_eq, List.length_eq_zero_iff]
    rw [KeywordExact, keywordQuery, scanQuery, if_pos hwords, if_pos hwords, visitedRows,
      if_pos hascii, eq_comm, bestHits_eq_nil_iff hwords, hnil]
    exact ⟨fun h => ⟨fun _ => h.1, fun hne => absurd hwords hne, fun hne => absurd hwords hne⟩,
      fun h => ⟨h.words hwords, fun _ => rfl⟩⟩
  · rw [KeywordExact, keywordQuery, scanQuery, if_neg hwords, if_neg hwords, visitedRows,
      keywordRows]
    by_cases hascii : allAscii (keywordWords query) = true
    · simp only [if_pos hascii]
      constructor
      · rintro ⟨hbest, hscan⟩
        exact ⟨fun h => absurd h hwords, fun _ _ => (bestHits_sublist_iff hcapped hids).mp hbest,
          fun _ _ => hbest.symm.trans (hscan hascii)⟩
      · rintro ⟨-, hcap, horder⟩
        have hbest := (bestHits_sublist_iff hcapped hids).mpr (hcap hwords hascii)
        exact ⟨hbest, fun _ => hbest.trans (horder hwords hascii)⟩
    · simp only [if_neg hascii]
      exact ⟨fun _ => ⟨fun h => absurd h hwords, fun _ h => absurd h hascii,
        fun _ h => absurd h hascii⟩, fun _ => ⟨trivial, fun h => absurd h hascii⟩⟩

/-- Both statements go through the table as it stands. -/
def tableOrders : RowOrders where
  filtered rows := rows
  scanned rows := rows
  filtered_perm rows := .refl rows
  scanned_perm rows := .refl rows

/-- Three functions of `src/auth/x.py`, and a function `auth` elsewhere. -/
def authStore : Store where
  nodes := upsertNodes .empty <|
    [("File", "src/auth/x.py", "src/auth/x.py"), ("Function", "login", "src/auth/x.py"),
      ("Function", "logout", "src/auth/x.py"), ("Function", "renew", "src/auth/x.py"),
      ("Function", "auth", "src/util.py")].map
      fun n => ({ kind := n.1, name := n.2.1, filePath := n.2.2 }, "", 0)

/-- The paths of the first four nodes use the limit up: the file is the answer, and not the
function of that very name. -/
theorem not_keywordExact_auth : ¬ KeywordExact tableOrders authStore "auth" 1 := by
  rintro ⟨hbest, -⟩
  have hquery : keywordQuery tableOrders authStore "auth" 1 = [(1, 1)] := by decide
  have hall : bestHits "auth" 1 (visitedRows tableOrders authStore "auth") = [(5, 3)] := by decide
  rw [hquery, hall] at hbest
  exact absurd hbest (by decide)

end Store

end Dagayn
