import Mathlib

/-!
# The best scores

`top_k_scores` picks the entries of the highest scores. It keeps the best so far in a short list
when few are asked for, selects and then sorts when more are, and only sorts when all are. `Best`
says what a picked list is, whichever way it was made; its scores are those at the front of all
scores in order (`Best.scores_eq`), so the ways agree on them.
-/

namespace Dagayn

namespace TopScores

/-! ## Scores -/

/-- An `f32` with the order of its values, in which the two zeros are one. -/
inductive Score (κ : Type) where
  | nan
  | num (v : κ)

variable {κ : Type} [LinearOrder κ]

def partialCmp : Score κ → Score κ → Option Ordering
  | .num a, .num b => some (compare a b)
  | _, _ => none

/-- The place of a score in the order of the scores; for all but NaN it is the score's value. -/
def Score.key : Score κ → WithBot κ
  | .nan => ⊥
  | .num v => v

abbrev Entry (κ : Type) := Nat × Score κ

def compareScoreDesc (left right : Score κ) : Ordering := (partialCmp right left).getD .eq

theorem partialCmp_eq {a b : Score κ} (ha : a ≠ .nan) (hb : b ≠ .nan) :
    partialCmp a b = some (compare a.key b.key) := by
  cases a with
  | nan => exact absurd rfl ha
  | num v =>
      cases b with
      | nan => exact absurd rfl hb
      | num w =>
          rw [partialCmp]
          congr 1
          rcases lt_trichotomy v w with hlt | rfl | hlt
          · rw [compare_lt_iff_lt.mpr hlt, compare_lt_iff_lt.mpr]
            exact WithBot.coe_lt_coe.mpr hlt
          · rw [compare_eq_iff_eq.mpr rfl, compare_eq_iff_eq.mpr rfl]
          · rw [compare_gt_iff_gt.mpr hlt, compare_gt_iff_gt.mpr]
            exact WithBot.coe_lt_coe.mpr hlt

theorem compareScoreDesc_le_iff {a b : Score κ} (ha : a ≠ .nan) (hb : b ≠ .nan) :
    compareScoreDesc a b ≠ .gt ↔ b.key ≤ a.key := by
  rw [compareScoreDesc, partialCmp_eq hb ha, Option.getD_some]
  exact compare_le_iff_le

/-! ## Sorting in the standard library -/

structure OrdersList {α : Type} (cmp : α → α → Ordering) (l : List α) : Prop where
  total : ∀ a ∈ l, ∀ b ∈ l, cmp a b ≠ .gt ∨ cmp b a ≠ .gt
  trans : ∀ a ∈ l, ∀ b ∈ l, ∀ c ∈ l, cmp a b ≠ .gt → cmp b c ≠ .gt → cmp a c ≠ .gt

/-- `sort_unstable_by` and `select_nth_unstable_by`: how equal members are placed is not said. -/
structure UnstableSorts (α : Type) where
  sort : (α → α → Ordering) → List α → List α
  selectNth : Nat → (α → α → Ordering) → List α → List α
  sort_perm : ∀ cmp l, (sort cmp l).Perm l
  sort_pairwise : ∀ {cmp l}, OrdersList cmp l → (sort cmp l).Pairwise fun a b => cmp a b ≠ .gt
  select_perm : ∀ k cmp l, (selectNth k cmp l).Perm l
  select_le : ∀ {k cmp l}, OrdersList cmp l → k < l.length →
    ∀ a ∈ (selectNth k cmp l).take k, ∀ b ∈ (selectNth k cmp l).drop k, cmp a b ≠ .gt

theorem perm_attach_sort {α : Type} (cmp : α → α → Ordering) (l : List α) :
    ((l.attach.insertionSort fun a b => cmp a.1 b.1 ≠ .gt).map Subtype.val).Perm l := by
  have hperm := (List.perm_insertionSort (fun a b => cmp a.1 b.1 ≠ .gt) l.attach).map Subtype.val
  rwa [List.attach_map_subtype_val] at hperm

theorem pairwise_attach_sort {α : Type} {cmp : α → α → Ordering} {l : List α}
    (h : OrdersList cmp l) :
    ((l.attach.insertionSort fun a b => cmp a.1 b.1 ≠ .gt).map Subtype.val).Pairwise
      fun a b => cmp a b ≠ .gt := by
  have : Std.Total fun a b : {a // a ∈ l} => cmp a.1 b.1 ≠ .gt :=
    ⟨fun a b => h.total a.1 a.2 b.1 b.2⟩
  have : IsTrans {a // a ∈ l} fun a b => cmp a.1 b.1 ≠ .gt :=
    ⟨fun a b c => h.trans a.1 a.2 b.1 b.2 c.1 c.2⟩
  exact List.pairwise_map.mpr (List.pairwise_insertionSort _ l.attach)

/-! ## The two ways -/

def minScorePosition (values : List (Entry κ)) : Nat :=
  (List.range' 1 (values.length - 1)).foldl (fun minPos idx =>
    match values[idx]?, values[minPos]? with
    | some value, some least =>
        if partialCmp value.2 least.2 = some .lt then idx else minPos
    | _, _ => minPos) 0

/-- The loop body of `top_k_scores_small`. -/
def smallStep (k : Nat) (acc : List (Entry κ) × Nat) (entry : Entry κ) : List (Entry κ) × Nat :=
  let (top, minPos) := acc
  if top.length < k then
    let top := top ++ [entry]
    (top, if top.length = k then minScorePosition top else minPos)
  else
    match top[minPos]? with
    | some least =>
        if partialCmp entry.2 least.2 = some .gt then
          let top := top.set minPos entry
          (top, minScorePosition top)
        else (top, minPos)
    | none => (top, minPos)

def enumerate (scores : List (Score κ)) : List (Entry κ) := scores.zipIdx.map Prod.swap

variable (std : UnstableSorts (Entry κ))

def byScoreDesc (left right : Entry κ) : Ordering := compareScoreDesc left.2 right.2

def topKScoresSmall (scores : List (Score κ)) (k : Nat) : List (Entry κ) :=
  std.sort byScoreDesc ((enumerate scores).foldl (smallStep k) ([], 0)).1

/-- The rest of `top_k_scores`, for more than a few of the scores. -/
def topKScoresLarge (scores : List (Score κ)) (k : Nat) : List (Entry κ) :=
  let indexed := enumerate scores
  if k = indexed.length then std.sort byScoreDesc indexed
  else std.sort byScoreDesc ((std.selectNth k byScoreDesc indexed).take k)

def topKScores (scores : List (Score κ)) (limit : Nat) : List (Entry κ) :=
  let k := min limit scores.length
  if k = 0 then []
  else if k ≤ 64 ∧ k * 16 < scores.length then topKScoresSmall std scores k
  else topKScoresLarge std scores k

/-! ## What is picked -/

/-- Some entries, and the others, none of which has a higher score. -/
def Picked (entries top : List (Entry κ)) : Prop :=
  ∃ rest, (top ++ rest).Perm entries ∧ ∀ a ∈ top, ∀ b ∈ rest, b.2.key ≤ a.2.key

/-- The best entries, in order. -/
structure Best (scores : List (Score κ)) (k : Nat) (top : List (Entry κ)) : Prop where
  length : top.length = k
  picked : Picked (enumerate scores) top
  sorted : top.Pairwise fun a b => b.2.key ≤ a.2.key

def NoNan (entries : List (Entry κ)) : Prop := ∀ e ∈ entries, e.2 ≠ .nan

theorem ordersList_byScoreDesc {entries : List (Entry κ)} (h : NoNan entries) :
    OrdersList byScoreDesc entries := by
  constructor
  · intro a ha b hb
    rw [byScoreDesc, byScoreDesc, compareScoreDesc_le_iff (h a ha) (h b hb),
      compareScoreDesc_le_iff (h b hb) (h a ha)]
    exact le_total _ _
  · intro a ha b hb c hc
    rw [byScoreDesc, byScoreDesc, byScoreDesc, compareScoreDesc_le_iff (h a ha) (h b hb),
      compareScoreDesc_le_iff (h b hb) (h c hc), compareScoreDesc_le_iff (h a ha) (h c hc)]
    exact fun hab hbc => hbc.trans hab

omit [LinearOrder κ] in
theorem noNan_enumerate {scores : List (Score κ)} (h : ∀ s ∈ scores, s ≠ .nan) :
    NoNan (enumerate scores) := by
  intro e he
  obtain ⟨⟨s, i⟩, hs, rfl⟩ := List.mem_map.mp he
  exact h s (List.fst_mem_of_mem_zipIdx hs)

theorem Picked.noNan {entries top : List (Entry κ)} (h : Picked entries top)
    (hnan : NoNan entries) : NoNan top := by
  obtain ⟨rest, hperm, -⟩ := h
  exact fun e he => hnan e (hperm.mem_iff.mp (List.mem_append_left rest he))

theorem best_sort {scores : List (Score κ)} (hnan : ∀ s ∈ scores, s ≠ .nan) {k : Nat}
    {top : List (Entry κ)} (hlength : top.length = k) (h : Picked (enumerate scores) top) :
    Best scores k (std.sort byScoreDesc top) := by
  have hperm := std.sort_perm byScoreDesc top
  have htop := h.noNan (noNan_enumerate hnan)
  refine ⟨hperm.length_eq.trans hlength, ?_, ?_⟩
  · obtain ⟨rest, hall, hle⟩ := h
    exact ⟨rest, (hperm.append_right rest).trans hall, fun a ha => hle a (hperm.mem_iff.mp ha)⟩
  · refine (std.sort_pairwise (ordersList_byScoreDesc htop)).imp_of_mem fun ha hb hab => ?_
    exact (compareScoreDesc_le_iff (htop _ (hperm.mem_iff.mp ha))
      (htop _ (hperm.mem_iff.mp hb))).mp hab

omit [LinearOrder κ] in
theorem length_enumerate (scores : List (Score κ)) :
    (enumerate scores).length = scores.length := by
  rw [enumerate, List.length_map, List.length_zipIdx]

theorem best_topKScoresLarge {scores : List (Score κ)} (hnan : ∀ s ∈ scores, s ≠ .nan) {k : Nat}
    (hk : k ≤ scores.length) : Best scores k (topKScoresLarge std scores k) := by
  have hlength := length_enumerate scores
  rw [topKScoresLarge]
  split
  · rename_i heq
    exact best_sort std hnan heq.symm ⟨[], by rw [List.append_nil], nofun⟩
  · rename_i hne
    have hlt : k < (enumerate scores).length := by omega
    have horders := ordersList_byScoreDesc (noNan_enumerate hnan)
    have hperm := std.select_perm k byScoreDesc (enumerate scores)
    refine best_sort std hnan ?_ ⟨(std.selectNth k byScoreDesc (enumerate scores)).drop k, ?_, ?_⟩
    · rw [List.length_take, hperm.length_eq]
      omega
    · rwa [List.take_append_drop]
    · intro a ha b hb
      have hmem := noNan_enumerate hnan
      exact (compareScoreDesc_le_iff (hmem a (hperm.mem_iff.mp (List.mem_of_mem_take ha)))
        (hmem b (hperm.mem_iff.mp (List.mem_of_mem_drop hb)))).mp
          (std.select_le horders hlt a ha b hb)

/-! ## The short list -/

def IsLeast (top : List (Entry κ)) (pos : Nat) : Prop :=
  ∃ least, top[pos]? = some least ∧ ∀ e ∈ top, least.2.key ≤ e.2.key

theorem isLeast_minScorePosition {top : List (Entry κ)} (hnan : NoNan top) (hne : top ≠ []) :
    IsLeast top (minScorePosition top) := by
  have hlen := List.length_pos_iff.mpr hne
  -- the entries that the loop has gone through, by the number of its rounds
  have hloop : ∀ n, n < top.length → ∃ least, top[(List.range' 1 n).foldl (fun minPos idx =>
      match top[idx]?, top[minPos]? with
      | some value, some least =>
          if partialCmp value.2 least.2 = some .lt then idx else minPos
      | _, _ => minPos) 0]? = some least ∧
        ∀ j ≤ n, ∀ e, top[j]? = some e → least.2.key ≤ e.2.key := by
    intro n
    induction n with
    | zero =>
        intro h
        refine ⟨top[0], List.getElem?_eq_getElem h, fun j hj e he => ?_⟩
        obtain rfl := Nat.le_zero.mp hj
        rw [List.getElem?_eq_getElem h] at he
        rw [Option.some.inj he]
    | succ n ih =>
        intro h
        obtain ⟨least, hleast, hall⟩ := ih (Nat.lt_of_succ_lt h)
        have hnext : top[1 + n]? = some top[1 + n] := List.getElem?_eq_getElem (by omega)
        have hcmp := partialCmp_eq (hnan _ (List.mem_of_getElem? hnext))
          (hnan _ (List.mem_of_getElem? hleast))
        have hlast : ∀ j ≤ n + 1, ∀ e, top[j]? = some e → j ≤ n ∨ e = top[1 + n] := by
          intro j hj e he
          rcases Nat.lt_or_ge n j with hlt | hle
          · obtain rfl : j = 1 + n := by omega
            rw [hnext] at he
            exact .inr (Option.some.inj he).symm
          · exact .inl hle
        rw [List.range'_concat, List.foldl_append, List.foldl_cons, List.foldl_nil, Nat.one_mul]
        simp only [hnext, hleast, hcmp, Option.some.injEq, compare_lt_iff_lt]
        split
        · rename_i hlt
          refine ⟨_, hnext, fun j hj e he => ?_⟩
          rcases hlast j hj e he with hj | rfl
          · exact hlt.le.trans (hall j hj e he)
          · exact le_rfl
        · rename_i hle
          refine ⟨least, hleast, fun j hj e he => ?_⟩
          rcases hlast j hj e he with hj | rfl
          · exact hall j hj e he
          · exact not_lt.mp hle
  obtain ⟨least, hleast, hall⟩ := hloop (top.length - 1) (by omega)
  refine ⟨least, hleast, fun e he => ?_⟩
  obtain ⟨j, hj⟩ := List.getElem?_of_mem he
  have hlt := (List.getElem?_eq_some_iff.mp hj).1
  exact hall j (by omega) e hj

/-- What the short list is behind some of the entries. -/
structure Keeps (k : Nat) (entries : List (Entry κ)) (acc : List (Entry κ) × Nat) : Prop where
  length : acc.1.length = min k entries.length
  picked : Picked entries acc.1
  least : acc.1.length = k → IsLeast acc.1 acc.2

theorem set_perm {α : Type} {l : List α} {i : Nat} {a : α} (h : l[i]? = some a) (b : α) :
    (a :: l.set i b).Perm (b :: l) := by
  obtain ⟨hi, rfl⟩ := List.getElem?_eq_some_iff.mp h
  exact ((List.set_perm_cons_eraseIdx hi b).cons _).trans
    ((List.Perm.swap b l[i] _).trans ((List.getElem_cons_eraseIdx_perm hi).cons b))

theorem Keeps.step {k : Nat} (hk : 0 < k) {entries : List (Entry κ)}
    {acc : List (Entry κ) × Nat} (h : Keeps k entries acc) {entry : Entry κ}
    (hnan : NoNan (entries ++ [entry])) :
    Keeps k (entries ++ [entry]) (smallStep k acc entry) := by
  obtain ⟨top, minPos⟩ := acc
  obtain ⟨hlength, ⟨rest, hperm, hle⟩, hleast⟩ := h
  dsimp only at hlength hperm hle hleast
  have hentries := hperm.length_eq
  rw [List.length_append] at hentries
  rw [smallStep]
  dsimp only
  split
  · rename_i hlt
    -- as long as the list is short, it has all entries
    obtain rfl : rest = [] := List.length_eq_zero_iff.mp (by omega)
    rw [List.append_nil] at hperm
    have hpicked : Picked (entries ++ [entry]) (top ++ [entry]) :=
      ⟨[], by rw [List.append_nil]; exact hperm.append_right _, nofun⟩
    refine ⟨?_, hpicked, fun hfull => ?_⟩
    · simp only [List.length_append, List.length_singleton]
      omega
    · dsimp only at hfull ⊢
      rw [if_pos hfull]
      exact isLeast_minScorePosition (hpicked.noNan hnan) (by simp)
  · rename_i hge
    have hfull : top.length = k := by omega
    obtain ⟨least, hpos, hall⟩ := hleast hfull
    have hmem := List.mem_of_getElem? hpos
    have hcmp := partialCmp_eq (hnan entry (by simp))
      (hnan least (List.mem_append_left _ (hperm.mem_iff.mp (List.mem_append_left _ hmem))))
    simp only [hpos, hcmp, Option.some.injEq, compare_gt_iff_gt]
    split
    · rename_i hgt
      have hset := set_perm hpos entry
      have hin : ∀ a ∈ top.set minPos entry, a = entry ∨ a ∈ top := fun a ha =>
        List.mem_cons.mp (hset.mem_iff.mp (List.mem_cons_of_mem _ ha))
      have hpicked : Picked (entries ++ [entry]) (top.set minPos entry) := by
        refine ⟨least :: rest, ?_, fun a ha b hb => ?_⟩
        · refine List.perm_middle.trans (((hset.append_right rest).trans ?_))
          exact (hperm.cons entry).trans (List.perm_append_singleton entry entries).symm
        · have hb' : b.2.key ≤ least.2.key := by
            rcases List.mem_cons.mp hb with rfl | hb
            · exact le_rfl
            · exact hle least hmem b hb
          rcases hin a ha with rfl | ha
          · exact hb'.trans hgt.le
          · exact hb'.trans (hall a ha)
      refine ⟨?_, hpicked, fun _ => ?_⟩
      · simp only [List.length_set, List.length_append, List.length_singleton]
        omega
      · refine isLeast_minScorePosition (hpicked.noNan hnan) fun hnil => ?_
        have hzero := congrArg List.length hnil
        rw [List.length_set, List.length_nil] at hzero
        omega
    · rename_i hngt
      refine ⟨?_, ⟨rest ++ [entry], ?_, fun a ha b hb => ?_⟩, fun _ => ⟨least, hpos, hall⟩⟩
      · simp only [List.length_append, List.length_singleton]
        omega
      · rw [← List.append_assoc]
        exact hperm.append_right _
      · rcases List.mem_append.mp hb with hb | hb
        · exact hle a ha b hb
        · rw [List.mem_singleton.mp hb]
          exact (not_lt.mp hngt).trans (hall a ha)

theorem keeps_foldl {k : Nat} (hk : 0 < k) {entries : List (Entry κ)} (hnan : NoNan entries) :
    Keeps k entries (entries.foldl (smallStep k) ([], 0)) := by
  induction entries using List.reverseRecOn with
  | nil => exact ⟨by simp, ⟨[], .refl _, nofun⟩, fun h => absurd h (by simpa using hk.ne)⟩
  | append_singleton entries entry ih =>
      rw [List.foldl_append]
      exact (ih fun e he => hnan e (List.mem_append_left _ he)).step hk hnan

theorem best_topKScoresSmall {scores : List (Score κ)} (hnan : ∀ s ∈ scores, s ≠ .nan) {k : Nat}
    (hpos : 0 < k) (hk : k ≤ scores.length) : Best scores k (topKScoresSmall std scores k) := by
  have h := keeps_foldl hpos (noNan_enumerate hnan)
  refine best_sort std hnan (h.length.trans ?_) h.picked
  rw [length_enumerate]
  exact Nat.min_eq_left hk

/-! ## What the best entries are -/

omit [LinearOrder κ] in
theorem key_injective : Function.Injective (Score.key : Score κ → WithBot κ) := by
  intro a b h
  cases a <;> cases b <;> simp_all [Score.key]

theorem Best.scores_eq {scores : List (Score κ)} {k : Nat} {top top' : List (Entry κ)}
    (h : Best scores k top) (h' : Best scores k top') :
    top.map Prod.snd = top'.map Prod.snd := by
  -- all scores in order, with the picked ones in front
  have hall : ∀ {top : List (Entry κ)}, Best scores k top → ∃ rest : List (WithBot κ),
      (top.map (·.2.key) ++ rest).Pairwise (· ≥ ·) ∧
        (top.map (·.2.key) ++ rest).Perm ((enumerate scores).map (·.2.key)) := by
    intro top ⟨_, ⟨rest, hperm, hle⟩, hsorted⟩
    have hsort := List.perm_insertionSort (· ≥ ·) (rest.map (·.2.key))
    refine ⟨(rest.map (·.2.key)).insertionSort (· ≥ ·), ?_, ?_⟩
    · refine List.pairwise_append.mpr ⟨List.pairwise_map.mpr hsorted,
        List.pairwise_insertionSort _ _, fun a ha b hb => ?_⟩
      obtain ⟨e, he, rfl⟩ := List.mem_map.mp ha
      obtain ⟨f, hf, rfl⟩ := List.mem_map.mp (hsort.mem_iff.mp hb)
      exact hle e he f hf
    · refine (hsort.append_left _).trans ?_
      rw [← List.map_append]
      exact hperm.map _
  obtain ⟨rest, hsorted, hperm⟩ := hall h
  obtain ⟨rest', hsorted', hperm'⟩ := hall h'
  have heq := (hperm.trans hperm'.symm).eq_of_pairwise' hsorted hsorted'
  have hkeys : top.map (·.2.key) = top'.map (·.2.key) :=
    (List.append_inj heq (by rw [List.length_map, List.length_map, h.length, h'.length])).1
  refine key_injective.list_map ?_
  rw [List.map_map, List.map_map]
  exact hkeys

/-- The highest scores in descending order, with their places. -/
structure TopOf (scores : List (Score κ)) (k : Nat) (top : List (Entry κ)) : Prop where
  length : top.length = k
  distinct : (top.map Prod.fst).Nodup
  score : ∀ e ∈ top, scores[e.1]? = some e.2
  descending : top.Pairwise fun a b => b.2.key ≤ a.2.key
  excluded : ∀ i s, scores[i]? = some s → i ∉ top.map Prod.fst → ∀ e ∈ top, s.key ≤ e.2.key

omit [LinearOrder κ] in
theorem mem_enumerate {scores : List (Score κ)} {e : Entry κ} :
    e ∈ enumerate scores ↔ scores[e.1]? = some e.2 := by
  rw [enumerate, List.mem_map]
  constructor
  · rintro ⟨⟨s, i⟩, hs, rfl⟩
    exact List.mem_zipIdx_iff_getElem?.mp hs
  · exact fun h => ⟨e.swap, List.mem_zipIdx_iff_getElem?.mpr h, rfl⟩

theorem Best.topOf {scores : List (Score κ)} {k : Nat} {top : List (Entry κ)}
    (h : Best scores k top) : TopOf scores k top := by
  obtain ⟨hlength, ⟨rest, hperm, hle⟩, hsorted⟩ := h
  have hnodup : ((top ++ rest).map Prod.fst).Nodup := by
    refine (hperm.map _).nodup_iff.mpr ?_
    rw [enumerate, List.map_map]
    exact List.nodup_zipIdx_map_snd scores
  rw [List.map_append] at hnodup
  refine ⟨hlength, (List.nodup_append.mp hnodup).1,
    fun e he => mem_enumerate.mp (hperm.mem_iff.mp (List.mem_append_left _ he)), hsorted,
    fun i s hs hout e he => ?_⟩
  have hmem : (i, s) ∈ top ++ rest := hperm.mem_iff.mpr (mem_enumerate.mpr hs)
  rcases List.mem_append.mp hmem with hin | hin
  · exact absurd (List.mem_map_of_mem hin) hout
  · exact hle e he (i, s) hin

/-- `top_k_scores` gives the highest scores, and so do both its ways, with the same scores. -/
theorem topKScores_topOf {scores : List (Score κ)} (hnan : ∀ s ∈ scores, s ≠ .nan)
    (limit : Nat) :
    let k := min limit scores.length
    TopOf scores k (topKScores std scores limit) ∧
      (0 < k → TopOf scores k (topKScoresSmall std scores k) ∧
        TopOf scores k (topKScoresLarge std scores k) ∧
          (topKScoresSmall std scores k).map Prod.snd =
            (topKScoresLarge std scores k).map Prod.snd) := by
  intro k
  have hle : k ≤ scores.length := Nat.min_le_right _ _
  have hlarge := best_topKScoresLarge std hnan hle
  have hsmall := fun hpos : 0 < k => best_topKScoresSmall std hnan hpos hle
  refine ⟨?_, fun hpos => ⟨(hsmall hpos).topOf, hlarge.topOf, (hsmall hpos).scores_eq hlarge⟩⟩
  rw [topKScores]
  split
  · rename_i hzero
    exact ⟨hzero.symm, List.nodup_nil, nofun, List.Pairwise.nil, fun _ _ _ _ => nofun⟩
  · rename_i hne
    split
    · exact (hsmall (Nat.pos_of_ne_zero hne)).topOf
    · exact hlarge.topOf

def insertionSorts (α : Type) : UnstableSorts α where
  sort cmp l := (l.attach.insertionSort fun a b => cmp a.1 b.1 ≠ .gt).map Subtype.val
  selectNth _ cmp l := (l.attach.insertionSort fun a b => cmp a.1 b.1 ≠ .gt).map Subtype.val
  sort_perm cmp l := perm_attach_sort cmp l
  sort_pairwise h := pairwise_attach_sort h
  select_perm _ cmp l := perm_attach_sort cmp l
  select_le {k cmp l} h _ := by
    have hsorted := pairwise_attach_sort h
    rw [← List.take_append_drop k
      ((l.attach.insertionSort fun a b => cmp a.1 b.1 ≠ .gt).map Subtype.val)] at hsorted
    exact (List.pairwise_append.mp hsorted).2.2

/-- Of the two places with the score 2, either may be left out; the scores are the same. -/
theorem topKScores_topOf_three :
    TopOf [Score.num 2, .num 5, .num 2] 2
        (topKScores (insertionSorts (Entry Nat)) [.num 2, .num 5, .num 2] 2) ∧
      (topKScoresLarge (insertionSorts (Entry Nat)) [.num 2, .num 5, .num 2] 2).map Prod.snd =
        [.num 5, .num 2] := by
  obtain ⟨htop, hways⟩ := topKScores_topOf (insertionSorts (Entry Nat))
    (show ∀ s ∈ [Score.num 2, .num 5, .num 2], s ≠ .nan by simp) 2
  have hsmall : (topKScoresSmall (insertionSorts (Entry Nat)) [.num 2, .num 5, .num 2] 2).map
      Prod.snd = [.num 5, .num 2] := by rfl
  exact ⟨htop, (hways (by decide)).2.2.symm.trans hsmall⟩

end TopScores

end Dagayn
