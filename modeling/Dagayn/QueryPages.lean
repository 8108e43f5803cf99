import Dagayn.QueryReply

/-!
# The pages of an answer

A query is repeated with the offset that each reply gives. `page_spec` says what the two cuts of a
page leave, `replyAt_spec` what a reply shows and where the next one goes on, and `showsAll_iff`
follows a run of calls from there.
-/

namespace Dagayn

namespace QueryPages

open Json Ordered OutputBudget QueryRows

/-! ## Going through the pages -/

def offsetOf (call : Json) : Option Nat := ((call.get "args").bind (·.get "offset")).bind asNat

/-- The offset given in `next`. -/
def nextOffset (reply : Ordered) : Option Nat :=
  (((reply.get "next").bind asList).getD []).findSome? offsetOf

/-- The offsets of the calls from one on, until a reply gives none. -/
inductive Run (reply : Nat → Ordered) : Nat → List Nat → Prop
  | last {offset : Nat} : nextOffset (reply offset) = none → Run reply offset [offset]
  | more {offset after : Nat} {offsets : List Nat} : nextOffset (reply offset) = some after →
      Run reply after offsets → Run reply offset (offset :: offsets)

def summaryOf (payload : Ordered) : Option String := (payload.get "summary").bind asStr

/-- The numbers of a page are those of the whole answer. -/
structure Numbered (rows : List Json) (offset : Nat) (reply : Ordered) : Prop where
  shown : shownRows reply = (rows.drop offset).take (shownRows reply).length
  count : reply.get "result_count" = some (.int rows.length)
  found : ∃ query note more, summaryOf reply = some (foundSummary rows.length query note ++ more)
  page : (truncationOf reply = none ∧ shownRows reply = rows) ∨
    truncationOf reply = some (pageRecord offset (shownRows reply).length rows.length) ∧
      ∃ before page after, summaryOf reply = some (before ++ pageNote page false ++ after) ∧
        page.offset = offset ∧ page.kept = (shownRows reply).length ∧ page.total = rows.length

/-- The calls from the first page on end, and show every row once, in order and with its number. -/
def ShowsAll (rows : List Json) (reply : Nat → Ordered) : Prop :=
  ∃ offsets, Run reply 0 offsets ∧ (offsets.flatMap fun offset => shownRows (reply offset)) = rows ∧
    ∀ offset ∈ offsets, Numbered rows offset (reply offset)

/-- The pages that the calls from the first on come to. -/
def Visited (reply : Nat → Ordered) (offset : Nat) : Prop :=
  Relation.ReflTransGen (fun a b => nextOffset (reply a) = some b) 0 offset

section Condition

variable (floatLen : Float → Nat) (budget : Nat)

/-- Whether a reply keeps all its rows: there is one at most, or cutting the edges is enough. -/
def RowsFit (payload : Ordered) : Prop :=
  size payload "results" ≤ 1 ∨
    ¬Over floatLen budget (cutLists floatLen budget ["edges"] payload []).1

instance (payload : Ordered) : Decidable (RowsFit floatLen budget payload) :=
  inferInstanceAs (Decidable (_ ∨ _))

/-- Whether a page past the first keeps all the rows that are left, but not with the list of files
in it. -/
def Lost (payload : Ordered) (rows : List Row) (offset : Nat) : Prop :=
  0 < offset ∧ RowsFit floatLen budget payload ∧
    ¬RowsFit floatLen budget (withFiles ((applyOutputBudget floatLen budget payload lists).put
      "results_complete" (.bool false)) rows false)

end Condition

/-! ## Keys and the summary -/

theorem get_put (o : Ordered) (key key' : String) (v : Json) :
    (o.put key v).get key' = if key' = key then some v else o.get key' := get_set o key key' v

theorem get_appendSummary {key : String} (h : key ≠ "summary") (o : Ordered) (sentence : String) :
    (appendSummary o sentence).get key = o.get key := by
  rw [appendSummary]
  split
  · rw [get_set, if_neg h]
  · rfl

theorem summaryOf_appendSummary {o : Ordered} {text : String} (h : summaryOf o = some text)
    (sentence : String) :
    summaryOf (appendSummary o sentence) = some (text ++ ". " ++ sentence) := by
  rw [summaryOf] at h
  rw [appendSummary, h, summaryOf, get_set, if_pos rfl]
  rfl

def SummaryFrom (text : String) (o : Ordered) : Prop := ∃ more, summaryOf o = some (text ++ more)

/-- What the notes on a reply leave as it was. -/
structure Frame (o o' : Ordered) : Prop where
  get : ∀ key, key ≠ "summary" → key ≠ "results_complete" → o'.get key = o.get key
  summary : ∀ text, SummaryFrom text o → SummaryFrom text o'

namespace Frame

variable {o o' o'' : Ordered}

theorem refl (o : Ordered) : Frame o o := ⟨fun _ _ _ => rfl, fun _ h => h⟩

theorem trans (h : Frame o o') (h' : Frame o' o'') : Frame o o'' :=
  ⟨fun key hsummary hcomplete =>
      (h'.get key hsummary hcomplete).trans (h.get key hsummary hcomplete),
    fun text hfrom => h'.summary text (h.summary text hfrom)⟩

theorem appendSummary (o : Ordered) (sentence : String) :
    Frame o (QueryPages.appendSummary o sentence) := by
  refine ⟨fun key hsummary _ => get_appendSummary hsummary o sentence, ?_⟩
  rintro text ⟨more, hmore⟩
  refine ⟨more ++ ". " ++ sentence, ?_⟩
  rw [summaryOf_appendSummary hmore]
  simp only [String.append_assoc]

theorem setComplete (o : Ordered) (v : Json) : Frame o (o.set "results_complete" v) := by
  refine ⟨fun key _ hcomplete => by rw [get_set, if_neg hcomplete], ?_⟩
  rintro text ⟨more, hmore⟩
  refine ⟨more, ?_⟩
  rw [summaryOf, get_set, if_neg (by decide)]
  exact hmore

end Frame

/-! ## The rows of a page -/

theorem get_truncation_startOf (found : Found) (parts : Parts) (query : Query) :
    (startOf found parts query).get "_truncation" = none := by
  have hempty : (Ordered.mk [] List.nodup_nil).get "_truncation" = none := rfl
  rw [startOf]
  cases found.reachability with
  | none => cases parts.originalTarget <;> simp [get_put, hempty]
  | some reachability =>
      dsimp only [Option.elim]
      split <;> cases parts.originalTarget <;> simp [get_put, hempty]

theorem get_putOutside {key : String} (hsummary : key ≠ "summary")
    (hcount : key ≠ "outside_module_count") (hrows : key ≠ "outside_module") (o : Ordered)
    (found : Found) (cap : Option Nat) : (putOutside o found cap).get key = o.get key := by
  rw [putOutside]
  split
  · rfl
  · rw [get_put, if_neg hrows, get_put, if_neg hcount, get_appendSummary hsummary]

theorem summaryFrom_putOutside {text : String} {o : Ordered} (h : SummaryFrom text o)
    (found : Found) (cap : Option Nat) : SummaryFrom text (putOutside o found cap) := by
  rw [putOutside]
  split
  · exact h
  · rename_i outside _
    obtain ⟨more, hmore⟩ := (Frame.appendSummary o outside.note).summary text h
    refine ⟨more, ?_⟩
    rw [summaryOf, get_put, if_neg (by decide), get_put, if_neg (by decide)]
    exact hmore

structure RowsPut (rows : List Json) (offset : Nat) (text : String) (o : Ordered) : Prop where
  truncation : o.get "_truncation" = none
  results : o.get "results" = some (.arr (rows.drop offset))
  count : o.get "result_count" = some (.int rows.length)
  summary : SummaryFrom text o

theorem rowsPut_putRows (found : Found) (parts : Parts) (query : Query) {start : Ordered}
    (hstart : start.get "_truncation" = none) :
    RowsPut (rowsOf found query) query.offset
      (foundSummary (rowsOf found query).length query (zeroResultNote found parts).1)
      (putRows found parts query start).1 := by
  have hout : ∀ {o : Ordered} (cap : Option Nat), o.get "_truncation" = none →
      o.get "results" = some (.arr ((rowsOf found query).drop query.offset)) →
      o.get "result_count" = some (.int (rowsOf found query).length) →
      summaryOf o = some
        (foundSummary (rowsOf found query).length query (zeroResultNote found parts).1) →
      RowsPut (rowsOf found query) query.offset
        (foundSummary (rowsOf found query).length query (zeroResultNote found parts).1)
        (putOutside o found cap) := by
    intro o cap htruncation hresults hcount hsummary
    refine ⟨?_, ?_, ?_, ?_⟩
    · rw [get_putOutside (by decide) (by decide) (by decide), htruncation]
    · rw [get_putOutside (by decide) (by decide) (by decide), hresults]
    · rw [get_putOutside (by decide) (by decide) (by decide), hcount]
    · exact summaryFrom_putOutside ⟨"", hsummary.trans (by rw [String.append_empty])⟩ found cap
  rw [putRows]
  dsimp only
  split_ifs <;> refine hout _ ?_ ?_ ?_ ?_ <;> simp [get_put, hstart, summaryOf, asStr]

/-! ## What the cuts leave -/

section Page

variable {floatLen : Float → Nat} {budget : Nat}

theorem listAt_results (o : Ordered) : o.listAt "results" = (o.get "results").bind asList := by
  have hpath : fieldPath "results" = ["results"] := by decide +kernel
  have hget : o.value.get "results" = o.get "results" := rfl
  rw [Ordered.listAt, hpath, Json.listAt, valueAt, hget]
  cases o.get "results" <;> rfl

theorem size_results (o : Ordered) : size o "results" = (shownRows o).length := by
  rw [size, shownRows, listAt_results]
  cases (o.get "results").bind asList <;> rfl

theorem plain_lists : ∀ field ∈ lists, Plain field := by decide +kernel

theorem get_apply {key : String} (hkey : ¬IsMarker key) (hout : key ∉ lists) (o : Ordered) :
    (applyOutputBudget floatLen budget o lists).get key = o.get key := by
  have hpaths : ∀ field ∈ lists, fieldPath field = [field] := by decide +kernel
  have hkeep : ∀ field ∈ lists, ¬[key] <+: fieldPath field := fun field hfield hpre => by
    rw [hpaths field hfield, List.cons_prefix_cons] at hpre
    exact hout (hpre.1 ▸ hfield)
  have hvalue := (@edits_apply floatLen budget o lists).valueAt_eq hkey hkeep
  have hget : (applyOutputBudget floatLen budget o lists).value.get key = o.value.get key := by
    simpa [valueAt] using hvalue
  exact hget

theorem shownRows_put {key : String} (h : "results" ≠ key) (o : Ordered) (v : Json) :
    shownRows (o.put key v) = shownRows o := by rw [shownRows, get_put, if_neg h, shownRows]

theorem shownRows_withFiles (o : Ordered) (rows : List Row) (minimal : Bool) :
    shownRows (withFiles o rows minimal) = shownRows o := shownRows_put (by decide) _ _

theorem shownRows_apply (o : Ordered) :
    let after := shownRows (applyOutputBudget floatLen budget o lists)
    after = (shownRows o).take after.length ∧ after.length ≤ (shownRows o).length ∧
      (shownRows o ≠ [] → 0 < after.length) := by
  have hplain := plain_lists "results" (by decide)
  obtain ⟨kept, hone, heq⟩ :=
    (@edits_apply floatLen budget o lists).listAt_eq hplain
  have htake : shownRows (applyOutputBudget floatLen budget o lists) = (shownRows o).take kept := by
    rw [listAt_results, listAt_results] at heq
    rw [shownRows, shownRows, heq]
    cases (o.get "results").bind asList with
    | none => simp
    | some items => rfl
  dsimp only
  rw [htake, List.length_take]
  refine ⟨?_, min_le_right _ _, fun hne => ?_⟩
  · rw [List.take_eq_take_min]
  · exact lt_min hone (List.length_pos_iff.mpr hne)

theorem rowsFit_cases (o : Ordered) :
    let after := (shownRows (applyOutputBudget floatLen budget o lists)).length
    (RowsFit floatLen budget o ∧ after = (shownRows o).length) ∨
      (¬RowsFit floatLen budget o ∧ 1 < (shownRows o).length ∧
        after ≤ (shownRows o).length / 2) := by
  have hcases := @size_apply_cases o floatLen budget _ _
    (plain_lists "results" (by decide)) (plain_lists "edges" (by decide)) (by decide)
  dsimp only at hcases ⊢
  rw [size_results, size_results] at hcases
  rcases hcases with ⟨hfit, heq⟩ | ⟨hunfit, hle⟩
  · exact .inl ⟨by rw [RowsFit, size_results]; exact hfit, heq⟩
  · refine .inr ⟨by rw [RowsFit, size_results]; exact hunfit, ?_, hle⟩
    exact not_le.mp (not_or.mp hunfit).1

theorem rowsFit_iff (o : Ordered) : RowsFit floatLen budget o ↔
    (shownRows (applyOutputBudget floatLen budget o lists)).length = (shownRows o).length := by
  rcases @rowsFit_cases floatLen budget o with
    ⟨hfit, heq⟩ | ⟨hunfit, hlong, hle⟩
  · exact iff_of_true hfit heq
  · exact iff_of_false hunfit (by omega)

theorem truncationOf_apply {o : Ordered} (hnone : o.get "_truncation" = none) :
    truncationOf (applyOutputBudget floatLen budget o lists) =
      if RowsFit floatLen budget o then none
      else some (recordOf (shownRows (applyOutputBudget floatLen budget o lists)).length
        (shownRows o).length) := by
  have hrecord := @record_apply _ floatLen budget _ plain_lists (by decide)
    hnone _ (plain_lists "results" (by decide))
  dsimp only at hrecord
  obtain ⟨-, hle, -⟩ := @shownRows_apply floatLen budget o
  rw [size_results, size_results] at hrecord
  rw [truncationOf, hrecord]
  by_cases hfit : RowsFit floatLen budget o
  · rw [if_pos hfit, if_neg]
    rw [(rowsFit_iff o).mp hfit]
    exact lt_irrefl _
  · rw [if_neg hfit, if_pos]
    exact lt_of_le_of_ne hle fun heq => hfit ((rowsFit_iff o).mpr heq)

theorem cutOf_apply {o : Ordered} (hnone : o.get "_truncation" = none) :
    cutOf (applyOutputBudget floatLen budget o lists) =
      if RowsFit floatLen budget o then none
      else some ((shownRows (applyOutputBudget floatLen budget o lists)).length,
        (shownRows o).length) := by
  rw [cutOf, truncationOf_apply hnone]
  split
  · rfl
  · simp [recordOf, Json.get, asNat, List.lookup_cons]

structure Paged (all : List Json) (offset : Nat) (text : String) (cut : Bool) (kept : Nat)
    (payload : Ordered) : Prop where
  shown : shownRows payload = all.take kept
  le : kept ≤ all.length
  pos : all ≠ [] → 0 < kept
  record : truncationOf payload = some (pageRecord offset kept (offset + all.length))
  note : ∃ page, summaryOf payload = some (text ++ ". " ++ pageNote page false) ∧
    page.offset = offset ∧ page.kept = kept ∧ page.total = offset + all.length ∧ page.cut = cut

theorem paged_numbered {o : Ordered} {text : String} {all : List Json} {first : Nat}
    (hrows : shownRows o = all.take first) (hfirst : all ≠ [] → 0 < first)
    (hsummary : summaryOf o = some text) (rows : List Row) (offset : Nat) (cut : Bool) :
    let out := numbered floatLen o budget rows offset all.length cut false
    out.2 = (shownRows (applyOutputBudget floatLen budget (withFiles o rows false) lists)).length ∧
      out.2 ≤ min first all.length ∧ out.1.get "result_count" = o.get "result_count" ∧
      Paged all offset text cut out.2 out.1 := by
  obtain ⟨hshown, hle, hpos⟩ := @shownRows_apply floatLen budget
    (withFiles o rows false)
  rw [shownRows_withFiles, hrows] at hshown hle hpos
  rw [List.length_take] at hle
  dsimp only [numbered]
  set again := applyOutputBudget floatLen budget (withFiles o rows false) lists with hagain
  have hkept : ∀ {key : String} (v : Json) (note : String), key ≠ "summary" →
      key ≠ "_truncation" →
      (appendSummary (again.set "_truncation" v) note).get key = again.get key := by
    intro key v note hkey hkey'
    rw [get_appendSummary hkey, get_set, if_neg hkey']
  have hframe : ∀ {key : String}, ¬IsMarker key → key ∉ lists → key ≠ "files" →
      again.get key = o.get key := by
    intro key hmarker hout hfiles
    rw [hagain, get_apply hmarker hout, withFiles, get_put, if_neg hfiles]
  refine ⟨rfl, hle, ?_, ?_, hle.trans (min_le_right _ _), ?_, ?_,
    ⟨offset, _, _, cut, (filesOf rows).length, min (filesOf rows).length maxCutFiles⟩, ?_, rfl,
    rfl, rfl, rfl⟩
  · rw [hkept _ _ (by decide) (by decide), hframe (by simp [IsMarker]) (by decide) (by decide)]
  · rw [shownRows, hkept _ _ (by decide) (by decide), ← shownRows]
    exact hshown.trans (by rw [List.take_take, min_eq_left (hle.trans (min_le_left _ _))])
  · intro hne
    refine hpos fun hnil => ?_
    rw [List.take_eq_nil_iff] at hnil
    exact hnil.elim (hfirst hne).ne' hne
  · rw [truncationOf, get_appendSummary (by decide), get_set, if_pos rfl, Option.bind_some,
      get_insert, if_pos rfl]
  · refine summaryOf_appendSummary ?_ _
    rw [summaryOf, get_set, if_neg (by decide), hframe (by simp [IsMarker]) (by decide) (by decide)]
    exact hsummary

section FirstCut

variable {payload : Ordered} {complete : Bool}

variable (floatLen budget payload complete) in
/-- The payload of a page after the first cut. -/
def firstCut : Ordered :=
  (applyOutputBudget floatLen budget payload lists).put "results_complete" (.bool complete)

theorem get_firstCut {key : String} (hmarker : ¬IsMarker key) (hout : key ∉ lists)
    (hne : key ≠ "results_complete") :
    (firstCut floatLen budget payload complete).get key = payload.get key := by
  rw [firstCut, get_put, if_neg hne, get_apply hmarker hout]

theorem count_firstCut : (firstCut floatLen budget payload complete).get "result_count" =
    payload.get "result_count" :=
  get_firstCut (by simp [IsMarker]) (by decide) (by decide)

theorem summaryOf_firstCut :
    summaryOf (firstCut floatLen budget payload complete) = summaryOf payload := by
  rw [summaryOf, get_firstCut (by simp [IsMarker]) (by decide) (by decide), ← summaryOf]

theorem shownRows_firstCut : shownRows (firstCut floatLen budget payload complete) =
    (shownRows payload).take (shownRows (applyOutputBudget floatLen budget payload lists)).length :=
  (shownRows_put (by decide) _ _).trans (shownRows_apply payload).1

theorem truncationOf_firstCut : truncationOf (firstCut floatLen budget payload complete) =
    truncationOf (applyOutputBudget floatLen budget payload lists) := by
  rw [truncationOf, firstCut, get_put, if_neg (by decide), ← truncationOf]

theorem cutOf_firstCut : cutOf (firstCut floatLen budget payload complete) =
    cutOf (applyOutputBudget floatLen budget payload lists) := by
  rw [cutOf, truncationOf_firstCut, ← cutOf]

theorem shownRows_firstCut_of_fit (hfit : RowsFit floatLen budget payload) :
    shownRows (firstCut floatLen budget payload complete) = shownRows payload := by
  rw [shownRows_firstCut, (rowsFit_iff payload).mp hfit, List.take_length]

variable {text : String} (hnone : payload.get "_truncation" = none)

include hnone

theorem page_whole (rows : List Row) (hfit : RowsFit floatLen budget payload) :
    page floatLen payload budget rows 0 false =
      (firstCut floatLen budget payload true, ⟨none, 0, true⟩) := by
  have htruncation : truncationOf (applyOutputBudget floatLen budget payload lists) = none :=
    (truncationOf_apply hnone).trans (if_pos hfit)
  have hcut : cutOf (firstCut floatLen budget payload true) = none :=
    cutOf_firstCut.trans ((cutOf_apply hnone).trans (if_pos hfit))
  have hfirst : (applyOutputBudget floatLen budget payload lists).put "results_complete"
      (.bool true) = firstCut floatLen budget payload true := rfl
  simp only [page, htruncation, Option.isNone_none, beq_self_eq_true, Bool.and_self, hfirst, hcut,
    lt_irrefl, if_false, Option.or_none]

/-- Where rows are cut, or the page is not the first, the page says which rows these are. -/
theorem page_numbered (hsummary : summaryOf payload = some text) (rows : List Row) {offset : Nat}
    (hpart : ¬(RowsFit floatLen budget payload ∧ offset = 0)) :
    let cut := if RowsFit floatLen budget payload then none
      else some ((shownRows (applyOutputBudget floatLen budget payload lists)).length,
        (shownRows payload).length)
    let out := numbered floatLen (firstCut floatLen budget payload false) budget rows offset
      (shownRows payload).length cut.isSome false
    page floatLen payload budget rows offset false = (out.1, ⟨cut, out.2, false⟩) := by
  have hcomplete : (offset == 0 && (truncationOf
      (applyOutputBudget floatLen budget payload lists)).isNone) = false := by
    rw [truncationOf_apply hnone]
    by_cases hfit : RowsFit floatLen budget payload
    · simpa [hfit] using hpart
    · simp [hfit]
  have hcut : cutOf (firstCut floatLen budget payload false) = _ :=
    cutOf_firstCut.trans (cutOf_apply hnone)
  have hafter : ((firstCut floatLen budget payload false).get "summary").bind asStr = some text :=
    summaryOf_firstCut.trans hsummary
  have hfirst : (applyOutputBudget floatLen budget payload lists).put "results_complete"
      (.bool false) = firstCut floatLen budget payload false := rfl
  simp only [page, hcomplete, hfirst, hcut]
  by_cases hfit : RowsFit floatLen budget payload
  · have hoffset : 0 < offset := Nat.pos_of_ne_zero fun hzero => hpart ⟨hfit, hzero⟩
    simp only [if_pos hfit, if_pos hoffset, shownRows_firstCut_of_fit hfit, Option.none_or, hafter]
  · simp only [if_neg hfit, Option.some_or, hafter]

omit hnone in
/-- The list of files takes rows away exactly where they are lost. -/
theorem kept_lt_iff_lost (hfit : RowsFit floatLen budget payload) {rows : List Row} {offset : Nat}
    (hoffset : 0 < offset) :
    (shownRows (applyOutputBudget floatLen budget
        (withFiles (firstCut floatLen budget payload false) rows false) lists)).length <
      (shownRows payload).length ↔ Lost floatLen budget payload rows offset := by
  have hlisted : shownRows (withFiles (firstCut floatLen budget payload false) rows false) =
      shownRows payload := by
    rw [shownRows_withFiles, shownRows_firstCut_of_fit hfit]
  obtain ⟨-, hle, -⟩ := @shownRows_apply floatLen budget
    (withFiles (firstCut floatLen budget payload false) rows false)
  have hall := @rowsFit_iff floatLen budget
    (withFiles (firstCut floatLen budget payload false) rows false)
  rw [hlisted] at hle hall
  constructor
  · exact fun hlt => ⟨hoffset, hfit, fun hfit' => hlt.ne (hall.mp hfit')⟩
  · rintro ⟨-, -, hlost⟩
    exact lt_of_le_of_ne hle fun heq => hlost (hall.mpr heq)

end FirstCut

theorem page_spec {payload : Ordered} {text : String} (hnone : payload.get "_truncation" = none)
    (hsummary : summaryOf payload = some text) (rows : List Row) (offset : Nat) :
    let out := page floatLen payload budget rows offset false
    let all := shownRows payload
    out.1.get "result_count" = payload.get "result_count" ∧
      ((RowsFit floatLen budget payload ∧ offset = 0 ∧ shownRows out.1 = all ∧
          truncationOf out.1 = none ∧ out.2.cut = none ∧ summaryOf out.1 = some text) ∨
        (out.2.resultsComplete = false ∧
          Paged all offset text out.2.cut.isSome out.2.kept out.1 ∧
          ((¬RowsFit floatLen budget payload ∧ out.2.cut.isSome ∧ 1 < all.length ∧
              out.2.kept ≤ all.length / 2) ∨
            (RowsFit floatLen budget payload ∧ 0 < offset ∧ out.2.cut = none ∧
              (out.2.kept < all.length ↔ Lost floatLen budget payload rows offset))))) := by
  by_cases hwhole : RowsFit floatLen budget payload ∧ offset = 0
  · obtain ⟨hfit, rfl⟩ := hwhole
    rw [page_whole hnone rows hfit]
    exact ⟨count_firstCut, .inl ⟨hfit, rfl, shownRows_firstCut_of_fit hfit,
      truncationOf_firstCut.trans ((truncationOf_apply hnone).trans (if_pos hfit)), rfl,
      summaryOf_firstCut.trans hsummary⟩⟩
  · rw [page_numbered hnone hsummary rows hwhole]
    obtain ⟨-, -, hpos⟩ := @shownRows_apply floatLen budget payload
    have hnumbered := fun (cut : Bool) => @paged_numbered floatLen budget _ _ _ _
      (@shownRows_firstCut floatLen budget payload false) hpos
      (summaryOf_firstCut.trans hsummary) rows offset
      cut
    dsimp only
    by_cases hfit : RowsFit floatLen budget payload
    · have hoffset : 0 < offset := Nat.pos_of_ne_zero fun hzero => hwhole ⟨hfit, hzero⟩
      rw [if_pos hfit]
      obtain ⟨hkept, -, hget, hpaged⟩ := hnumbered false
      refine ⟨hget.trans count_firstCut, .inr ⟨rfl, hpaged, .inr ⟨hfit, hoffset, rfl, ?_⟩⟩⟩
      rw [← kept_lt_iff_lost hfit hoffset]
      exact iff_of_eq (congrArg (· < (shownRows payload).length) hkept)
    · rw [if_neg hfit]
      obtain ⟨-, hlong, hhalf⟩ := (@rowsFit_cases floatLen budget
        payload).resolve_left fun h => hfit h.1
      obtain ⟨-, hkept, hget, hpaged⟩ := hnumbered true
      exact ⟨hget.trans count_firstCut, .inr ⟨rfl, hpaged, .inl ⟨hfit, rfl, hlong,
        (hkept.trans (min_le_left _ _)).trans hhalf⟩⟩⟩

end Page

/-! ## The call that goes on -/

def NoOffset (calls : List Json) : Prop := ∀ call ∈ calls, offsetOf call = none

theorem offsetOf_call (args : Json) (why : String) :
    offsetOf (call args why) = (args.get "offset").bind asNat := by
  simp [offsetOf, call, Json.get, List.lookup_cons]

theorem get_offset_thisCall (query : Query) (pattern : String) (depth : Option Int) :
    (thisCall query pattern depth).get "offset" = none := by
  have hpair : (Json.obj [("pattern", .str pattern), ("target", .str query.target)]).get "offset" =
      none := by simp [Json.get, List.lookup_cons]
  rw [thisCall]
  cases depth <;> cases query.importKind <;> cases query.pathPrefix <;>
    simp [get_insert, hpair]

theorem noOffset_thisCall (query : Query) (pattern : String) (depth : Option Int) (why : String) :
    offsetOf (call (thisCall query pattern depth) why) = none := by
  rw [offsetOf_call, get_offset_thisCall]
  rfl

theorem noOffset_pair (pattern target why : String) :
    offsetOf (call (.obj [("pattern", .str pattern), ("target", .str target)]) why) = none := by
  rw [offsetOf_call]
  simp [Json.get, List.lookup_cons]

theorem noOffset_afterQuery (pattern target : String) (rows : List Json) :
    NoOffset (afterQuery pattern target rows) := by
  intro c hc
  rw [afterQuery] at hc
  split_ifs at hc
  · exact absurd hc List.not_mem_nil
  · rw [List.mem_singleton.mp hc]
    exact noOffset_pair _ _ _
  · obtain ⟨p, -, rfl⟩ := List.mem_map.mp (List.mem_of_mem_take hc)
    exact noOffset_pair _ _ _

theorem NoOffset.putFirst {call : Json} {next : List Json} (h : NoOffset next)
    (hcall : offsetOf call = none) : NoOffset (putFirst call next) := by
  intro c hc
  rcases List.mem_cons.mp (List.mem_of_mem_take hc) with rfl | hc
  · exact hcall
  · exact h c hc

/-- The calls put in front of the one that goes on are two at most, so it stays on the list. -/
theorem findSome_viaCalls {next : List Json} (c : Json) {vias : List String}
    (hvias : vias.length ≤ viaCalls) {after : Nat} (hc : offsetOf c = some after) :
    (vias.reverse.foldl (fun next via =>
      putFirst (call (.obj [("pattern", .str "tests_for"), ("target", .str via)])
        "tests that run it through this caller") next) (putFirst c next)).findSome? offsetOf =
      some after := by
  have hpair := noOffset_pair "tests_for"
  match vias, hvias with
  | [], _ => simp [putFirst, maxNext, hc]
  | [_], _ => simp [putFirst, maxNext, hc, hpair]
  | [_, _], _ => simp [putFirst, maxNext, hc, hpair]

theorem findSome_nextCalls {query : Query} (hlevel : query.minimal = false) (found : Found)
    (rows : List Json) {paging : Paging} {unboundCaller : Option (String × String)}
    {testsThroughCallers : Bool} (viaCallers : List String)
    (hquiet : paging.cut.isSome → unboundCaller = none ∧ testsThroughCallers = false)
    (hkept : paging.cut.isSome → 0 < paging.kept) :
    (nextCalls query found rows paging unboundCaller testsThroughCallers viaCallers).findSome?
        offsetOf =
      if paging.cut.isSome then some (query.offset + paging.kept) else none := by
  have hfirst : NoOffset (putDeeper found query (afterQuery query.pattern query.target rows)) := by
    have hafter := noOffset_afterQuery query.pattern query.target rows
    rw [putDeeper]
    split
    · exact hafter.putFirst (noOffset_thisCall _ _ _ _)
    · exact hafter
  rw [nextCalls]
  by_cases hcut : paging.cut.isSome
  · obtain ⟨rfl, rfl⟩ := hquiet hcut
    obtain ⟨c, hc, hoffset⟩ : ∃ c, restCall found query paging = some c ∧
        offsetOf c = some (query.offset + paging.kept) := by
      rw [restCall, hlevel, Bool.and_false, if_neg Bool.false_ne_true,
        if_pos (by rw [hcut, Bool.true_and]; exact decide_eq_true (hkept hcut))]
      refine ⟨_, rfl, ?_⟩
      rw [offsetOf_call, get_insert, if_pos rfl]
      simp [asNat]
      omega
    rw [if_pos hcut, hc]
    exact findSome_viaCalls c (List.length_take_le _ _) hoffset
  · have hrest : restCall found query paging = none := by
      rw [Bool.not_eq_true] at hcut
      rw [restCall, hcut, Bool.false_and, if_neg Bool.false_ne_true, Bool.false_and,
        if_neg Bool.false_ne_true]
    rw [if_neg hcut, hrest, List.findSome?_eq_none_iff]
    have hfold : ∀ (vias : List String) {next : List Json}, NoOffset next →
        NoOffset (vias.foldl (fun next via =>
          putFirst (call (.obj [("pattern", .str "tests_for"), ("target", .str via)])
            "tests that run it through this caller") next) next) := by
      intro vias
      induction vias with
      | nil => exact fun h => h
      | cons via vias ih => exact fun h => ih (h.putFirst (noOffset_pair _ _ _))
    refine hfold _ ?_
    have hunbound : NoOffset (unboundCaller.elim (putDeeper found query
        (afterQuery query.pattern query.target rows)) fun p =>
          putFirst (call (.obj [("pattern", .str "source_of"), ("target", .str p.1)]) p.2)
            (putDeeper found query (afterQuery query.pattern query.target rows))) := by
      cases unboundCaller with
      | none => exact hfirst
      | some p => exact hfirst.putFirst (noOffset_pair _ _ _)
    split
    · exact hunbound.putFirst (noOffset_thisCall _ _ _ _)
    · exact hunbound

/-! ## A reply -/

theorem Frame.ite {o o' : Ordered} {p : Prop} [Decidable p] (h : Frame o o') :
    Frame o (if p then o' else o) := by
  split
  · exact h
  · exact refl o

theorem testNotes_spec (found : Found) (query : Query) (reply : Ordered × Paging) :
    Frame reply.1 (testNotes found query reply).1 ∧
      (testNotes found query reply).2.cut = reply.2.cut ∧
      (testNotes found query reply).2.kept = reply.2.kept ∧
      (reply.2.resultsComplete = false →
        (testNotes found query reply).2.resultsComplete = false) := by
  have hthrough : Frame reply.1 (if found.rows.isEmpty then reply.1
      else found.through.elim reply.1 fun p => appendSummary reply.1 p.1) := by
    split
    · exact .refl _
    · cases found.through with
      | none => exact .refl _
      | some p => exact .appendSummary _ _
  rw [testNotes]
  split
  · dsimp only
    split
    · exact ⟨hthrough.trans ((Frame.appendSummary _ _).trans (.setComplete _ _)), rfl, rfl,
        fun _ => rfl⟩
    · exact ⟨hthrough, rfl, rfl, id⟩
  · exact ⟨.refl _, rfl, rfl, id⟩

section Answer

variable {floatLen : Float → Nat}

theorem answer_spec (found : Found) (parts : Parts) {query : Query} (hlevel : query.minimal = false)
    {payload : Ordered} {budget : Nat}
    (hput : putRows found parts query (startOf found parts query) = (payload, budget))
    {out : Ordered × Paging}
    (hout : page floatLen payload budget found.rows query.offset false = out)
    (hcut : out.2.cut.isSome → out.2.resultsComplete = false ∧ 0 < out.2.kept ∧ found.rows ≠ []) :
    shownRows (answer floatLen found parts query) = shownRows out.1 ∧
    truncationOf (answer floatLen found parts query) = truncationOf out.1 ∧
    (answer floatLen found parts query).get "result_count" = out.1.get "result_count" ∧
    (∀ text, SummaryFrom text out.1 → SummaryFrom text (answer floatLen found parts query)) ∧
    nextOffset (answer floatLen found parts query) =
      if out.2.cut.isSome then some (query.offset + out.2.kept) else none := by
  obtain ⟨shown, paging⟩ := out
  dsimp only at hcut ⊢
  have hwalk : Frame shown (if found.walkCut then appendSummary shown walkCutNote else shown) :=
    (Frame.appendSummary _ _).ite
  set walked := if found.walkCut then appendSummary shown walkCutNote else shown with hwalked
  have hdepth : Frame shown (if found.reachability.isSome && query.depth < parts.requestedDepth then
      appendSummary walked (depthCappedNote parts.requestedDepth) else walked) :=
    hwalk.trans (Frame.appendSummary _ _).ite
  set capped := if found.reachability.isSome && query.depth < parts.requestedDepth then
      appendSummary walked (depthCappedNote parts.requestedDepth) else walked with hcapped
  obtain ⟨htests, hsameCut, hsameKept, hcomplete⟩ := testNotes_spec found query (capped, paging)
  dsimp only at htests hsameCut hsameKept hcomplete
  set noted := testNotes found query (capped, paging) with hnoted
  set ended := ending parts (noted.2.resultsComplete && found.closed) with hended
  have hend : Frame shown (ended.elim noted.1 fun p => appendSummary noted.1 p.1) := by
    refine (hdepth.trans htests).trans ?_
    cases ended with
    | none => exact .refl _
    | some p => exact .appendSummary _ _
  set last := ended.elim noted.1 fun p => appendSummary noted.1 p.1 with hlast
  have hanswer : answer floatLen found parts query = last.set "next" (.arr (nextCalls query found
      (shownRows last) noted.2 (ended.bind Prod.snd) (zeroResultNote found parts).2
        (viaCallersOf found query))) := by
    simp only [answer, hput, hlevel, hout]
    rfl
  have hget : ∀ {key : String} (v : Json), key ≠ "summary" → key ≠ "results_complete" →
      key ≠ "next" → (last.set "next" v).get key = shown.get key := by
    intro key v hsummary hcompleteKey hnext
    rw [get_set, if_neg hnext, hend.get key hsummary hcompleteKey]
  rw [hanswer]
  refine ⟨?_, ?_, hget _ (by decide) (by decide) (by decide), ?_, ?_⟩
  · rw [shownRows, hget _ (by decide) (by decide) (by decide), ← shownRows]
  · rw [truncationOf, hget _ (by decide) (by decide) (by decide), ← truncationOf]
  · intro text htext
    obtain ⟨more, hmore⟩ := hend.summary text htext
    exact ⟨more, by rw [summaryOf, get_set, if_neg (by decide), ← summaryOf, hmore]⟩
  · rw [nextOffset, get_set, if_pos rfl]
    refine (findSome_nextCalls hlevel found _ _ ?_ ?_).trans (by rw [hsameCut, hsameKept])
    · intro hsome
      rw [hsameCut] at hsome
      obtain ⟨hincomplete, -, hrows⟩ := hcut hsome
      constructor
      · rw [hended, hcomplete hincomplete, Bool.false_and, ending]
        cases parts.valueUses <;> rfl
      · rw [zeroResultNote, if_neg (by simpa using hrows)]
    · intro hsome
      rw [hsameCut] at hsome
      rw [hsameKept]
      exact (hcut hsome).2.1

end Answer

section Numbers

variable {rows : List Json} {out reply : Ordered} {query : Query} {note : Option String}
  {more : String} (hsame : shownRows reply = shownRows out)
  (hrecord : truncationOf reply = truncationOf out)
  (hfrom : ∀ text, SummaryFrom text out → SummaryFrom text reply)
  (hcount : reply.get "result_count" = some (.int rows.length))

include hsame hrecord hfrom hcount

theorem numbered_whole (hshown : shownRows out = rows) (hnone : truncationOf out = none)
    (hsummary : summaryOf out = some (foundSummary rows.length query note ++ more)) :
    Numbered rows 0 reply := by
  have hreply : shownRows reply = rows := hsame.trans hshown
  obtain ⟨after, hafter⟩ := hfrom _ ⟨more, hsummary⟩
  refine ⟨?_, hcount, ⟨query, note, after, hafter⟩, .inl ⟨hrecord.trans hnone, hreply⟩⟩
  rw [hreply, List.drop_zero, List.take_length]

theorem numbered_page {offset kept : Nat} {cut : Bool}
    (hpaged : Paged (rows.drop offset) offset (foundSummary rows.length query note ++ more) cut kept
      out) (htotal : offset + (rows.drop offset).length = rows.length) :
    Numbered rows offset reply := by
  obtain ⟨page, hnote, hoffset, hkept, hpageTotal, -⟩ := hpaged.note
  have hreply : shownRows reply = (rows.drop offset).take kept := hsame.trans hpaged.shown
  have hlength : (shownRows reply).length = kept := by
    rw [hreply, List.length_take, min_eq_left hpaged.le]
  obtain ⟨after, hafter⟩ := hfrom _ ⟨"", hnote.trans (by rw [String.append_empty])⟩
  refine ⟨?_, hcount, ⟨query, note, more ++ ". " ++ pageNote page false ++ after, ?_⟩,
    .inr ⟨?_, ?_⟩⟩
  · rw [hlength, hreply]
  · rw [hafter]
    simp only [String.append_assoc]
  · rw [hlength, ← htotal]
    exact hrecord.trans hpaged.record
  · exact ⟨_, page, after, hafter, hoffset, hkept.trans hlength.symm, hpageTotal.trans htotal⟩

end Numbers

/-! ## All pages -/

section Calls

variable (floatLen : Float → Nat) (found : Found) (parts : Nat → Parts) (query : Query)

def callAt (offset : Nat) : Query := { query with offset := offset }

def replyAt (offset : Nat) : Ordered := answer floatLen found (parts offset) (callAt query offset)

/-- The rows and the budget of a page, before anything is cut. -/
def putAt (offset : Nat) : Ordered × Nat :=
  putRows found (parts offset) (callAt query offset)
    (startOf found (parts offset) (callAt query offset))

def FitAt (offset : Nat) : Prop :=
  RowsFit floatLen (putAt found parts query offset).2 (putAt found parts query offset).1

def LostAt (offset : Nat) : Prop :=
  Lost floatLen (putAt found parts query offset).2 (putAt found parts query offset).1 found.rows
    offset

variable {floatLen found parts query}

theorem shownRows_putAt (offset : Nat) :
    shownRows (putAt found parts query offset).1 = (rowsOf found query).drop offset := by
  have hrowsPut := rowsPut_putRows found (parts offset) (callAt query offset)
    (get_truncation_startOf found (parts offset) (callAt query offset))
  rw [shownRows, putAt, hrowsPut.results]
  rfl

/-- The last row is on its page with or without the list of files. -/
theorem not_lostAt_of_last {offset : Nat} (h : ((rowsOf found query).drop offset).length ≤ 1) :
    ¬LostAt floatLen found parts query offset := by
  rintro ⟨-, -, hlost⟩
  refine hlost (.inl ?_)
  rw [size_results, shownRows_withFiles, shownRows_put (by decide)]
  have hle := (@shownRows_apply floatLen (putAt found parts query offset).2
    (putAt found parts query offset).1).2.1
  rw [shownRows_putAt] at hle
  exact hle.trans h

variable (hlevel : query.minimal = false)

include hlevel

/-- A page has the numbers of the whole answer. Its rows are the last ones, or half of them and the
next page goes on after these, or the list of files took some of the last ones away. -/
theorem replyAt_spec {offset : Nat}
    (hoffset : offset = 0 ∨ offset < (rowsOf found query).length) :
    let reply := replyAt floatLen found parts query offset
    let rest := (rowsOf found query).drop offset
    Numbered (rowsOf found query) offset reply ∧
      ((nextOffset reply = none ∧ shownRows reply = rest ∧
          FitAt floatLen found parts query offset ∧ ¬LostAt floatLen found parts query offset) ∨
        (∃ kept, 0 < kept ∧ kept ≤ rest.length / 2 ∧
          nextOffset reply = some (offset + kept) ∧ shownRows reply = rest.take kept ∧
          ¬LostAt floatLen found parts query offset) ∨
        (nextOffset reply = none ∧ (shownRows reply).length < rest.length ∧
          LostAt floatLen found parts query offset)) := by
  intro reply rest
  have hlevel' : (callAt query offset).minimal = false := hlevel
  have hrowsPut := rowsPut_putRows found (parts offset) (callAt query offset)
    (get_truncation_startOf found (parts offset) (callAt query offset))
  obtain ⟨more, hmore⟩ := hrowsPut.summary
  have hall : shownRows (putAt found parts query offset).1 = rest := shownRows_putAt offset
  have htotal : offset + rest.length = (rowsOf found query).length := by
    rw [List.length_drop]
    omega
  obtain ⟨hcount, hpage⟩ := @page_spec floatLen
    (putAt found parts query offset).2 _ _ hrowsPut.truncation hmore found.rows offset
  rw [← putAt, hall] at hpage
  set out := page floatLen (putAt found parts query offset).1 (putAt found parts query offset).2
    found.rows offset false with hout
  have hrows : rest ≠ [] → found.rows ≠ [] := by
    rintro hne hnil
    refine hne ?_
    change (listed query.full query.minimal query.pattern found.rows).drop offset = []
    rw [hnil, listed_nil, List.drop_nil]
  have hanswer := @answer_spec floatLen found (parts offset) _ hlevel'
    (putAt found parts query offset).1 (putAt found parts query offset).2 rfl _ hout.symm
  rcases hpage with
    ⟨hfit, hzero, hshown, htruncation, hnocut, hsummary⟩ | ⟨hcomplete, hpaged, hcase⟩
  · obtain ⟨hsame, hrecord, hget, hfrom, hnext⟩ := hanswer fun hsome => by
      rw [hnocut] at hsome
      cases hsome
    have hwhole : rest = rowsOf found query := by
      change (rowsOf found query).drop offset = _
      rw [hzero, List.drop_zero]
    refine ⟨?_, .inl ⟨?_, hsame.trans hshown, hfit, ?_⟩⟩
    · rw [hzero]
      exact numbered_whole hsame hrecord hfrom (hget.trans (hcount.trans hrowsPut.count))
        (hshown.trans hwhole) htruncation hsummary
    · rw [hnocut] at hnext
      exact hnext
    · rintro ⟨hpos, -⟩
      exact hpos.ne' hzero
  · have hrest : 1 < rest.length → rest ≠ [] := by
      rintro hlt hnil
      rw [hnil] at hlt
      exact Nat.not_lt_zero _ hlt
    obtain ⟨hsame, hrecord, hget, hfrom, hnext⟩ := hanswer fun hsome => by
      rcases hcase with ⟨-, -, hlong, -⟩ | ⟨-, -, hnone, -⟩
      · exact ⟨hcomplete, hpaged.pos (hrest hlong), hrows (hrest hlong)⟩
      · rw [hnone] at hsome
        cases hsome
    have hreply : shownRows reply = rest.take out.2.kept := hsame.trans hpaged.shown
    refine ⟨numbered_page hsame hrecord hfrom (hget.trans (hcount.trans hrowsPut.count)) hpaged
      htotal, ?_⟩
    rcases hcase with ⟨hunfit, hsome, hlong, hhalf⟩ | ⟨hfit, hpos, hnone, hiff⟩
    · refine .inr (.inl ⟨out.2.kept, hpaged.pos (hrest hlong), hhalf, ?_, hreply, ?_⟩)
      · exact hnext.trans (if_pos hsome)
      · rintro ⟨-, hfit, -⟩
        exact hunfit hfit
    · rw [hnone] at hnext
      have hlength : (shownRows reply).length = out.2.kept := by
        rw [hreply, List.length_take, min_eq_left hpaged.le]
      by_cases hlost : LostAt floatLen found parts query offset
      · exact .inr (.inr ⟨hnext, by rw [hlength]; exact hiff.mpr hlost, hlost⟩)
      · refine .inl ⟨hnext, ?_, hfit, hlost⟩
        rw [hreply, List.take_of_length_le (not_lt.mp fun hlt => hlost (hiff.mp hlt))]

omit hlevel in
theorem Run.mem_iff {reply : Nat → Ordered} {start : Nat} {offsets : List Nat}
    (h : Run reply start offsets) (offset : Nat) : offset ∈ offsets ↔
      Relation.ReflTransGen (fun a b => nextOffset (reply a) = some b) start offset := by
  induction h with
  | last hnone =>
      rw [List.mem_singleton]
      constructor
      · rintro rfl
        exact .refl
      · intro hpath
        rcases Relation.ReflTransGen.cases_head hpath with heq | ⟨after, hafter, -⟩
        · exact heq.symm
        · rw [hnone] at hafter
          cases hafter
  | @more start after offsets hsome _ ih =>
      rw [List.mem_cons, ih]
      constructor
      · rintro (rfl | hpath)
        · exact .refl
        · exact .head hsome hpath
      · intro hpath
        rcases Relation.ReflTransGen.cases_head hpath with heq | ⟨after', hafter, hpath⟩
        · exact .inl heq.symm
        · rw [hsome] at hafter
          exact .inr (Option.some.inj hafter ▸ hpath)

theorem exists_run {offset : Nat} (hoffset : offset = 0 ∨ offset < (rowsOf found query).length) :
    ∃ offsets, Run (replyAt floatLen found parts query) offset offsets ∧
      ∀ o ∈ offsets, Numbered (rowsOf found query) o (replyAt floatLen found parts query o) := by
  generalize hleft : (rowsOf found query).length - offset = left
  induction left using Nat.strong_induction_on generalizing offset with
  | _ left ih =>
      obtain ⟨hnumbered, hcase⟩ :=
        @replyAt_spec floatLen _ parts _ hlevel _ hoffset
      have hlast : nextOffset (replyAt floatLen found parts query offset) = none →
          ∃ offsets, Run (replyAt floatLen found parts query) offset offsets ∧
            ∀ o ∈ offsets,
              Numbered (rowsOf found query) o (replyAt floatLen found parts query o) := by
        intro hnone
        exact ⟨_, .last hnone, fun o ho => List.mem_singleton.mp ho ▸ hnumbered⟩
      rcases hcase with ⟨hnone, -⟩ | ⟨kept, hpos, hhalf, hnext, -⟩ | ⟨hnone, -⟩
      · exact hlast hnone
      · rw [List.length_drop] at hhalf
        have hlt : offset + kept < (rowsOf found query).length := by omega
        obtain ⟨offsets, hrun, hall⟩ := ih _ (by omega) (.inr hlt) rfl
        refine ⟨_, .more hnext hrun, fun o ho => ?_⟩
        rcases List.mem_cons.mp ho with rfl | ho
        · exact hnumbered
        · exact hall o ho
      · exact hlast hnone

theorem flatMap_eq_iff {offset : Nat} {offsets : List Nat}
    (hrun : Run (replyAt floatLen found parts query) offset offsets)
    (hoffset : offset = 0 ∨ offset < (rowsOf found query).length) :
    (offsets.flatMap fun o => shownRows (replyAt floatLen found parts query o)) =
        (rowsOf found query).drop offset ↔
      ∀ o ∈ offsets, ¬LostAt floatLen found parts query o := by
  induction hrun with
  | @last offset hnone =>
      obtain ⟨-, hcase⟩ := @replyAt_spec floatLen _ parts _ hlevel _ hoffset
      simp only [List.flatMap_singleton, List.mem_singleton, forall_eq]
      rcases hcase with ⟨-, hshown, -, hkept⟩ | ⟨_, -, -, hnext, -⟩ | ⟨-, hshort, hlost⟩
      · exact iff_of_true hshown hkept
      · rw [hnone] at hnext
        cases hnext
      · refine iff_of_false (fun heq => ?_) fun h => h hlost
        rw [heq] at hshort
        exact lt_irrefl _ hshort
  | @more offset after offsets hnext hrun ih =>
      obtain ⟨-, hcase⟩ := @replyAt_spec floatLen _ parts _ hlevel _ hoffset
      rw [List.flatMap_cons, List.forall_mem_cons]
      rcases hcase with ⟨hnone, -⟩ | ⟨kept, hpos, hhalf, hsome, hshown, hkept⟩ | ⟨hnone, -⟩
      · rw [hnone] at hnext
        cases hnext
      · rw [List.length_drop] at hhalf
        have hlt : offset + kept < (rowsOf found query).length := by omega
        obtain rfl : offset + kept = after := Option.some.inj (hsome.symm.trans hnext)
        have hsplit : (rowsOf found query).drop offset =
            ((rowsOf found query).drop offset).take kept ++
              (rowsOf found query).drop (offset + kept) := by
          rw [← List.drop_drop, List.take_append_drop]
        rw [hshown, ← ih (.inr hlt)]
        constructor
        · intro heq
          exact ⟨hkept, List.append_cancel_left (heq.trans hsplit)⟩
        · rintro ⟨-, heq⟩
          rw [heq, ← hsplit]
      · rw [hnone] at hnext
        cases hnext

theorem not_lost_of_showsAll
    (hall : ShowsAll (rowsOf found query) (replyAt floatLen found parts query)) {offset : Nat}
    (hvisited : Visited (replyAt floatLen found parts query) offset) :
    ¬LostAt floatLen found parts query offset := by
  obtain ⟨offsets, hrun, hrows, -⟩ := hall
  have hiff := flatMap_eq_iff hlevel hrun (.inl rfl)
  rw [List.drop_zero] at hiff
  exact hiff.mp hrows offset ((hrun.mem_iff offset).mpr hvisited)

/-- From the first page on, the calls with the offset given in `next` end, with the numbers of the
whole answer on every page. They show every row once and in order exactly where no page past the
first keeps all the rows left without the list of files, and not with it. -/
theorem showsAll_iff :
    (∃ offsets, Run (replyAt floatLen found parts query) 0 offsets ∧
      ∀ o ∈ offsets, Numbered (rowsOf found query) o (replyAt floatLen found parts query o)) ∧
    (ShowsAll (rowsOf found query) (replyAt floatLen found parts query) ↔
      ∀ offset, Visited (replyAt floatLen found parts query) offset →
        ¬LostAt floatLen found parts query offset) := by
  obtain ⟨offsets, hrun, hnumbered⟩ :=
    @exists_run floatLen _ parts _ hlevel _ (.inl rfl)
  refine ⟨⟨offsets, hrun, hnumbered⟩, fun hall _ => not_lost_of_showsAll hlevel hall, ?_⟩
  intro hkept
  refine ⟨offsets, hrun, ?_, hnumbered⟩
  have hiff := flatMap_eq_iff hlevel hrun (.inl rfl)
  rw [List.drop_zero] at hiff
  exact hiff.mpr fun o ho => hkept o ((hrun.mem_iff o).mp ho)

end Calls

/-! ## Tests in one file -/

def plainParts : Parts :=
  { confidence := .str "medium", zeroResultReason := .null, resolution := "exact", exactCount := 1
    originalTarget := none, requestedDepth := 1, description := "", answerability := .obj []
    compactAnswerability := .obj [], guidance := .obj [], noRows := (none, false)
    valueUses := none, closing := none }

def testRow (path name : String) : Row :=
  [("id", .int 1), ("kind", .str "Test"), ("name", .str name),
    ("qualified_name", .str (String.ofList (path.toList.take 256))), ("file_path", .str path),
    ("line_start", .int 1), ("line_end", .int 2), ("language", .str "python"),
    ("parent_name", .null), ("is_test", .bool true)]

def testsIn (path : String) (names : List String) : Found :=
  { rows := names.map (testRow path), edges := [], unresolved := [], reachability := none
    outside := fun _ => none, through := none }

def testsFor : Query :=
  { pattern := "tests_for", target := "app.py::f", detailLevel := "standard", depth := 1
    offset := 0, importKind := none, pathPrefix := none }

/-- Two tests are on one page or on two, which both show them. -/
theorem showsAll_testsFor :
    ShowsAll (rowsOf (testsIn "tests/test_app.py" ["test_f", "test_g"]) testsFor)
      (replyAt noFloats (testsIn "tests/test_app.py" ["test_f", "test_g"]) (fun _ => plainParts)
        testsFor) := by
  have hlevel : testsFor.minimal = false := by decide
  have hlength :
      (rowsOf (testsIn "tests/test_app.py" ["test_f", "test_g"]) testsFor).length = 2 := by
    decide +kernel
  refine (showsAll_iff hlevel).2.mpr fun offset hvisited => ?_
  rcases Nat.eq_zero_or_pos offset with rfl | hpos
  · exact fun hlost => lt_irrefl _ hlost.1
  · refine not_lostAt_of_last ?_
    rw [List.length_drop, hlength]
    omega

def longPath : String := String.ofList (List.replicate 1750 'é')

def threeTests : Found := testsIn longPath ["test_a", "test_b", "test_c"]

def testObject (path name : String) : Json :=
  .obj [("kind", .str "Test"), ("name", .str name),
    ("qualified_name", .str (String.ofList (path.toList.take 256))), ("file_path", .str path),
    ("line_start", .int 1), ("line_end", .int 2), ("is_test", .bool true)]

theorem toList_longPath : longPath.toList = List.replicate 1750 'é' := String.toList_ofList

theorem compact_testRow (name : String) :
    object (compact false (testRow longPath name)) = testObject longPath name := by
  have hne : longPath ≠ "" := by
    intro h
    have hlist := congrArg String.toList h
    rw [toList_longPath] at hlist
    cases hlist
  have hpre : ¬longPath.toList <+: longPath.toList.take 256 := by
    intro h
    have hle := h.length_le
    rw [toList_longPath, List.length_take, List.length_replicate] at hle
    omega
  have hout : (testRow longPath name).filter (fun e => !dropped e) =
      [("kind", .str "Test"), ("name", .str name),
        ("qualified_name", .str (String.ofList (longPath.toList.take 256))),
        ("file_path", .str longPath), ("line_start", .int 1), ("line_end", .int 2),
        ("is_test", .bool true)] := by
    rfl
  rw [compact, hout]
  simp [Row.getStr, Row.get, List.lookup_cons, asStr, hne, hpre, object, testObject]

theorem rowsOf_threeTests (offset : Nat) :
    rowsOf threeTests (callAt testsFor offset) =
      ["test_a", "test_b", "test_c"].map (testObject longPath) := by
  have hfull : (callAt testsFor offset).full = false := show testsFor.full = false by decide
  have hminimal : (callAt testsFor offset).minimal = false :=
    show testsFor.minimal = false by decide
  have hpattern : (callAt testsFor offset).pattern ∉ mergedPatterns :=
    show testsFor.pattern ∉ mergedPatterns by decide
  rw [rowsOf, hfull, hminimal, listed, if_neg Bool.false_ne_true]
  simp [if_neg hpattern, threeTests, testsIn, compact_testRow]

theorem filesOf_threeTests : filesOf threeTests.rows = [longPath] := by
  have hfile : ∀ name, rowFile (testRow longPath name) = some longPath := by
    intro name
    simp [rowFile, testRow, Row.get, List.lookup_cons, asStr]
  simp [filesOf, threeTests, testsIn, hfile, dedupAdjacent]

theorem len_testObject (path : String) {name : String}
    (hname : name ∈ ["test_a", "test_b", "test_c"])
    (htake : pythonStringLen (String.ofList (path.toList.take 256)) ≤ 1538) :
    pythonStringLen path ≤ pythonDumpsLen noFloats (testObject path name) ∧
      pythonDumpsLen noFloats (testObject path name) ≤ pythonStringLen path + 1800 := by
  have hbefore : ∀ name ∈ ["test_a", "test_b", "test_c"],
      fieldsLen noFloats [("kind", .str "Test"), ("name", .str name)] ≤ 40 := by decide +kernel
  have hafter : fieldsLen noFloats [("line_start", .int 1), ("line_end", .int 2),
      ("is_test", .bool true)] ≤ 50 := by decide +kernel
  have hkeys : pythonStringLen "qualified_name" + pythonStringLen "file_path" ≤ 30 := by
    decide +kernel
  have hbefore := hbefore name hname
  rw [testObject, pythonDumpsLen]
  simp only [fieldsLen, pythonDumpsLen, List.length_cons, List.length_nil] at *
  omega

def startThree : Ordered :=
  (((startOf threeTests plainParts testsFor).put "summary"
    (.str (foundSummary 3 testsFor none))).put "result_count" (.int 3)).put
      "answerability" (.obj [])

theorem putAt_threeTests (offset : Nat) :
    (putAt threeTests (fun _ => plainParts) testsFor offset) =
      ((startThree.put "results" (.arr ((["test_a", "test_b", "test_c"].map
        (testObject longPath)).drop offset))).put "guidance" (.obj []), standardBudget) := by
  have hfull : (callAt testsFor offset).full = false := show testsFor.full = false by decide
  have hminimal : (callAt testsFor offset).minimal = false :=
    show testsFor.minimal = false by decide
  have hnotes : (zeroResultNote threeTests plainParts).1 = none := rfl
  rw [putAt, putRows, hfull, hminimal, rowsOf_threeTests, hnotes]
  rfl

theorem len_longPath : pythonStringLen longPath = 10502 := by
  have hlen := pythonStringLen_replicate 1750 'é'
  rw [show charLen 'é' = 6 by decide] at hlen
  exact hlen

theorem len_testObject_longPath {name : String} (hname : name ∈ ["test_a", "test_b", "test_c"]) :
    10502 ≤ pythonDumpsLen noFloats (testObject longPath name) ∧
      pythonDumpsLen noFloats (testObject longPath name) ≤ 12302 := by
  have htake : pythonStringLen (String.ofList (longPath.toList.take 256)) ≤ 1538 := by
    have hchar : charLen 'é' = 6 := by decide
    rw [toList_longPath, List.take_replicate, pythonStringLen_replicate, hchar]
    decide
  have h := len_testObject longPath hname htake
  rw [len_longPath] at h
  exact h

theorem rowsFit_of_not_over {o : Ordered} {budget : Nat} (h : ¬Over noFloats budget o) :
    RowsFit noFloats budget o := by
  rcases @rowsFit_cases noFloats budget o with ⟨hfit, -⟩ | ⟨-, hlong, hle⟩
  · exact hfit
  · rw [applyOutputBudget, if_neg h] at hle
    omega

theorem not_rowsFit_of_over {o : Ordered} {budget : Nat} (h : Over noFloats budget o)
    (hedges : o.get "edges" = none) (hlong : 1 < (shownRows o).length) :
    ¬RowsFit noFloats budget o := by
  have hlist : o.listAt "edges" = none := by
    have hpath : fieldPath "edges" = ["edges"] := by decide +kernel
    have hget : o.value.get "edges" = none := hedges
    rw [Ordered.listAt, hpath, Json.listAt, valueAt, hget]
    rfl
  have hcut : (cutLists noFloats budget ["edges"] o []).1 = o := by
    rw [cutLists, hlist]
    rfl
  rw [RowsFit, hcut, size_results]
  exact fun hor => hor.elim (not_le_of_gt hlong) fun hfits => hfits h

theorem rowsOf_testsFor : rowsOf threeTests testsFor =
      ["test_a", "test_b", "test_c"].map (testObject longPath) := rowsOf_threeTests 0

theorem get_edges_putAt (offset : Nat) :
      (putAt threeTests (fun _ => plainParts) testsFor offset).1.get "edges" = none := by
    rw [putAt_threeTests, get_put, if_neg (by decide), get_put, if_neg (by decide)]
    decide +kernel

theorem mul_le_len_arr {n : Nat} {items : List Json}
    (h : ∀ item ∈ items, n ≤ pythonDumpsLen noFloats item) :
    items.length * n ≤ pythonDumpsLen noFloats (.arr items) := by
  have hitems : items.length * n ≤ itemsLen noFloats items := by
    induction items with
    | nil => simp
    | cons item items ih =>
        rw [List.length_cons, Nat.succ_mul, itemsLen, Nat.add_comm]
        exact Nat.add_le_add (h item List.mem_cons_self)
          (ih fun item hitem => h item (List.mem_cons_of_mem _ hitem))
  rw [pythonDumpsLen]
  omega

theorem len_arr_le {n : Nat} {items : List Json}
    (h : ∀ item ∈ items, pythonDumpsLen noFloats item ≤ n) :
    pythonDumpsLen noFloats (.arr items) ≤ 2 + items.length * (n + 2) := by
  have hitems : itemsLen noFloats items ≤ items.length * n := by
    induction items with
    | nil => simp [itemsLen]
    | cons item items ih =>
        rw [List.length_cons, Nat.succ_mul, itemsLen, Nat.add_comm]
        exact Nat.add_le_add
          (ih fun item hitem => h item (List.mem_cons_of_mem _ hitem)) (h item List.mem_cons_self)
  rw [pythonDumpsLen, Nat.mul_add]
  omega

theorem get_results_putAt (offset : Nat) :
    (putAt threeTests (fun _ => plainParts) testsFor offset).1.get "results" =
      some (.arr ((["test_a", "test_b", "test_c"].map (testObject longPath)).drop offset)) := by
  rw [putAt_threeTests, get_put, if_neg (by decide), get_put, if_pos rfl]

theorem len_testObjects (offset : Nat) :
    ∀ item ∈ (["test_a", "test_b", "test_c"].map (testObject longPath)).drop offset,
      10502 ≤ pythonDumpsLen noFloats item ∧ pythonDumpsLen noFloats item ≤ 12302 := by
  intro item hitem
  obtain ⟨name, hname, rfl⟩ := List.mem_map.mp (List.mem_of_mem_drop hitem)
  exact len_testObject_longPath hname

theorem over_of_le {o : Ordered} {n budget : Nat} (h : 4 * (budget + 1) ≤ n)
    (hlen : n ≤ pythonDumpsLen noFloats o.value) : Over noFloats budget o := by
  rw [Over, Nat.lt_iff_add_one_le, Nat.le_div_iff_mul_le (by decide), Nat.mul_comm]
  exact h.trans hlen

theorem over_first : Over noFloats standardBudget
    (putAt threeTests (fun _ => plainParts) testsFor 0).1 := by
  have hle := le_len_of_get (get_results_putAt 0) noFloats
  have hitems := mul_le_len_arr fun item hitem => (len_testObjects 0 item hitem).1
  rw [List.length_drop, List.length_map] at hitems
  exact over_of_le (by decide) (hitems.trans hle)

theorem get_startThree : startThree.get "results" = none ∧ startThree.get "guidance" = none := by
  constructor
  · rw [startThree, get_put, if_neg (by decide), get_put, if_neg (by decide), get_put,
      if_neg (by decide)]
    decide +kernel
  · rw [startThree, get_put, if_neg (by decide), get_put, if_neg (by decide), get_put,
      if_neg (by decide)]
    decide +kernel

theorem not_over_second : ¬Over noFloats standardBudget
    (putAt threeTests (fun _ => plainParts) testsFor 1).1 := by
  have hstart : pythonDumpsLen noFloats startThree.value ≤ 700 := by decide +kernel
  have hkeys : pythonStringLen "results" + pythonStringLen "guidance" ≤ 30 := by decide +kernel
  have hempty : pythonDumpsLen noFloats (.obj []) = 2 := by decide +kernel
  have hitems := len_arr_le fun item hitem => (len_testObjects 1 item hitem).2
  rw [List.length_drop, List.length_map] at hitems
  rw [putAt_threeTests]
  dsimp only
  generalize List.drop 1 (["test_a", "test_b", "test_c"].map (testObject longPath)) = items at *
  have hresults := (len_set_of_new get_startThree.1 (.arr items) noFloats).2
  have hnone : (startThree.set "results" (.arr items)).get "guidance" = none := by
    rw [get_set, if_neg (by decide)]
    exact get_startThree.2
  have hguidance := (len_set_of_new hnone (.obj []) noFloats).2
  rw [hempty] at hguidance
  rw [Over, not_lt, standardBudget, put, put]
  simp only [List.length_cons, List.length_nil] at hitems
  omega

theorem over_second_files : Over noFloats standardBudget (withFiles
    ((putAt threeTests (fun _ => plainParts) testsFor 1).1.put "results_complete" (.bool false))
    threeTests.rows false) := by
  set page := (putAt threeTests (fun _ => plainParts) testsFor 1).1.put "results_complete"
    (.bool false) with hpage
  have hresults : page.get "results" =
      some (.arr ((["test_a", "test_b", "test_c"].map (testObject longPath)).drop 1)) := by
    rw [hpage, get_put, if_neg (by decide), get_results_putAt]
  have hfiles : page.get "files" = none := by
    rw [hpage, get_put, if_neg (by decide), putAt_threeTests]
    dsimp only
    rw [get_put, if_neg (by decide), get_put, if_neg (by decide), startThree, get_put,
      if_neg (by decide), get_put, if_neg (by decide), get_put, if_neg (by decide)]
    decide +kernel
  have hrows := (mul_le_len_arr fun item hitem => (len_testObjects 1 item hitem).1).trans
    (le_len_of_get hresults noFloats)
  have hpath : ∀ item ∈ [Json.str longPath], 10502 ≤ pythonDumpsLen noFloats item := by
    intro item hitem
    rw [List.mem_singleton.mp hitem, pythonDumpsLen, len_longPath]
  have hadd := (len_set_of_new hfiles (.arr [.str longPath]) noFloats).1
  have htotal := (Nat.add_le_add hrows (mul_le_len_arr hpath)).trans hadd
  rw [List.length_drop, List.length_map] at htotal
  have hlisted : withFiles page threeTests.rows false =
      page.set "files" (.arr [.str longPath]) := by
    rw [withFiles, filesOf_threeTests]
    rfl
  rw [hlisted]
  exact over_of_le (by decide) htotal

/-- The second page holds the two tests that are left, but not with the file they lie in: the third
test is on no page. -/
theorem not_showsAll_threeTests :
    ¬ShowsAll (rowsOf threeTests testsFor)
      (replyAt noFloats threeTests (fun _ => plainParts) testsFor) := by
  have hlevel : testsFor.minimal = false := by decide
  have hbudget : ∀ offset, (putAt threeTests (fun _ => plainParts) testsFor offset).2 =
      standardBudget := fun offset => by rw [putAt_threeTests]
  -- the first page: three rows are too long, so one is left
  have hfirst : ¬FitAt noFloats threeTests (fun _ => plainParts) testsFor 0 := by
    rw [FitAt, hbudget]
    refine not_rowsFit_of_over over_first (get_edges_putAt 0) ?_
    rw [shownRows_putAt, rowsOf_testsFor, List.length_drop, List.length_map]
    decide
  have hnext : nextOffset (replyAt noFloats threeTests (fun _ => plainParts) testsFor 0) =
      some 1 := by
    obtain ⟨-, hcase⟩ := @replyAt_spec noFloats threeTests
      (fun _ => plainParts) _ hlevel _ (.inl rfl)
    rcases hcase with ⟨-, -, hfit, -⟩ | ⟨kept, hpos, hhalf, hnext, -⟩ | ⟨-, -, hlost⟩
    · exact absurd hfit hfirst
    · rw [rowsOf_testsFor, List.length_drop, List.length_map] at hhalf
      rw [hnext, le_antisymm hhalf hpos]
      rfl
    · exact absurd hlost.1 (lt_irrefl _)
  -- the second page: the two rows that are left are short enough, but not with their file
  refine fun hall => not_lost_of_showsAll hlevel hall (.single hnext) ⟨Nat.one_pos, ?_, ?_⟩
  · rw [hbudget]
    exact rowsFit_of_not_over not_over_second
  · have happly : applyOutputBudget noFloats standardBudget
        (putAt threeTests (fun _ => plainParts) testsFor 1).1 lists =
          (putAt threeTests (fun _ => plainParts) testsFor 1).1 := by
      rw [applyOutputBudget, if_neg not_over_second]
    rw [hbudget, happly]
    refine not_rowsFit_of_over over_second_files ?_ ?_
    · rw [withFiles, get_put, if_neg (by decide), get_put, if_neg (by decide), get_edges_putAt]
    · rw [shownRows_withFiles, shownRows_put (by decide), shownRows_putAt, rowsOf_testsFor,
        List.length_drop, List.length_map]
      decide

end QueryPages

end Dagayn
