import Dagayn.Coverage
import Dagayn.Dict
import Mathlib

/-!
# Inferring the tests of a node

`infer_tests_for_node`: the tests the graph names (`TESTED_BY`, a `dagayn: tests` directive,
a use as a value) and behind them the candidates that score, all ranked by score and name.
A caller that wants one test stops the scan at the first candidate that scores 80, which is
the first in the order of the scan and not the first by name. `infer_prefix_iff` says when
the shorter list is the beginning of the longer one.
-/

namespace Dagayn

namespace TestInference

open Bridges Coverage

/-! ## Rows -/

/-- `node_to_dict`. -/
structure NodeDict where
  id : Nat
  kind : String
  name : String
  qualifiedName : String
  filePath : String
  lineStart : Int
  lineEnd : Int
  language : String
  parentName : Option String
  isTest : Bool

/-- `_sanitize_name`. -/
def sanitize (name : String) : String :=
  String.ofList ((name.toList.filter fun c => c = '\t' || c = '\n' || 0x20 ≤ c.toNat).take 256)

def nodeRow (node : NodeRow) : NodeDict where
  id := node.id
  kind := node.input.kind
  name := sanitize node.input.name
  qualifiedName := sanitize node.qualifiedName
  filePath := node.input.filePath
  lineStart := node.input.lineStart
  lineEnd := node.input.lineEnd
  language := node.input.language
  parentName := node.input.parentName.map sanitize
  isTest := node.input.isTest

structure CoverageRow extends NodeDict where
  confidence : String
  evidence : List String
  coverageSource : String

def coverageRow (node : NodeRow) (confidence : String) (evidence : List String)
    (source : String) : CoverageRow :=
  { nodeRow node with confidence := confidence, evidence := evidence, coverageSource := source }

def rank (confidence : String) : Nat :=
  if confidence = "medium" then 1 else if confidence = "high" then 2 else 0

/-- An entry of the result map. -/
structure Scored where
  score : Nat
  row : CoverageRow

/-- The best score first, and of one score the smaller sanitized name. -/
def rankKey (s : Scored) : Natᵒᵈ ×ₗ String := toLex (OrderDual.toDual s.score, s.row.qualifiedName)

/-- The order in which a hash map gives its values. -/
structure ValueOrder where
  order : List Scored → List Scored
  perm : ∀ l, (order l).Perm l

/-! ## What the graph names -/

section Infer

variable (g : GraphReads) (target : NodeRow)

/-- The `TESTED_BY` edges of the qualified name, else those of the bare name. -/
def directEdges : List GraphEdge :=
  let testedBy := fun source => (g.getEdgesBySource source).filter (·.kind = "TESTED_BY")
  if (testedBy target.qualifiedName).isEmpty then testedBy target.input.name
  else testedBy target.qualifiedName

def incomingEdges : List GraphEdge := g.incoming [target.qualifiedName] target.qualifiedName

def declared : List String :=
  ((incomingEdges g target).filter fun edge =>
    edge.kind = "CROSS_ARTIFACT" && edge.extra.getStr "relationship_role" = some "tests").map
      GraphEdge.sourceQualified

def valueUsers : List String :=
  if target.input.kind = "Function" then
    ((incomingEdges g target).filter fun edge =>
      edge.kind = "REFERENCES" && (edge.extra.get "relationship_role").isNone).map
        GraphEdge.sourceQualified
  else []

def insertHigh (evidence source : String) (results : Dict String Scored) (name : String) :
    Dict String Scored :=
  match g.namedNode name with
  | some test =>
      AList.insert test.qualifiedName ⟨100, coverageRow test "high" [evidence] source⟩ results
  | none => results

def insertValueUse (results : Dict String Scored) (name : String) : Dict String Scored :=
  match g.namedNode name with
  | some test =>
      if !isTestLike test || name ∈ results then results
      else AList.insert test.qualifiedName
        ⟨valueUseScore, coverageRow test "medium" ["test uses target as a value"] "value_use"⟩
        results
  | none => results

def namedResults : Dict String Scored :=
  let direct := ((directEdges g target).map GraphEdge.targetQualified).foldl
    (insertHigh g "TESTED_BY edge" "graph_edge") ∅
  let results := (declared g target).foldl
    (insertHigh g "dagayn: tests directive" "authored") direct
  (valueUsers g target).foldl (insertValueUse g) results

end Infer

/-! ## The scan -/

def scanFrom (score : Coverage.Candidate → Score) (targetName : String) (minRank : Nat)
    (early : Bool) :
    List Coverage.Candidate → Dict String Scored → Dict String Scored
  | [], results => results
  | candidate :: rest, results =>
      let name := candidate.node.qualifiedName
      let s := score candidate
      if name = targetName then scanFrom score targetName minRank early rest results
      else if s.score = 0 || rank s.confidence < minRank then
        scanFrom score targetName minRank early rest results
      else if (results.lookup name).any (s.score ≤ ·.score) then
        scanFrom score targetName minRank early rest results
      else
        let results := AList.insert name
          ⟨s.score, coverageRow candidate.node s.confidence s.evidence "heuristic"⟩ results
        if early && 80 ≤ s.score then results
        else scanFrom score targetName minRank early rest results

def inferTestsForNode (o : ValueOrder) (g : GraphReads) (state : ScanState) (target : NodeRow)
    (limit : Nat) (minimumConfidence : String) : List CoverageRow :=
  let minRank := rank minimumConfidence
  let early := limit ≤ 1 && minRank ≤ rank "medium"
  let results := scanFrom (candidateScore state (Target.new target)) target.qualifiedName minRank
    early state.candidates (namedResults g target)
  ((sortBy rankKey (o.order (Dict.values results))).take limit).map Scored.row

/-! ## What is found -/

/-- The elements up to the first that meets `p`, and that one. -/
def throughFirst {α : Type} (p : α → Bool) : List α → List α
  | [] => []
  | a :: l => if p a then [a] else a :: throughFirst p l

/-- The entry a candidate adds to the results. -/
def hit (score : Coverage.Candidate → Score) (targetName : String) (minRank : Nat)
    (results : Dict String Scored) (candidate : Coverage.Candidate) : Option Scored :=
  let s := score candidate
  if candidate.node.qualifiedName = targetName || s.score = 0 || rank s.confidence < minRank ||
      candidate.node.qualifiedName ∈ results then none
  else some ⟨s.score, coverageRow candidate.node s.confidence s.evidence "heuristic"⟩

section Scan

variable {score : Coverage.Candidate → Score} {targetName : String} {minRank : Nat} {early : Bool}

theorem hit_insert {results : Dict String Scored} {c : Coverage.Candidate} {name : String}
    (s : Scored)
    (h : c.node.qualifiedName ≠ name) :
    hit score targetName minRank (AList.insert name s results) c =
      hit score targetName minRank results c := by
  simp [hit, AList.mem_insert, h]

variable {c : Coverage.Candidate} {rest : List Coverage.Candidate} {results : Dict String Scored}

/-- A candidate that adds nothing is passed over: no score is above the one of a test that
is named. -/
theorem scanFrom_skip (hscore : ∀ c, (score c).score ≤ 80)
    (hold : ∀ s, results.lookup c.node.qualifiedName = some s → 80 ≤ s.score)
    (hnone : hit score targetName minRank results c = none) :
    scanFrom score targetName minRank early (c :: rest) results =
      scanFrom score targetName minRank early rest results := by
  simp only [hit, ite_eq_left_iff, reduceCtorEq, imp_false, not_not, Bool.or_eq_true,
    decide_eq_true_eq] at hnone
  rw [scanFrom]
  split
  · rfl
  · split
    · rfl
    · rename_i hname hlow
      simp only [Bool.or_eq_true, decide_eq_true_eq] at hlow
      have hmem : c.node.qualifiedName ∈ results := by tauto
      obtain ⟨s, hs⟩ := Option.isSome_iff_exists.mp (AList.lookup_isSome.mpr hmem)
      have hany :
          ((results.lookup c.node.qualifiedName).any ((score c).score ≤ ·.score)) = true := by
        rw [hs]
        exact decide_eq_true ((hscore c).trans (hold s hs))
      rw [if_pos hany]

variable (early rest) in
theorem scanFrom_hit {s : Scored} (hs : hit score targetName minRank results c = some s) :
    c.node.qualifiedName ∉ results ∧
      scanFrom score targetName minRank early (c :: rest) results =
        if early && 80 ≤ s.score then AList.insert c.node.qualifiedName s results
        else scanFrom score targetName minRank early rest
          (AList.insert c.node.qualifiedName s results) := by
  simp only [hit, Option.ite_none_left_eq_some, Bool.or_eq_true, decide_eq_true_eq,
    not_or, Option.some.injEq] at hs
  obtain ⟨⟨⟨⟨hname, hzero⟩, hlow⟩, hmem⟩, rfl⟩ := hs
  refine ⟨hmem, ?_⟩
  rw [scanFrom, AList.lookup_eq_none.mpr hmem]
  simp [hname, hzero, hlow]

theorem values_scanFrom (hscore : ∀ c, (score c).score ≤ 80) :
    ∀ {candidates : List Coverage.Candidate} {results : Dict String Scored},
      (candidates.map (·.node.qualifiedName)).Nodup →
      (∀ c ∈ candidates, ∀ s, results.lookup c.node.qualifiedName = some s → 80 ≤ s.score) →
      (Dict.values (scanFrom score targetName minRank early candidates results)).Perm
        (Dict.values results ++
          let hits := candidates.filterMap (hit score targetName minRank results)
          if early then throughFirst (80 ≤ ·.score) hits else hits) := by
  intro candidates
  induction candidates with
  | nil => intro results _ _; cases early <;> simp [scanFrom, throughFirst]
  | cons c rest ih =>
      intro results hnodup hold
      rw [List.map_cons, List.nodup_cons] at hnodup
      obtain ⟨hc, hrest⟩ := List.forall_mem_cons.mp hold
      have hother : ∀ d ∈ rest, d.node.qualifiedName ≠ c.node.qualifiedName :=
        fun d hd heq => hnodup.1 (heq ▸ List.mem_map_of_mem hd)
      cases hs : hit score targetName minRank results c with
      | none =>
          rw [List.filterMap_cons_none hs, scanFrom_skip hscore hc hs]
          exact ih hnodup.2 hrest
      | some s =>
          obtain ⟨hmem, hscan⟩ := scanFrom_hit early rest hs
          rw [List.filterMap_cons_some hs, hscan]
          split
          · rename_i hstop
            obtain ⟨hearly, h80⟩ := Bool.and_eq_true_iff.mp hstop
            rw [Dict.values_insert_of_notMem _ hmem, hearly]
            simp only [throughFirst, h80, if_true]
            exact (List.perm_append_singleton _ _).symm
          · rename_i hgo
            have hhits : rest.filterMap (hit score targetName minRank
                (AList.insert c.node.qualifiedName s results)) =
                rest.filterMap (hit score targetName minRank results) :=
              List.filterMap_congr fun d hd => hit_insert s (hother d hd)
            refine (ih hnodup.2 fun d hd s' hs' => ?_).trans ?_
            · rw [AList.lookup_insert_ne (hother d hd)] at hs'
              exact hrest d hd s' hs'
            · rw [hhits, Dict.values_insert_of_notMem _ hmem]
              cases early with
              | false => exact List.perm_middle.symm
              | true =>
                  have h80 : decide (80 ≤ s.score) = false := by simpa using hgo
                  simp only [throughFirst, h80, Bool.false_eq_true, if_false, if_true]
                  exact List.perm_middle.symm

end Scan

/-! ## The ranking -/

section Ranking

variable (g : GraphReads) (readFile : String → Option (List UInt8)) (target : NodeRow)
  (minimumConfidence : String)

def hits : List Scored :=
  let state := ScanState.build g readFile
  state.candidates.filterMap (hit (candidateScore state (Target.new target)) target.qualifiedName
    (rank minimumConfidence) (namedResults g target))

def found : List Scored :=
  Dict.values (namedResults g target) ++ hits g readFile target minimumConfidence

/-- With the limit `k` the tests are the first `k` of what a higher limit gives, in whatever
orders the hash maps of the two runs give their values. -/
def IsPrefix (k : Nat) : Prop :=
  ∀ (o o' : ValueOrder) (n : Nat), k ≤ n → 1 < n →
    inferTestsForNode o g (ScanState.build g readFile) target k minimumConfidence =
      (inferTestsForNode o' g (ScanState.build g readFile) target n minimumConfidence).take k

/-- No two tests that share score and sanitized name are in reach of the limit; and where one
test is asked for, the graph names one, or the first of those that score 80 is the first of
them by name. -/
structure Settled (k : Nat) : Prop where
  ties : ∀ a ∈ found g readFile target minimumConfidence,
    ∀ b ∈ found g readFile target minimumConfidence, rankKey a = rankKey b → a ≠ b →
      k ≤ (found g readFile target minimumConfidence).countP (rankKey · < rankKey a)
  first : k = 1 → rank minimumConfidence ≤ rank "medium" → namedResults g target = ∅ →
    ∀ c, (hits g readFile target minimumConfidence).find? (80 ≤ ·.score) = some c →
      ∀ c' ∈ hits g readFile target minimumConfidence, 80 ≤ c'.score → c' ≠ c →
        c.row.qualifiedName < c'.row.qualifiedName

variable {g readFile target minimumConfidence} {k : Nat}

/-! ### The entries -/

/-- Every result in front of the scan is a node of the graph and scores 90 or 100. -/
def Named (g : GraphReads) (results : Dict String Scored) : Prop :=
  ∀ name s, results.lookup name = some s →
    90 ≤ s.score ∧ ∃ n ∈ g.nodes.rows, n.qualifiedName = name ∧ s.row.id = n.id

theorem Named.insert {results : Dict String Scored} (h : Named g results) {n : NodeRow}
    (hn : n ∈ g.nodes.rows) {s : Scored} (hs : 90 ≤ s.score) (hid : s.row.id = n.id) :
    Named g (AList.insert n.qualifiedName s results) := by
  intro name s' hs'
  rw [Dict.lookup_insert_ite] at hs'
  split at hs'
  · rename_i heq
    obtain rfl := Option.some.inj hs'
    exact ⟨hs, n, hn, heq.symm, hid⟩
  · exact h name s' hs'

theorem mem_of_namedNode {name : String} {n : NodeRow} (h : g.namedNode name = some n) :
    n ∈ g.nodes.rows :=
  GraphReads.mem_of_getNode (GraphReads.namedNode_eq name ▸ h)

theorem Named.insertHigh {results : Dict String Scored} (h : Named g results)
    (evidence source name : String) :
    Named g (insertHigh g evidence source results name) := by
  unfold TestInference.insertHigh
  split
  · rename_i test htest
    exact h.insert (mem_of_namedNode htest) (show 90 ≤ 100 by decide) rfl
  · exact h

theorem Named.insertValueUse {results : Dict String Scored} (h : Named g results)
    (name : String) : Named g (insertValueUse g results name) := by
  unfold TestInference.insertValueUse
  split
  · rename_i test htest
    split
    · exact h
    · exact h.insert (mem_of_namedNode htest) le_rfl rfl
  · exact h

theorem Named.foldl {step : Dict String Scored → String → Dict String Scored}
    (hstep : ∀ results name, Named g results → Named g (step results name)) (names : List String)
    {results : Dict String Scored} (h : Named g results) : Named g (names.foldl step results) := by
  induction names generalizing results with
  | nil => exact h
  | cons name names ih => exact ih (hstep results name h)

theorem named_namedResults (g : GraphReads) (target : NodeRow) :
    Named g (namedResults g target) := by
  have hempty : Named g ∅ := fun name s hs => by simp at hs
  refine .foldl (fun results name h => h.insertValueUse name) _
    (.foldl (fun results name h => h.insertHigh _ _ name) _
      (.foldl (fun results name h => h.insertHigh _ _ name) _ hempty))

theorem mem_candidates {c : Coverage.Candidate} (h : c ∈ (ScanState.build g readFile).candidates) :
    c.node ∈ g.nodes.rows ∧ c = candidateOf c.node := by
  obtain ⟨node, hnode, rfl⟩ := List.mem_map.mp h
  exact ⟨g.scanned_perm.mem_iff.mp (List.mem_of_mem_filter (List.mem_of_mem_filter hnode)), rfl⟩

theorem nodup_candidates :
    ((ScanState.build g readFile).candidates.map (·.node.qualifiedName)).Nodup := by
  have hnames : (g.scanned.map NodeRow.qualifiedName).Nodup :=
    (g.scanned_perm.map _).nodup_iff.mpr g.nodes.names_nodup
  have hmap : (ScanState.build g readFile).candidates.map (·.node.qualifiedName) =
      ((g.getNodesByKind ["Test", "Function", "Class"]).filter isTestLike).map
        NodeRow.qualifiedName := by
    simp only [ScanState.build, List.map_map, Function.comp_def, candidateOf]
  rw [hmap]
  exact hnames.sublist ((List.filter_sublist.trans List.filter_sublist).map _)

theorem score_of_mem_hits {s : Scored} (h : s ∈ hits g readFile target minimumConfidence) :
    s.score ≤ 80 := by
  obtain ⟨c, -, hc⟩ := List.mem_filterMap.mp h
  simp only [hit, Option.ite_none_left_eq_some, Option.some.injEq] at hc
  obtain ⟨-, rfl⟩ := hc
  exact candidateScore_le _ _ _

theorem score_of_mem_values {s : Scored} (h : s ∈ Dict.values (namedResults g target)) :
    90 ≤ s.score := by
  obtain ⟨name, hname⟩ := Dict.mem_values.mp h
  exact (named_namedResults g target name s hname).1

theorem row_injective {a b : Scored} (ha : a ∈ found g readFile target minimumConfidence)
    (hb : b ∈ found g readFile target minimumConfidence) (h : a.row = b.row) : a = b := by
  have hid : a.row.id = b.row.id := by rw [h]
  -- An entry is at the name of the node whose id its row has.
  have hvalue : ∀ s ∈ Dict.values (namedResults g target), ∃ n ∈ g.nodes.rows,
      (namedResults g target).lookup n.qualifiedName = some s ∧ s.row.id = n.id := by
    intro s hs
    obtain ⟨name, hname⟩ := Dict.mem_values.mp hs
    obtain ⟨-, n, hn, rfl, hns⟩ := named_namedResults g target name s hname
    exact ⟨n, hn, hname, hns⟩
  have hhit : ∀ s ∈ hits g readFile target minimumConfidence,
      ∃ c : Coverage.Candidate, c.node ∈ g.nodes.rows ∧ c = candidateOf c.node ∧
        hit (candidateScore (ScanState.build g readFile) (Target.new target))
          target.qualifiedName (rank minimumConfidence) (namedResults g target) c = some s := by
    intro s hs
    obtain ⟨c, hc, hcs⟩ := List.mem_filterMap.mp hs
    exact ⟨c, (mem_candidates hc).1, (mem_candidates hc).2, hcs⟩
  have hsame : ∀ n ∈ g.nodes.rows, ∀ n' ∈ g.nodes.rows, n.id = n'.id → n = n' :=
    fun n hn n' hn' => List.inj_on_of_nodup_map g.nodes.ids_nodup hn hn'
  have hcross : ∀ s ∈ Dict.values (namedResults g target),
      ∀ s' ∈ hits g readFile target minimumConfidence, s.row.id ≠ s'.row.id := by
    intro s hs s' hs' heq
    obtain ⟨n, hn, hlookup, hns⟩ := hvalue s hs
    obtain ⟨c, hc, -, hcs⟩ := hhit s' hs'
    simp only [hit, Option.ite_none_left_eq_some, Bool.or_eq_true, decide_eq_true_eq, not_or,
      Option.some.injEq] at hcs
    obtain ⟨⟨-, hnew⟩, rfl⟩ := hcs
    obtain rfl := hsame n hn c.node hc (hns.symm.trans heq)
    exact hnew (AList.lookup_isSome.mp (by rw [hlookup]; rfl))
  rcases List.mem_append.mp ha with ha | ha <;> rcases List.mem_append.mp hb with hb | hb
  · obtain ⟨n, hn, hlookup, hns⟩ := hvalue a ha
    obtain ⟨n', hn', hlookup', hns'⟩ := hvalue b hb
    obtain rfl := hsame n hn n' hn' (hns.symm.trans (hid.trans hns'))
    exact Option.some.inj (hlookup.symm.trans hlookup')
  · exact absurd hid (hcross a ha b hb)
  · exact absurd hid.symm (hcross b hb a ha)
  · obtain ⟨c, hc, hcof, hca⟩ := hhit a ha
    obtain ⟨c', hc', hcof', hcb⟩ := hhit b hb
    have hrow : a.row.id = c.node.id ∧ b.row.id = c'.node.id := by
      simp only [hit, Option.ite_none_left_eq_some, Option.some.injEq] at hca hcb
      obtain ⟨-, rfl⟩ := hca
      obtain ⟨-, rfl⟩ := hcb
      exact ⟨rfl, rfl⟩
    have hnode := hsame c.node hc c'.node hc' (hrow.1.symm.trans (hid.trans hrow.2))
    have hcc : c = c' := by rw [hcof, hcof', hnode]
    rw [hcc, hcb] at hca
    exact (Option.some.inj hca).symm

/-! ### The two runs -/

def stopsEarly (k : Nat) (minimumConfidence : String) : Bool :=
  k ≤ 1 && rank minimumConfidence ≤ rank "medium"

/-- The entries of the map when the scan ends. -/
def reached (g : GraphReads) (readFile : String → Option (List UInt8)) (target : NodeRow)
    (minimumConfidence : String) (early : Bool) : List Scored :=
  Dict.values (namedResults g target) ++
    let hits := hits g readFile target minimumConfidence
    if early then throughFirst (80 ≤ ·.score) hits else hits

theorem values_run (early : Bool) :
    (Dict.values (scanFrom (candidateScore (ScanState.build g readFile) (Target.new target))
      target.qualifiedName (rank minimumConfidence) early
      (ScanState.build g readFile).candidates (namedResults g target))).Perm
      (reached g readFile target minimumConfidence early) :=
  values_scanFrom (fun c => candidateScore_le _ _ c) nodup_candidates fun c _ s hs =>
    le_trans (by decide) (score_of_mem_values (Dict.mem_values.mpr ⟨_, hs⟩))

variable (g readFile target minimumConfidence) in
theorem exists_run_eq (o : ValueOrder) (k : Nat) :
    ∃ l, l.Perm (reached g readFile target minimumConfidence (stopsEarly k minimumConfidence)) ∧
      inferTestsForNode o g (ScanState.build g readFile) target k minimumConfidence =
        ((sortBy rankKey l).take k).map Scored.row :=
  ⟨_, (o.perm _).trans (values_run _), rfl⟩

theorem ValueOrder.exists_order_eq {l values : List Scored} (h : l.Perm values) :
    ∃ o : ValueOrder, o.order values = l := by
  classical
  refine ⟨⟨fun vs => if vs.Perm l then l else vs, fun vs => ?_⟩, if_pos h.symm⟩
  split
  · rename_i hvs
    exact hvs.symm
  · exact List.Perm.refl _

variable (g readFile target minimumConfidence) in
theorem exists_order (k : Nat) {l : List Scored}
    (h : l.Perm (reached g readFile target minimumConfidence (stopsEarly k minimumConfidence))) :
    ∃ o : ValueOrder,
      inferTestsForNode o g (ScanState.build g readFile) target k minimumConfidence =
        ((sortBy rankKey l).take k).map Scored.row := by
  obtain ⟨o, ho⟩ := ValueOrder.exists_order_eq (h.trans (values_run _).symm)
  exact ⟨o, congrArg (fun l => ((sortBy rankKey l).take k).map Scored.row) ho⟩

theorem reached_false : reached g readFile target minimumConfidence false =
    found g readFile target minimumConfidence := rfl

theorem stopsEarly_of_one_lt {n : Nat} (h : 1 < n) :
    stopsEarly n minimumConfidence = false := by
  simp [stopsEarly, h]

theorem throughFirst_sublist {α : Type} (p : α → Bool) : ∀ l : List α,
    (throughFirst p l).Sublist l
  | [] => List.Sublist.refl _
  | a :: l => by
      rw [throughFirst]
      split
      · exact (List.nil_sublist l).cons_cons a
      · exact (throughFirst_sublist p l).cons_cons a

theorem throughFirst_of_find? {α : Type} {p : α → Bool} {l : List α} :
    (l.find? p = none → throughFirst p l = l) ∧
      ∀ a, l.find? p = some a → a ∈ throughFirst p l ∧
        ∀ b ∈ throughFirst p l, b = a ∨ p b = false := by
  induction l with
  | nil => simp [throughFirst]
  | cons b l ih =>
      cases hb : p b with
      | true => simp [throughFirst, hb]
      | false =>
          refine ⟨fun h => ?_, fun a ha => ?_⟩
          · rw [List.find?_cons_of_neg (by simp [hb])] at h
            simp [throughFirst, hb, ih.1 h]
          · rw [List.find?_cons_of_neg (by simp [hb])] at ha
            obtain ⟨hmem, hrest⟩ := ih.2 a ha
            simp only [throughFirst, hb, Bool.false_eq_true, if_false, List.mem_cons]
            exact ⟨.inr hmem, fun c hc => hc.elim (fun heq => .inr (heq ▸ hb)) (hrest c)⟩

theorem reached_subset (early : Bool) {s : Scored}
    (h : s ∈ reached g readFile target minimumConfidence early) :
    s ∈ found g readFile target minimumConfidence := by
  cases early with
  | false => exact h
  | true =>
      refine List.mem_append.mpr ((List.mem_append.mp h).imp id fun h => ?_)
      exact (throughFirst_sublist _ _).subset h

theorem rankKey_lt_of_score {a b : Scored} (h : b.score < a.score) : rankKey a < rankKey b :=
  Prod.Lex.lt_iff.mpr (.inl (OrderDual.toDual_lt_toDual.mpr h))

theorem rankKey_le_score {a b : Scored} (h : rankKey a ≤ rankKey b) : b.score ≤ a.score := by
  by_contra hlt
  exact absurd (rankKey_lt_of_score (Nat.lt_of_not_le hlt)) (not_lt_of_ge h)

theorem mem_reached_of_least (h : Settled g readFile target minimumConfidence 1)
    (hmedium : rank minimumConfidence ≤ rank "medium") {t : Scored}
    (ht : t ∈ found g readFile target minimumConfidence)
    (hleast : ∀ b ∈ found g readFile target minimumConfidence, rankKey t ≤ rankKey b) :
    t ∈ reached g readFile target minimumConfidence true := by
  rcases List.mem_append.mp ht with hvalue | hhit
  · exact List.mem_append_left _ hvalue
  · refine List.mem_append_right _ ?_
    have hbest : ∀ b ∈ found g readFile target minimumConfidence, b.score ≤ t.score :=
      fun b hb => rankKey_le_score (hleast b hb)
    have hempty : namedResults g target = ∅ := by
      cases hentries : (namedResults g target).entries with
      | nil => exact AList.ext hentries
      | cons e es =>
          have hmem : e.2 ∈ Dict.values (namedResults g target) := by
            rw [Dict.values, hentries]
            exact List.mem_cons_self
          have h90 := score_of_mem_values hmem
          have hle := hbest e.2 (List.mem_append_left _ hmem)
          have h80 := score_of_mem_hits hhit
          omega
    obtain ⟨hall, hstop⟩ := throughFirst_of_find? (p := fun s : Scored => 80 ≤ s.score)
      (l := hits g readFile target minimumConfidence)
    cases hc : (hits g readFile target minimumConfidence).find? (80 ≤ ·.score) with
    | none =>
        have hthrough := hall hc
        simp only [if_true]
        rw [hthrough]
        exact hhit
    | some c =>
        by_cases htc : t = c
        · exact htc ▸ (hstop c hc).1
        · have hmem : c ∈ hits g readFile target minimumConfidence := List.mem_of_find?_eq_some hc
          have hc80 : 80 ≤ c.score := by simpa using List.find?_some hc
          have hfound := List.mem_append_right (Dict.values (namedResults g target)) hmem
          have hscore := hbest c hfound
          have hname := h.first rfl hmedium hempty c hc t hhit (hc80.trans hscore) htc
          have heq : c.score = t.score := by
            have ht80 := score_of_mem_hits hhit
            omega
          have hlt : rankKey c < rankKey t :=
            Prod.Lex.lt_iff.mpr (.inr ⟨congrArg OrderDual.toDual heq, hname⟩)
          exact absurd (hleast c hfound) (not_le_of_gt hlt)

theorem take_one_of_settled (h : Settled g readFile target minimumConfidence 1)
    (hmedium : rank minimumConfidence ≤ rank "medium") {l : List Scored}
    (hl : l.Perm (reached g readFile target minimumConfidence true)) :
    (sortBy rankKey l).take 1 =
      (sortBy rankKey (found g readFile target minimumConfidence)).take 1 := by
  cases hhead : (sortBy rankKey (found g readFile target minimumConfidence)).head? with
  | none =>
      have hnil : sortBy rankKey (found g readFile target minimumConfidence) = [] :=
        List.head?_eq_none_iff.mp hhead
      have hfound : found g readFile target minimumConfidence = [] :=
        ((sortBy_perm rankKey _).symm.trans (.of_eq hnil)).eq_nil
      have hl' : l = [] := by
        refine List.eq_nil_iff_forall_not_mem.mpr fun s hs => ?_
        have hmem := reached_subset true (hl.mem_iff.mp hs)
        rw [hfound] at hmem
        cases hmem
      rw [hl', hfound]
  | some t =>
      obtain ⟨ht, hleast⟩ := le_of_head?_sortBy hhead
      have hstrict : ∀ b ∈ found g readFile target minimumConfidence, b ≠ t →
          rankKey t < rankKey b := by
        intro b hb hne
        refine lt_of_le_of_ne (hleast b hb) fun heq => ?_
        have hcount := h.ties t ht b hb heq hne.symm
        have hzero : (found g readFile target minimumConfidence).countP
            (rankKey · < rankKey t) = 0 := by
          refine List.countP_eq_zero.mpr fun c hc => ?_
          simpa using hleast c hc
        omega
      have hmem : t ∈ l := hl.mem_iff.mpr (mem_reached_of_least h hmedium ht hleast)
      rw [take_one_sortBy ht hstrict, take_one_sortBy hmem fun b hb =>
        hstrict b (reached_subset true (hl.mem_iff.mp hb))]

theorem IsPrefix.ties (h : IsPrefix g readFile target minimumConfidence k) {a b : Scored}
    (ha : a ∈ found g readFile target minimumConfidence)
    (hb : b ∈ found g readFile target minimumConfidence) (hne : a ≠ b)
    (hkey : rankKey a = rankKey b) :
    k ≤ (found g readFile target minimumConfidence).countP (rankKey · < rankKey a) := by
  by_contra hlt
  obtain ⟨la, hla, hga⟩ := exists_perm_getElem?_sortBy rankKey ha
  obtain ⟨lb, hlb, hgb⟩ := exists_perm_getElem?_sortBy rankKey hb
  rw [← hkey] at hgb
  have hearly : stopsEarly (max k 2) minimumConfidence = false :=
    stopsEarly_of_one_lt (by omega)
  obtain ⟨oa, hoa⟩ := exists_order g readFile target minimumConfidence (max k 2)
    (hla.trans (.of_eq (by rw [hearly]; rfl)))
  obtain ⟨ob, hob⟩ := exists_order g readFile target minimumConfidence (max k 2)
    (hlb.trans (.of_eq (by rw [hearly]; rfl)))
  have hsame := (h oa oa (max k 2) (by omega) (by omega)).symm.trans
    (h oa ob (max k 2) (by omega) (by omega))
  rw [hoa, hob, ← List.map_take, ← List.map_take, List.take_take, List.take_take,
    Nat.min_eq_left (by omega)] at hsame
  have hrow := congrArg (fun rows =>
    rows[(found g readFile target minimumConfidence).countP (rankKey · < rankKey a)]?) hsame
  simp only [List.getElem?_map, List.getElem?_take, if_pos (Nat.lt_of_not_le hlt), hga, hgb,
    Option.map_some, Option.some.injEq] at hrow
  exact hne (row_injective ha hb hrow)

theorem IsPrefix.first (h : IsPrefix g readFile target minimumConfidence 1)
    (hmedium : rank minimumConfidence ≤ rank "medium") (hempty : namedResults g target = ∅)
    {c c' : Scored} (hc : (hits g readFile target minimumConfidence).find? (80 ≤ ·.score) = some c)
    (hc' : c' ∈ hits g readFile target minimumConfidence) (h80 : 80 ≤ c'.score) (hne : c' ≠ c) :
    c.row.qualifiedName < c'.row.qualifiedName := by
  have hmem : c ∈ hits g readFile target minimumConfidence := List.mem_of_find?_eq_some hc
  have hc80 : 80 ≤ c.score := by simpa using List.find?_some hc
  have hearly : stopsEarly 1 minimumConfidence = true := by simp [stopsEarly, hmedium]
  let o : ValueOrder := ⟨id, fun l => List.Perm.refl l⟩
  obtain ⟨l, hl, hrun⟩ := exists_run_eq g readFile target minimumConfidence o 1
  obtain ⟨l', hl', hrun'⟩ := exists_run_eq g readFile target minimumConfidence o 2
  rw [hearly] at hl
  rw [stopsEarly_of_one_lt (by omega), reached_false] at hl'
  have hvalues : Dict.values (namedResults g target) = [] := by rw [hempty]; rfl
  -- The run with the early exit ends with `c`, every other entry scores less.
  have hfirst : (sortBy rankKey l).take 1 = [c] := by
    obtain ⟨hthrough, hrest⟩ := throughFirst_of_find?.2 c hc
    refine take_one_sortBy (hl.mem_iff.mpr (List.mem_append_right _ hthrough)) fun b hb hbc => ?_
    have hb := hl.mem_iff.mp hb
    rw [reached, hvalues, List.nil_append] at hb
    have hlow := (hrest b hb).resolve_left hbc
    exact rankKey_lt_of_score (lt_of_lt_of_le (by simpa using hlow) hc80)
  have hsame := h o o 2 (by omega) (by omega)
  rw [hrun, hrun', hfirst, ← List.map_take, List.take_take] at hsame
  have hfound : c ∈ l' := hl'.mem_iff.mpr (List.mem_append_right _ hmem)
  have hfound' : c' ∈ l' := hl'.mem_iff.mpr (List.mem_append_right _ hc')
  cases hs : sortBy rankKey l' with
  | nil =>
      have hnil := (sortBy_perm rankKey l').mem_iff.mpr hfound
      rw [hs] at hnil
      cases hnil
  | cons t rest =>
      have hhead : (sortBy rankKey l').head? = some t := by rw [hs]; rfl
      obtain ⟨ht, hleast⟩ := le_of_head?_sortBy hhead
      rw [hs] at hsame
      have hrow : c.row = t.row := by simpa using hsame
      obtain rfl := row_injective (hl'.mem_iff.mp hfound) (hl'.mem_iff.mp ht) hrow
      have hlt : rankKey c < rankKey c' := by
        refine lt_of_le_of_ne (hleast c' hfound') fun heq => ?_
        have hcount := h.ties (hl'.mem_iff.mp hfound) (hl'.mem_iff.mp hfound') hne.symm heq
        have hzero : (found g readFile target minimumConfidence).countP
            (rankKey · < rankKey c) = 0 := by
          refine List.countP_eq_zero.mpr fun d hd => ?_
          simpa using hleast d (hl'.mem_iff.mpr hd)
        omega
      rcases Prod.Lex.lt_iff.mp hlt with hscore | ⟨-, hname⟩
      · have hscore : c'.score < c.score := OrderDual.toDual_lt_toDual.mp hscore
        have hle := score_of_mem_hits hmem
        omega
      · exact hname

/-- A limit gives the beginning of the ranking exactly where no tie is in reach of it and
the early exit stops at the best test. -/
theorem infer_prefix_iff (g : GraphReads) (readFile : String → Option (List UInt8))
    (target : NodeRow) (minimumConfidence : String) (k : Nat) :
    IsPrefix g readFile target minimumConfidence k ↔
      Settled g readFile target minimumConfidence k := by
  constructor
  · intro h
    refine ⟨fun a ha b hb hkey hne => h.ties ha hb hne hkey, ?_⟩
    rintro rfl hmedium hempty c hc c' hc' h80 hne
    exact h.first hmedium hempty hc hc' h80 hne
  · intro h o o' n hkn hn
    obtain ⟨l, hl, hrun⟩ := exists_run_eq g readFile target minimumConfidence o k
    obtain ⟨l', hl', hrun'⟩ := exists_run_eq g readFile target minimumConfidence o' n
    rw [stopsEarly_of_one_lt hn, reached_false] at hl'
    rw [hrun, hrun', ← List.map_take, List.take_take, Nat.min_eq_left hkn,
      take_sortBy_of_perm hl' h.ties]
    congr 1
    cases hearly : stopsEarly k minimumConfidence with
    | false =>
        rw [hearly, reached_false] at hl
        exact take_sortBy_of_perm hl h.ties
    | true =>
        rw [hearly] at hl
        simp only [stopsEarly, Bool.and_eq_true, decide_eq_true_eq] at hearly
        rcases Nat.le_one_iff_eq_zero_or_eq_one.mp hearly.1 with rfl | rfl
        · rfl
        · exact take_one_of_settled h hearly.2 hl

end Ranking

/-! ### Two tests of one name -/

def insertionOrder : ValueOrder := ⟨id, fun l => List.Perm.refl l⟩

def parseInput : NodeInput :=
  { kind := "Function", name := "parse", filePath := "app.py", language := "python" }

def testInput (parent : String) : NodeInput :=
  { kind := "Test", name := "test_parse", filePath := "tests/test_app.py", language := "python"
    parentName := some parent, isTest := true }

def parseNode : NodeRow := ⟨1, "app.py::parse", parseInput, "", 0⟩

/-- `parse`, and two tests of it in classes that are scanned against their order by name. -/
def twoTests : GraphReads where
  keys := .rootless
  nodes :=
    { rows :=
        [parseNode, ⟨2, "tests/test_app.py::TestStrict.test_parse", testInput "TestStrict", "", 0⟩,
          ⟨3, "tests/test_app.py::TestLoose.test_parse", testInput "TestLoose", "", 0⟩]
      seq := 3
      ids_nodup := by decide
      names_nodup := by decide
      ids_le := by decide }
  edges := []
  scanned :=
    [parseNode, ⟨2, "tests/test_app.py::TestStrict.test_parse", testInput "TestStrict", "", 0⟩,
      ⟨3, "tests/test_app.py::TestLoose.test_parse", testInput "TestLoose", "", 0⟩]
  edge_ids_nodup := by decide
  scanned_perm := List.Perm.refl _

/-- The one test named is not the first of the ranking. -/
theorem not_isPrefix_one : ¬IsPrefix twoTests (fun _ => none) parseNode "medium" 1 := by
  intro h
  have hsame := congrArg (List.map (·.qualifiedName))
    (h insertionOrder insertionOrder 2 (by decide) (by decide))
  have hone : (inferTestsForNode insertionOrder twoTests
      (ScanState.build twoTests fun _ => none) parseNode 1 "medium").map (·.qualifiedName) =
      ["tests/test_app.py::TestStrict.test_parse"] := by decide +kernel
  have htwo : ((inferTestsForNode insertionOrder twoTests
      (ScanState.build twoTests fun _ => none) parseNode 2 "medium").take 1).map
        (·.qualifiedName) = ["tests/test_app.py::TestLoose.test_parse"] := by decide +kernel
  rw [hone, htwo] at hsame
  exact absurd hsame (by decide)

end TestInference

end Dagayn
