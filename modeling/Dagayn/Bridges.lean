import Dagayn.Store

/-!
# Bridges between artifacts

A `CROSS_ARTIFACT` edge is a bridge: a hard claim that traversals follow, or a caveat.
Three places of the graph crate decide it, each in its own way: the SQL predicate of the
impact walk on the columns of a row, `is_reportable_bridge` on the edge read from it, and
`is_reportable_cross_artifact` on three columns for the flows. `agree_iff` says for which
rows their answers are the same.
-/

namespace Dagayn

namespace Bridges

/-- The columns of a row of `edges`. The `extra` column holds JSON; `none` is NULL or an
empty text. -/
structure StoredEdge where
  id : Nat
  kind : String
  source : String
  target : String
  filePath : String
  line : Int
  extra : Option Json
  confidence : Option Float
  tier : Option String

structure GraphEdge where
  id : Nat
  kind : String
  sourceQualified : String
  targetQualified : String
  filePath : String
  line : Int
  extra : Json
  confidence : Float
  confidenceTier : ConfidenceTier

def edgeFromRow (row : StoredEdge) : GraphEdge where
  id := row.id
  kind := row.kind
  sourceQualified := row.source
  targetQualified := row.target
  filePath := row.filePath
  line := row.line
  extra := row.extra.getD (.obj [])
  confidence := row.confidence.getD 1.0
  confidenceTier := .fromRaw row.tier

/-! ## The SQL predicate -/

def toAsciiUppercase (text : String) : String := String.ofList (text.toList.map Char.toUpper)

/-- `name LIKE '<unresolved:%'`, which has no case for ASCII letters. -/
def likeUnresolved (name : String) : Bool :=
  "<unresolved:".toList.isPrefixOf (name.toList.map Char.toLower)

/-- `UPPER(COALESCE(confidence_tier, 'EXTRACTED'))`. -/
def upperTier (tier : Option String) : String := toAsciiUppercase (tier.getD "EXTRACTED")

def reportableBridgeSql (row : StoredEdge) : Bool :=
  row.kind != "CROSS_ARTIFACT" ||
    (["EXACT", "HIGH", "EXTRACTED"].contains (upperTier row.tier) &&
      !likeUnresolved row.target && !likeUnresolved row.source)

/-! ## The predicates on edges -/

def reportableConfidenceTiers : List String := ["EXACT", "HIGH", "EXTRACTED"]

def isCrossArtifact (edge : GraphEdge) : Bool := edge.kind == "CROSS_ARTIFACT"

def crossArtifactRole (edge : GraphEdge) : Option String :=
  if isCrossArtifact edge then edge.extra.getStr "relationship_role" else none

def confidenceTierOf (edge : GraphEdge) : String := edge.confidenceTier.asStr

def isUnresolvedTarget (edge : GraphEdge) : Bool := isUnresolved edge.targetQualified

def extraStr (edge : GraphEdge) (key : String) : String := (edge.extra.getStr key).getD ""

def isLowConfidenceUnresolvedMarkdownCodeSpan (edge : GraphEdge) : Bool :=
  isCrossArtifact edge && extraStr edge "relationship_role" == "describes_symbol" &&
    isUnresolvedTarget edge && confidenceTierOf edge == "LOW" &&
    (extraStr edge "evidence_kind" == "markdown_code_span" || extraStr edge "evidence_kind" == "")

def isLowConfidenceResolvedImplicitMarkdownCodeSpan (edge : GraphEdge) : Bool :=
  isCrossArtifact edge && !isUnresolvedTarget edge &&
    extraStr edge "relationship_role" == "describes_symbol" &&
    extraStr edge "evidence_kind" == "markdown_code_span" &&
    extraStr edge "evidence_source" == "code_span" && confidenceTierOf edge == "MEDIUM"

def isLowConfidenceBridge (edge : GraphEdge) : Bool :=
  if !isCrossArtifact edge then false
  else if isUnresolvedTarget edge || isLowConfidenceUnresolvedMarkdownCodeSpan edge ||
      isLowConfidenceResolvedImplicitMarkdownCodeSpan edge then true
  else !reportableConfidenceTiers.contains (confidenceTierOf edge)

def isReportableBridge (edge : GraphEdge) : Bool :=
  if !isCrossArtifact edge || isUnresolvedTarget edge || isLowConfidenceBridge edge then false
  else reportableConfidenceTiers.contains (confidenceTierOf edge)

/-! ## What is reported of a bridge -/

def optionalStr (value : String) : Json := if value = "" then .null else .str value

def bridgeTransitionValue (edge : GraphEdge) : Json :=
  .obj
    [("kind", .str "CROSS_ARTIFACT"),
     ("source", .str edge.sourceQualified),
     ("target", .str edge.targetQualified),
     ("relationship_role", ((crossArtifactRole edge).map Json.str).getD .null),
     ("bridge_kind", optionalStr (extraStr edge "bridge_kind")),
     ("evidence_kind", optionalStr (extraStr edge "evidence_kind")),
     ("evidence_source", optionalStr (extraStr edge "evidence_source")),
     ("confidence", .float edge.confidence),
     ("confidence_tier", optionalStr (confidenceTierOf edge)),
     ("file_path", .str edge.filePath),
     ("line", .int edge.line),
     ("claim_strength", .str (if isReportableBridge edge then "hard" else "caveat"))]

def lowConfidenceBridgeMissingness (edge : GraphEdge) : Json :=
  let metaValue := bridgeTransitionValue edge
  let copied := fun key => (key, (metaValue.get key).getD .null)
  .obj
    [("reason_code", .str "low_confidence_cross_artifact_bridge"),
     ("severity", .str "medium"),
     ("claim_effect", .str
       "bridge is visible as a caveat only; do not treat the other side as confirmed impact"),
     ("bridge", .obj
       [copied "source", copied "target", copied "relationship_role", copied "bridge_kind",
        copied "confidence_tier"])]

def collectBridgeTransitions : List GraphEdge → List Json × List Json
  | [] => ([], [])
  | edge :: edges =>
      let (transitions, caveats) := collectBridgeTransitions edges
      if !isCrossArtifact edge then (transitions, caveats)
      else if isReportableBridge edge then (bridgeTransitionValue edge :: transitions, caveats)
      else if isLowConfidenceBridge edge then
        (transitions, lowConfidenceBridgeMissingness edge :: caveats)
      else (transitions, caveats)

/-! ## The predicate of the flows -/

def trimText (text : String) : String := String.ofList (trim text.toList)

def extraConfidenceTier (extra : Option Json) : Option String :=
  match (extra.bind (·.getStr "confidence_tier")).map trimText with
  | none => none
  | some tier => if tier = "" then none else some (toAsciiUppercase tier)

def columnTier (tier : Option String) : Option String :=
  ((tier.map trimText).filter (· ≠ "")).map toAsciiUppercase

def isReportableCrossArtifact (target : String) (confidenceTier : Option String)
    (extra : Option Json) : Bool :=
  if isUnresolved target then false
  else
    let tier :=
      match columnTier confidenceTier with
      | some tier => tier
      | none => (extraConfidenceTier extra).getD "EXTRACTED"
    ["EXACT", "HIGH", "EXTRACTED"].contains tier

/-! ## Claims and caveats -/

theorem isLowConfidenceBridge_eq {edge : GraphEdge} (h : isCrossArtifact edge = true) :
    isLowConfidenceBridge edge =
      (isUnresolvedTarget edge || !reportableConfidenceTiers.contains (confidenceTierOf edge)) := by
  cases htarget : isUnresolvedTarget edge with
  | true => simp [isLowConfidenceBridge, h, htarget]
  | false =>
      -- the unresolved form needs an unresolved target, the other one the tier `MEDIUM`
      have hfirst : isLowConfidenceUnresolvedMarkdownCodeSpan edge = false := by
        simp [isLowConfidenceUnresolvedMarkdownCodeSpan, htarget]
      cases hspan : isLowConfidenceResolvedImplicitMarkdownCodeSpan edge with
      | true =>
          have htier : confidenceTierOf edge = "MEDIUM" := by
            simp only [isLowConfidenceResolvedImplicitMarkdownCodeSpan, Bool.and_eq_true,
              beq_iff_eq] at hspan
            exact hspan.2
          simp only [isLowConfidenceBridge, h, htarget, hfirst, hspan, htier]
          decide
      | false => simp [isLowConfidenceBridge, h, htarget, hfirst, hspan]

theorem isReportableBridge_eq {edge : GraphEdge} (h : isCrossArtifact edge = true) :
    isReportableBridge edge =
      (!isUnresolvedTarget edge && reportableConfidenceTiers.contains (confidenceTierOf edge)) := by
  rw [isReportableBridge, isLowConfidenceBridge_eq h, h]
  cases isUnresolvedTarget edge <;>
    cases reportableConfidenceTiers.contains (confidenceTierOf edge) <;> rfl

theorem isLowConfidenceBridge_eq_not {edge : GraphEdge} (h : isCrossArtifact edge = true) :
    isLowConfidenceBridge edge = !isReportableBridge edge := by
  rw [isLowConfidenceBridge_eq h, isReportableBridge_eq h, Bool.not_and, Bool.not_not]

/-! ## The three predicates on one row -/

theorem reportable_fromRaw (tier : Option String) :
    reportableConfidenceTiers.contains (ConfidenceTier.fromRaw tier).asStr =
      !(["MEDIUM", "LOW", "UNKNOWN"].contains (upperTier tier)) := by
  have hraw : (ConfidenceTier.fromRaw tier) =
      if upperTier tier = "EXACT" then .exact
      else if upperTier tier = "HIGH" then .high
      else if upperTier tier = "MEDIUM" then .medium
      else if upperTier tier = "LOW" then .low
      else if upperTier tier = "UNKNOWN" then .unknown
      else .extracted := rfl
  rw [hraw]
  generalize upperTier tier = upper
  by_cases hexact : upper = "EXACT"
  · subst hexact
    decide
  · by_cases hhigh : upper = "HIGH"
    · subst hhigh
      decide
    · by_cases hmedium : upper = "MEDIUM"
      · subst hmedium
        decide
      · by_cases hlow : upper = "LOW"
        · subst hlow
          decide
        · by_cases hunknown : upper = "UNKNOWN"
          · subst hunknown
            decide
          · rw [if_neg hexact, if_neg hhigh, if_neg hmedium, if_neg hlow, if_neg hunknown]
            simp [hmedium, hlow, hunknown, ConfidenceTier.asStr, reportableConfidenceTiers]

theorem likeUnresolved_of_isUnresolved {name : String} (h : isUnresolved name = true) :
    likeUnresolved name = true := by
  have hlower : "<unresolved:".toList.map Char.toLower = "<unresolved:".toList := by decide
  rw [isUnresolved, List.isPrefixOf_iff_prefix] at h
  rw [likeUnresolved, List.isPrefixOf_iff_prefix, ← hlower]
  exact h.map Char.toLower

theorem not_isWhitespace_of_toUpper {c : Char} (h : isWhitespace c.toUpper = false) :
    isWhitespace c = false := by
  rw [Char.toUpper] at h
  split at h
  · rename_i hlower
    have hlow : 97 ≤ c.toNat := UInt32.le_iff_toNat_le.mp hlower.1
    have hhigh : c.toNat ≤ 122 := UInt32.le_iff_toNat_le.mp hlower.2
    simp only [isWhitespace, Bool.or_eq_false_iff, Bool.and_eq_false_iff, decide_eq_false_iff_not]
    omega
  · exact h

theorem columnTier_some {tier : String} (hne : toAsciiUppercase tier ≠ "")
    (hblank : ∀ c ∈ (toAsciiUppercase tier).toList, isWhitespace c = false) :
    columnTier (some tier) = some (toAsciiUppercase tier) := by
  have htrim : trimText tier = tier := by
    have hself : trim tier.toList = tier.toList := trim_eq_self fun c hc => by
      refine not_isWhitespace_of_toUpper (hblank _ ?_)
      rw [toAsciiUppercase, String.toList_ofList]
      exact List.mem_map_of_mem hc
    rw [trimText, hself, String.ofList_toList]
  have hne' : tier ≠ "" := by
    rintro rfl
    exact hne rfl
  simp [columnTier, htrim, hne']

/-- The tiers that `ConfidenceTier` knows. -/
def knownTiers : List String := ["EXACT", "HIGH", "EXTRACTED", "MEDIUM", "LOW", "UNKNOWN"]

theorem columnTier_of_known {tier : String} (h : toAsciiUppercase tier ∈ knownTiers) :
    columnTier (some tier) = some (toAsciiUppercase tier) := by
  have hknown : ∀ upper ∈ knownTiers, upper ≠ "" ∧
      upper.toList.all (fun c => !isWhitespace c) = true := by
    decide
  refine columnTier_some (hknown _ h).1 fun c hc => ?_
  simpa using List.all_eq_true.mp (hknown _ h).2 c hc

def Agree (row : StoredEdge) : Prop :=
  reportableBridgeSql row = isReportableBridge (edgeFromRow row) ∧
    isReportableCrossArtifact row.target row.tier row.extra = isReportableBridge (edgeFromRow row)

/-- The target is unresolved, or the tier is not reportable, or it is and no end looks
unresolved to `LIKE`; a tier that only `extra` has is reportable. -/
def Consistent (row : StoredEdge) : Prop :=
  isUnresolved row.target = true ∨ upperTier row.tier ∈ ["MEDIUM", "LOW", "UNKNOWN"] ∨
    (upperTier row.tier ∈ ["EXACT", "HIGH", "EXTRACTED"] ∧ likeUnresolved row.target = false ∧
      likeUnresolved row.source = false ∧
      (row.tier = none → (extraConfidenceTier row.extra).getD "EXTRACTED" ∈
        ["EXACT", "HIGH", "EXTRACTED"]))

instance (row : StoredEdge) : Decidable (Consistent row) :=
  inferInstanceAs (Decidable (_ ∨ _))

theorem isReportableCrossArtifact_of_known {target tier : String} (extra : Option Json)
    (htarget : isUnresolved target = false) (h : upperTier (some tier) ∈ knownTiers) :
    isReportableCrossArtifact target (some tier) extra =
      ["EXACT", "HIGH", "EXTRACTED"].contains (upperTier (some tier)) := by
  have hcolumn : columnTier (some tier) = some (upperTier (some tier)) := columnTier_of_known h
  simp only [isReportableCrossArtifact, htarget, hcolumn]
  rfl

theorem agree_iff {row : StoredEdge} (h : row.kind = "CROSS_ARTIFACT") :
    Agree row ↔ Consistent row := by
  have hcross : isCrossArtifact (edgeFromRow row) = true := by
    rw [isCrossArtifact, edgeFromRow, h]
    rfl
  have hbridge : isReportableBridge (edgeFromRow row) = (!isUnresolved row.target &&
      !(["MEDIUM", "LOW", "UNKNOWN"].contains (upperTier row.tier))) := by
    rw [isReportableBridge_eq hcross, ← reportable_fromRaw]
    rfl
  have hsql : reportableBridgeSql row = (["EXACT", "HIGH", "EXTRACTED"].contains
      (upperTier row.tier) && !likeUnresolved row.target && !likeUnresolved row.source) := by
    rw [reportableBridgeSql, h]
    rfl
  rw [Agree, hbridge, hsql]
  by_cases htarget : isUnresolved row.target = true
  · -- nobody follows a bridge to an unresolved target
    simp [Consistent, isReportableCrossArtifact, htarget, likeUnresolved_of_isUnresolved htarget]
  · have htarget : isUnresolved row.target = false := by simpa using htarget
    by_cases hlow : upperTier row.tier ∈ ["MEDIUM", "LOW", "UNKNOWN"]
    · -- nobody follows a bridge of a low tier, which only a column can have
      have hnot : upperTier row.tier ∉ ["EXACT", "HIGH", "EXTRACTED"] := by
        have hall : ∀ tier ∈ ["MEDIUM", "LOW", "UNKNOWN"],
            tier ∉ ["EXACT", "HIGH", "EXTRACTED"] := by decide
        exact hall _ hlow
      have hcross : isReportableCrossArtifact row.target row.tier row.extra = false := by
        cases htier : row.tier with
        | none =>
            rw [htier] at hlow
            exact absurd hlow (by decide)
        | some tier =>
            rw [htier] at hlow hnot
            rw [isReportableCrossArtifact_of_known _ htarget
              (List.mem_append_right ["EXACT", "HIGH", "EXTRACTED"] hlow)]
            simpa using hnot
      simp only [List.contains_eq_mem, hlow, hnot, hcross, Consistent]
      simp
    · by_cases hhigh : upperTier row.tier ∈ ["EXACT", "HIGH", "EXTRACTED"]
      · cases htier : row.tier with
        | none =>
            -- the flows alone look into `extra`
            rw [htier] at hlow hhigh
            have hcross : isReportableCrossArtifact row.target none row.extra =
                ["EXACT", "HIGH", "EXTRACTED"].contains
                  ((extraConfidenceTier row.extra).getD "EXTRACTED") := by
              simp only [isReportableCrossArtifact, htarget]
              rfl
            simp only [List.contains_eq_mem, hlow, hhigh, hcross, htier, htarget, Consistent]
            simp [and_assoc]
        | some tier =>
            rw [htier] at hlow hhigh
            have hcross := isReportableCrossArtifact_of_known row.extra htarget
              (List.mem_append_left ["MEDIUM", "LOW", "UNKNOWN"] hhigh)
            simp only [List.contains_eq_mem, hlow, hhigh, hcross, htier, htarget, Consistent]
            simp
      · -- only the walk takes an unknown tier for a low one
        simp only [List.contains_eq_mem, hlow, hhigh, htarget, Consistent]
        simp

theorem not_agree_of_kind {row : StoredEdge} (h : row.kind ≠ "CROSS_ARTIFACT") : ¬ Agree row := by
  have hsql : reportableBridgeSql row = true := by
    rw [reportableBridgeSql, Bool.or_eq_true]
    exact .inl (by simpa using h)
  have hbridge : isReportableBridge (edgeFromRow row) = false := by
    simp [isReportableBridge, isCrossArtifact, edgeFromRow, h]
  rintro ⟨hsame, -⟩
  rw [hsql, hbridge] at hsame
  cases hsame

/-! ## Rows that the store writes -/

/-- The columns that a modelled row stands for. -/
def columns (r : EdgeRow) : StoredEdge where
  id := r.id
  kind := r.kind
  source := r.source
  target := r.target
  filePath := r.filePath
  line := r.line
  extra := some r.extra
  confidence := some r.confidence
  tier := some r.tier.asStr

end Bridges

end Dagayn
