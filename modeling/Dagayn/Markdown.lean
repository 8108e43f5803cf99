import Dagayn.Reexports

/-!
# Markdown references

`resolve_markdown_artifact_refs`: a documentation edge names a code symbol. The pass
points it at the one node of that name, drops an implicit code span that names none or
several, and demotes an authored reference to `<unresolved:symbol>`. Two statements
behind the loop demote the directives whose target is gone and restore those whose
target is back; they touch only `extra` and the confidence columns.
-/

namespace Dagayn

namespace Json

mutual

/-- The JSON text contains `needle`, a run of letters and underscores: such a run
stands inside a key or a string. -/
def mentions (needle : List Char) : Json → Bool
  | .str s => (splitFirst needle s.toList).isSome
  | .arr items => mentionsItem needle items
  | .obj fields => mentionsField needle fields
  | _ => false

def mentionsItem (needle : List Char) : List Json → Bool
  | [] => false
  | v :: items => mentions needle v || mentionsItem needle items

def mentionsField (needle : List Char) : List (String × Json) → Bool
  | [] => false
  | (key, v) :: fields =>
      (splitFirst needle key.toList).isSome || mentions needle v || mentionsField needle fields

end

end Json

inductive MarkdownArtifactResolution where
  | resolved (target : String) (extra : Json)
  | dropped
  | demoted (unresolvedTarget : String) (extra : Json)
  | stillUnresolved

/-- `<unresolved:symbol>`. -/
def unresolvedTarget (symbol : String) : String := "<unresolved:" ++ symbol ++ ">"

def isImplicitCodeSpan (extra : Json) : Bool :=
  extra.getStr "evidence_kind" = some "markdown_code_span" &&
    extra.getStr "evidence_source" = some "code_span"

/-- `markdown_artifact_resolution`, on an `extra` that is an object. -/
def markdownArtifactResolution (currentTarget symbol : String) (extra : Json)
    (nodes : List (String × String)) (needsLegacyKeyUpdate : Bool) :
    MarkdownArtifactResolution :=
  match nodes with
  | [(target, language)] =>
      let (confidence, tier) : Float × ConfidenceTier :=
        if isImplicitCodeSpan extra then (0.4, .medium) else (0.8, .high)
      let extra := extra.insert "target_language" (.str language)
      let extra := extra.insert "confidence" (.float confidence)
      .resolved target (extra.insert "confidence_tier" (.str tier.asStr))
  | _ =>
      if isImplicitCodeSpan extra then .dropped
      else if currentTarget = unresolvedTarget symbol && !needsLegacyKeyUpdate then
        .stillUnresolved
      else
        let extra := extra.erase "target_language"
        let extra := extra.insert "confidence" (.float 0.2)
        .demoted (unresolvedTarget symbol)
          (extra.insert "confidence_tier" (.str ConfidenceTier.low.asStr))

namespace Store

/-- The symbol a documentation edge names, and its `extra` under today's key. -/
def markdownRef (r : EdgeRow) : Option (String × Json) :=
  match r.extra with
  | .obj fields =>
      let extra := Json.obj fields
      if r.kind = "CROSS_ARTIFACT" && (extra.getStr "source_language" = some "markdown" ||
          extra.getStr "bridge_kind" = some "documentation") then
        (((extra.get "original_symbol_name").or (extra.get "unresolved_target_name")).bind
          Json.asStr).map fun symbol =>
            (symbol, (extra.erase "unresolved_target_name").insert "original_symbol_name"
              (.str symbol))
      else none
  | _ => none

/-- `matches_by_symbol`: the nodes of the name, but those of Markdown. -/
def symbolMatches (s : Store) (symbol : String) : List (String × String) :=
  (s.nodes.rows.filter fun n => n.input.name = symbol && n.input.language ≠ "markdown").map
    fun n => (n.qualifiedName, n.input.language)

def mentionsLegacyKey (r : EdgeRow) : Bool :=
  r.extra.mentions "unresolved_target_name".toList

/-- What the pass finds for an edge, if it is a reference. -/
def markdownResolution (s : Store) (r : EdgeRow) : Option MarkdownArtifactResolution :=
  (markdownRef r).map fun ref =>
    markdownArtifactResolution r.target ref.1 ref.2 (s.symbolMatches ref.1) (mentionsLegacyKey r)

/-- `StoredConfidence::matches`. -/
def storedMatches (r : EdgeRow) (confidence : Float) (tier : String) : Bool :=
  (r.confidence - confidence).abs < 1e-9 && r.tier.asStr = tier

/-- The statement for one edge. The demotion sets the target and not its name. -/
def applyResolution (s : Store) (r : EdgeRow) : MarkdownArtifactResolution → Store
  | .resolved target extra =>
      let confidence := ((extra.get "confidence").bind Json.asFloat).getD 0.8
      let tier := (extra.getStr "confidence_tier").getD "HIGH"
      if r.target = target && !mentionsLegacyKey r && storedMatches r confidence tier &&
          r.extra == extra then s
      else s.writeEdge r.id (.retarget target (some extra) confidence (.fromRaw (some tier)))
  | .dropped => { s with edges := s.edges.deleteWhere (·.id = r.id) }
  | .demoted target extra =>
      { s with edges := s.edges.updateWhere (·.id = r.id) fun r =>
          { r with target := target, extra := extra, confidence := 0.2, tier := .low } }
  | .stillUnresolved => s

def directiveEdge (r : EdgeRow) : Bool :=
  (r.kind = "CROSS_ARTIFACT" && r.extra.getStr "evidence_source" = some "dagayn_directive") ||
    (r.kind = "DEPENDS_ON" && r.extra.has "markdown_directive_kind")

def restorable (s : Store) (r : EdgeRow) : Bool :=
  directiveEdge r && r.extra.has "dangling_demoted_from" && s.isNode r.target

def restoreDirectives (s : Store) : Store :=
  { s with edges := s.edges.updateWhere s.restorable fun r => { r with
      tier := .fromRaw (r.extra.getStr "dangling_demoted_from")
      confidence := ((r.extra.get "dangling_demoted_confidence").bind Json.asFloat).getD
        r.confidence
      extra := (r.extra.erase "dangling_demoted_from").erase "dangling_demoted_confidence" } }

def dangling (s : Store) (r : EdgeRow) : Bool :=
  directiveEdge r && r.tier ≠ .low && hasScope r.target && !s.isNode r.target &&
    ((splitOnce "::" r.target).any fun p => s.isFile p.1)

/-- `json_set` writes a number with fifteen digits: `digits` gives the number its text reads
as. -/
def demoteDirectives (digits : Float → Float) (s : Store) : Store :=
  { s with edges := s.edges.updateWhere s.dangling fun r => { r with
      extra := ((extraJson r.extra).insert "dangling_demoted_from" (.str r.tier.asStr)).insert
        "dangling_demoted_confidence" (.float (digits r.confidence))
      confidence := min r.confidence 0.2, tier := .low } }

/-- The loop: every edge is judged as it was at the start. -/
def resolveMarkdownRefs (s : Store) : Store :=
  s.edges.rows.foldl (fun cur r =>
    match s.markdownResolution r with
    | some resolution => cur.applyResolution r resolution
    | none => cur) s

def resolveMarkdownArtifactRefs (digits : Float → Float) (s : Store) : Store :=
  s.resolveMarkdownRefs.restoreDirectives.demoteDirectives digits

end Store

end Dagayn
