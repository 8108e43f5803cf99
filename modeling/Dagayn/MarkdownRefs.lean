import Dagayn.JsonFields

/-!
# Markdown references, edge by edge

`resolve_markdown_artifact_refs` judges every edge by itself: `settleRow` says what becomes
of one. A second run changes nothing (`resolveMarkdownArtifactRefs_idem`), and a reference
whose target goes and comes back is as before (`resolveMarkdownArtifactRefs_roundTrip`), but
for implicit code spans, which are dropped with their target.
-/

namespace Dagayn

theorem ConfidenceTier.fromRaw_asStr (t : ConfidenceTier) : fromRaw (some t.asStr) = t := by
  cases t <;> decide

namespace Store

variable {digits : Float → Float} {s s' : Store} {r r' : EdgeRow}

/-! ## One edge -/

def resolvedRow (r : EdgeRow) : MarkdownArtifactResolution → Option EdgeRow
  | .resolved target extra =>
      let confidence := ((extra.get "confidence").bind Json.asFloat).getD 0.8
      let tier := (extra.getStr "confidence_tier").getD "HIGH"
      if r.target = target && !mentionsLegacyKey r && storedMatches r confidence tier &&
          r.extra == extra then some r
      else
        some { r with
          target := target, targetName := edgeTargetName target, extra := extra
          confidence := confidence, tier := .fromRaw (some tier) }
  | .dropped => none
  | .demoted target extra =>
      some { r with target := target, extra := extra, confidence := 0.2, tier := .low }
  | .stillUnresolved => some r

def loopRow (s : Store) (r : EdgeRow) : Option EdgeRow :=
  match s.markdownResolution r with
  | some resolution => resolvedRow r resolution
  | none => some r

def restoreRow (s : Store) (r : EdgeRow) : EdgeRow :=
  if s.restorable r then
    { r with
      tier := .fromRaw (r.extra.getStr "dangling_demoted_from")
      confidence := ((r.extra.get "dangling_demoted_confidence").bind Json.asFloat).getD
        r.confidence
      extra := (r.extra.erase "dangling_demoted_from").erase "dangling_demoted_confidence" }
  else r

def demoteRow (digits : Float → Float) (s : Store) (r : EdgeRow) : EdgeRow :=
  if s.dangling r then
    { r with
      extra := ((extraJson r.extra).insert "dangling_demoted_from" (.str r.tier.asStr)).insert
        "dangling_demoted_confidence" (.float (digits r.confidence))
      confidence := min r.confidence 0.2, tier := .low }
  else r

def settleRow (digits : Float → Float) (s : Store) (r : EdgeRow) : Option EdgeRow :=
  (s.loopRow r).map fun r => s.demoteRow digits (s.restoreRow r)

theorem applyResolution_nodes (cur : Store) (r : EdgeRow) (m : MarkdownArtifactResolution) :
    (cur.applyResolution r m).nodes = cur.nodes := by
  cases m with
  | resolved target extra =>
      simp only [applyResolution]
      split <;> rfl
  | dropped => rfl
  | demoted target extra => rfl
  | stillUnresolved => rfl

theorem applyResolution_rows {cur : Store} {done rest : List EdgeRow}
    (hrows : cur.edges.rows = done ++ r :: rest) (m : MarkdownArtifactResolution) :
    (cur.applyResolution r m).edges.rows = done ++ ((resolvedRow r m).toList ++ rest) := by
  have hids := cur.edges.ids_nodup
  rw [hrows, List.map_append, List.map_cons, List.nodup_append, List.nodup_cons] at hids
  obtain ⟨-, ⟨hrest, -⟩, hdone⟩ := hids
  have hne_done : ∀ a ∈ done, a.id ≠ r.id := fun a ha =>
    hdone a.id (List.mem_map_of_mem ha) r.id List.mem_cons_self
  have hne_rest : ∀ a ∈ rest, a.id ≠ r.id := fun a ha heq =>
    hrest (heq ▸ List.mem_map_of_mem ha)
  have hupdate : ∀ f : EdgeRow → EdgeRow,
      (cur.edges.updateWhere (·.id = r.id) f).rows = done ++ { f r with id := r.id } :: rest := by
    intro f
    simp only [EdgeTable.updateWhere, hrows, decide_eq_true_eq, List.map_append, List.map_cons,
      if_true]
    rw [List.map_congr_left fun a ha => if_neg (hne_done a ha),
      List.map_congr_left fun a ha => if_neg (hne_rest a ha), List.map_id', List.map_id']
  cases m with
  | resolved target extra =>
      simp only [applyResolution, resolvedRow]
      split
      · exact hrows
      · exact hupdate _
  | dropped =>
      simp only [applyResolution, resolvedRow, EdgeTable.deleteWhere, hrows, List.filter_append]
      rw [List.filter_cons_of_neg (by simp), List.filter_eq_self.mpr fun a ha => by
        simp [hne_done a ha], List.filter_eq_self.mpr fun a ha => by simp [hne_rest a ha]]
      rfl
  | demoted target extra => exact hupdate _
  | stillUnresolved => exact hrows

theorem foldl_applyResolution_rows (s : Store) (todo : List EdgeRow) : ∀ (cur : Store)
    (done : List EdgeRow), cur.edges.rows = done ++ todo →
    (todo.foldl (fun cur r => match s.markdownResolution r with
      | some resolution => cur.applyResolution r resolution
      | none => cur) cur).edges.rows = done ++ todo.filterMap s.loopRow := by
  induction todo with
  | nil => exact fun _ _ h => h
  | cons r todo ih =>
      intro cur done hrows
      rw [List.foldl_cons]
      cases hm : s.markdownResolution r with
      | none =>
          have hrow : s.loopRow r = some r := by rw [loopRow, hm]
          rw [ih cur (done ++ [r]) (by rw [hrows, List.append_assoc]; rfl),
            List.filterMap_cons_some hrow, List.append_assoc]
          rfl
      | some m =>
          have hrow : s.loopRow r = resolvedRow r m := by rw [loopRow, hm]
          have hnext : (cur.applyResolution r m).edges.rows =
              (done ++ (resolvedRow r m).toList) ++ todo := by
            rw [applyResolution_rows hrows, List.append_assoc]
          rw [ih _ _ hnext, List.append_assoc]
          cases hr : resolvedRow r m with
          | none => rw [List.filterMap_cons_none (hrow.trans hr)]; rfl
          | some r' => rw [List.filterMap_cons_some (hrow.trans hr)]; rfl

theorem resolveMarkdownRefs_rows (s : Store) :
    s.resolveMarkdownRefs.edges.rows = s.edges.rows.filterMap s.loopRow :=
  foldl_applyResolution_rows s s.edges.rows s [] rfl

theorem resolveMarkdownRefs_nodes (s : Store) : s.resolveMarkdownRefs.nodes = s.nodes := by
  unfold resolveMarkdownRefs
  suffices h : ∀ (rows : List EdgeRow) (cur : Store), (rows.foldl (fun cur r =>
      match s.markdownResolution r with
      | some resolution => cur.applyResolution r resolution
      | none => cur) cur).nodes = cur.nodes from h _ s
  intro rows
  induction rows with
  | nil => exact fun _ => rfl
  | cons r rows ih =>
      intro cur
      rw [List.foldl_cons, ih]
      split
      · exact applyResolution_nodes cur r _
      · rfl

section Congr

variable (h : s'.nodes = s.nodes)

include h

theorem loopRow_congr : s'.loopRow = s.loopRow := by
  funext r
  simp only [loopRow, markdownResolution, symbolMatches, h]

theorem isNode_congr : s'.isNode = s.isNode := by
  funext q
  rw [isNode, isNode, h]

theorem restoreRow_congr : s'.restoreRow = s.restoreRow := by
  funext r
  rw [restoreRow, restoreRow, restorable, restorable, isNode_congr h]

theorem demoteRow_congr : s'.demoteRow digits = s.demoteRow digits := by
  have hfile : s'.isFile = s.isFile := by
    funext q
    rw [isFile, isFile, h]
  funext r
  rw [demoteRow, demoteRow, dangling, dangling, isNode_congr h, hfile]

theorem settleRow_congr : s'.settleRow digits = s.settleRow digits := by
  funext r
  simp only [settleRow, loopRow_congr h, restoreRow_congr h, demoteRow_congr h]

end Congr

theorem resolveMarkdownArtifactRefs_nodes (s : Store) :
    (s.resolveMarkdownArtifactRefs digits).nodes = s.nodes := resolveMarkdownRefs_nodes s

theorem resolveMarkdownArtifactRefs_rows (s : Store) :
    (s.resolveMarkdownArtifactRefs digits).edges.rows =
      s.edges.rows.filterMap (s.settleRow digits) := by
  have hrestored : s.resolveMarkdownRefs.restoreDirectives.nodes = s.nodes :=
    resolveMarkdownRefs_nodes s
  have hrestore : s.resolveMarkdownRefs.restoreDirectives.edges.rows =
      s.resolveMarkdownRefs.edges.rows.map s.resolveMarkdownRefs.restoreRow := rfl
  have hdemote : (s.resolveMarkdownArtifactRefs digits).edges.rows =
      s.resolveMarkdownRefs.restoreDirectives.edges.rows.map
        (s.resolveMarkdownRefs.restoreDirectives.demoteRow digits) := rfl
  rw [hdemote, hrestore, demoteRow_congr hrestored, restoreRow_congr (resolveMarkdownRefs_nodes s),
    resolveMarkdownRefs_rows, List.map_map, List.map_filterMap]
  rfl

/-! ## References -/

/-- `extra` of a documentation edge that names the symbol under today's key. -/
structure RefExtra (symbol : String) (extra : Json) : Prop where
  fixed : extra.Fixed "original_symbol_name" (.str symbol)
  noLegacy : extra.get "unresolved_target_name" = none
  bridge : extra.getStr "source_language" = some "markdown" ∨
    extra.getStr "bridge_kind" = some "documentation"

def refKeys : List String :=
  ["original_symbol_name", "unresolved_target_name", "source_language", "bridge_kind"]

theorem RefExtra.insert {symbol key : String} {extra : Json} (h : RefExtra symbol extra)
    (hkey : key ∉ refKeys) (value : Json) : RefExtra symbol (extra.insert key value) := by
  simp only [refKeys, List.mem_cons, List.not_mem_nil, or_false, not_or] at hkey
  obtain ⟨horiginal, hlegacy, hlanguage, hkind⟩ := hkey
  refine ⟨h.fixed.insert (Ne.symm horiginal) value, ?_, ?_⟩
  · rw [Json.get_insert, if_neg (Ne.symm hlegacy), h.noLegacy]
  · rw [Json.getStr_insert, Json.getStr_insert, if_neg (Ne.symm hlanguage),
      if_neg (Ne.symm hkind)]
    exact h.bridge

def refSymbol (r : EdgeRow) : Option String :=
  if r.kind = "CROSS_ARTIFACT" && (r.extra.getStr "source_language" = some "markdown" ||
      r.extra.getStr "bridge_kind" = some "documentation") then
    ((r.extra.get "original_symbol_name").or (r.extra.get "unresolved_target_name")).bind
      Json.asStr
  else none

theorem markdownRef_eq (r : EdgeRow) : markdownRef r = (refSymbol r).map fun symbol =>
    (symbol, (r.extra.erase "unresolved_target_name").insert "original_symbol_name"
      (.str symbol)) := by
  unfold markdownRef refSymbol
  cases hextra : r.extra with
  | obj fields =>
      simp only
      split <;> rfl
  | _ =>
      simp only [Json.getStr, Json.get, Option.bind_none, reduceCtorEq, decide_false,
        Bool.or_self, Bool.and_false, Bool.false_eq_true, if_false, Option.map_none]

theorem refExtra_of_markdownRef {symbol : String} {extra : Json}
    (h : markdownRef r = some (symbol, extra)) :
    r.kind = "CROSS_ARTIFACT" ∧ RefExtra symbol extra ∧
      ∀ key ∉ refKeys, extra.get key = r.extra.get key := by
  rw [markdownRef_eq, Option.map_eq_some_iff] at h
  obtain ⟨symbol', hsymbol, heq⟩ := h
  obtain ⟨rfl, rfl⟩ := Prod.mk.inj heq
  unfold refSymbol at hsymbol
  split at hsymbol
  · rename_i hbridge
    simp only [Bool.and_eq_true, Bool.or_eq_true, decide_eq_true_eq] at hbridge
    refine ⟨hbridge.1, ⟨Json.fixed_insert _ _ _, ?_, ?_⟩, fun key hkey => ?_⟩
    · rw [Json.get_insert, if_neg (by decide), Json.get_erase, if_pos rfl]
    · rw [Json.getStr_insert, Json.getStr_erase, Json.getStr_insert, Json.getStr_erase,
        if_neg (by decide), if_neg (by decide), if_neg (by decide), if_neg (by decide)]
      exact hbridge.2
    · simp only [refKeys, List.mem_cons, List.not_mem_nil, or_false, not_or] at hkey
      rw [Json.get_insert, if_neg hkey.1, Json.get_erase, if_neg hkey.2.1]
  · cases hsymbol

theorem markdownRef_of_refExtra {symbol : String} (hkind : r.kind = "CROSS_ARTIFACT")
    (h : RefExtra symbol r.extra) : markdownRef r = some (symbol, r.extra) := by
  have hget : r.extra.get "original_symbol_name" = some (.str symbol) := by
    have heq := Json.get_insert r.extra "original_symbol_name" "original_symbol_name" (.str symbol)
    rwa [h.fixed.insert_eq, if_pos rfl] at heq
  have hsymbol : refSymbol r = some symbol := by
    rw [refSymbol, if_pos (by simpa [hkind] using h.bridge), hget]
    rfl
  rw [markdownRef_eq, hsymbol, Option.map_some, Json.erase_eq_self h.noLegacy, h.fixed.insert_eq]

theorem refSymbol_congr (hkind : r'.kind = r.kind)
    (hget : ∀ key ∈ refKeys, r'.extra.get key = r.extra.get key) : refSymbol r' = refSymbol r := by
  have hstr : ∀ key ∈ refKeys, r'.extra.getStr key = r.extra.getStr key := fun key hkey => by
    rw [Json.getStr, Json.getStr, hget key hkey]
  rw [refSymbol, refSymbol, hkind, hstr "source_language" (by decide),
    hstr "bridge_kind" (by decide), hget "original_symbol_name" (by decide),
    hget "unresolved_target_name" (by decide)]

/-! ## What the loop decides -/

def refConfidence (extra : Json) : Float × ConfidenceTier :=
  if isImplicitCodeSpan extra then (0.4, .medium) else (0.8, .high)

/-- `extra` of a resolved reference. -/
def resolvedExtra (language : String) (extra : Json) : Json :=
  ((extra.insert "target_language" (.str language)).insert "confidence"
    (.float (refConfidence extra).1)).insert "confidence_tier" (.str (refConfidence extra).2.asStr)

/-- `extra` of a demoted reference. -/
def demotedExtra (extra : Json) : Json :=
  ((extra.erase "target_language").insert "confidence" (.float 0.2)).insert "confidence_tier"
    (.str ConfidenceTier.low.asStr)

theorem markdownArtifactResolution_single (current symbol target language : String) (extra : Json)
    (legacy : Bool) :
    markdownArtifactResolution current symbol extra [(target, language)] legacy =
      .resolved target (resolvedExtra language extra) := by
  simp only [markdownArtifactResolution, resolvedExtra, refConfidence]

theorem markdownArtifactResolution_other {nodes : List (String × String)}
    (hnodes : ∀ node, nodes ≠ [node]) (current symbol : String) (extra : Json) (legacy : Bool) :
    markdownArtifactResolution current symbol extra nodes legacy =
      if isImplicitCodeSpan extra then .dropped
      else if current = unresolvedTarget symbol && !legacy then .stillUnresolved
      else .demoted (unresolvedTarget symbol) (demotedExtra extra) := by
  cases nodes with
  | nil => rfl
  | cons a nodes =>
      cases nodes with
      | nil => exact absurd rfl (hnodes a)
      | cons b nodes => rfl

theorem isImplicitCodeSpan_congr {extra extra' : Json}
    (h : ∀ key ∈ ["evidence_kind", "evidence_source"], extra'.get key = extra.get key) :
    isImplicitCodeSpan extra' = isImplicitCodeSpan extra := by
  rw [isImplicitCodeSpan, isImplicitCodeSpan, Json.getStr, Json.getStr, Json.getStr, Json.getStr,
    h "evidence_kind" (by decide), h "evidence_source" (by decide)]

def resolutionKeys : List String := ["target_language", "confidence", "confidence_tier"]

theorem get_resolvedExtra {key language : String} {extra : Json} (hkey : key ∉ resolutionKeys) :
    (resolvedExtra language extra).get key = extra.get key := by
  simp only [resolutionKeys, List.mem_cons, List.not_mem_nil, or_false, not_or] at hkey
  rw [resolvedExtra, Json.get_insert, if_neg hkey.2.2, Json.get_insert, if_neg hkey.2.1,
    Json.get_insert, if_neg hkey.1]

theorem get_demotedExtra {key : String} {extra : Json} (hkey : key ∉ resolutionKeys) :
    (demotedExtra extra).get key = extra.get key := by
  simp only [resolutionKeys, List.mem_cons, List.not_mem_nil, or_false, not_or] at hkey
  rw [demotedExtra, Json.get_insert, if_neg hkey.2.2, Json.get_insert, if_neg hkey.2.1,
    Json.get_erase, if_neg hkey.1]

theorem refConfidence_resolvedExtra (language : String) (extra : Json) :
    refConfidence (resolvedExtra language extra) = refConfidence extra := by
  have hkeys : ∀ key ∈ ["evidence_kind", "evidence_source"], key ∉ resolutionKeys := by decide
  rw [refConfidence, refConfidence,
    isImplicitCodeSpan_congr fun key hkey => get_resolvedExtra (hkeys key hkey)]

theorem resolvedExtra_idem (language : String) (extra : Json) :
    resolvedExtra language (resolvedExtra language extra) = resolvedExtra language extra := by
  have hfixed : ∀ key value, (resolvedExtra language extra).Fixed key value →
      (resolvedExtra language extra).insert key value = resolvedExtra language extra :=
    fun _ _ h => h.insert_eq
  conv_lhs => rw [resolvedExtra, refConfidence_resolvedExtra]
  rw [hfixed "target_language", hfixed "confidence", hfixed "confidence_tier"]
  · exact Json.fixed_insert _ _ _
  · exact (Json.fixed_insert _ _ _).insert (by decide) _
  · exact ((Json.fixed_insert _ _ _).insert (by decide) _).insert (by decide) _

theorem demotedExtra_idem (extra : Json) :
    demotedExtra (demotedExtra extra) = demotedExtra extra := by
  have hnone : (demotedExtra extra).get "target_language" = none := by
    rw [demotedExtra, Json.get_insert, if_neg (by decide), Json.get_insert, if_neg (by decide),
      Json.get_erase, if_pos rfl]
  have hfixed : ∀ key value, (demotedExtra extra).Fixed key value →
      (demotedExtra extra).insert key value = demotedExtra extra := fun _ _ h => h.insert_eq
  conv_lhs => rw [demotedExtra, Json.erase_eq_self hnone]
  rw [hfixed "confidence", hfixed "confidence_tier"]
  · exact Json.fixed_insert _ _ _
  · exact (Json.fixed_insert _ _ _).insert (by decide) _

theorem RefExtra.resolved {symbol : String} {extra : Json} (h : RefExtra symbol extra)
    (language : String) : RefExtra symbol (resolvedExtra language extra) :=
  ((h.insert (by decide) _).insert (by decide) _).insert (by decide) _

theorem RefExtra.demoted {symbol : String} {extra : Json} (h : RefExtra symbol extra) :
    RefExtra symbol (demotedExtra extra) := by
  refine RefExtra.insert (RefExtra.insert ⟨h.fixed.erase (by decide), ?_, ?_⟩ (by decide) _)
    (by decide) _
  · rw [Json.get_erase, if_neg (by decide), h.noLegacy]
  · rw [Json.getStr_erase, Json.getStr_erase, if_neg (by decide), if_neg (by decide)]
    exact h.bridge

def resolvedTo (r : EdgeRow) (target language : String) (extra : Json) : EdgeRow :=
  { r with
    target := target, targetName := edgeTargetName target, extra := resolvedExtra language extra
    confidence := (refConfidence extra).1, tier := (refConfidence extra).2 }

def demotedTo (r : EdgeRow) (symbol : String) (extra : Json) : EdgeRow :=
  { r with
    target := unresolvedTarget symbol, extra := demotedExtra extra, confidence := 0.2,
    tier := .low }

theorem resolvedRow_resolved (r : EdgeRow) (target language : String) (extra : Json) :
    resolvedRow r (.resolved target (resolvedExtra language extra)) =
      if r.target = target && !mentionsLegacyKey r && storedMatches r (refConfidence extra).1
          (refConfidence extra).2.asStr && r.extra == resolvedExtra language extra then some r
      else some (resolvedTo r target language extra) := by
  have hconfidence : ((resolvedExtra language extra).get "confidence").bind Json.asFloat =
      some (refConfidence extra).1 := by
    rw [resolvedExtra, Json.get_insert, if_neg (by decide), Json.get_insert, if_pos rfl]
    rfl
  have htier : (resolvedExtra language extra).getStr "confidence_tier" =
      some (refConfidence extra).2.asStr := by
    rw [resolvedExtra, Json.getStr_insert, if_pos rfl]
    rfl
  simp only [resolvedRow, hconfidence, htier, Option.getD_some, ConfidenceTier.fromRaw_asStr]
  rfl

theorem loopRow_of_single {symbol target language : String} {extra : Json}
    (href : markdownRef r = some (symbol, extra))
    (hnodes : s.symbolMatches symbol = [(target, language)]) :
    s.loopRow r =
      if r.target = target && !mentionsLegacyKey r && storedMatches r (refConfidence extra).1
          (refConfidence extra).2.asStr && r.extra == resolvedExtra language extra then some r
      else some (resolvedTo r target language extra) := by
  rw [loopRow, markdownResolution, href, Option.map_some, hnodes,
    markdownArtifactResolution_single]
  exact resolvedRow_resolved r target language extra

theorem loopRow_of_other {symbol : String} {extra : Json}
    (href : markdownRef r = some (symbol, extra))
    (hnodes : ∀ node, s.symbolMatches symbol ≠ [node]) :
    s.loopRow r =
      if isImplicitCodeSpan extra then none
      else if r.target = unresolvedTarget symbol && !mentionsLegacyKey r then some r
      else some (demotedTo r symbol extra) := by
  rw [loopRow, markdownResolution, href, Option.map_some,
    markdownArtifactResolution_other hnodes]
  by_cases himplicit : isImplicitCodeSpan extra = true
  · simp only [himplicit, if_true]
    rfl
  · rw [if_neg himplicit, if_neg himplicit]
    exact apply_ite (resolvedRow r) _ _ _

theorem loopRow_of_none (href : markdownRef r = none) : s.loopRow r = some r := by
  rw [loopRow, markdownResolution, href]
  rfl

theorem loopRow_idem (h : s.loopRow r = some r') : s.loopRow r' = some r' := by
  cases href : markdownRef r with
  | none =>
      rw [loopRow_of_none href] at h
      obtain rfl := Option.some.inj h
      exact loopRow_of_none href
  | some ref =>
      obtain ⟨symbol, extra⟩ := ref
      obtain ⟨hkind, hextra, -⟩ := refExtra_of_markdownRef href
      by_cases hsingle : ∃ node, s.symbolMatches symbol = [node]
      · obtain ⟨⟨target, language⟩, hnodes⟩ := hsingle
        have hrow := loopRow_of_single href hnodes
        rw [h] at hrow
        split at hrow
        · obtain rfl := Option.some.inj hrow
          exact h
        · obtain rfl := Option.some.inj hrow
          have hwritten : resolvedTo (resolvedTo r target language extra) target language
              (resolvedExtra language extra) = resolvedTo r target language extra := by
            simp only [resolvedTo, resolvedExtra_idem, refConfidence_resolvedExtra]
          have href' : markdownRef (resolvedTo r target language extra) =
              some (symbol, resolvedExtra language extra) :=
            markdownRef_of_refExtra hkind (hextra.resolved language)
          rw [loopRow_of_single href' hnodes]
          exact (ite_congr rfl (fun _ => rfl) fun _ => congrArg some hwritten).trans (ite_self _)
      · have hnodes : ∀ node, s.symbolMatches symbol ≠ [node] := fun node heq => hsingle ⟨node, heq⟩
        have hrow := loopRow_of_other href hnodes
        rw [h] at hrow
        split at hrow
        · cases hrow
        · rename_i himplicit
          split at hrow
          · obtain rfl := Option.some.inj hrow
            exact h
          · obtain rfl := Option.some.inj hrow
            have hkeys : ∀ key ∈ ["evidence_kind", "evidence_source"], key ∉ resolutionKeys := by
              decide
            have himplicit' : ¬ isImplicitCodeSpan (demotedExtra extra) = true := by
              rw [isImplicitCodeSpan_congr fun key hkey => get_demotedExtra (hkeys key hkey)]
              exact himplicit
            have hwritten : demotedTo (demotedTo r symbol extra) symbol (demotedExtra extra) =
                demotedTo r symbol extra := by
              simp only [demotedTo, demotedExtra_idem]
            have href' : markdownRef (demotedTo r symbol extra) =
                some (symbol, demotedExtra extra) := markdownRef_of_refExtra hkind hextra.demoted
            rw [loopRow_of_other href' hnodes]
            refine (if_neg himplicit').trans ?_
            exact (ite_congr rfl (fun _ => rfl) fun _ => congrArg some hwritten).trans (ite_self _)

/-! ## Directives -/

theorem restoreRow_of_not (h : s.restorable r = false) : s.restoreRow r = r := by
  rw [restoreRow, h]
  rfl

theorem demoteRow_of_not (h : s.dangling r = false) : s.demoteRow digits r = r := by
  rw [demoteRow, h]
  rfl

theorem not_dangling_of_isNode (h : s.isNode r.target = true) : s.dangling r = false := by
  simp [dangling, h]

theorem not_restorable_of_not_isNode (h : s.isNode r.target = false) : s.restorable r = false := by
  simp [restorable, h]

theorem isNode_of_restorable (h : s.restorable r = true) : s.isNode r.target = true := by
  simp only [restorable, Bool.and_eq_true] at h
  exact h.2

theorem not_isNode_of_dangling (h : s.dangling r = true) : s.isNode r.target = false := by
  simp only [dangling, Bool.and_eq_true, Bool.not_eq_true'] at h
  exact h.1.2

theorem has_erase_self (extra : Json) (key key' : String) :
    ((extra.erase key).erase key').has key = false := by
  have hget : ((extra.erase key).erase key').get key = none := by
    rw [Json.get_erase, Json.get_erase, if_pos rfl, ite_self]
  rw [Json.has, hget]

theorem directives_idem (s : Store) (r : EdgeRow) :
    s.restoreRow (s.demoteRow digits (s.restoreRow r)) = s.demoteRow digits (s.restoreRow r) ∧
      s.demoteRow digits (s.demoteRow digits (s.restoreRow r)) =
        s.demoteRow digits (s.restoreRow r) := by
  by_cases hrestore : s.restorable r = true
  · have hnode := isNode_of_restorable hrestore
    have hrow : s.restoreRow r = { r with
        tier := .fromRaw (r.extra.getStr "dangling_demoted_from")
        confidence := ((r.extra.get "dangling_demoted_confidence").bind Json.asFloat).getD
          r.confidence
        extra := (r.extra.erase "dangling_demoted_from").erase "dangling_demoted_confidence" } :=
      if_pos hrestore
    have hkeep : s.dangling (s.restoreRow r) = false :=
      not_dangling_of_isNode (by rw [hrow]; exact hnode)
    have hgone : s.restorable (s.restoreRow r) = false := by
      rw [restorable, hrow, has_erase_self, Bool.and_false, Bool.false_and]
    rw [demoteRow_of_not hkeep, restoreRow_of_not hgone, demoteRow_of_not hkeep]
    exact ⟨rfl, rfl⟩
  · rw [Bool.not_eq_true] at hrestore
    rw [restoreRow_of_not hrestore]
    by_cases hdangling : s.dangling r = true
    · have hrow : (s.demoteRow digits r).target = r.target ∧
          (s.demoteRow digits r).tier = .low := by
        rw [demoteRow, if_pos hdangling]
        exact ⟨rfl, rfl⟩
      have hlow : s.dangling (s.demoteRow digits r) = false := by simp [dangling, hrow.2]
      have hnot : s.restorable (s.demoteRow digits r) = false :=
        not_restorable_of_not_isNode (hrow.1 ▸ not_isNode_of_dangling hdangling)
      rw [restoreRow_of_not hnot, demoteRow_of_not hlow]
      exact ⟨rfl, rfl⟩
    · rw [Bool.not_eq_true] at hdangling
      rw [demoteRow_of_not hdangling, restoreRow_of_not hrestore, demoteRow_of_not hdangling]
      exact ⟨rfl, rfl⟩

/-- The keys a directive keeps its tier under. -/
def danglingKeys : List String := ["dangling_demoted_from", "dangling_demoted_confidence"]

theorem get_restoreRow {key : String} (hkey : key ∉ danglingKeys) :
    (s.restoreRow r).extra.get key = r.extra.get key := by
  simp only [danglingKeys, List.mem_cons, List.not_mem_nil, or_false, not_or] at hkey
  unfold restoreRow
  split
  · simp only [Json.get_erase, if_neg hkey.1, if_neg hkey.2]
  · rfl

theorem extraJson_of_directive (h : directiveEdge r = true) : extraJson r.extra = r.extra := by
  cases hextra : r.extra with
  | null => simp [directiveEdge, hextra, Json.getStr, Json.get, Json.has] at h
  | _ => rfl

theorem directive_of_dangling (h : s.dangling r = true) : directiveEdge r = true := by
  simp only [dangling, Bool.and_eq_true] at h
  exact h.1.1.1.1

theorem get_demoteRow {key : String} (hkey : key ∉ danglingKeys) :
    (s.demoteRow digits r).extra.get key = r.extra.get key := by
  simp only [danglingKeys, List.mem_cons, List.not_mem_nil, or_false, not_or] at hkey
  unfold demoteRow
  split
  · rename_i hdangling
    simp only [extraJson_of_directive (directive_of_dangling hdangling), Json.get_insert,
      if_neg hkey.1, if_neg hkey.2]
  · rfl

theorem kind_directives (s : Store) (r : EdgeRow) :
    (s.demoteRow digits (s.restoreRow r)).kind = r.kind := by
  unfold demoteRow restoreRow
  split <;> split <;> rfl

theorem markdownRef_directives (href : markdownRef r = none) :
    markdownRef (s.demoteRow digits (s.restoreRow r)) = none := by
  have hkeys : ∀ key ∈ refKeys, key ∉ danglingKeys := by decide
  rw [markdownRef_eq, Option.map_eq_none_iff] at href ⊢
  rw [refSymbol_congr (kind_directives s r) fun key hkey => ?_, href]
  rw [get_demoteRow (hkeys key hkey), get_restoreRow (hkeys key hkey)]

/-! ## A second run -/

theorem get_loopRow {key : String} (hresolution : key ∉ resolutionKeys) (hkey : key ∉ refKeys)
    (h : s.loopRow r = some r') : r'.extra.get key = r.extra.get key := by
  cases href : markdownRef r with
  | none =>
      rw [loopRow_of_none href] at h
      rw [Option.some.inj h]
  | some ref =>
      obtain ⟨symbol, extra⟩ := ref
      obtain ⟨-, -, hget⟩ := refExtra_of_markdownRef href
      by_cases hsingle : ∃ node, s.symbolMatches symbol = [node]
      · obtain ⟨⟨target, language⟩, hnodes⟩ := hsingle
        rw [loopRow_of_single href hnodes] at h
        split at h
        · rw [Option.some.inj h]
        · obtain rfl := Option.some.inj h
          exact (get_resolvedExtra hresolution).trans (hget key hkey)
      · rw [loopRow_of_other href fun node heq => hsingle ⟨node, heq⟩] at h
        split at h
        · cases h
        · split at h
          · rw [Option.some.inj h]
          · obtain rfl := Option.some.inj h
            exact (get_demotedExtra hresolution).trans (hget key hkey)

theorem isNode_of_symbolMatches {symbol target language : String}
    (h : s.symbolMatches symbol = [(target, language)]) : s.isNode target = true := by
  have hmem : (target, language) ∈ s.symbolMatches symbol := by
    rw [h]
    exact List.mem_singleton_self _
  obtain ⟨n, hn, heq⟩ := List.mem_map.mp hmem
  rw [isNode, decide_eq_true_eq, ← (Prod.mk.inj heq).1]
  exact List.mem_map_of_mem (List.mem_of_mem_filter hn)

theorem of_dangling_loopRow {symbol : String} {extra : Json}
    (href : markdownRef r = some (symbol, extra)) (h : s.loopRow r = some r')
    (hdangling : s.dangling r' = true) :
    r' = r ∧ (∀ node, s.symbolMatches symbol ≠ [node]) ∧ isImplicitCodeSpan extra = false ∧
      r.target = unresolvedTarget symbol ∧ mentionsLegacyKey r = false := by
  by_cases hsingle : ∃ node, s.symbolMatches symbol = [node]
  · obtain ⟨⟨target, language⟩, hnodes⟩ := hsingle
    have hnode := isNode_of_symbolMatches hnodes
    have hnot := not_isNode_of_dangling hdangling
    rw [loopRow_of_single href hnodes] at h
    split at h
    · rename_i hskip
      simp only [Bool.and_eq_true, decide_eq_true_eq] at hskip
      obtain rfl := Option.some.inj h
      rw [hskip.1.1.1, hnode] at hnot
      cases hnot
    · obtain rfl := Option.some.inj h
      exact absurd (hnode.symm.trans hnot) (by decide)
  · have hnodes : ∀ node, s.symbolMatches symbol ≠ [node] := fun node heq => hsingle ⟨node, heq⟩
    rw [loopRow_of_other href hnodes] at h
    split at h
    · cases h
    · rename_i himplicit
      split at h
      · rename_i hstill
        simp only [Bool.and_eq_true, decide_eq_true_eq, Bool.not_eq_true'] at hstill
        exact ⟨(Option.some.inj h).symm, hnodes, Bool.not_eq_true _ ▸ himplicit, hstill.1, hstill.2⟩
      · obtain rfl := Option.some.inj h
        simp [dangling, demotedTo] at hdangling

theorem mentionsLegacyKey_demoteRow (h : mentionsLegacyKey r = false) :
    mentionsLegacyKey (s.demoteRow digits r) = false := by
  unfold demoteRow
  split
  · rename_i hdangling
    have htier : (Json.str r.tier.asStr).mentions "unresolved_target_name".toList = false := by
      cases r.tier <;> decide
    rw [mentionsLegacyKey, extraJson_of_directive (directive_of_dangling hdangling)]
    exact Json.mentions_insert (Json.mentions_insert h (by decide) htier) (by decide) rfl
  · exact h

theorem loopRow_demoteRow {symbol : String} {extra : Json}
    (href : markdownRef r = some (symbol, extra)) (h : s.loopRow r = some r')
    (hdangling : s.dangling r' = true) :
    s.loopRow (s.demoteRow digits r') = some (s.demoteRow digits r') := by
  obtain ⟨rfl, hnodes, himplicit, htarget, hlegacy⟩ := of_dangling_loopRow href h hdangling
  have hkeys : ∀ key ∈ refKeys, key ∉ danglingKeys := by decide
  have hevidence : ∀ key ∈ ["evidence_kind", "evidence_source"],
      key ∉ refKeys ∧ key ∉ danglingKeys := by decide
  have hrow : (s.demoteRow digits r').kind = r'.kind ∧
      (s.demoteRow digits r').target = r'.target := by
    rw [demoteRow, if_pos hdangling]
    exact ⟨rfl, rfl⟩
  have hsymbol : refSymbol (s.demoteRow digits r') = some symbol := by
    rw [refSymbol_congr hrow.1 fun key hkey => get_demoteRow (hkeys key hkey)]
    rw [markdownRef_eq, Option.map_eq_some_iff] at href
    obtain ⟨symbol', hsymbol, heq⟩ := href
    rw [hsymbol, (Prod.mk.inj heq).1]
  obtain ⟨extra', href'⟩ : ∃ extra', markdownRef (s.demoteRow digits r') = some (symbol, extra') :=
    ⟨_, by rw [markdownRef_eq, hsymbol]; rfl⟩
  have himplicit' : isImplicitCodeSpan extra' = false := by
    rw [isImplicitCodeSpan_congr fun key hkey => ?_, himplicit]
    rw [(refExtra_of_markdownRef href').2.2 key (hevidence key hkey).1,
      get_demoteRow (hevidence key hkey).2, (refExtra_of_markdownRef href).2.2 key
      (hevidence key hkey).1]
  rw [loopRow_of_other href' hnodes, himplicit', if_neg Bool.false_ne_true, hrow.2, htarget,
    mentionsLegacyKey_demoteRow hlegacy, decide_eq_true rfl]
  rfl

/-- A reference keeps no tier of a dangling directive. -/
def CleanRef (r : EdgeRow) : Prop :=
  markdownRef r ≠ none → r.extra.has "dangling_demoted_from" = false

theorem restoreRow_loopRow (hclean : CleanRef r) (href : markdownRef r ≠ none)
    (h : s.loopRow r = some r') : s.restoreRow r' = r' := by
  have hget : r'.extra.get "dangling_demoted_from" = r.extra.get "dangling_demoted_from" :=
    get_loopRow (by decide) (by decide) h
  refine restoreRow_of_not ?_
  rw [restorable, Json.has_congr hget, hclean href, Bool.and_false, Bool.false_and]

theorem settleRow_idem (hclean : CleanRef r) (h : s.settleRow digits r = some r') :
    s.settleRow digits r' = some r' := by
  obtain ⟨mid, hmid, rfl⟩ := Option.map_eq_some_iff.mp h
  have hloop : s.loopRow (s.demoteRow digits (s.restoreRow mid)) =
      some (s.demoteRow digits (s.restoreRow mid)) := by
    cases href : markdownRef r with
    | none =>
        rw [loopRow_of_none href] at hmid
        obtain rfl := Option.some.inj hmid
        exact loopRow_of_none (markdownRef_directives href)
    | some ref =>
        obtain ⟨symbol, extra⟩ := ref
        rw [restoreRow_loopRow hclean (by rw [href]; simp) hmid]
        by_cases hdangling : s.dangling mid = true
        · exact loopRow_demoteRow href hmid hdangling
        · rw [demoteRow_of_not (Bool.not_eq_true _ ▸ hdangling)]
          exact loopRow_idem hmid
  obtain ⟨hrestore, hdemote⟩ := directives_idem s mid
  rw [settleRow, hloop, Option.map_some, hrestore, hdemote]

theorem resolveMarkdownArtifactRefs_idem (hclean : ∀ r ∈ s.edges.rows, CleanRef r) :
    ((s.resolveMarkdownArtifactRefs digits).resolveMarkdownArtifactRefs digits).edges.rows =
      (s.resolveMarkdownArtifactRefs digits).edges.rows := by
  rw [resolveMarkdownArtifactRefs_rows (s.resolveMarkdownArtifactRefs digits),
    settleRow_congr (resolveMarkdownArtifactRefs_nodes s), resolveMarkdownArtifactRefs_rows s]
  generalize s.edges.rows = rows at hclean
  induction rows with
  | nil => rfl
  | cons r rows ih =>
      have htail := ih fun a ha => hclean a (List.mem_cons_of_mem _ ha)
      cases hr : s.settleRow digits r with
      | none =>
          rw [List.filterMap_cons_none hr]
          exact htail
      | some r' =>
          rw [List.filterMap_cons_some hr,
            List.filterMap_cons_some (settleRow_idem (hclean r List.mem_cons_self) hr), htail]

/-! ## There and back -/

theorem id_directives (s : Store) (r : EdgeRow) :
    (s.demoteRow digits (s.restoreRow r)).id = r.id := by
  unfold demoteRow restoreRow
  split <;> split <;> rfl

theorem target_restoreRow (s : Store) (r : EdgeRow) : (s.restoreRow r).target = r.target := by
  unfold restoreRow
  split <;> rfl

theorem target_demoteRow (s : Store) (r : EdgeRow) : (s.demoteRow digits r).target = r.target := by
  unfold demoteRow
  split <;> rfl

theorem id_loopRow (h : s.loopRow r = some r') : r'.id = r.id := by
  unfold loopRow at h
  split at h
  · rename_i m _
    cases m with
    | resolved target extra =>
        simp only [resolvedRow] at h
        split at h <;> (obtain rfl := Option.some.inj h; rfl)
    | dropped => cases h
    | demoted target extra => obtain rfl := Option.some.inj h; rfl
    | stillUnresolved => obtain rfl := Option.some.inj h; rfl
  · obtain rfl := Option.some.inj h
    rfl

theorem id_settleRow (h : s.settleRow digits r = some r') : r'.id = r.id := by
  obtain ⟨mid, hmid, rfl⟩ := Option.map_eq_some_iff.mp h
  exact (id_directives s mid).trans (id_loopRow hmid)

/-- An edge the pass leaves alone, its target a node: the loop does, and there is no tier to
restore. -/
theorem of_settled (h : s.settleRow digits r = some r) (hnode : s.isNode r.target = true) :
    s.loopRow r = some r ∧ s.restorable r = false := by
  obtain ⟨mid, hmid, hr⟩ := Option.map_eq_some_iff.mp h
  have htarget : (s.restoreRow mid).target = r.target := by
    rw [← hr, target_demoteRow]
  rw [demoteRow_of_not (not_dangling_of_isNode (htarget ▸ hnode))] at hr
  by_cases hrestore : s.restorable mid = true
  · -- the saved tier would be gone from the edge, and the loop does not bring one in
    have hextra : r.extra = (mid.extra.erase "dangling_demoted_from").erase
        "dangling_demoted_confidence" := by
      rw [← hr, restoreRow, if_pos hrestore]
    have hget : mid.extra.get "dangling_demoted_from" = r.extra.get "dangling_demoted_from" :=
      get_loopRow (by decide) (by decide) hmid
    rw [restorable, Json.has_congr hget, hextra, has_erase_self, Bool.and_false,
      Bool.false_and] at hrestore
    cases hrestore
  · rw [Bool.not_eq_true] at hrestore
    rw [restoreRow_of_not hrestore] at hr
    subst hr
    exact ⟨hmid, hrestore⟩

theorem directiveEdge_congr (hkind : r'.kind = r.kind)
    (hget : ∀ key ∈ ["evidence_source", "markdown_directive_kind"],
      r'.extra.get key = r.extra.get key) : directiveEdge r' = directiveEdge r := by
  rw [directiveEdge, directiveEdge, hkind, Json.getStr, Json.getStr,
    hget "evidence_source" (by decide), Json.has_congr (hget "markdown_directive_kind" (by decide))]

theorem symbolMatches_withoutNode {symbol target language : String}
    (h : s.symbolMatches symbol = [(target, language)]) :
    (s.withoutNode target).symbolMatches symbol = [] := by
  refine List.map_eq_nil_iff.mpr (List.filter_eq_nil_iff.mpr fun n hn hsel => ?_)
  obtain ⟨hn, hkept⟩ := List.mem_filter.mp hn
  have hmem : (n.qualifiedName, n.input.language) ∈ s.symbolMatches symbol :=
    List.mem_map.mpr ⟨n, List.mem_filter.mpr ⟨hn, hsel⟩, rfl⟩
  rw [h, List.mem_singleton] at hmem
  simp [(Prod.mk.inj hmem).1] at hkept

/-- Target, tier and confidence are as before; the confidence of a directive may have gone
through its digits, and of one that was within the margin the pass leaves alone, it is the one
in the middle. -/
def SameEvidence (digits : Float → Float) (r r' : EdgeRow) : Prop :=
  r'.target = r.target ∧ r'.tier = r.tier ∧
    (r'.confidence = r.confidence ∨
      (directiveEdge r = true ∧ r'.confidence = digits r.confidence) ∨
      storedMatches r r'.confidence r'.tier.asStr = true)

theorem settleRow_directive_back (href : markdownRef r = none)
    (hnode : s.isNode r.target = true) (hrestore : s.restorable r = false) :
    ∃ mid r', (s.withoutNode r.target).settleRow digits r = some mid ∧
      s.settleRow digits mid = some r' ∧ SameEvidence digits r r' := by
  have hgone := not_isNode_withoutNode s r.target
  have hkeep : (s.withoutNode r.target).restoreRow r = r :=
    restoreRow_of_not (not_restorable_of_not_isNode hgone)
  have hmid : (s.withoutNode r.target).settleRow digits r =
      some ((s.withoutNode r.target).demoteRow digits r) := by
    rw [settleRow, loopRow_of_none href, Option.map_some, hkeep]
  have href' : markdownRef ((s.withoutNode r.target).demoteRow digits r) = none := by
    have hnone := @markdownRef_directives digits (s.withoutNode r.target) r href
    rwa [hkeep] at hnone
  refine ⟨_, s.restoreRow ((s.withoutNode r.target).demoteRow digits r), hmid, ?_, ?_⟩
  · have htarget : (s.restoreRow ((s.withoutNode r.target).demoteRow digits r)).target =
        r.target := by
      rw [target_restoreRow, target_demoteRow]
    have hkept : s.dangling (s.restoreRow ((s.withoutNode r.target).demoteRow digits r)) = false :=
      not_dangling_of_isNode (by rw [htarget]; exact hnode)
    rw [settleRow, loopRow_of_none href', Option.map_some, demoteRow_of_not hkept]
  · by_cases hdangling : (s.withoutNode r.target).dangling r = true
    · have hkeys : ∀ key ∈ ["evidence_source", "markdown_directive_kind"], key ∉ danglingKeys := by
        decide
      have hdirective := directive_of_dangling hdangling
      have hrow : (s.withoutNode r.target).demoteRow digits r = { r with
          extra := (r.extra.insert "dangling_demoted_from" (.str r.tier.asStr)).insert
            "dangling_demoted_confidence" (.float (digits r.confidence))
          confidence := min r.confidence 0.2, tier := .low } := by
        rw [demoteRow, if_pos hdangling, extraJson_of_directive hdirective]
      have hsaved : directiveEdge ((s.withoutNode r.target).demoteRow digits r) = true := by
        rw [directiveEdge_congr (by rw [hrow]) fun key hkey => get_demoteRow (hkeys key hkey),
          hdirective]
      have htier : ((s.withoutNode r.target).demoteRow digits r).extra.get "dangling_demoted_from" =
          some (.str r.tier.asStr) := by
        rw [hrow, Json.get_insert, if_neg (by decide), Json.get_insert, if_pos rfl]
      have hconfidence : ((s.withoutNode r.target).demoteRow digits r).extra.get
          "dangling_demoted_confidence" = some (.float (digits r.confidence)) := by
        rw [hrow, Json.get_insert, if_pos rfl]
      have hback : s.restorable ((s.withoutNode r.target).demoteRow digits r) = true := by
        rw [restorable, hsaved, Json.has, htier, target_demoteRow, hnode]
        rfl
      rw [restoreRow, if_pos hback]
      refine ⟨target_demoteRow _ r, ?_, .inr (.inl ⟨hdirective, ?_⟩)⟩
      · simp only [Json.getStr, htier, Option.bind_some, Json.asStr,
          ConfidenceTier.fromRaw_asStr]
      · simp only [hconfidence, Option.bind_some, Json.asFloat, Option.getD_some]
    · rw [demoteRow_of_not (Bool.not_eq_true _ ▸ hdangling), restoreRow_of_not hrestore]
      exact ⟨rfl, rfl, .inl rfl⟩

theorem isUnresolved_unresolvedTarget (symbol : String) :
    isUnresolved (unresolvedTarget symbol) = true := by
  rw [isUnresolved, unresolvedTarget, String.toList_append, String.toList_append,
    List.append_assoc, List.isPrefixOf_iff_prefix]
  exact List.prefix_append _ _

theorem of_settled_ref {symbol : String} {extra : Json}
    (href : markdownRef r = some (symbol, extra)) (himplicit : isImplicitCodeSpan extra = false)
    (hresolved : isUnresolved r.target = false) (h : s.loopRow r = some r) :
    ∃ language, s.symbolMatches symbol = [(r.target, language)] ∧ r.tier = .high ∧
      (0.8 = r.confidence ∨ storedMatches r 0.8 "HIGH" = true) := by
  have hconfidence : refConfidence extra = (0.8, .high) := by rw [refConfidence, himplicit]; rfl
  have hne : r.target ≠ unresolvedTarget symbol := fun heq => by
    rw [heq, isUnresolved_unresolvedTarget] at hresolved
    cases hresolved
  by_cases hsingle : ∃ node, s.symbolMatches symbol = [node]
  · obtain ⟨⟨target, language⟩, hnodes⟩ := hsingle
    rw [loopRow_of_single href hnodes, hconfidence] at h
    split at h
    · rename_i hskip
      simp only [Bool.and_eq_true, decide_eq_true_eq] at hskip
      obtain ⟨⟨⟨rfl, -⟩, hstored⟩, -⟩ := hskip
      refine ⟨language, hnodes, ?_, .inr hstored⟩
      simp only [storedMatches, Bool.and_eq_true, decide_eq_true_eq] at hstored
      have hraw := congrArg (fun raw => ConfidenceTier.fromRaw (some raw)) hstored.2
      simpa only [ConfidenceTier.fromRaw_asStr] using hraw
    · have hr := Option.some.inj h
      have htarget : target = r.target := congrArg EdgeRow.target hr
      have htier : (refConfidence extra).2 = r.tier := congrArg EdgeRow.tier hr
      have hfloat : (refConfidence extra).1 = r.confidence := congrArg EdgeRow.confidence hr
      rw [hconfidence] at htier hfloat
      exact ⟨language, htarget ▸ hnodes, htier.symm, .inl hfloat⟩
  · rw [loopRow_of_other href fun node heq => hsingle ⟨node, heq⟩, himplicit,
      if_neg Bool.false_ne_true] at h
    split at h
    · rename_i hstill
      simp only [Bool.and_eq_true, decide_eq_true_eq] at hstill
      exact absurd hstill.1 hne
    · exact absurd (congrArg EdgeRow.target (Option.some.inj h)).symm hne

theorem settleRow_ref_back {symbol : String} {extra : Json}
    (href : markdownRef r = some (symbol, extra)) (himplicit : isImplicitCodeSpan extra = false)
    (hresolved : isUnresolved r.target = false) (hnode : s.isNode r.target = true)
    (hloop : s.loopRow r = some r) (hrestore : s.restorable r = false) :
    ∃ mid r', (s.withoutNode r.target).settleRow digits r = some mid ∧
      s.settleRow digits mid = some r' ∧ SameEvidence digits r r' := by
  obtain ⟨language, hnodes, htier, hconfidence⟩ :=
    of_settled_ref href himplicit hresolved hloop
  obtain ⟨hkind, hextra, hget⟩ := refExtra_of_markdownRef href
  have hne : unresolvedTarget symbol ≠ r.target := fun heq => by
    rw [← heq, isUnresolved_unresolvedTarget] at hresolved
    cases hresolved
  have hevidence : ∀ key ∈ ["evidence_kind", "evidence_source"], key ∉ resolutionKeys := by decide
  have himplicit' : isImplicitCodeSpan (demotedExtra extra) = false := by
    rw [isImplicitCodeSpan_congr fun key hkey => get_demotedExtra (hevidence key hkey), himplicit]
  -- no row on the way is one to restore
  have hnothing : ∀ (t : Store) (row : EdgeRow), row.kind = r.kind →
      (∀ key ∉ refKeys, key ∉ resolutionKeys → row.extra.get key = r.extra.get key) →
      t.restorable row = false := by
    intro t row hrow hkeys
    have hdirective : directiveEdge row = directiveEdge r := directiveEdge_congr hrow
      fun key hkey => hkeys key
        ((by decide : ∀ key ∈ ["evidence_source", "markdown_directive_kind"], key ∉ refKeys)
          key hkey)
        ((by decide : ∀ key ∈ ["evidence_source", "markdown_directive_kind"],
          key ∉ resolutionKeys) key hkey)
    rw [restorable, hnode, Bool.and_true] at hrestore
    rw [restorable, hdirective, Json.has_congr (hkeys _ (by decide) (by decide)), hrestore,
      Bool.false_and]
  have hgone : (s.withoutNode r.target).loopRow r = some (demotedTo r symbol extra) := by
    have hnone := symbolMatches_withoutNode hnodes
    rw [loopRow_of_other href (by rw [hnone]; simp), himplicit, if_neg Bool.false_ne_true,
      decide_eq_false (Ne.symm hne), Bool.false_and, if_neg Bool.false_ne_true]
  have hmid : (s.withoutNode r.target).settleRow digits r = some (demotedTo r symbol extra) := by
    have hlow : (s.withoutNode r.target).dangling (demotedTo r symbol extra) = false := by
      simp [dangling, demotedTo]
    rw [settleRow, hgone, Option.map_some, restoreRow_of_not, demoteRow_of_not hlow]
    exact hnothing _ _ rfl fun key href' hres => (get_demotedExtra hres).trans (hget key href')
  have hback : s.loopRow (demotedTo r symbol extra) =
      some (resolvedTo (demotedTo r symbol extra) r.target language (demotedExtra extra)) := by
    have href' : markdownRef (demotedTo r symbol extra) = some (symbol, demotedExtra extra) :=
      markdownRef_of_refExtra hkind hextra.demoted
    have htarget : ¬ (demotedTo r symbol extra).target = r.target := hne
    rw [loopRow_of_single href' hnodes, decide_eq_false htarget, Bool.false_and, Bool.false_and,
      Bool.false_and, if_neg Bool.false_ne_true]
  refine ⟨_, resolvedTo (demotedTo r symbol extra) r.target language (demotedExtra extra), hmid,
    ?_, rfl, ?_, ?_⟩
  · have hkept : s.dangling (resolvedTo (demotedTo r symbol extra) r.target language
        (demotedExtra extra)) = false := not_dangling_of_isNode hnode
    rw [settleRow, hback, Option.map_some, restoreRow_of_not, demoteRow_of_not hkept]
    exact hnothing _ _ rfl fun key href' hres =>
      (get_resolvedExtra hres).trans ((get_demotedExtra hres).trans (hget key href'))
  · rw [htier, resolvedTo, refConfidence, himplicit']
    rfl
  · rw [resolvedTo, refConfidence, himplicit']
    exact hconfidence.imp_right .inr

/-- The target of an edge goes, the pass runs, the target is put back, the pass runs. -/
def roundTrip (digits : Float → Float) (s : Store) (target : String) : Store :=
  { (s.withoutNode target).resolveMarkdownArtifactRefs digits with
    nodes := s.nodes }.resolveMarkdownArtifactRefs digits

theorem settleRow_of_settled (hr : r ∈ s.edges.rows)
    (hsettled : r ∈ (s.resolveMarkdownArtifactRefs digits).edges.rows) :
    s.settleRow digits r = some r := by
  rw [resolveMarkdownArtifactRefs_rows, List.mem_filterMap] at hsettled
  obtain ⟨a, ha, hsettle⟩ := hsettled
  obtain rfl := List.inj_on_of_nodup_map s.edges.ids_nodup ha hr (id_settleRow hsettle).symm
  exact hsettle

/-- An edge the pass has settled on a node is there again after the node has been away, but
for an implicit code span. -/
theorem resolveMarkdownArtifactRefs_roundTrip (hr : r ∈ s.edges.rows)
    (hsettled : r ∈ (s.resolveMarkdownArtifactRefs digits).edges.rows)
    (hnode : s.isNode r.target = true)
    (href : markdownRef r ≠ none →
      isImplicitCodeSpan r.extra = false ∧ isUnresolved r.target = false) :
    ∃ r' ∈ (s.roundTrip digits r.target).edges.rows, r'.id = r.id ∧ SameEvidence digits r r' := by
  obtain ⟨hloop, hrestore⟩ := of_settled (settleRow_of_settled hr hsettled) hnode
  obtain ⟨mid, r', hmid, hback, hsame⟩ : ∃ mid r',
      (s.withoutNode r.target).settleRow digits r = some mid ∧
        s.settleRow digits mid = some r' ∧ SameEvidence digits r r' := by
    cases hsymbol : markdownRef r with
    | none => exact settleRow_directive_back hsymbol hnode hrestore
    | some ref =>
        obtain ⟨symbol, extra⟩ := ref
        obtain ⟨himplicit, hresolved⟩ := href (by rw [hsymbol]; simp)
        have hkeys : ∀ key ∈ ["evidence_kind", "evidence_source"], key ∉ refKeys := by decide
        have himplicit' : isImplicitCodeSpan extra = false := by
          rw [isImplicitCodeSpan_congr fun key hkey =>
            (refExtra_of_markdownRef hsymbol).2.2 key (hkeys key hkey), himplicit]
        exact settleRow_ref_back hsymbol himplicit' hresolved hnode hloop hrestore
  have hrows : mid ∈ ((s.withoutNode r.target).resolveMarkdownArtifactRefs digits).edges.rows := by
    rw [resolveMarkdownArtifactRefs_rows]
    exact List.mem_filterMap.mpr ⟨r, hr, hmid⟩
  refine ⟨r', ?_, (id_settleRow hback).trans (id_settleRow hmid), hsame⟩
  rw [roundTrip, resolveMarkdownArtifactRefs_rows]
  exact List.mem_filterMap.mpr ⟨mid, hrows, (congrFun (settleRow_congr rfl) mid).trans hback⟩

/-- A second run changes nothing, and what the pass has settled survives its target's
absence. -/
theorem resolveMarkdownArtifactRefs_stable (digits : Float → Float) (s : Store) :
    ((∀ r ∈ s.edges.rows, CleanRef r) →
      ((s.resolveMarkdownArtifactRefs digits).resolveMarkdownArtifactRefs digits).edges.rows =
        (s.resolveMarkdownArtifactRefs digits).edges.rows) ∧
    ∀ r ∈ s.edges.rows, r ∈ (s.resolveMarkdownArtifactRefs digits).edges.rows →
      s.isNode r.target = true →
      (markdownRef r ≠ none → isImplicitCodeSpan r.extra = false ∧ isUnresolved r.target = false) →
      ∃ r' ∈ (s.roundTrip digits r.target).edges.rows, r'.id = r.id ∧ SameEvidence digits r r' :=
  ⟨resolveMarkdownArtifactRefs_idem, fun _ => resolveMarkdownArtifactRefs_roundTrip⟩

/-- A guide that depends on a section of another one, and documents a class. -/
def guideStore (kind target : String) (extra : List (String × Json)) : Store where
  nodes := upsertNodes .empty
    [({ kind := "File", name := "setup.md", filePath := "setup.md" }, "", 0),
      ({ kind := "Section", name := "install", filePath := "setup.md" }, "", 0),
      ({ kind := "Class", name := "Parser", filePath := "lib.py", language := "python" }, "", 0)]
  edges := EdgeTable.empty.insert (EdgeInput.row
    { kind := kind, source := "guide.md", target := target, filePath := "guide.md", line := 3 }
    (.obj extra))

def directiveStore : Store :=
  guideStore "DEPENDS_ON" "setup.md::install" [("markdown_directive_kind", .str "depends")]

theorem directiveStore_stable :
    ((directiveStore.resolveMarkdownArtifactRefs id).resolveMarkdownArtifactRefs id).edges.rows =
        (directiveStore.resolveMarkdownArtifactRefs id).edges.rows ∧
      ∃ r ∈ directiveStore.edges.rows, r.target = "setup.md::install" ∧
        ∃ r' ∈ (directiveStore.roundTrip id "setup.md::install").edges.rows,
          SameEvidence id r r' := by
  have hrefs : directiveStore.edges.rows.all (fun r => (markdownRef r).isNone) = true := by decide
  have hnone : ∀ r ∈ directiveStore.edges.rows, markdownRef r = none := fun r hr =>
    Option.isNone_iff_eq_none.mp (List.all_eq_true.mp hrefs r hr)
  have hrows : (directiveStore.resolveMarkdownArtifactRefs id).edges.rows =
      directiveStore.edges.rows := rfl
  obtain ⟨hidem, hround⟩ := resolveMarkdownArtifactRefs_stable id directiveStore
  refine ⟨hidem fun r hr href => absurd (hnone r hr) href, ?_⟩
  have hr : directiveStore.edges.rows.head (by decide) ∈ directiveStore.edges.rows :=
    List.head_mem _
  obtain ⟨r', hr', -, hsame⟩ := hround _ hr (by rw [hrows]; exact hr) (by decide)
    fun href => absurd (hnone _ hr) href
  exact ⟨_, hr, rfl, r', hr', hsame⟩

def codeSpanStore : Store :=
  guideStore "CROSS_ARTIFACT" "lib.py::Parser"
    [("source_language", .str "markdown"), ("original_symbol_name", .str "Parser"),
      ("evidence_kind", .str "markdown_code_span"), ("evidence_source", .str "code_span")]

/-- A directive that names the class, with the tier of a dangling one. -/
def savedTierStore : Store :=
  guideStore "CROSS_ARTIFACT" "<unresolved:Parser>"
    [("source_language", .str "markdown"), ("original_symbol_name", .str "Parser"),
      ("evidence_source", .str "dagayn_directive"),
      ("dangling_demoted_from", .str "EXTRACTED"), ("dangling_demoted_confidence", .float 1.0)]

/-- A reference as it was extracted, before any run. -/
def freshStore : Store :=
  guideStore "CROSS_ARTIFACT" "lib.py::Parser"
    [("source_language", .str "markdown"), ("original_symbol_name", .str "Parser")]

/-- A code span is dropped with its target, a reference the pass has not settled yet comes
back with the tier of a run, and one with a saved tier gets it in the first run and loses it
in the second. -/
theorem not_stable_codeSpan_savedTier :
    (codeSpanStore.edges.rows.length = 1 ∧
      (codeSpanStore.roundTrip id "lib.py::Parser").edges.rows = []) ∧
    (freshStore.edges.rows.map EdgeRow.tier = [.extracted] ∧
      (freshStore.roundTrip id "lib.py::Parser").edges.rows.map EdgeRow.tier = [.high]) ∧
    ((savedTierStore.resolveMarkdownArtifactRefs id).resolveMarkdownArtifactRefs id).edges.rows ≠
      (savedTierStore.resolveMarkdownArtifactRefs id).edges.rows := by
  refine ⟨⟨by decide, rfl⟩, ⟨by decide, by decide⟩, fun hsame => ?_⟩
  obtain ⟨r, hr⟩ : ∃ r, (savedTierStore.resolveMarkdownArtifactRefs id).edges.rows = [r] := ⟨_, rfl⟩
  have hmem : r ∈ (savedTierStore.resolveMarkdownArtifactRefs id).edges.rows := by
    rw [hr]
    exact List.mem_singleton_self _
  have hall : (savedTierStore.resolveMarkdownArtifactRefs id).edges.rows.all (fun r =>
      r.tier = .extracted && !isUnresolved r.target &&
      (savedTierStore.resolveMarkdownArtifactRefs id).isNode r.target &&
      (markdownRef r).any fun ref => !isImplicitCodeSpan ref.2) = true := by decide
  have hrow := List.all_eq_true.mp hall r hmem
  simp only [Bool.and_eq_true, Bool.not_eq_true', decide_eq_true_eq] at hrow
  obtain ⟨⟨⟨htier, hresolved⟩, hnode⟩, href⟩ := hrow
  obtain ⟨ref, href, himplicit⟩ := (Option.any_eq_true _ _).mp href
  have hkept := settleRow_of_settled hmem (by rw [hsame]; exact hmem)
  obtain ⟨-, -, hhigh, -⟩ := of_settled_ref href (Bool.not_eq_true' _ ▸ himplicit) hresolved
    (of_settled hkept hnode).1
  exact absurd (htier.symm.trans hhigh) (by decide)

end Store

end Dagayn
