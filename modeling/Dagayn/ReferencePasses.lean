import Dagayn.CallTargets
import Dagayn.SameFileCalls
import Dagayn.TerraformBridges

/-!
# Terraform references and edges without an end

Two passes that follow each other. `resolve_terraform_module_references` binds the bare target of
a reference to the one declaration of that name in the module, which is a directory, and
`demote_unresolved_endpoint_edges` lowers the tier of what still names no node. Both judge every
edge by itself, so their result can be read off edge by edge (`settleReferences_spec`), and
what they have settled they leave alone (`settleReferences_idem`).
-/

namespace Dagayn

namespace Store

/-! ## The passes -/

def terraformModuleScopeConfidence : Float := 0.8

/-- The declarations by name, each with its module. -/
def terraformIndex (s : Store) : Dict String (List (String × String)) :=
  Grouping.multimap ((s.nodes.rows.filter fun n =>
    n.input.language = "terraform" && n.input.kind ≠ "File").map fun n =>
      (n.input.name, (TerraformBridges.moduleDirOf n.input.filePath, n.qualifiedName)))

/-- The rows that the pass selects. -/
def bareReference (s : Store) (r : EdgeRow) : Bool :=
  r.kind = "REFERENCES" && !hasScope r.target && s.nodes.rows.any fun f =>
    f.qualifiedName = r.filePath && f.input.kind = "File" && f.input.language = "terraform"

def moduleBinding (s : Store) (r : EdgeRow) : Option EdgeWrite :=
  match (s.terraformIndex.getD r.target []).filter fun c =>
      c.1 = TerraformBridges.moduleDirOf r.filePath with
  | [(_, qualified)] => some (.retarget qualified none terraformModuleScopeConfidence .high)
  | _ => none

def resolveTerraformModuleReferences (s : Store) : Store × Nat :=
  s.rewrite s.bareReference fun _ => s.moduleBinding

def nodeQualifiedEdgeKinds : List String :=
  ["CALLS", "INHERITS", "IMPLEMENTS", "CONTAINS", "REFERENCES", "TESTED_BY"]

/-- An edge into a package keeps the tier that its extractor gave it. -/
def danglingEdge (s : Store) (r : EdgeRow) : Bool :=
  r.kind ∈ nodeQualifiedEdgeKinds && r.tier ∉ [ConfidenceTier.low, .unknown] &&
    !(r.extra.isOne "external" && r.extra.has "confidence_tier") &&
    (Bridges.likeUnresolved r.target || Bridges.likeUnresolved r.source ||
      !s.isNode r.target || !s.isNode r.source)

def demoteUnresolvedEndpointEdges (s : Store) : Store × Nat :=
  ({ s with edges := s.edges.updateWhere s.danglingEdge fun r =>
      { r with confidence := min r.confidence 0.2, tier := .low } },
    (s.edges.rows.filter s.danglingEdge).length)

/-- The two steps of the pipeline. -/
def settleReferences (s : Store) : Store :=
  s.resolveTerraformModuleReferences.1.demoteUnresolvedEndpointEdges.1

/-! ## Edge by edge -/

variable {s s' : Store} {r : EdgeRow} {n n' : NodeRow}

/-- A declaration of the name in the module of the edge's file. -/
structure Declares (s : Store) (r : EdgeRow) (n : NodeRow) : Prop where
  row : n ∈ s.nodes.rows
  language : n.input.language = "terraform"
  kind : n.input.kind ≠ "File"
  name : n.input.name = r.target
  module : TerraformBridges.moduleDirOf n.input.filePath =
    TerraformBridges.moduleDirOf r.filePath

/-- It is the only one. -/
def DeclaresAlone (s : Store) (r : EdgeRow) (n : NodeRow) : Prop :=
  s.Declares r n ∧ ∀ n', s.Declares r n' → n' = n

theorem moduleCandidates_eq (s : Store) (r : EdgeRow) :
    (s.terraformIndex.getD r.target []).filter (fun c =>
      c.1 = TerraformBridges.moduleDirOf r.filePath) =
    (s.nodes.rows.filter fun n => n.input.language = "terraform" && n.input.kind ≠ "File" &&
      n.input.name = r.target && TerraformBridges.moduleDirOf n.input.filePath =
        TerraformBridges.moduleDirOf r.filePath).map fun n =>
      (TerraformBridges.moduleDirOf n.input.filePath, n.qualifiedName) := by
  rw [terraformIndex, Grouping.getD_multimap, List.filter_map, List.filter_map, List.filter_map,
    List.map_map, List.filter_filter, List.filter_filter]
  refine congrArg _ (List.filter_congr fun n _ => ?_)
  simp only [Function.comp_apply]
  cases decide (n.input.name = r.target) <;>
    cases decide (TerraformBridges.moduleDirOf n.input.filePath =
      TerraformBridges.moduleDirOf r.filePath) <;> simp

theorem moduleBinding_eq_some {w : EdgeWrite} : s.moduleBinding r = some w ↔
    ∃ n, s.DeclaresAlone r n ∧
      w = .retarget n.qualifiedName none terraformModuleScopeConfidence .high := by
  rw [moduleBinding, moduleCandidates_eq]
  have hmem : ∀ n, n ∈ s.nodes.rows.filter (fun n => n.input.language = "terraform" &&
      n.input.kind ≠ "File" && n.input.name = r.target &&
        TerraformBridges.moduleDirOf n.input.filePath =
          TerraformBridges.moduleDirOf r.filePath) ↔ s.Declares r n := by
    intro n
    simp only [List.mem_filter, Bool.and_eq_true, decide_eq_true_eq]
    exact ⟨fun ⟨hrow, ⟨⟨hlanguage, hkind⟩, hname⟩, hmodule⟩ =>
      ⟨hrow, hlanguage, hkind, hname, hmodule⟩,
      fun h => ⟨h.row, ⟨⟨h.language, h.kind⟩, h.name⟩, h.module⟩⟩
  have hnodup := (List.Nodup.of_map _ s.nodes.names_nodup).filter fun n =>
    n.input.language = "terraform" && n.input.kind ≠ "File" && n.input.name = r.target &&
      TerraformBridges.moduleDirOf n.input.filePath = TerraformBridges.moduleDirOf r.filePath
  generalize s.nodes.rows.filter _ = found at hmem hnodup ⊢
  constructor
  · intro h
    split at h
    · rename_i heq
      obtain ⟨n, rfl, hn⟩ := List.map_eq_singleton_iff.mp heq
      obtain ⟨-, rfl⟩ := Prod.mk.inj hn
      refine ⟨n, ⟨(hmem n).mp List.mem_cons_self, fun n' hn' => ?_⟩, (Option.some.inj h).symm⟩
      exact List.mem_singleton.mp ((hmem n').mpr hn')
    · cases h
  · rintro ⟨n, ⟨hn, hone⟩, rfl⟩
    have hfound : found = [n] := by
      refine List.perm_singleton.mp ((List.perm_ext_iff_of_nodup hnodup
        (List.nodup_singleton n)).mpr fun n' => ?_)
      rw [hmem, List.mem_singleton]
      exact ⟨hone n', fun h => h ▸ hn⟩
    rw [hfound]
    rfl

def boundRow (s : Store) (r : EdgeRow) : EdgeRow :=
  if s.bareReference r then rewritten r (s.moduleBinding r) else r

def demotedRow (s : Store) (r : EdgeRow) : EdgeRow :=
  if s.danglingEdge r then { r with confidence := min r.confidence 0.2, tier := .low } else r

theorem resolveTerraformModuleReferences_nodes :
    s.resolveTerraformModuleReferences.1.nodes = s.nodes := rewriteRows_nodes _ s 0

theorem danglingEdge_congr (h : s'.nodes = s.nodes) : s'.danglingEdge = s.danglingEdge := by
  funext r
  simp only [danglingEdge, isNode, h]

theorem settleReferences_rows (s : Store) :
    s.settleReferences.edges.rows = s.edges.rows.map fun r => s.demotedRow (s.boundRow r) := by
  have hrows : s.resolveTerraformModuleReferences.1.edges.rows = s.edges.rows.map s.boundRow :=
    rewrite_rows s s.bareReference s.moduleBinding
  rw [settleReferences, demoteUnresolvedEndpointEdges]
  simp only [EdgeTable.updateWhere, hrows, List.map_map,
    danglingEdge_congr resolveTerraformModuleReferences_nodes]
  refine List.map_congr_left fun r _ => ?_
  simp only [Function.comp_apply, demotedRow]

theorem boundRow_cases (s : Store) (r : EdgeRow) :
    (∃ n, s.DeclaresAlone r n ∧ s.bareReference r = true ∧ s.boundRow r = { r with
      target := n.qualifiedName, targetName := edgeTargetName n.qualifiedName
      confidence := terraformModuleScopeConfidence, tier := .high }) ∨
    (s.boundRow r = r ∧ (s.bareReference r = true → ∀ n, ¬ s.DeclaresAlone r n)) := by
  unfold boundRow
  by_cases hbare : s.bareReference r = true
  · rw [if_pos hbare]
    cases hbinding : s.moduleBinding r with
    | some w =>
        obtain ⟨n, halone, rfl⟩ := moduleBinding_eq_some.mp hbinding
        exact .inl ⟨n, halone, hbare, rfl⟩
    | none =>
        refine .inr ⟨rfl, fun _ n halone => ?_⟩
        rw [moduleBinding_eq_some.mpr ⟨n, halone, rfl⟩] at hbinding
        cases hbinding
  · rw [if_neg hbare]
    exact .inr ⟨rfl, fun h => absurd h hbare⟩

theorem demotedRow_cases (s : Store) (r : EdgeRow) :
    (s.danglingEdge r = true ∧
      s.demotedRow r = { r with confidence := min r.confidence 0.2, tier := .low }) ∨
    (s.danglingEdge r = false ∧ s.demotedRow r = r) := by
  unfold demotedRow
  cases s.danglingEdge r with
  | true => exact .inl ⟨rfl, rfl⟩
  | false => exact .inr ⟨rfl, rfl⟩

theorem danglingEdge_demotedRow (s : Store) (r : EdgeRow) :
    s.danglingEdge (s.demotedRow r) = false := by
  rcases s.demotedRow_cases r with ⟨-, heq⟩ | ⟨hnot, heq⟩
  · rw [heq]
    simp [danglingEdge]
  · rw [heq, hnot]

/-- The columns that neither pass writes. -/
def sameEnds (r r' : EdgeRow) : Prop :=
  r'.id = r.id ∧ r'.kind = r.kind ∧ r'.source = r.source ∧ r'.filePath = r.filePath ∧
    r'.line = r.line ∧ r'.extra = r.extra

theorem sameEnds_settled (s : Store) (r : EdgeRow) : sameEnds r (s.demotedRow (s.boundRow r)) := by
  rcases s.demotedRow_cases (s.boundRow r) with ⟨-, heq⟩ | ⟨-, heq⟩ <;>
    rcases s.boundRow_cases r with ⟨n, -, -, hbound⟩ | ⟨hbound, -⟩ <;>
    rw [heq, hbound] <;> exact ⟨rfl, rfl, rfl, rfl, rfl, rfl⟩

theorem target_demotedRow (s : Store) (r : EdgeRow) : (s.demotedRow r).target = r.target := by
  rcases s.demotedRow_cases r with ⟨-, heq⟩ | ⟨-, heq⟩ <;> rw [heq]

theorem danglingEdge_boundRow (hsource : s.isNode r.source = true)
    (hmarks : Bridges.likeUnresolved r.source = false ∧
      Bridges.likeUnresolved n.qualifiedName = false) (halone : s.DeclaresAlone r n)
    (hbound : s.boundRow r = { r with
      target := n.qualifiedName, targetName := edgeTargetName n.qualifiedName
      confidence := terraformModuleScopeConfidence, tier := .high }) :
    s.demotedRow (s.boundRow r) = s.boundRow r := by
  rcases s.demotedRow_cases (s.boundRow r) with ⟨hdangling, -⟩ | ⟨-, heq⟩
  · have hnode : s.isNode n.qualifiedName = true :=
      isNode_iff.mpr (List.mem_map_of_mem halone.1.row)
    rw [hbound] at hdangling
    simp [danglingEdge, hsource, hmarks.1, hmarks.2, hnode] at hdangling
  · exact heq

/-- The two steps write targets and tiers only. A bare reference whose name one declaration of the
module has leads to that declaration, at `HIGH` whatever tier an earlier run has left it; every
other edge keeps its target, and no edge of the six kinds is left at a tier above `LOW` with an
end that is no node. -/
theorem settleReferences_spec (s : Store) :
    s.settleReferences.nodes = s.nodes ∧
    s.settleReferences.edges.rows = s.edges.rows.map (fun r => s.demotedRow (s.boundRow r)) ∧
    ∀ r, sameEnds r (s.demotedRow (s.boundRow r)) ∧
      s.danglingEdge (s.demotedRow (s.boundRow r)) = false ∧
      (∀ n, s.bareReference r = true → s.DeclaresAlone r n →
        (s.demotedRow (s.boundRow r)).target = n.qualifiedName ∧
        (s.isNode r.source = true → Bridges.likeUnresolved r.source = false →
          Bridges.likeUnresolved n.qualifiedName = false →
            (s.demotedRow (s.boundRow r)).tier = .high)) ∧
      ((s.bareReference r = true → ∀ n, ¬ s.DeclaresAlone r n) →
        (s.demotedRow (s.boundRow r)).target = r.target) := by
  refine ⟨resolveTerraformModuleReferences_nodes, settleReferences_rows s, fun r =>
    ⟨sameEnds_settled s r, danglingEdge_demotedRow s _, fun n hbare halone => ?_, fun hnone => ?_⟩⟩
  · obtain ⟨n', halone', -, hbound⟩ | ⟨-, hnone⟩ := s.boundRow_cases r
    · obtain rfl : n' = n := halone.2 n' halone'.1
      refine ⟨(target_demotedRow s _).trans (congrArg EdgeRow.target hbound),
        fun hsource hmark hmark' => ?_⟩
      rw [danglingEdge_boundRow hsource ⟨hmark, hmark'⟩ halone hbound, hbound]
    · exact absurd halone (hnone hbare n)
  · obtain ⟨n, halone, hbare, -⟩ | ⟨hbound, -⟩ := s.boundRow_cases r
    · exact absurd halone (hnone hbare n)
    · rw [target_demotedRow, hbound]

theorem hasScope_qualified (hkind : n.input.kind ≠ "File")
    (hname : n.qualifiedName = n.input.qualified) : hasScope n.qualifiedName = true := by
  rw [hname, NodeInput.qualified]
  unfold makeQualifiedParts
  rw [if_neg hkind, hasScope]
  split
  · rw [String.append_assoc, String.append_assoc, String.append_assoc, String.toList_append,
      String.toList_append]
    exact SameFileCalls.isSome_splitFirst (by decide) _ _
  · rw [String.append_assoc, String.toList_append, String.toList_append]
    exact SameFileCalls.isSome_splitFirst (by decide) _ _

theorem boundRow_settled (hnames : ∀ n ∈ s.nodes.rows, n.qualifiedName = n.input.qualified) :
    s.boundRow (s.demotedRow (s.boundRow r)) = s.demotedRow (s.boundRow r) := by
  obtain ⟨-, hkind, -, hfile, -, -⟩ := sameEnds_settled s r
  have htarget := target_demotedRow s (s.boundRow r)
  generalize s.demotedRow (s.boundRow r) = r' at *
  rcases s.boundRow_cases r' with ⟨n', halone', hbare', -⟩ | ⟨hbound', -⟩
  · rcases s.boundRow_cases r with ⟨n, halone, -, hbound⟩ | ⟨hbound, hnone⟩
    · -- the target is qualified by now
      have hscope := hasScope_qualified halone.1.kind (hnames n halone.1.row)
      rw [hbound] at htarget
      simp [bareReference, htarget, hscope] at hbare'
    · rw [hbound] at htarget
      have hbare : s.bareReference r = true := by
        rwa [bareReference, hkind, htarget, hfile] at hbare'
      have hsame : ∀ n, s.Declares r' n ↔ s.Declares r n := fun n =>
        ⟨fun h => ⟨h.row, h.language, h.kind, h.name.trans htarget, hfile ▸ h.module⟩,
          fun h => ⟨h.row, h.language, h.kind, h.name.trans htarget.symm, hfile ▸ h.module⟩⟩
      refine absurd ⟨(hsame n').mp halone'.1, fun n hn => ?_⟩ (hnone hbare n')
      exact halone'.2 n ((hsame n).mpr hn)
  · exact hbound'

/-- Where the nodes are stored under their own names, a second run finds nothing to do. -/
theorem settleReferences_idem
    (hnames : ∀ n ∈ s.nodes.rows, n.qualifiedName = n.input.qualified) :
    s.settleReferences.settleReferences.edges.rows = s.settleReferences.edges.rows := by
  have hnodes : s.settleReferences.nodes = s.nodes := resolveTerraformModuleReferences_nodes
  have hbound : s.settleReferences.boundRow = s.boundRow := by
    funext r
    simp only [boundRow, bareReference, moduleBinding, terraformIndex, hnodes]
    rfl
  have hdemoted : s.settleReferences.demotedRow = s.demotedRow := by
    funext r
    rw [demotedRow, demotedRow, danglingEdge_congr hnodes]
  rw [settleReferences_rows s.settleReferences, hbound, hdemoted, settleReferences_rows s,
    List.map_map]
  refine List.map_congr_left fun r _ => ?_
  rw [Function.comp_apply, boundRow_settled hnames]
  rcases s.demotedRow_cases (s.demotedRow (s.boundRow r)) with ⟨hdangling, -⟩ | ⟨-, heq⟩
  · rw [danglingEdge_demotedRow] at hdangling
    cases hdangling
  · exact heq

/-- `main.tf` refers to a variable that `vars.tf` declares. -/
def moduleStore : Store where
  nodes := [("File", "main.tf", "main.tf"), ("File", "vars.tf", "vars.tf"),
      ("Class", "var.region", "vars.tf")].foldl (fun t n =>
    t.upsert { kind := n.1, name := n.2.1, filePath := n.2.2, language := "terraform" } "" 0 true)
    .empty
  edges := EdgeTable.empty.insert (EdgeInput.row
    { kind := "REFERENCES", source := "main.tf", target := "var.region", filePath := "main.tf"
      line := 1 } (.obj []))

theorem settleReferences_idem_module :
    moduleStore.settleReferences.edges.rows.map (·.target) = ["vars.tf::var.region"] ∧
      moduleStore.settleReferences.settleReferences.edges.rows =
        moduleStore.settleReferences.edges.rows :=
  ⟨by decide +kernel, settleReferences_idem (forall_mem_of_all (by decide +kernel))⟩

end Store

end Dagayn
