import Dagayn.Bridges
import Dagayn.DepthFirst
import Dagayn.JsonFields
import Dagayn.Sorted
import Dagayn.Visibility
import Mathlib

/-!
# From Terraform to code

`resolve_terraform_artifact_refs` joins the values that the parser recorded on Terraform blocks
to the code they name. A value counts when it ends up in a sink: `Takes` says which values take
which, and the walk of `Flows` finds the sinks behind it (`reached_spec`). The edges are removed
and written anew in each run, so what a run leaves depends on the nodes alone
(`resolve_replaces`), and they are those that `Bridged` asks for, each once
(`bridged_of_resolve`).
-/

namespace Dagayn

namespace TerraformBridges

/-! ## Recorded values -/

inductive SinkRole where
  | codePath
  | entrypoint
  | command
deriving DecidableEq

def SinkRole.parse : String → Option SinkRole
  | "code_path" => some .codePath
  | "entrypoint" => some .entrypoint
  | "command" => some .command
  | _ => none

/-- The place among the variants, which orders the roles. -/
def SinkRole.rank : SinkRole → Nat
  | .codePath => 0
  | .entrypoint => 1
  | .command => 2

inductive Slot where
  | sink (role : SinkRole)
  /-- An input of a module call: `var.<attr>` in the module's directory. -/
  | moduleInput
  /-- `local.<attr>` in the value's directory. -/
  | locals
deriving DecidableEq

structure TerraformValue where
  node : String
  filePath : String
  dir : String
  moduleDir : Option String
  slot : Slot
  attr : String
  lines : Int × Int
  paths : List String
  symbol : Option String
  refs : List String
deriving DecidableEq

def moduleDirOf (filePath : String) : String := ((rsplitOnce "/" filePath).map Prod.fst).getD ""

/-- `value[key].as_array()`, empty for what is no array. -/
def itemsOf (value : Json) (key : String) : List Json := ((value.get key).bind Json.asList).getD []

def slotOf (value : Json) : Option Slot :=
  match value.getStr "slot" with
  | some "sink" => ((value.getStr "role").bind SinkRole.parse).map .sink
  | some "module_input" => some .moduleInput
  | some "local" => some .locals
  | _ => none

def stringsOf (value : Json) (key : String) : List String :=
  (itemsOf value key).filterMap Json.asStr

/-- `as_i64`. -/
def asI64 : Json → Option Int
  | .int n => if -2 ^ 63 ≤ n ∧ n < 2 ^ 63 then some n else none
  | _ => none

def lineOf (value : Json) (index : Nat) : Int :=
  (((itemsOf value "lines")[index]?).bind asI64).getD 0

/-- The rows that `load_values` selects. A row without either key, which the query leaves out,
holds no value and calls no module. -/
def terraformRows (s : Store) : List NodeRow :=
  sortBy (fun r : NodeRow => toLex (r.input.filePath, toLex (r.input.lineStart, r.qualifiedName)))
    (s.nodes.rows.filter (·.input.language = "terraform"))

def recordedValue (r : NodeRow) (value : Json) (slot : Slot) : TerraformValue where
  node := r.qualifiedName
  filePath := r.input.filePath
  dir := moduleDirOf r.input.filePath
  moduleDir := r.input.extra.getStr "module_dir"
  slot := slot
  attr := (value.getStr "attr").getD ""
  lines := (lineOf value 0, lineOf value 1)
  paths := stringsOf value "paths"
  symbol := value.getStr "symbol"
  refs := stringsOf value "refs"

structure ModuleCall where
  node : String
  filePath : String
  line : Int
  dir : String

structure Recorded where
  values : List TerraformValue
  moduleCalls : List ModuleCall

def loadValues (s : Store) : Recorded where
  values := (terraformRows s).flatMap fun r =>
    (itemsOf r.input.extra "terraform_values").filterMap fun value =>
      (slotOf value).map (recordedValue r value)
  moduleCalls := (terraformRows s).filterMap fun r =>
    (r.input.extra.getStr "module_dir").map fun dir =>
      { node := r.qualifiedName, filePath := r.input.filePath, line := r.input.lineStart, dir }

/-! ## Flows -/

/-- A directory and `var.x` or `local.x` in it. -/
abbrev SlotName := String × String

/-- A sink: how it is read and where (`node.attr`). -/
abbrev Sink := SinkRole × String

/-- What a value is called where others take it. -/
def TerraformValue.name (value : TerraformValue) : Option SlotName :=
  match value.slot with
  | .sink _ => none
  | .locals => some (value.dir, "local." ++ value.attr)
  | .moduleInput => value.moduleDir.map fun dir => (dir, "var." ++ value.attr)

def TerraformValue.sinks (value : TerraformValue) : List Sink :=
  match value.slot with
  | .sink role => [(role, value.node ++ "." ++ value.attr)]
  | _ => []

def takers (values : List TerraformValue) : Dict SlotName (List TerraformValue) :=
  Grouping.multimap (values.flatMap fun value => value.refs.map fun r => ((value.dir, r), value))

def flows (values : List TerraformValue) : DepthFirst TerraformValue SlotName Sink where
  place value := match value.name with
    | some name => .inl name
    | none => .inr value.sinks
  next name := (takers values).getD name []

def sinkKey (sink : Sink) : Nat ×ₗ String := toLex (sink.1.rank, sink.2)

/-- `BTreeSet`. -/
def sinkSet (found : List Sink) : List Sink := dedupAdjacent (sortBy sinkKey found)

/-- The recursion of `walk` opens no more names than there are values. -/
def reached (values : List TerraformValue) (value : TerraformValue) : List Sink :=
  sinkSet ((((flows values).walk (values.length + 1) value ⟨[], []⟩).map (·.found)).getD [])

/-! ## Edges -/

structure Bridge where
  source : String
  target : String
  filePath : String
  line : Int
  extra : Json

def terraformBridgesExtractor : String := "terraform_bridges"

def terraformModulesExtractor : String := "terraform_modules"

def terraformBridgeConfidence : Float := 0.8

def terraformUnresolvedConfidence : Float := 0.2

def bindingExtra (reached : List Sink) (binding : String) (extra : Json) : Json :=
  (extra.insert "binding" (.str binding)).insert "consumers" (.arr (reached.map (.str ·.2)))

def bridgeExtra (value : TerraformValue) (reached : List Sink)
    (role bridgeKind evidence : String) : Json :=
  let extra : Json := .obj [
    ("relationship_role", .str role), ("bridge_kind", .str bridgeKind),
    ("evidence_kind", .str evidence), ("evidence_source", .str value.attr),
    ("source_language", .str "terraform"), ("target_language", .str "unknown"),
    ("confidence", .float terraformBridgeConfidence),
    ("confidence_tier", .str ConfidenceTier.high.asStr),
    ("extractor", .str terraformBridgesExtractor),
    ("attr_lines", .arr [.int value.lines.1, .int value.lines.2])]
  match value.slot with
  | .sink _ => extra
  | .moduleInput => bindingExtra reached "module_input" extra
  | .locals => bindingExtra reached "local" extra

def endsWith (text ending : String) : Bool := ending.toList.isSuffixOf text.toList

def targetLanguageForPath (path : String) : String :=
  let lower := asciiLowercase path
  if endsWith lower ".py" then "python"
  else if endsWith lower ".js" || endsWith lower ".mjs" || endsWith lower ".cjs" then "javascript"
  else if endsWith lower ".ts" || endsWith lower ".tsx" then "typescript"
  else if endsWith lower ".go" then "go"
  else if endsWith lower ".rs" then "rust"
  else if endsWith lower ".sh" || endsWith lower ".bash" then "bash"
  else "unknown"

def archiveExtensions : List String := [".zip", ".jar", ".whl", ".tar.gz", ".tgz"]

/-- The checked-out repository: the root that the metadata names, and the files under it on the
disk. -/
structure Tree where
  root : Option String
  isFile : String → String → Bool

def Tree.hasArchive (tree : Tree) (path : String) : Bool :=
  archiveExtensions.any (endsWith (asciiLowercase path)) && path.toList.head? != some '/' &&
    tree.root.any fun root => tree.isFile root path

def codeFiles (s : Store) : List String :=
  (s.nodes.rows.filter fun r =>
    r.input.kind = "File" && r.input.language ∉ ["markdown", "terraform"]).map (·.input.filePath)

/-- The file is under the directory. -/
def isBelow (dir file : String) : Bool := (dir ++ "/").toList.isPrefixOf file.toList

inductive PathTarget where
  | file
  | directory (files : List String)
  | unindexed

def pathTarget (s : Store) (path : String) : PathTarget :=
  let files := sortBy id ((codeFiles s).filter fun file => file = path || isBelow path file)
  if path ∈ files then .file else if files = [] then .unindexed else .directory files

def pathKind (reached : List Sink) : Option (String × String × String) :=
  if reached.any (·.1 = .codePath) then some ("maps_entrypoint", "manifest_link", "config")
  else if reached.any (·.1 = .command) then some ("invokes_binary", "subprocess", "syntax")
  else none

def pathTargets (s : Store) (tree : Tree) (path : String) : List String :=
  match pathTarget s path with
  | .directory files => files
  | .file => [path]
  | .unindexed => if tree.hasArchive path then [path] else []

def pathBridges (s : Store) (tree : Tree) (value : TerraformValue) (reached : List Sink) :
    List Bridge :=
  match pathKind reached with
  | none => []
  | some (role, bridgeKind, evidence) =>
      value.paths.flatMap fun path => (pathTargets s tree path).map fun target =>
        { source := value.node, target, filePath := value.filePath, line := value.lines.1
          extra := ((bridgeExtra value reached role bridgeKind evidence).insert "target_language"
            (.str (targetLanguageForPath target))).insert "reference" (.str path) }

/-! ## Handlers -/

inductive HandlerScope where
  | repository
  | paths (paths : List String)
  | elsewhere

def PathTarget.indexed : PathTarget → Bool
  | .unindexed => false
  | _ => true

def handlerScope (s : Store) (codePaths : List String) : HandlerScope :=
  if codePaths = [] then .repository
  else
    let inTree := codePaths.filter fun path => (pathTarget s path).indexed
    if inTree = [] then .elsewhere else .paths inTree

def moduleMatchesFile (module filePath : String) : Bool :=
  if filePath = "" then false
  else
    let path := filePath.toList.map fun c => if c = '\\' then '/' else c
    let parts := path.splitOn '/'
    let name := parts.getLastD []
    let stem := ((splitLast ['.'] name).map Prod.fst).getD name
    stem = module.toList || parts.dropLast.any (· = module.toList)

def underAny (filePath : String) (paths : List String) : Bool :=
  paths.any fun path => filePath = path || isBelow path filePath

/-- The module and the name that a handler says; `none` where it can name no function. -/
def handlerParts (symbol : String) : Option (Option String × String) :=
  let symbol := Bridges.trimText symbol
  if symbol = "" || symbol.toList.head? = some '<' then none
  else
    match rsplitOnce "." symbol with
    | some (module, name) => if module = "" || name = "" then none else some (some module, name)
    | none => some (none, symbol)

def HandlerScope.admits : HandlerScope → NodeRow → Bool
  | .repository, r => r.input.kind ∈ ["Function", "Test"]
  | .paths inTree, r =>
      r.input.kind ∈ ["Function", "Test", "Class"] && underAny r.input.filePath inTree
  | .elsewhere, _ => false

def entrypointMatches (s : Store) (symbol : String) (scope : HandlerScope) : List NodeRow :=
  match handlerParts symbol with
  | none => []
  | some (module, name) => s.nodes.rows.filter fun r =>
      r.input.name = name && r.input.language ∉ ["markdown", "terraform"] && scope.admits r &&
        module.all fun module => moduleMatchesFile module r.input.filePath

/-- The one node that a handler names, with its language. -/
def entrypointMatch (s : Store) (symbol : String) (scope : HandlerScope) :
    Option (String × String) :=
  match entrypointMatches s symbol scope with
  | [r] => some (r.qualifiedName, r.input.language)
  | _ => none

/-- With whether the handler is bound, which `counts` counts. -/
def entrypointBridge (s : Store) (value : TerraformValue) (reached : List Sink) (symbol : String)
    (scope : HandlerScope) : Bridge × Bool :=
  let extra := (bridgeExtra value reached "maps_entrypoint" "manifest_link" "config").insert
    "original_symbol_name" (.str symbol)
  match entrypointMatch s symbol scope with
  | some (qualifiedName, language) =>
      ({ source := value.node, target := qualifiedName, filePath := value.filePath
         line := value.lines.1, extra := extra.insert "target_language" (.str language) }, true)
  | none =>
      ({ source := value.node, target := "<unresolved:" ++ symbol ++ ">"
         filePath := value.filePath, line := value.lines.1
         extra := (extra.insert "confidence" (.float terraformUnresolvedConfidence)).insert
           "confidence_tier" (.str ConfidenceTier.low.asStr) }, false)

def reaches (values : List TerraformValue) (value : TerraformValue) (role : SinkRole) : Bool :=
  (reached values value).any (·.1 = role)

/-- The code that a block names, through any of its values. -/
def codePaths (values : List TerraformValue) (node : String) : List String :=
  (values.filter fun v => v.node = node && reaches values v .codePath).flatMap (·.paths)

def handlerBridge (s : Store) (values : List TerraformValue) (value : TerraformValue) :
    Option (Bridge × Bool) :=
  match value.symbol with
  | some symbol =>
      if reaches values value .entrypoint then
        some (entrypointBridge s value (reached values value) symbol
          (handlerScope s (codePaths values value.node)))
      else none
  | none => none

def bridgesFor (s : Store) (tree : Tree) (values : List TerraformValue) :
    List Bridge × (Nat × Nat) :=
  let bound := (values.filterMap (handlerBridge s values)).map Prod.snd
  (values.flatMap fun value => pathBridges s tree value (reached values value) ++
      ((handlerBridge s values value).map Prod.fst).toList,
    (bound.count true, bound.count false))

def filesByDir (s : Store) : Dict String (List String) :=
  Grouping.multimap ((sortBy id ((s.nodes.rows.filter fun r =>
    r.input.kind = "File" && r.input.language = "terraform").map (·.input.filePath))).map
      fun file => (moduleDirOf file, file))

def moduleSourceEdges (s : Store) (moduleCalls : List ModuleCall) : List Bridge :=
  moduleCalls.flatMap fun call => ((filesByDir s).getD call.dir []).map fun file =>
    { source := call.node, target := file, filePath := call.filePath, line := call.line
      extra := .obj [("extractor", .str terraformModulesExtractor),
        ("module_dir", .str call.dir)] }

/-! ## The pass -/

/-- The row of `INSERT INTO edges`; the table gives it an id. -/
def Bridge.row (b : Bridge) (kind : String) (confidence : Float) (tier : String) : EdgeRow where
  id := 0
  kind := kind
  source := b.source
  target := b.target
  targetName := edgeTargetName b.target
  filePath := b.filePath
  line := b.line
  extra := extraJson b.extra
  confidence := confidence
  tier := .fromRaw (some tier)

def bridgeRow (b : Bridge) : EdgeRow :=
  b.row "CROSS_ARTIFACT"
    (((b.extra.get "confidence").bind Json.asFloat).getD terraformBridgeConfidence)
    ((b.extra.getStr "confidence_tier").getD "HIGH")

def moduleRow (b : Bridge) : EdgeRow := b.row "IMPORTS_FROM" 1.0 "EXTRACTED"

/-- The rows of the `DELETE`. -/
def ofTerraform (r : EdgeRow) : Bool :=
  r.kind ∈ ["CROSS_ARTIFACT", "IMPORTS_FROM"] &&
    (Store.ofExtractor terraformBridgesExtractor r.extra ||
      Store.ofExtractor terraformModulesExtractor r.extra)

/-! ## What a value reaches -/

section Reached

variable {values values' : List TerraformValue} {v u : TerraformValue} {sink : Sink}

/-- `u` takes what `v` holds. -/
def Takes (values : List TerraformValue) (v u : TerraformValue) : Prop :=
  u ∈ values ∧ ∃ name ∈ u.refs, v.name = some (u.dir, name)

/-- What a value holds ends up in the sink. -/
def FlowsTo (values : List TerraformValue) (v : TerraformValue) (sink : Sink) : Prop :=
  ∃ u, Relation.ReflTransGen (Takes values) v u ∧ sink ∈ u.sinks

theorem mem_takers {name : SlotName} :
    u ∈ (takers values).getD name [] ↔ u ∈ values ∧ ∃ r ∈ u.refs, (u.dir, r) = name := by
  rw [takers, Grouping.getD_multimap]
  simp only [List.mem_map, List.mem_filter, List.mem_flatMap, decide_eq_true_eq]
  constructor
  · rintro ⟨_, ⟨⟨w, hw, r, hr, rfl⟩, hname⟩, rfl⟩
    exact ⟨hw, r, hr, hname⟩
  · rintro ⟨hu, r, hr, hname⟩
    exact ⟨((u.dir, r), u), ⟨⟨u, hu, r, hr, rfl⟩, hname⟩, rfl⟩

theorem place_flows {name : SlotName} :
    (flows values).place v = .inl name ↔ v.name = some name := by
  simp only [flows]
  cases v.name <;> simp

theorem leads_iff : (flows values).Leads v u ↔ Takes values v u := by
  constructor
  · rintro ⟨name, hplace, hmem⟩
    obtain ⟨hu, r, hr, rfl⟩ := mem_takers.mp hmem
    exact ⟨hu, r, hr, place_flows.mp hplace⟩
  · rintro ⟨hu, r, hr, hname⟩
    exact ⟨(u.dir, r), place_flows.mpr hname, mem_takers.mpr ⟨hu, r, hr, rfl⟩⟩

theorem gives_iff : (flows values).Gives v sink ↔ sink ∈ v.sinks := by
  have hsinks : ∀ name, v.name = some name → v.sinks = [] := by
    intro name hname
    unfold TerraformValue.name at hname
    unfold TerraformValue.sinks
    cases hslot : v.slot with
    | sink role => simp [hslot] at hname
    | moduleInput => rfl
    | locals => rfl
  cases hname : v.name with
  | some name =>
      rw [hsinks name hname]
      refine ⟨fun ⟨found, hplace, _⟩ => ?_, fun h => absurd h List.not_mem_nil⟩
      exact absurd ((place_flows.mpr hname).symm.trans hplace) Sum.inl_ne_inr
  | none =>
      have hplace : (flows values).place v = .inr v.sinks := by simp only [flows, hname]
      refine ⟨fun ⟨found, hfound, h⟩ => ?_, fun h => ⟨v.sinks, hplace, h⟩⟩
      exact Sum.inr.inj (hplace.symm.trans hfound) ▸ h

theorem exists_trail (values : List TerraformValue) (v : TerraformValue) :
    ∃ t, (flows values).walk (values.length + 1) v ⟨[], []⟩ = some t := by
  refine DepthFirst.exists_walk ((v :: values).filterMap (·.name)) ?_ ?_ ?_
  · intro name _ u hu name' hname'
    exact List.mem_filterMap.mpr
      ⟨u, List.mem_cons_of_mem v (mem_takers.mp hu).1, place_flows.mp hname'⟩
  · refine Nat.le_trans (List.length_filter_le _ _) ?_
    exact List.length_filterMap_le _ (v :: values)
  · intro name hname
    exact List.mem_filterMap.mpr ⟨v, List.mem_cons_self, place_flows.mp hname⟩

theorem mem_sinkSet {found : List Sink} : sink ∈ sinkSet found ↔ sink ∈ found := by
  rw [sinkSet, mem_dedupAdjacent, (sortBy_perm sinkKey found).mem_iff]

theorem mem_reached : sink ∈ reached values v ↔ FlowsTo values v sink := by
  obtain ⟨t, ht⟩ := exists_trail values v
  have hleads : (flows values).Leads = Takes values := by
    funext a b
    exact propext leads_iff
  rw [reached, ht, mem_sinkSet]
  refine (DepthFirst.mem_found_iff ht).trans ?_
  simp only [gives_iff, DepthFirst.Reaches, hleads, FlowsTo]

theorem sinkKey_injective : Function.Injective sinkKey := by
  rintro ⟨role, name⟩ ⟨role', name'⟩ h
  obtain ⟨hrank, rfl⟩ := Prod.mk.inj (toLex.injective h)
  have hrole : role = role' := by cases role <;> cases role' <;> first | rfl | cases hrank
  rw [hrole]

theorem pairwise_sinkSet (found : List Sink) :
    ((sinkSet found).map sinkKey).Pairwise (· < ·) := by
  rw [sinkSet, map_dedupAdjacent sinkKey_injective]
  refine dedupAdjacent_pairwise ?_
  rw [List.pairwise_map]
  exact sortBy_pairwise sinkKey found

theorem reached_congr (h : ∀ sink, FlowsTo values v sink ↔ FlowsTo values' v sink) :
    reached values v = reached values' v := by
  refine List.map_injective_iff.mpr sinkKey_injective ?_
  refine (pairwise_sinkSet _).eq_of_mem_iff (pairwise_sinkSet _) fun key => ?_
  simp only [List.mem_map]
  refine exists_congr fun sink => and_congr_left' ?_
  exact mem_reached.trans ((h sink).trans mem_reached.symm)

theorem reached_perm (h : values'.Perm values) : reached values' v = reached values v := by
  have htakes : Takes values' = Takes values := by
    funext a b
    exact propext (and_congr_left' h.mem_iff)
  exact reached_congr fun sink => by rw [FlowsTo, FlowsTo, htakes]

end Reached

/-- The walk of `Flows` ends for every value, among values that take one another in circles too,
and gives the sinks behind the value through `Takes`, in the order of the roles and the names and
each once; the order in which the values were recorded does not matter. -/
theorem reached_spec (values : List TerraformValue) (v : TerraformValue) :
    (∃ t, (flows values).walk (values.length + 1) v ⟨[], []⟩ = some t ∧
      reached values v = sinkSet t.found) ∧
    (∀ sink, sink ∈ reached values v ↔ FlowsTo values v sink) ∧
    ((reached values v).map sinkKey).Pairwise (· < ·) ∧
    ∀ values' : List TerraformValue, values'.Perm values →
      reached values' v = reached values v := by
  obtain ⟨t, ht⟩ := exists_trail values v
  exact ⟨⟨t, ht, by rw [reached, ht]; rfl⟩, fun sink => mem_reached, pairwise_sinkSet _,
    fun values' => reached_perm⟩

end TerraformBridges

open TerraformBridges in
/-- The store after the pass and the handlers bound and left unresolved. -/
def Store.resolveTerraformArtifactRefs (s : Store) (tree : Tree) : Store × (Nat × Nat) :=
  let kept := s.edges.deleteWhere ofTerraform
  let recorded := loadValues s
  let (bridges, counts) := bridgesFor s tree recorded.values
  let bridges := keepFirst (fun b : Bridge => (b.source, b.target)) bridges
  let written := bridges.foldl (fun t b => t.insert (bridgeRow b)) kept
  let modules := moduleSourceEdges s recorded.moduleCalls
  ({ s with edges := modules.foldl (fun t b => t.insert (moduleRow b)) written }, counts)

namespace TerraformBridges

/-! ## What a run leaves -/

section Resolve

variable {s : Store} {tree : Tree} {values : List TerraformValue} {b : Bridge}

def anonymous (r : EdgeRow) : EdgeRow := { r with id := 0 }

theorem exists_foldl_insert {β : Type} (row : β → EdgeRow) (bs : List β) (t : EdgeTable) :
    ∃ new, (bs.foldl (fun t b => t.insert (row b)) t).rows = t.rows ++ new ∧
      new.map anonymous = bs.map fun b => anonymous (row b) := by
  induction bs generalizing t with
  | nil => exact ⟨[], (List.append_nil _).symm, rfl⟩
  | cons b bs ih =>
      obtain ⟨new, hrows, hnew⟩ := ih (t.insert (row b))
      refine ⟨{ row b with id := t.seq + 1 } :: new, ?_, ?_⟩
      · rw [List.foldl_cons, hrows]
        exact List.append_assoc t.rows _ new
      · rw [List.map_cons, List.map_cons, hnew]
        rfl

/-- The rows that a run writes, without their ids. -/
def written (s : Store) (tree : Tree) : List EdgeRow :=
  (keepFirst (fun b : Bridge => (b.source, b.target))
      (bridgesFor s tree (loadValues s).values).1).map bridgeRow ++
    (moduleSourceEdges s (loadValues s).moduleCalls).map moduleRow

theorem exists_rows (s : Store) (tree : Tree) : ∃ new,
    (s.resolveTerraformArtifactRefs tree).1.edges.rows =
      s.edges.rows.filter (!ofTerraform ·) ++ new ∧ new.map anonymous = written s tree := by
  obtain ⟨bridges, hbridges, hanonymous⟩ := exists_foldl_insert bridgeRow
    (keepFirst (fun b : Bridge => (b.source, b.target))
      (bridgesFor s tree (loadValues s).values).1) (s.edges.deleteWhere ofTerraform)
  obtain ⟨modules, hmodules, hanonymous'⟩ := exists_foldl_insert moduleRow
    (moduleSourceEdges s (loadValues s).moduleCalls) (List.foldl
      (fun t b => t.insert (bridgeRow b)) (s.edges.deleteWhere ofTerraform)
      (keepFirst (fun b : Bridge => (b.source, b.target))
        (bridgesFor s tree (loadValues s).values).1))
  refine ⟨bridges ++ modules, ?_, ?_⟩
  · refine hmodules.trans ?_
    rw [hbridges, List.append_assoc]
    rfl
  · rw [List.map_append, hanonymous, hanonymous']
    rfl

theorem getStr_extraJson (extra : Json) (key : String) :
    (extraJson extra).getStr key = extra.getStr key := by
  cases extra <;> rfl

theorem extractor_bridgeExtra (v : TerraformValue) (sinks : List Sink)
    (role bridgeKind evidence : String) :
    (bridgeExtra v sinks role bridgeKind evidence).getStr "extractor" =
      some terraformBridgesExtractor := by
  unfold bridgeExtra bindingExtra
  cases v.slot with
  | sink role => rfl
  | moduleInput =>
      dsimp only
      rw [Json.getStr_insert, if_neg (by decide), Json.getStr_insert, if_neg (by decide)]
      rfl
  | locals =>
      dsimp only
      rw [Json.getStr_insert, if_neg (by decide), Json.getStr_insert, if_neg (by decide)]
      rfl

theorem extractor_pathBridges {v : TerraformValue} {sinks : List Sink}
    (h : b ∈ pathBridges s tree v sinks) :
    b.extra.getStr "extractor" = some terraformBridgesExtractor := by
  unfold pathBridges at h
  split at h
  · exact absurd h List.not_mem_nil
  · obtain ⟨path, -, h⟩ := List.mem_flatMap.mp h
    obtain ⟨target, -, rfl⟩ := List.mem_map.mp h
    dsimp only
    rw [Json.getStr_insert, if_neg (by decide), Json.getStr_insert, if_neg (by decide)]
    exact extractor_bridgeExtra _ _ _ _ _

theorem extractor_entrypointBridge (s : Store) (v : TerraformValue) (sinks : List Sink)
    (symbol : String) (scope : HandlerScope) :
    (entrypointBridge s v sinks symbol scope).1.extra.getStr "extractor" =
      some terraformBridgesExtractor := by
  unfold entrypointBridge
  dsimp only
  split
  · rw [Json.getStr_insert, if_neg (by decide), Json.getStr_insert, if_neg (by decide)]
    exact extractor_bridgeExtra _ _ _ _ _
  · rw [Json.getStr_insert, if_neg (by decide), Json.getStr_insert, if_neg (by decide),
      Json.getStr_insert, if_neg (by decide)]
    exact extractor_bridgeExtra _ _ _ _ _

theorem mem_bridgesFor : b ∈ (bridgesFor s tree values).1 ↔ ∃ v ∈ values,
    b ∈ pathBridges s tree v (reached values v) ∨
      ∃ symbol, v.symbol = some symbol ∧ reaches values v .entrypoint = true ∧
        b = (entrypointBridge s v (reached values v) symbol
          (handlerScope s (codePaths values v.node))).1 := by
  rw [bridgesFor, List.mem_flatMap]
  refine exists_congr fun v => and_congr_right' ?_
  rw [List.mem_append]
  refine or_congr_right ?_
  rw [Option.mem_toList, handlerBridge]
  cases v.symbol with
  | none => simp
  | some symbol =>
      by_cases hreaches : reaches values v .entrypoint = true
      · simp [hreaches, eq_comm]
      · simp [hreaches]

theorem ofTerraform_written {r : EdgeRow} (h : r ∈ written s tree) : ofTerraform r = true := by
  rw [ofTerraform, Bool.and_eq_true, Bool.or_eq_true]
  rcases List.mem_append.mp h with h | h
  · obtain ⟨b, hb, rfl⟩ := List.mem_map.mp h
    refine ⟨decide_eq_true List.mem_cons_self,
      .inl (decide_eq_true ((getStr_extraJson b.extra _).trans ?_))⟩
    obtain ⟨v, -, hpath | ⟨symbol, -, -, rfl⟩⟩ := mem_bridgesFor.mp (mem_of_mem_keepFirst hb)
    · exact extractor_pathBridges hpath
    · exact extractor_entrypointBridge _ _ _ _ _
  · obtain ⟨b, hb, rfl⟩ := List.mem_map.mp h
    obtain ⟨call, -, hb⟩ := List.mem_flatMap.mp hb
    obtain ⟨file, -, rfl⟩ := List.mem_map.mp hb
    exact ⟨decide_eq_true (List.mem_cons_of_mem _ List.mem_cons_self), .inr rfl⟩

/-- Of the rows under the two extractors those that the run has written are left. -/
theorem filter_rows {p : EdgeRow → Bool} (hid : ∀ r, p (anonymous r) = p r)
    (hof : ∀ r, p r = true → ofTerraform r = true) :
    ((s.resolveTerraformArtifactRefs tree).1.edges.rows.filter p).map anonymous =
      (written s tree).filter p := by
  obtain ⟨new, hrows, hnew⟩ := exists_rows s tree
  have hkept : (s.edges.rows.filter (!ofTerraform ·)).filter p = [] := by
    rw [List.filter_filter]
    refine List.filter_eq_nil_iff.mpr fun r _ hr => ?_
    rw [Bool.and_eq_true, Bool.not_eq_true'] at hr
    exact Bool.false_ne_true (hr.2.symm.trans (hof r hr.1))
  rw [hrows, List.filter_append, hkept, List.nil_append, ← hnew, List.filter_map]
  congr 2
  funext r
  exact (hid r).symm

theorem filter_written : (written s tree).filter ofTerraform = written s tree :=
  List.filter_eq_self.mpr fun _ h => ofTerraform_written h

theorem filter_not_rows :
    (s.resolveTerraformArtifactRefs tree).1.edges.rows.filter (!ofTerraform ·) =
      s.edges.rows.filter (!ofTerraform ·) := by
  obtain ⟨new, hrows, hnew⟩ := exists_rows s tree
  have hall : new.filter (!ofTerraform ·) = [] := by
    refine List.filter_eq_nil_iff.mpr fun r hr => ?_
    have hmem : anonymous r ∈ written s tree := hnew ▸ List.mem_map_of_mem hr
    have hof : ofTerraform (anonymous r) = true := ofTerraform_written hmem
    change ofTerraform r = true at hof
    simp [hof]
  rw [hrows, List.filter_append, hall, List.append_nil, List.filter_filter]
  simp only [Bool.and_self]

theorem rows_of_run (s : Store) (tree : Tree) :
    ((s.resolveTerraformArtifactRefs tree).1.edges.rows.filter ofTerraform).map anonymous =
      written s tree :=
  (filter_rows (fun _ => rfl) fun _ h => h).trans filter_written

end Resolve

/-- Whatever the edges are that earlier runs and other passes have left, a run leaves the same
edges under its two extractors, with the same handlers counted; it leaves every other edge and
the nodes alone, and a second run changes nothing but ids. -/
theorem resolve_replaces (s : Store) (tree : Tree) (edges : EdgeTable) :
    let once := (s.resolveTerraformArtifactRefs tree).1
    let other := { s with edges := edges }
    ((other.resolveTerraformArtifactRefs tree).1.edges.rows.filter ofTerraform).map anonymous =
      (once.edges.rows.filter ofTerraform).map anonymous ∧
    (other.resolveTerraformArtifactRefs tree).2 = (s.resolveTerraformArtifactRefs tree).2 ∧
    once.edges.rows.filter (!ofTerraform ·) = s.edges.rows.filter (!ofTerraform ·) ∧
    once.nodes = s.nodes ∧
    (once.resolveTerraformArtifactRefs tree).1.edges.rows.map anonymous =
      once.edges.rows.map anonymous := by
  refine ⟨(rows_of_run _ tree).trans (rows_of_run s tree).symm, rfl, filter_not_rows, rfl, ?_⟩
  obtain ⟨new, hrows, hnew⟩ := exists_rows (s.resolveTerraformArtifactRefs tree).1 tree
  obtain ⟨new', hrows', hnew'⟩ := exists_rows s tree
  rw [hrows, filter_not_rows, hrows', List.map_append, List.map_append, hnew, hnew']
  rfl

/-- Changes of the nodes, each with a run behind it. -/
def afterRuns (s : Store) (history : List (NodeTable × Tree)) : Store :=
  history.foldl (fun s step => ({ s with nodes := step.1 }.resolveTerraformArtifactRefs step.2).1) s

theorem filter_not_afterRuns (history : List (NodeTable × Tree)) (s : Store) :
    (afterRuns s history).edges.rows.filter (!ofTerraform ·) =
      s.edges.rows.filter (!ofTerraform ·) := by
  induction history generalizing s with
  | nil => rfl
  | cons step history ih => exact (ih _).trans filter_not_rows

/-- The walk gives what a value flows to, whatever the order of the takers; and any two
histories that come to the same nodes leave the same edges under the two extractors, and every
other edge as it was. -/
theorem runs_spec (values : List TerraformValue) (v : TerraformValue) (s s' : Store)
    (history history' : List (NodeTable × Tree)) (nodes : NodeTable) (tree : Tree) :
    let left := afterRuns s (history ++ [(nodes, tree)])
    let left' := afterRuns s' (history' ++ [(nodes, tree)])
    (∃ t, (flows values).walk (values.length + 1) v ⟨[], []⟩ = some t ∧
      sinkSet t.found = reached values v) ∧
    (∀ sink, sink ∈ reached values v ↔ FlowsTo values v sink) ∧
    (∀ values' : List TerraformValue, values'.Perm values →
      reached values' v = reached values v) ∧
    (left.edges.rows.filter ofTerraform).map anonymous =
      (left'.edges.rows.filter ofTerraform).map anonymous ∧
    left.edges.rows.filter (!ofTerraform ·) = s.edges.rows.filter (!ofTerraform ·) := by
  intro left left'
  obtain ⟨t, ht⟩ := exists_trail values v
  refine ⟨⟨t, ht, by rw [reached, ht]; rfl⟩, fun sink => mem_reached, fun values' => reached_perm,
    ?_, filter_not_afterRuns _ s⟩
  have hown : ∀ (start : Store) (history : List (NodeTable × Tree)),
      ((afterRuns start (history ++ [(nodes, tree)])).edges.rows.filter ofTerraform).map anonymous =
        written { s with nodes := nodes } tree := fun start history => by
    rw [afterRuns, List.foldl_append]
    exact rows_of_run _ tree
  exact (hown s history).trans (hown s' history').symm

/-! ## What the edges mean -/

def InTree (s : Store) (path : String) : Prop :=
  ∃ file ∈ codeFiles s, file = path ∨ isBelow path file = true

/-- The path names the code: the file at it, else the files below it, else the archive there. -/
inductive Names (s : Store) (tree : Tree) (path : String) : String → Prop
  | file (h : path ∈ codeFiles s) : Names s tree path path
  | below {file : String} (hno : path ∉ codeFiles s) (h : file ∈ codeFiles s)
      (hbelow : isBelow path file = true) : Names s tree path file
  | archive (hno : ¬ InTree s path) (h : tree.hasArchive path = true) : Names s tree path path

/-- The block says that its code is at the path. -/
def CodeAt (values : List TerraformValue) (node path : String) : Prop :=
  ∃ v ∈ values, v.node = node ∧ (∃ consumer, FlowsTo values v (.codePath, consumer)) ∧
    path ∈ v.paths

/-- Where a handler of the block can be: a function anywhere, or, where the block names code, a
function or class of the code in the tree. -/
def Place (s : Store) (values : List TerraformValue) (node : String) (r : NodeRow) : Prop :=
  (r.input.kind ∈ ["Function", "Test"] ∧ ∀ path, ¬ CodeAt values node path) ∨
    (r.input.kind ∈ ["Function", "Test", "Class"] ∧ ∃ path, CodeAt values node path ∧
      InTree s path ∧ (r.input.filePath = path ∨ isBelow path r.input.filePath = true))

/-- A node that the handler `symbol` of the block can mean. -/
structure Candidate (s : Store) (values : List TerraformValue) (node symbol : String)
    (r : NodeRow) : Prop where
  row : r ∈ s.nodes.rows
  language : r.input.language ∉ ["markdown", "terraform"]
  named : ∃ module, handlerParts symbol = some (module, r.input.name) ∧
    ∀ m, module = some m → moduleMatchesFile m r.input.filePath = true
  place : Place s values node r

/-- The edges that the recorded values ask for. -/
inductive Bridged (s : Store) (tree : Tree) (values : List TerraformValue) : String → String → Prop
  | code {v : TerraformValue} {role : SinkRole} {consumer path target : String} (hv : v ∈ values)
      (hflows : FlowsTo values v (role, consumer)) (hrole : role ≠ .entrypoint)
      (hpath : path ∈ v.paths) (hnames : Names s tree path target) :
      Bridged s tree values v.node target
  | handler {v : TerraformValue} {consumer symbol : String} {r : NodeRow} (hv : v ∈ values)
      (hflows : FlowsTo values v (.entrypoint, consumer)) (hsymbol : v.symbol = some symbol)
      (hr : Candidate s values v.node symbol r)
      (hone : ∀ r', Candidate s values v.node symbol r' → r' = r) :
      Bridged s tree values v.node r.qualifiedName
  | unresolved {v : TerraformValue} {consumer symbol : String} (hv : v ∈ values)
      (hflows : FlowsTo values v (.entrypoint, consumer)) (hsymbol : v.symbol = some symbol)
      (hnone : ¬ ∃ r, Candidate s values v.node symbol r ∧
        ∀ r', Candidate s values v.node symbol r' → r' = r) :
      Bridged s tree values v.node ("<unresolved:" ++ symbol ++ ">")

section Bridged

variable {s : Store} {tree : Tree} {values : List TerraformValue} {v : TerraformValue}

theorem mem_targetFiles {path file : String} :
    file ∈ sortBy id ((codeFiles s).filter fun file => file = path || isBelow path file) ↔
      file ∈ codeFiles s ∧ (file = path ∨ isBelow path file = true) := by
  rw [(sortBy_perm id _).mem_iff, List.mem_filter, Bool.or_eq_true, decide_eq_true_eq]

theorem pathTarget_eq (s : Store) (path : String) :
    (path ∈ codeFiles s ∧ pathTarget s path = .file) ∨
    (path ∉ codeFiles s ∧ InTree s path ∧ ∃ files, pathTarget s path = .directory files ∧
      ∀ file, file ∈ files ↔ file ∈ codeFiles s ∧ isBelow path file = true) ∨
    (¬ InTree s path ∧ pathTarget s path = .unindexed) := by
  unfold pathTarget
  dsimp only
  split
  · rename_i hmem
    exact .inl ⟨(mem_targetFiles.mp hmem).1, rfl⟩
  · rename_i hmem
    have hno : path ∉ codeFiles s := fun h => hmem (mem_targetFiles.mpr ⟨h, .inl rfl⟩)
    split
    · rename_i hnil
      refine .inr (.inr ⟨fun ⟨file, hfile, h⟩ => ?_, rfl⟩)
      exact absurd (mem_targetFiles.mpr ⟨hfile, h⟩) (hnil ▸ List.not_mem_nil)
    · rename_i hne
      obtain ⟨file, hfile⟩ := List.exists_mem_of_ne_nil _ hne
      obtain ⟨hcode, h⟩ := mem_targetFiles.mp hfile
      refine .inr (.inl ⟨hno, ⟨file, hcode, h⟩, _, rfl, fun file => mem_targetFiles.trans ?_⟩)
      exact and_congr_right fun hcode => or_iff_right fun heq => hno (heq ▸ hcode)

theorem mem_pathTargets {path target : String} :
    target ∈ pathTargets s tree path ↔ Names s tree path target := by
  unfold pathTargets
  rcases pathTarget_eq s path with ⟨hcode, heq⟩ | ⟨hno, hin, files, heq, hfiles⟩ | ⟨hout, heq⟩
  · rw [heq, List.mem_singleton]
    constructor
    · rintro rfl
      exact .file hcode
    · rintro (h | ⟨hno, -, -⟩ | ⟨-, -⟩)
      · rfl
      · exact absurd hcode hno
      · rfl
  · rw [heq, hfiles]
    constructor
    · exact fun ⟨h, hbelow⟩ => .below hno h hbelow
    · rintro (h | ⟨-, h, hbelow⟩ | ⟨hout, -⟩)
      · exact absurd h hno
      · exact ⟨h, hbelow⟩
      · exact absurd hin hout
  · rw [heq]
    constructor
    · intro h
      by_cases harchive : tree.hasArchive path = true
      · rw [if_pos harchive, List.mem_singleton] at h
        subst h
        exact .archive hout harchive
      · rw [if_neg harchive] at h
        exact absurd h List.not_mem_nil
    · rintro (h | ⟨-, h, hbelow⟩ | ⟨-, h⟩)
      · exact absurd ⟨path, h, .inl rfl⟩ hout
      · exact absurd ⟨_, h, .inr hbelow⟩ hout
      · rw [if_pos h]
        exact List.mem_cons_self

theorem indexed_iff {path : String} : (pathTarget s path).indexed = true ↔ InTree s path := by
  rcases pathTarget_eq s path with ⟨hcode, heq⟩ | ⟨-, hin, files, heq, -⟩ | ⟨hout, heq⟩
  · rw [heq]
    exact iff_of_true rfl ⟨path, hcode, .inl rfl⟩
  · rw [heq]
    exact iff_of_true rfl hin
  · rw [heq]
    exact iff_of_false Bool.false_ne_true hout

theorem any_role_iff {role : SinkRole} :
    (reached values v).any (·.1 = role) = true ↔ ∃ consumer, FlowsTo values v (role, consumer) := by
  rw [List.any_eq_true]
  constructor
  · rintro ⟨⟨role', consumer⟩, hmem, hrole⟩
    obtain rfl := of_decide_eq_true hrole
    exact ⟨consumer, mem_reached.mp hmem⟩
  · rintro ⟨consumer, hflows⟩
    exact ⟨(role, consumer), mem_reached.mpr hflows, decide_eq_true rfl⟩

theorem mem_pathBridges {b : Bridge} (h : b ∈ pathBridges s tree v (reached values v)) :
    b.source = v.node ∧ ∃ role consumer path, FlowsTo values v (role, consumer) ∧
      role ≠ .entrypoint ∧ path ∈ v.paths ∧ Names s tree path b.target := by
  unfold pathBridges at h
  split at h
  · exact absurd h List.not_mem_nil
  · rename_i kind
    obtain ⟨path, hpath, h⟩ := List.mem_flatMap.mp h
    obtain ⟨target, htarget, rfl⟩ := List.mem_map.mp h
    have hrole : ∃ role consumer, FlowsTo values v (role, consumer) ∧ role ≠ .entrypoint := by
      unfold pathKind at kind
      split at kind
      · rename_i hcode
        obtain ⟨consumer, hflows⟩ := any_role_iff.mp hcode
        exact ⟨_, consumer, hflows, nofun⟩
      · split at kind
        · rename_i hcommand
          obtain ⟨consumer, hflows⟩ := any_role_iff.mp hcommand
          exact ⟨_, consumer, hflows, nofun⟩
        · cases kind
    obtain ⟨role, consumer, hflows, hrole⟩ := hrole
    exact ⟨rfl, role, consumer, path, hflows, hrole, hpath, mem_pathTargets.mp htarget⟩

theorem exists_pathBridge {role : SinkRole} {consumer path target : String}
    (hflows : FlowsTo values v (role, consumer)) (hrole : role ≠ .entrypoint)
    (hpath : path ∈ v.paths) (hnames : Names s tree path target) :
    ∃ b ∈ pathBridges s tree v (reached values v), b.source = v.node ∧ b.target = target := by
  have hkind : ∃ kind, pathKind (reached values v) = some kind := by
    unfold pathKind
    split
    · exact ⟨_, rfl⟩
    · rename_i hcode
      rw [if_pos ?_]
      · exact ⟨_, rfl⟩
      · cases role with
        | codePath => exact absurd (any_role_iff.mpr ⟨consumer, hflows⟩) hcode
        | entrypoint => exact absurd rfl hrole
        | command => exact any_role_iff.mpr ⟨consumer, hflows⟩
  obtain ⟨⟨role', bridgeKind, evidence⟩, hkind⟩ := hkind
  unfold pathBridges
  rw [hkind]
  exact ⟨_, List.mem_flatMap.mpr ⟨path, hpath, List.mem_map.mpr
    ⟨target, mem_pathTargets.mpr hnames, rfl⟩⟩, rfl, rfl⟩

theorem mem_codePaths {node path : String} :
    path ∈ codePaths values node ↔ CodeAt values node path := by
  simp only [codePaths, List.mem_flatMap, List.mem_filter, Bool.and_eq_true, decide_eq_true_eq,
    reaches, any_role_iff, CodeAt, and_assoc]

theorem admits_iff {node : String} {r : NodeRow} :
    (handlerScope s (codePaths values node)).admits r = true ↔ Place s values node r := by
  unfold handlerScope Place
  dsimp only
  by_cases hnil : codePaths values node = []
  · have hno : ∀ path, ¬ CodeAt values node path := fun path h =>
      absurd (mem_codePaths.mpr h) (hnil ▸ List.not_mem_nil)
    rw [if_pos hnil]
    simp only [HandlerScope.admits, decide_eq_true_eq]
    exact ⟨fun h => .inl ⟨h, hno⟩, fun h =>
      (h.resolve_right fun ⟨_, path, hat, _⟩ => hno path hat).1⟩
  · obtain ⟨path, hpath⟩ := List.exists_mem_of_ne_nil _ hnil
    have hsome : ¬ ∀ path, ¬ CodeAt values node path := fun h => h path (mem_codePaths.mp hpath)
    rw [if_neg hnil, or_iff_right fun h => hsome h.2]
    split
    · rename_i hempty
      refine iff_of_false Bool.false_ne_true fun ⟨_, path, hat, hin, _⟩ => ?_
      have hmem := (List.mem_filter (p := fun path => (pathTarget s path).indexed)).mpr
        ⟨mem_codePaths.mpr hat, indexed_iff.mpr hin⟩
      exact absurd (hempty ▸ hmem) List.not_mem_nil
    · simp only [HandlerScope.admits, Bool.and_eq_true, decide_eq_true_eq, underAny,
        List.any_eq_true, List.mem_filter, mem_codePaths, indexed_iff, Bool.or_eq_true, and_assoc]

theorem mem_entrypointMatches {node symbol : String} {r : NodeRow} :
    r ∈ entrypointMatches s symbol (handlerScope s (codePaths values node)) ↔
      Candidate s values node symbol r := by
  unfold entrypointMatches
  cases hparts : handlerParts symbol with
  | none =>
      refine iff_of_false List.not_mem_nil fun h => ?_
      obtain ⟨module, hnamed, -⟩ := h.named
      rw [hparts] at hnamed
      cases hnamed
  | some parts =>
      obtain ⟨module, name⟩ := parts
      dsimp only
      rw [List.mem_filter]
      simp only [Bool.and_eq_true, decide_eq_true_eq, admits_iff, Option.all_eq_true]
      constructor
      · rintro ⟨hrow, ⟨⟨rfl, hlanguage⟩, hplace⟩, hmodule⟩
        exact ⟨hrow, hlanguage, ⟨module, hparts, hmodule⟩, hplace⟩
      · rintro ⟨hrow, hlanguage, ⟨module', hnamed, hmodule⟩, hplace⟩
        rw [hparts] at hnamed
        obtain ⟨rfl, rfl⟩ := Prod.mk.inj (Option.some.inj hnamed)
        exact ⟨hrow, ⟨⟨rfl, hlanguage⟩, hplace⟩, hmodule⟩

theorem nodup_entrypointMatches (s : Store) (symbol : String) (scope : HandlerScope) :
    (entrypointMatches s symbol scope).Nodup := by
  unfold entrypointMatches
  split
  · exact List.nodup_nil
  · exact (List.Nodup.of_map _ s.nodes.names_nodup).filter _

theorem target_entrypointBridge (sinks : List Sink) (symbol : String) :
    let target := (entrypointBridge s v sinks symbol (handlerScope s (codePaths values v.node))).1
    target.source = v.node ∧
      ((∃ r, Candidate s values v.node symbol r ∧
          (∀ r', Candidate s values v.node symbol r' → r' = r) ∧ target.target = r.qualifiedName) ∨
        ((¬ ∃ r, Candidate s values v.node symbol r ∧
          ∀ r', Candidate s values v.node symbol r' → r' = r) ∧
          target.target = "<unresolved:" ++ symbol ++ ">")) := by
  have hmem := @mem_entrypointMatches s values v.node symbol
  have hnodup := nodup_entrypointMatches s symbol (handlerScope s (codePaths values v.node))
  unfold entrypointBridge entrypointMatch
  generalize entrypointMatches s symbol (handlerScope s (codePaths values v.node)) = found at *
  dsimp only
  split
  · rename_i hsome
    refine ⟨rfl, .inl ?_⟩
    split at hsome
    · rename_i r
      obtain ⟨rfl, -⟩ := Prod.mk.inj (Option.some.inj hsome)
      refine ⟨r, hmem.mp List.mem_cons_self, fun r' hr' => ?_, rfl⟩
      exact List.mem_singleton.mp (hmem.mpr hr')
    · cases hsome
  · rename_i hnone
    refine ⟨rfl, .inr ⟨fun ⟨r, hr, hone⟩ => ?_, rfl⟩⟩
    have hfound : found = [r] := by
      refine List.perm_singleton.mp
        ((List.perm_ext_iff_of_nodup hnodup (List.nodup_singleton r)).mpr
        fun r' => ?_)
      rw [hmem, List.mem_singleton]
      exact ⟨hone r', fun h => h ▸ hr⟩
    rw [hfound] at hnone
    cases hnone

theorem mem_bridgesFor_iff {source target : String} :
    (∃ b ∈ (bridgesFor s tree values).1, b.source = source ∧ b.target = target) ↔
      Bridged s tree values source target := by
  constructor
  · rintro ⟨b, hb, rfl, rfl⟩
    obtain ⟨v, hv, hpath | ⟨symbol, hsymbol, hreaches, rfl⟩⟩ := mem_bridgesFor.mp hb
    · obtain ⟨hsource, role, consumer, path, hflows, hrole, hpath, hnames⟩ := mem_pathBridges hpath
      exact hsource ▸ .code hv hflows hrole hpath hnames
    · obtain ⟨consumer, hflows⟩ := any_role_iff.mp hreaches
      obtain ⟨hsource, ⟨r, hr, hone, htarget⟩ | ⟨hnone, htarget⟩⟩ :=
        @target_entrypointBridge s values v (reached values v) symbol
      · rw [hsource, htarget]
        exact .handler hv hflows hsymbol hr hone
      · rw [hsource, htarget]
        exact .unresolved hv hflows hsymbol hnone
  · intro h
    cases h with
    | @code v role consumer path _ hv hflows hrole hpath hnames =>
        obtain ⟨b, hb, hends⟩ := exists_pathBridge hflows hrole hpath hnames
        exact ⟨b, mem_bridgesFor.mpr ⟨v, hv, .inl hb⟩, hends⟩
    | @handler v consumer symbol r hv hflows hsymbol hr hone =>
        refine ⟨_, mem_bridgesFor.mpr ⟨v, hv, .inr ⟨symbol, hsymbol,
          any_role_iff.mpr ⟨consumer, hflows⟩, rfl⟩⟩, (target_entrypointBridge _ _).1, ?_⟩
        obtain ⟨r', -, hone', htarget⟩ | ⟨hnone, -⟩ := (target_entrypointBridge _ _).2
        · rw [htarget, hone' r hr]
        · exact absurd ⟨r, hr, hone⟩ hnone
    | @unresolved v consumer symbol hv hflows hsymbol hnone =>
        refine ⟨_, mem_bridgesFor.mpr ⟨v, hv, .inr ⟨symbol, hsymbol,
          any_role_iff.mpr ⟨consumer, hflows⟩, rfl⟩⟩, (target_entrypointBridge _ _).1, ?_⟩
        obtain ⟨r, hr, hone, -⟩ | ⟨-, htarget⟩ := (target_entrypointBridge _ _).2
        · exact absurd ⟨r, hr, hone⟩ hnone
        · exact htarget

end Bridged

theorem exists_ends_iff {rows : List EdgeRow} {bs : List Bridge} {row : Bridge → EdgeRow}
    (source target : String) (hrow : ∀ b, (row b).source = b.source ∧ (row b).target = b.target)
    (h : rows.map anonymous = bs.map row) :
    (∃ r ∈ rows, r.source = source ∧ r.target = target) ↔
      ∃ b ∈ bs, b.source = source ∧ b.target = target := by
  constructor
  · rintro ⟨r, hr, rfl, rfl⟩
    obtain ⟨b, hb, heq⟩ := List.mem_map.mp (h ▸ List.mem_map_of_mem (f := anonymous) hr)
    have hsource : (row b).source = (anonymous r).source := congrArg EdgeRow.source heq
    have htarget : (row b).target = (anonymous r).target := congrArg EdgeRow.target heq
    exact ⟨b, hb, (hrow b).1.symm.trans hsource, (hrow b).2.symm.trans htarget⟩
  · rintro ⟨b, hb, rfl, rfl⟩
    obtain ⟨r, hr, heq⟩ := List.mem_map.mp (h.symm ▸ List.mem_map_of_mem (f := row) hb)
    exact ⟨r, hr, (congrArg EdgeRow.source heq).trans (hrow b).1,
      (congrArg EdgeRow.target heq).trans (hrow b).2⟩

/-- The rows of `CROSS_ARTIFACT` edges that the bridges' extractor has tagged. -/
def bridgeRows (s : Store) : List EdgeRow :=
  s.edges.rows.filter fun r =>
    r.kind = "CROSS_ARTIFACT" && Store.ofExtractor terraformBridgesExtractor r.extra

/-- A run leaves the edges that the recorded values ask for and no others, each once. -/
theorem bridged_of_resolve (s : Store) (tree : Tree) :
    (∀ source target,
      (∃ r ∈ bridgeRows (s.resolveTerraformArtifactRefs tree).1,
        r.source = source ∧ r.target = target) ↔
      Bridged s tree (loadValues s).values source target) ∧
    ((bridgeRows (s.resolveTerraformArtifactRefs tree).1).map
      fun r => (r.source, r.target)).Nodup := by
  have hrows : (bridgeRows (s.resolveTerraformArtifactRefs tree).1).map anonymous =
      (keepFirst (fun b : Bridge => (b.source, b.target))
        (bridgesFor s tree (loadValues s).values).1).map bridgeRow := by
    refine (filter_rows (fun _ => rfl) fun r hr => ?_).trans ?_
    · rw [Bool.and_eq_true, decide_eq_true_eq] at hr
      rw [ofTerraform, hr.1, hr.2]
      rfl
    · rw [written, List.filter_append, List.filter_eq_self.mpr, List.filter_eq_nil_iff.mpr,
        List.append_nil]
      · intro r hr
        obtain ⟨b, -, rfl⟩ := List.mem_map.mp hr
        exact Bool.false_ne_true
      · intro r hr
        obtain ⟨b, hb, rfl⟩ := List.mem_map.mp hr
        obtain ⟨v, -, hpath | ⟨symbol, -, -, rfl⟩⟩ := mem_bridgesFor.mp (mem_of_mem_keepFirst hb)
        · exact decide_eq_true ((getStr_extraJson _ _).trans (extractor_pathBridges hpath))
        · exact decide_eq_true ((getStr_extraJson _ _).trans
            (extractor_entrypointBridge _ _ _ _ _))
  refine ⟨fun source target => ?_, ?_⟩
  · rw [exists_ends_iff source target (fun _ => ⟨rfl, rfl⟩) hrows, ← mem_bridgesFor_iff]
    refine ⟨fun ⟨b, hb, hends⟩ => ⟨b, mem_of_mem_keepFirst hb, hends⟩, ?_⟩
    rintro ⟨b, hb, rfl, rfl⟩
    obtain ⟨b', hb', hends⟩ : ∃ b' ∈ keepFirst (fun b : Bridge => (b.source, b.target)) _,
        (b'.source, b'.target) = (b.source, b.target) := exists_mem_keepFirst hb
    exact ⟨b', hb', Prod.mk.inj hends⟩
  · have hpairs := congrArg (List.map fun r : EdgeRow => (r.source, r.target)) hrows
    rw [List.map_map, List.map_map] at hpairs
    refine (congrArg List.Nodup hpairs).mpr ?_
    rw [List.Nodup, List.pairwise_map]
    exact keepFirst_pairwise _ _

/-- The module calls lead to the Terraform files of the called directory, and to nothing else. -/
theorem imports_of_resolve (s : Store) (tree : Tree) (source target : String) :
    (∃ r ∈ (s.resolveTerraformArtifactRefs tree).1.edges.rows, r.kind = "IMPORTS_FROM" ∧
      Store.ofExtractor terraformModulesExtractor r.extra = true ∧
      r.source = source ∧ r.target = target) ↔
    ∃ n ∈ s.nodes.rows, n.input.language = "terraform" ∧ n.qualifiedName = source ∧
      ∃ f ∈ s.nodes.rows, f.input.kind = "File" ∧ f.input.language = "terraform" ∧
        f.input.filePath = target ∧
          n.input.extra.getStr "module_dir" = some (moduleDirOf f.input.filePath) := by
  have hfile : ∀ dir file, file ∈ (filesByDir s).getD dir [] ↔ ∃ f ∈ s.nodes.rows,
      f.input.kind = "File" ∧ f.input.language = "terraform" ∧ f.input.filePath = file ∧
        moduleDirOf file = dir := by
    intro dir file
    rw [filesByDir, Grouping.getD_multimap]
    simp only [List.mem_map, List.mem_filter, (sortBy_perm id _).mem_iff, decide_eq_true_eq,
      Bool.and_eq_true]
    constructor
    · rintro ⟨_, ⟨⟨_, ⟨f, ⟨hf, hkind, hlanguage⟩, rfl⟩, rfl⟩, hdir⟩, rfl⟩
      exact ⟨f, hf, hkind, hlanguage, rfl, hdir⟩
    · rintro ⟨f, hf, hkind, hlanguage, rfl, hdir⟩
      exact ⟨_, ⟨⟨_, ⟨f, ⟨hf, hkind, hlanguage⟩, rfl⟩, rfl⟩, hdir⟩, rfl⟩
  have hrows : ((s.resolveTerraformArtifactRefs tree).1.edges.rows.filter fun r =>
      r.kind = "IMPORTS_FROM" && Store.ofExtractor terraformModulesExtractor r.extra).map
        anonymous =
        (moduleSourceEdges s (loadValues s).moduleCalls).map moduleRow := by
    refine (filter_rows (fun _ => rfl) fun r hr => ?_).trans ?_
    · rw [Bool.and_eq_true, decide_eq_true_eq] at hr
      rw [ofTerraform, hr.1, hr.2, Bool.or_true]
      rfl
    · rw [written, List.filter_append, List.filter_eq_nil_iff.mpr, List.filter_eq_self.mpr,
        List.nil_append]
      · intro r hr
        obtain ⟨b, hb, rfl⟩ := List.mem_map.mp hr
        obtain ⟨call, -, hb⟩ := List.mem_flatMap.mp hb
        obtain ⟨file, -, rfl⟩ := List.mem_map.mp hb
        rfl
      · intro r hr
        obtain ⟨b, -, rfl⟩ := List.mem_map.mp hr
        exact Bool.false_ne_true
  have hends := exists_ends_iff source target (fun _ => ⟨rfl, rfl⟩) hrows
  simp only [List.mem_filter, Bool.and_eq_true, decide_eq_true_eq, and_assoc] at hends
  rw [hends]
  simp only [moduleSourceEdges, loadValues, List.mem_flatMap, List.mem_filterMap, List.mem_map,
    terraformRows, (sortBy_perm _ _).mem_iff, List.mem_filter, decide_eq_true_eq, hfile]
  constructor
  · rintro ⟨_, ⟨_, ⟨n, ⟨hn, hlanguage⟩, hcall⟩, _, ⟨f, hf, hkind, hterraform, rfl, hdir⟩, rfl⟩, rfl,
      rfl⟩
    obtain ⟨dir, hmodule, rfl⟩ := Option.map_eq_some_iff.mp hcall
    exact ⟨n, hn, hlanguage, rfl, f, hf, hkind, hterraform, rfl, hdir ▸ hmodule⟩
  · rintro ⟨n, hn, hlanguage, rfl, f, hf, hkind, hterraform, rfl, hmodule⟩
    exact ⟨_, ⟨_, ⟨n, ⟨hn, hlanguage⟩, Option.map_eq_some_iff.mpr ⟨_, hmodule, rfl⟩⟩, _,
      ⟨f, hf, hkind, hterraform, rfl, rfl⟩, rfl⟩, rfl, rfl⟩

end TerraformBridges

end Dagayn
