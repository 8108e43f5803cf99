import Dagayn.Store

/-!
# Passes over the stored edges

The resolution passes of `dagayn-graph/postprocess` share one shape: select edge
rows, decide for each row what it should name, and write the decision back by edge
id, one `UPDATE` a row. `rewrite` is that shape. A pass is then its selection (the
`WHERE` clause, as the source has it) and its decision.

`resolve_bare_call_targets` runs a dozen such passes in one transaction. What a
name-resolution pass decides rests on tables of receiver types, imports and return
types; `CallHeuristics` takes these decisions as a parameter, so that a result about
the passes holds whatever they decide. The selections, what a decision may write,
where a package name comes from and the order of the passes are the source's.
-/

namespace Dagayn

namespace Json

/-- `COALESCE(json_extract(extra, '$.key'), 0) = 0`. -/
def unset (extra : Json) (key : String) : Bool :=
  match extra.get key with
  | none => true
  | some .null => true
  | some (.bool b) => !b
  | some (.int n) => n = 0
  | some (.float x) => x == 0.0
  | some _ => false

/-- `COALESCE(json_extract(extra, '$.key'), 0) = 1`. -/
def isOne (extra : Json) (key : String) : Bool :=
  match extra.get key with
  | some (.bool b) => b
  | some (.int n) => n = 1
  | some (.float x) => x == 1.0
  | _ => false

/-- `json_extract(extra, '$.key') IS NOT NULL`. -/
def has (extra : Json) (key : String) : Bool :=
  match extra.get key with
  | none => false
  | some .null => false
  | some _ => true

/-- `extra[key] = value`; what is no object is replaced by one. -/
def insert (extra : Json) (key : String) (value : Json) : Json :=
  match extra with
  | .obj fields =>
      if fields.any (·.1 = key) then
        .obj (fields.map fun f => if f.1 = key then (key, value) else f)
      else .obj (fields ++ [(key, value)])
  | _ => .obj [(key, value)]

/-- `map.remove(key)`. -/
def erase (extra : Json) (key : String) : Json :=
  match extra with
  | .obj fields => .obj (fields.filter (·.1 ≠ key))
  | v => v

end Json

def directImportConfidence : Float := 0.9

def inferredConfidence : Float := 0.6

def bareUnresolvedConfidence : Float := 0.3

def EdgeRow.external (r : EdgeRow) : Bool := !r.extra.unset "external"

/-! ## Writing an edge -/

/-- What one `UPDATE edges … WHERE id = ?` of a pass sets. -/
inductive EdgeWrite where
  /-- The target and its name, the confidence and, but for names bound as they
  stand, `extra`. -/
  | retarget (target : String) (extra : Option Json) (confidence : Float)
      (tier : ConfidenceTier)
  /-- A package; these statements bind the package to both columns. -/
  | toPackage (package : String) (extra : Json)
  | setExtra (extra : Json)
  /-- `extra` and the confidence. -/
  | setConfidence (extra : Json) (confidence : Float) (tier : ConfidenceTier)

namespace EdgeWrite

def apply : EdgeWrite → EdgeRow → EdgeRow
  | .retarget t extra confidence tier, r =>
      { r with
        target := t, targetName := edgeTargetName t, extra := extra.getD r.extra
        confidence := confidence, tier := tier }
  | .toPackage p extra, r =>
      { r with
        target := p, targetName := p, extra := extra
        confidence := inferredConfidence, tier := .medium }
  | .setExtra extra, r => { r with extra := extra }
  | .setConfidence extra confidence tier, r =>
      { r with extra := extra, confidence := confidence, tier := tier }

/-- Whether the pass counts the write as a change. -/
def moves : EdgeWrite → Nat
  | .retarget .. => 1
  | .toPackage .. => 1
  | .setExtra _ => 0
  | .setConfidence .. => 0

end EdgeWrite

namespace Store

/-- `EXISTS (SELECT 1 FROM nodes WHERE qualified_name = ?)`. -/
def isNode (s : Store) (qualified : String) : Bool := qualified ∈ s.nodes.names

def withoutNode (s : Store) (q : String) : Store :=
  { s with nodes := s.nodes.deleteWhere fun n => n.qualifiedName = q }

theorem not_isNode_withoutNode (s : Store) (q : String) : (s.withoutNode q).isNode q = false := by
  rw [isNode, decide_eq_false_iff_not]
  intro hin
  obtain ⟨n, hn, heq⟩ := List.mem_map.mp hin
  have hkept := (List.mem_filter.mp hn).2
  simp [heq] at hkept

def writeEdge (s : Store) (id : Nat) (w : EdgeWrite) : Store :=
  { s with edges := s.edges.updateWhere (·.id = id) w.apply }

/-- The loop of a pass over the rows it selected: a decision may read the store as
the earlier rows left it. The count is the number of changes. -/
def rewriteRows (write : Store → EdgeRow → Option EdgeWrite) :
    List EdgeRow → Store × Nat → Store × Nat
  | [], acc => acc
  | r :: rows, acc =>
      match write acc.1 r with
      | some w => rewriteRows write rows (acc.1.writeEdge r.id w, acc.2 + w.moves)
      | none => rewriteRows write rows acc

/-- A pass: the rows are selected before the first write. -/
def rewrite (select : EdgeRow → Bool) (write : Store → EdgeRow → Option EdgeWrite)
    (s : Store) : Store × Nat :=
  rewriteRows write (s.edges.rows.filter select) (s, 0)

/-! ## The call passes -/

/-- The packages `std_method_package` names. -/
inductive StdPackage where
  | std
  | builtins
  | pathlib
  | globalThis
deriving DecidableEq, Repr

def StdPackage.name : StdPackage → String
  | .std => "std"
  | .builtins => "builtins"
  | .pathlib => "pathlib"
  | .globalThis => "globalThis"

/-- What the passes decide for an edge they selected. -/
structure CallHeuristics where
  /-- `resolve_shape_receivers`: the member the receiver's shape gives. -/
  shape : Store → EdgeRow → Option (String × Json)
  /-- `bind_bare_call_targets`, by whether the call is on a returned value. -/
  bind : Bool → Store → EdgeRow → Option (String × Float × ConfidenceTier)
  /-- `resolve_enum_variant_calls`: the enum declaring the variant. -/
  enumVariant : Store → EdgeRow → Option String
  /-- `resolve_field_receivers`. -/
  field : Store → EdgeRow → Option (String × Json)
  /-- `resolve_go_declared_receivers`. -/
  goDeclared : Store → EdgeRow → Option (String × Json)
  /-- The `pending_calls` of `resolve_returned_receivers`: a target with its tier, or
  only the receiver's type. -/
  pending : Store → EdgeRow → Option ((String × Json × ConfidenceTier) ⊕ Json)
  /-- `resolve_pyo3_methods`. -/
  pyo3 : Store → EdgeRow → Option (String × Json)
  /-- `mark_glob_imported_external_calls`: the crate import that the call's name is
  found in, and the symbol. -/
  globImport : Store → EdgeRow → EdgeRow → Option String
  /-- `mark_deref_calls`: the type whose method is called. -/
  deref : Store → EdgeRow → Option String
  /-- `mark_stdlib_method_calls`. -/
  stdMethod : Store → EdgeRow → Option StdPackage
  /-- `mark_observed_method_calls`: the typed call whose package is the method's. -/
  observed : Store → EdgeRow → EdgeRow → Bool

section Passes

variable (h : CallHeuristics)

/-- `kind = 'CALLS'`, not external, and the target is no node. -/
def unresolvedCall (s : Store) (r : EdgeRow) : Bool :=
  r.kind = "CALLS" && !r.external && !s.isNode r.target

/-- `kind = 'CALLS'`, not external, and the target is a bare name. -/
def bareCall (r : EdgeRow) : Bool :=
  r.kind = "CALLS" && !r.external && !hasScope r.target

/-- `looks_like_file_target`. -/
def looksLikeFileTarget (target : String) : Bool :=
  let path := ((splitFirst "::".toList target.toList).map Prod.fst).getD target.toList
  '/' ∈ path || '\\' ∈ path || fileTargetSuffixes.any fun suffix =>
    likeSuffix suffix (String.ofList path)

/-- The rows `bind_bare_call_targets` selects. -/
def bindable (onReturnedValues : Bool) (r : EdgeRow) : Bool :=
  (r.kind = "CALLS" || (r.kind = "REFERENCES" && r.extra.isOne "value_reference")) &&
    !hasScope r.target && !r.external && r.extra.unset "callee_local" &&
    !r.extra.has "receiver_package" && r.extra.has "receiver_from" = onReturnedValues

/-- A bare call of a Rust file on a receiver of a known type. -/
def rustTyped (r : EdgeRow) : Bool :=
  bareCall r && likeSuffix ".rs" r.filePath && r.extra.has "receiver_type"

/-- A bare call on a receiver of an unknown type. -/
def untyped (r : EdgeRow) : Bool := bareCall r && r.extra.isOne "receiver_unknown"

def updateCall (target : String) (extra : Json) (tier : ConfidenceTier) : EdgeWrite :=
  .retarget target (some extra)
    (if tier = .high then directImportConfidence else inferredConfidence) tier

/-- `resolve_shape_receivers`, also under the name `resolve_member_shapes`. -/
def resolveShapeReceivers (s : Store) : Store × Nat :=
  s.rewrite (fun r => s.unresolvedCall r && r.extra.has "receiver_shape")
    fun cur r => (h.shape cur r).map fun d => updateCall d.1 d.2 .medium

def bindBareCallTargets (onReturnedValues : Bool) (s : Store) : Store × Nat :=
  s.rewrite (bindable onReturnedValues) fun cur r =>
    (if looksLikeFileTarget r.target then none else h.bind onReturnedValues cur r).map
      fun d => .retarget d.1 none d.2.1 d.2.2

def resolveEnumVariantCalls (s : Store) : Store × Nat :=
  s.rewrite rustTyped fun cur r => (h.enumVariant cur r).map fun target =>
    .retarget target (some (r.extra.insert "enum_variant" (.str r.target)))
      directImportConfidence .high

def resolveFieldReceivers (s : Store) : Store × Nat :=
  s.rewrite (fun r => s.unresolvedCall r && r.extra.has "receiver_field")
    fun cur r => (h.field cur r).map fun d => updateCall d.1 d.2 .medium

def resolveGoDeclaredReceivers (s : Store) : Store × Nat :=
  s.rewrite (fun r => s.unresolvedCall r && likeSuffix ".go" r.filePath &&
      (r.extra.has "receiver_field" || r.extra.has "receiver_type"))
    fun cur r => (h.goDeclared cur r).map fun d => updateCall d.1 d.2 .high

/-- The loop of `resolve_returned_receivers` over `pending_calls`. -/
def resolvePendingCalls (s : Store) : Store × Nat :=
  s.rewrite (fun r => s.unresolvedCall r && r.extra.has "receiver_from")
    fun cur r => (h.pending cur r).map fun
      | .inl d => updateCall d.1 d.2.1 d.2.2
      | .inr extra => .setExtra extra

/-- One round of `resolve_returned_receivers`. -/
def returnedRound (s : Store) : Store × Nat :=
  let a := resolveFieldReceivers h s
  let b := resolveGoDeclaredReceivers h a.1
  let c := resolveShapeReceivers h b.1
  let d := resolvePendingCalls h c.1
  (d.1, a.2 + b.2 + c.2 + d.2)

def returnedRounds : Nat → Store → Store
  | 0, s => s
  | n + 1, s =>
      let r := returnedRound h s
      if r.2 = 0 then r.1 else returnedRounds n r.1

/-- `resolve_returned_receivers`: at most `MAX_ROUNDS` rounds. -/
def resolveReturnedReceivers (s : Store) : Store := returnedRounds h 6 s

def resolvePyo3Methods (s : Store) : Store × Nat :=
  s.rewrite (fun r => s.unresolvedCall r && likeSuffix ".py" r.filePath &&
      r.extra.has "receiver_type")
    fun cur r => (h.pyo3 cur r).map fun d => updateCall d.1 d.2 .medium

/-- What every pass that finds a package writes into `extra`. -/
def packageExtra (extra : Json) (package symbol : String) (stdlib : Bool) : Json :=
  let extra := extra.insert "external" (.bool true)
  let extra := extra.insert "external_package" (.str package)
  let extra := extra.insert "external_symbol" (.str symbol)
  let extra := if stdlib then extra.insert "stdlib" (.bool true) else extra
  let extra := extra.insert "confidence" (.float inferredConfidence)
  extra.insert "confidence_tier" (.str "MEDIUM")

/-- The rows `crate_imports` reads: imports of external crates with their paths. -/
def crateImports (s : Store) : List EdgeRow :=
  s.edges.rows.filter fun r =>
    r.kind = "IMPORTS_FROM" && r.extra.isOne "external" && r.extra.has "paths"

/-- `mark_glob_imported_external_calls`. A crate import whose package is no text fails the
pass; so does an array or object here, which SQLite hands over as its JSON text (no extractor
writes one). -/
def markGlobImportedExternalCalls (s : Store) : Option Store :=
  if !s.edges.rows.any (fun r => r.kind = "IMPORTS_FROM" && r.extra.isOne "glob") then some s
  else if s.crateImports.all (fun c => (c.extra.getStr "external_package").isSome) then
    some (s.rewrite (fun r => s.unresolvedCall r && likeSuffix ".rs" r.filePath)
      fun cur r => s.crateImports.findSome? fun c => do
        let symbol ← h.globImport cur r c
        let package ← c.extra.getStr "external_package"
        pure (.toPackage package
          (packageExtra r.extra package symbol (!c.extra.unset "stdlib")))).1
  else none

def markDerefCalls (s : Store) : Store × Nat :=
  s.rewrite rustTyped fun cur r => (h.deref cur r).map fun type =>
    .toPackage "std" (packageExtra r.extra "std" (type ++ "::" ++ r.target) true)

def markStdlibMethodCalls (s : Store) : Store × Nat :=
  s.rewrite untyped fun cur r => (h.stdMethod cur r).map fun package =>
    .toPackage package.name (packageExtra r.extra package.name r.target true)

/-- The rows `observed_methods` reads: typed calls into packages that neither an
inference nor an index made. -/
def observedCalls (s : Store) : List EdgeRow :=
  s.edges.rows.filter fun r =>
    r.kind = "CALLS" && r.extra.isOne "external" && r.extra.has "external_symbol" &&
      (!r.extra.has "inferred_from" || r.extra.getStr "inferred_from" = some "") &&
      !r.extra.has "resolved_by"

/-- `mark_observed_method_calls`. A typed call whose package is no text fails the pass, with
arrays and objects as above. -/
def markObservedMethodCalls (s : Store) : Option Store :=
  if s.observedCalls.all (fun c => (c.extra.getStr "external_package").isSome) then
    some (s.rewrite untyped fun cur r => do
      let c ← s.observedCalls.find? (h.observed cur r)
      let package ← c.extra.getStr "external_package"
      pure (.toPackage package ((packageExtra r.extra package r.target
        (!c.extra.unset "stdlib")).insert "inferred_from" (.str "observed_method")))).1
  else none

/-- The five passes `resolve_bare_call_targets` runs twice. -/
def typedCallPasses (s : Store) : Option Store := do
  let s := resolveReturnedReceivers h s
  let s := (resolvePyo3Methods h s).1
  let s ← markGlobImportedExternalCalls h s
  let s := (markDerefCalls h s).1
  pure (markStdlibMethodCalls h s).1

end Passes

end Store

end Dagayn
