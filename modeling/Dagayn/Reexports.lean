import Dagayn.CallPasses

/-!
# Re-exported symbols

`resolve_reexported_targets`: an edge that names a symbol of a file that only
imports it is pointed at the declaration the file's imports lead to. The pass asks
that the target be no node, and nothing about `external`.
-/

namespace Dagayn

/-- `ModuleImports`: bound names with the module and the name there, in the order
they are inserted, and the star-imported modules. -/
structure ModuleImports where
  names : List (String × String × String)
  stars : List String

/-- `names.get(bound)`; a later insertion replaces an earlier one. -/
def ModuleImports.lookup (m : ModuleImports) (bound : String) : Option (String × String) :=
  (m.names.reverse.find? fun n => n.1 = bound).map Prod.snd

/-- One `(name, bound name)` pair of `$.names`. -/
def importName : Json → Option (String × String)
  | .arr [.str name, .str bound] => some (name, bound)
  | _ => none

/-- `Vec<(String, String)>` read from `$.names`: what is no such list gives the empty
one, and a scalar that is no text is an error. -/
def importNames (extra : Json) : Option (List (String × String)) :=
  match extra.get "names" with
  | some (.bool _) => none
  | some (.int _) => none
  | some (.float _) => none
  | some (.arr items) => some ((items.mapM importName).getD [])
  | _ => some []

/-- `symbol` with its first segment replaced by `name`. -/
def withHead (name symbol : String) : String :=
  match splitOnce "." symbol with
  | some (_, rest) => name ++ "." ++ rest
  | none => name

/-- `follow`, with the hops that are left. -/
def follow (imports : String → Option ModuleImports) (isNode : String → Bool) :
    Nat → String → String → Option String
  | 0, _, _ => none
  | hops + 1, file, symbol =>
      let lazy := file ++ "::__getattr__." ++ symbol
      if isNode lazy then some lazy
      else
        match imports file with
        | none => none
        | some m =>
            match m.lookup (((splitOnce "." symbol).map Prod.fst).getD symbol) with
            | some (origin, name) =>
                let symbol := withHead name symbol
                let qualified := origin ++ "::" ++ symbol
                if isNode qualified then some qualified
                else follow imports isNode hops origin symbol
            | none =>
                m.stars.findSome? fun origin =>
                  let qualified := origin ++ "::" ++ symbol
                  if isNode qualified then some qualified
                  else follow imports isNode hops origin symbol

theorem isNode_of_follow {imports : String → Option ModuleImports} {isNode : String → Bool} :
    ∀ {hops : Nat} {file symbol q : String}, follow imports isNode hops file symbol = some q →
      isNode q = true
  | hops + 1, file, symbol, q, h => by
      simp only [follow] at h
      split at h
      · rename_i hlazy
        obtain rfl := Option.some.inj h
        exact hlazy
      · split at h
        · cases h
        · split at h
          · split at h
            · rename_i hq
              obtain rfl := Option.some.inj h
              exact hq
            · exact isNode_of_follow h
          · obtain ⟨origin, -, ho⟩ := List.exists_of_findSome?_eq_some h
            split at ho
            · rename_i hq
              obtain rfl := Option.some.inj ho
              exact hq
            · exact isNode_of_follow ho

namespace Store

/-- `files`: the qualified names of the `File` nodes. -/
def isFile (s : Store) (q : String) : Bool :=
  s.nodes.rows.any fun r => r.qualifiedName = q && r.input.kind = "File"

/-- The rows `module_imports` reads. -/
def importRows (s : Store) : List EdgeRow :=
  s.edges.rows.filter fun r =>
    r.kind = "IMPORTS_FROM" && (r.extra.has "names" || r.extra.isOne "glob")

/-- The columns `module_imports` reads convert: `glob` is an integer or absent. -/
def importReadable (r : EdgeRow) : Bool :=
  (importNames r.extra).isSome &&
    match r.extra.get "glob" with
    | none => true
    | some .null => true
    | some (.bool _) => true
    | some (.int _) => true
    | some _ => false

/-- One row of `module_imports`. -/
def addImport (m : ModuleImports) (r : EdgeRow) : ModuleImports :=
  let names := (importNames r.extra).getD []
  if !r.extra.unset "glob" || names = [] then { m with stars := m.stars ++ [r.target] }
  else { m with names := m.names ++ names.map fun n => (n.2, r.target, n.1) }

/-- `module_imports`, looked up at one file. -/
def moduleImports (s : Store) (file : String) : Option ModuleImports :=
  let rows := s.importRows.filter fun r => r.filePath = file && s.isFile r.target
  if rows.isEmpty then none else some (rows.foldl addImport ⟨[], []⟩)

/-- How many re-exporting modules a name is followed through. -/
def maxHops : Nat := 8

/-- The kinds of edge whose target may be re-exported. -/
def reexportKind (kind : String) : Bool :=
  kind = "CALLS" || kind = "REFERENCES" || kind = "INHERITS" || kind = "IMPLEMENTS"

/-- The rows `resolve_reexported_targets` selects. -/
def reexported (s : Store) (r : EdgeRow) : Bool :=
  reexportKind r.kind && hasScope r.target && !s.isNode r.target

/-- The declaration the target of an edge stands for. -/
def reexportTarget (s : Store) (target : String) : Option String := do
  let (file, symbol) ← splitOnce "::" target
  if s.isFile file then follow s.moduleImports s.isNode maxHops file symbol else none

/-- `resolve_reexported_targets`; an import row that does not convert fails the pass. -/
def resolveReexportedTargets (s : Store) : Option Store :=
  if s.importRows.all importReadable then
    some (s.rewrite s.reexported fun _ r => (s.reexportTarget r.target).map fun q =>
      .retarget q none directImportConfidence .high).1
  else none

theorem isNode_of_reexportTarget {s : Store} {target q : String}
    (h : s.reexportTarget target = some q) : s.isNode q = true := by
  unfold reexportTarget at h
  cases hs : splitOnce "::" target with
  | none => rw [hs] at h; cases h
  | some p =>
      rw [hs] at h
      simp only [Option.bind_eq_bind, Option.bind_some] at h
      split at h
      · exact isNode_of_follow h
      · cases h

end Store

end Dagayn
