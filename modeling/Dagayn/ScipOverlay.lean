import Dagayn.TestedBy

/-!
# The SCIP overlay

`settle_by_index`: a compiler's index settles `CALLS` edges. What the index says
about one call, found by its documents, the file's lines and the occurrences on them,
is the parameter `answer`; what the overlay then does to the edge is the source's. The
overlay moves `TESTED_BY` edges along by `sync_tested_by_with_calls` only.
-/

namespace Dagayn

/-- What a SCIP index says about one call. -/
inductive ScipAnswer where
  /-- Another document, a stale file, no reference or several. -/
  | unknown
  /-- A local, a parameter or a type parameter. -/
  | calleeLocal
  /-- A definition of the repository: its place, and the node that holds it. -/
  | definition (file : String) (line : Int) (node : Option String)
  /-- A symbol of elsewhere: its package, whether that is the standard library, and
  the symbol's name, where `external_target` gives them. -/
  | foreign (target : Option (String × Bool × String))

namespace Store

/-- `settle`; `insert` turns what is no object into one. -/
def settle (extra : Json) : Json :=
  ((extra.erase "receiver_unknown").erase "inferred_from").insert "resolved_by" (.str "scip")

/-- `write_edge`. -/
def scipWrite (target : String) (extra : Json) : Option ConfidenceTier → EdgeWrite
  | none => .setExtra extra
  | some tier =>
      let extra := extra.insert "confidence" (.float directImportConfidence)
      .retarget target (some (extra.insert "confidence_tier" (.str tier.asStr)))
        directImportConfidence tier

/-- `extra.get("external").and_then(Value::as_bool) == Some(true)`. -/
def markedExternal (r : EdgeRow) : Bool :=
  match r.extra.get "external" with
  | some (.bool b) => b
  | _ => false

/-- `nodes.get(&target)`: a function, test, class or type. -/
def codeNode (s : Store) (qualified : String) : Option NodeRow :=
  s.nodes.rows.find? fun r => r.qualifiedName = qualified &&
    (r.input.kind = "Function" || r.input.kind = "Test" || r.input.kind = "Class" ||
      r.input.kind = "Type")

/-- `matches!(tier, Medium | Low).then_some(High)`. -/
def raiseTier (tier : ConfidenceTier) : Option ConfidenceTier :=
  if tier = .medium || tier = .low then some .high else none

def scipDecision (s : Store) (authoritative : Bool) (r : EdgeRow) :
    ScipAnswer → Option EdgeWrite
  | .unknown => none
  | .calleeLocal =>
      if (s.codeNode r.target).isNone && !markedExternal r then
        some (.setExtra (r.extra.insert "callee_local" (.bool true)))
      else none
  | .definition file line node =>
      let holds := (s.codeNode r.target).any fun n =>
        n.input.filePath = file && n.input.lineStart ≤ line && line ≤ n.input.lineEnd
      if holds then some (scipWrite r.target (settle r.extra) (raiseTier r.tier))
      else if !authoritative && ((s.codeNode r.target).isSome || markedExternal r) then none
      else
        node.map fun n =>
          scipWrite n ((((settle r.extra).erase "external").erase "external_package" |>.erase
            "external_symbol").erase "stdlib") (some .high)
  | .foreign target =>
      if markedExternal r then
        some (scipWrite r.target (settle r.extra) (raiseTier r.tier))
      else if !authoritative && (s.codeNode r.target).isSome then none
      else
        target.map fun t =>
          let extra := (settle r.extra).insert "external" (.bool true)
          let extra := extra.insert "external_package" (.str t.1)
          let extra := extra.insert "external_symbol" (.str t.2.2)
          let extra := if t.2.1 then extra.insert "stdlib" (.bool true) else extra.erase "stdlib"
          scipWrite t.1 extra (some .high)

def settleByIndex (answer : Store → EdgeRow → ScipAnswer) (authoritative : Bool) (s : Store) :
    Store :=
  (s.rewrite (fun r => r.kind = "CALLS") fun _ r =>
    s.scipDecision authoritative r (answer s r)).1.syncTestedByWithCalls

end Store

end Dagayn
