import Dagayn.Distinct
import Dagayn.JsonFields
import Dagayn.Lowercase
import Dagayn.Sorted
import Dagayn.Text

/-!
# The rows of an answer

`compact`, `merge` and `project_minimal` of `query_graph`: the rows that a pattern found, as each
detail level lists them, and the files they lie in.
-/

namespace Dagayn

namespace QueryRows

open Json (asStr)

/-- A result row in its key order. -/
abbrev Row := List (String × Json)

def object (row : Row) : Json := .obj row

namespace Row

def get (row : Row) (key : String) : Option Json := row.lookup key

def getStr (row : Row) (key : String) : Option String := (get row key).bind asStr

/-- The first entry of the key in place, or a new one. -/
def set {β : Type} (key : String) (v : β) : List (String × β) → List (String × β)
  | [] => [(key, v)]
  | (k, x) :: entries => if k = key then (k, v) :: entries else (k, x) :: set key v entries

def without (row : Row) (key : String) : Row := row.filter fun e => e.1 ≠ key

end Row

open Row

/-- `result_evidence_type`. -/
def evidenceType (row : Row) : Json :=
  match (getStr row "evidence_type").filter (· ≠ "") with
  | some evidence => .str evidence
  | none =>
      let kind := (getStr row "kind").getD ""
      let path := ((getStr row "file_path").filter (· ≠ "")).or (getStr row "file")
      let path := toLowercase (path.getD "")
      let authored := "Doc".toList.isPrefixOf kind.toList ||
        [".md", ".markdown", ".mdx"].any fun ext => ext.toList.isSuffixOf path.toList
      .str (if authored then "authored" else "extracted")

/-- Whether `compact` drops an entry. -/
def dropped (e : String × Json) : Bool :=
  match e with
  | ("id", _) => true
  | ("language", _) => true
  | ("parent_name", .null) => true
  | ("is_test", .bool false) => true
  | _ => false

def compact (withEvidence : Bool) (row : Row) : Row :=
  let out : Row := row.filter fun e => !dropped e
  let out := if withEvidence then set "evidence_type" (evidenceType row) out else out
  let filePath := (getStr out "file_path").getD ""
  let qualified := (getStr out "qualified_name").getD ""
  let out :=
    if filePath ≠ "" ∧ filePath.toList.isPrefixOf qualified.toList then without out "file_path"
    else out
  if (get out "importer").isSome ∧ get out "importer" == get out "file" then
    without out "importer"
  else out

/-- The key that `merge` keeps one row for. -/
def mergeKey (row : Row) : String :=
  match (getStr row "qualified_name").getD "" with
  | "" => (getStr row "importer").getD "" ++ "|" ++ (getStr row "file").getD ""
  | qualified => qualified

def lineOf (row : Row) : Option Json :=
  (get row "line").filter fun line => !(line == .null)

/-- A row of a key that is there: its line and its import kind are added, and what is said of one
row only goes. -/
def mergeInto (existing row : Row) : Row :=
  let existing :=
    match lineOf row, get existing "lines" with
    | some line, some (.arr lines) =>
        if lines.contains line then existing else set "lines" (.arr (lines ++ [line])) existing
    | _, _ => existing
  let existing :=
    match getStr row "import_kind", get existing "import_kind" with
    | some kind, some (.str kinds) =>
        if kind.toList ∈ kinds.toList.splitOn ',' then existing
        else set "import_kind" (.str (kinds ++ "," ++ kind)) existing
    | some kind, _ => existing ++ [("import_kind", .str kind)]
    | none, _ => existing
  let existing :=
    if get row "relation" == get existing "relation" then existing
    else set "relation" (.str "calls,references") existing
  if get row "resolved_by" == get existing "resolved_by" then existing
  else without existing "resolved_by"

/-- A round of `merge`: the rows so far, by their keys. -/
def mergeRow (merged : List (String × Row)) (row : Row) : List (String × Row) :=
  match merged.lookup (mergeKey row) with
  | none =>
      merged ++ [(mergeKey row, without row "line" ++ [("lines", .arr (lineOf row).toList)])]
  | some existing => set (mergeKey row) (mergeInto existing row) merged

def merge (rows : List Row) : List Row := (rows.foldl mergeRow []).map Prod.snd

def minimalFields : List String :=
  ["name", "kind", "file_path", "qualified_name", "line_start", "line_end", "confidence",
    "coverage_source", "source", "target", "matched_endpoint", "relationship_role",
    "inverse_label", "evidence_type", "file", "truncated", "source_stale", "read_error",
    "omitted_chars", "omitted_lines", "signature", "span_line_start", "span_line_end", "importer",
    "import_target", "import_kind", "relation", "unresolved", "lines", "line", "match",
    "confidence_tier", "resolved_by", "depth", "via"]

def projectMinimal (row : Row) : Json :=
  .obj (minimalFields.filterMap fun field => (row.reverse.lookup field).map fun v => (field, v))

/-- `MERGED`. -/
def mergedPatterns : List String := ["callers_of", "callees_of", "inheritors_of", "importers_of"]

/-- The rows that a reply lists, before any is left out. -/
def listed (full minimal : Bool) (pattern : String) (rows : List Row) : List Json :=
  if full then rows.map object
  else
    let rows := rows.map (compact minimal)
    let rows := if pattern ∈ mergedPatterns then merge rows else rows
    rows.map fun row => if minimal then projectMinimal row else object row

def rowFile (row : Row) : Option String :=
  (((get row "file_path").or (get row "file")).bind asStr).or
    ((getStr row "qualified_name").map fun name => ((splitOnce "::" name).map Prod.fst).getD name)

def filesOf (rows : List Row) : List String :=
  dedupAdjacent ((rows.filterMap rowFile).insertionSort (· ≤ ·))

theorem listed_nil (full minimal : Bool) (pattern : String) :
    listed full minimal pattern [] = [] := by
  rw [listed]
  split_ifs <;> rfl

end QueryRows

end Dagayn
