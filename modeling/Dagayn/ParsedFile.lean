import Dagayn.Distinct
import Dagayn.Json
import Dagayn.Text
import Mathlib

/-!
# The nodes and edges of a parsed file

What `parse_file_in_repo` of `core.rs` does with the raw output of a language
extractor: symbols no source could declare are dropped, nodes that share a qualified
name are merged into the first, and every CONTAINS edge is made to start at a
container of this file. `Normalised` says what the three steps together guarantee,
for any raw lists.
-/

namespace Dagayn

inductive NodeKind where
  | file
  | function
  | cls
  | type
  | test
  | docSection
  | docBody
deriving DecidableEq, Repr

inductive EdgeKind where
  | calls
  | contains
  | importsFrom
  | testedBy
  | crossArtifact
  | references
  | inherits
  | implements
  | dependsOn
deriving DecidableEq, Repr

structure ParsedNode where
  kind : NodeKind
  name : String
  filePath : String
  lineStart : Int := 1
  lineEnd : Int := 1
  language : String := ""
  parentName : Option String := none
  params : Option String := none
  returnType : Option String := none
  modifiers : Option String := none
  isTest : Bool := false
  extra : Json := .obj []

structure ParsedEdge where
  kind : EdgeKind
  source : String
  target : String
  filePath : String
  line : Int := 1
  extra : Json := .obj []

def qualifiedNameOf (n : ParsedNode) : String :=
  match n.kind, n.parentName with
  | .file, _ => n.filePath
  | _, some parent => n.filePath ++ "::" ++ parent ++ "." ++ n.name
  | _, none => n.filePath ++ "::" ++ n.name

def qualify (filePath name : String) (parentName : Option String) : String :=
  match parentName.filter (· ≠ "") with
  | some parent => filePath ++ "::" ++ parent ++ "." ++ name
  | none => filePath ++ "::" ++ name

/-! ## The three steps -/

/-- The names `drop_malformed_names` drops: blank, or spanning lines. -/
def malformed (name : String) : Bool :=
  name.toList.all isWhitespace || name.toList.any fun c => c = '\n' || c = '\r'

def wellNamed (n : ParsedNode) : Bool :=
  n.kind = .file || n.kind = .docSection || n.kind = .docBody || !malformed n.name

def droppedNames (nodes : List ParsedNode) : List String :=
  (nodes.filter fun n => !wellNamed n).map qualifiedNameOf

def keepsEdge (dropped : List String) (e : ParsedEdge) : Bool :=
  !malformed e.target && e.source ∉ dropped && e.target ∉ dropped

def dropMalformedNames (nodes : List ParsedNode) (edges : List ParsedEdge) :
    List ParsedNode × List ParsedEdge :=
  (nodes.filter wellNamed, edges.filter (keepsEdge (droppedNames nodes)))

/-- The effect of a duplicate on the node that stays. -/
def mergeInto (target node : ParsedNode) : ParsedNode :=
  { target with
    lineStart := min target.lineStart node.lineStart
    lineEnd := max target.lineEnd node.lineEnd
    isTest := target.isTest || node.isTest }

def Json.asU64 : Json → Option Nat
  | .int n => if 0 ≤ n then some n.toNat else none
  | _ => none

/-- `Map::insert`. -/
def setField (key : String) (value : Json) : List (String × Json) → List (String × Json)
  | [] => [(key, value)]
  | f :: fields => if f.1 = key then (key, value) :: fields else f :: setField key value fields

/-- `merged_declarations`, as it was before the merge. -/
def previousDeclarations (extra : Json) : Nat :=
  ((extra.get "merged_declarations").bind Json.asU64).getD 1

/-- Record the number of declarations merged, where `extra` is an object. -/
def recordMerged (n : ParsedNode) (count : Nat) : ParsedNode :=
  match n.extra with
  | .obj fields =>
      if 1 < count then
        { n with extra := .obj (setField "merged_declarations"
            (.int ((previousDeclarations n.extra + count - 1 : Nat) : Int)) fields) }
      else n
  | _ => n

def duplicatesOf (nodes : List ParsedNode) (first : ParsedNode) : List ParsedNode :=
  (nodes.filter fun n => qualifiedNameOf n = qualifiedNameOf first).tail

def collapsed (nodes : List ParsedNode) (first : ParsedNode) : ParsedNode :=
  recordMerged ((duplicatesOf nodes first).foldl mergeInto first)
    ((duplicatesOf nodes first).length + 1)

def dedupeContains (seen : List (String × String)) : List ParsedEdge → List ParsedEdge
  | [] => []
  | e :: es =>
      if e.kind ≠ .contains then e :: dedupeContains seen es
      else if (e.source, e.target) ∈ seen then dedupeContains seen es
      else e :: dedupeContains ((e.source, e.target) :: seen) es

def collapseDuplicateNodes (nodes : List ParsedNode) (edges : List ParsedEdge) :
    List ParsedNode × List ParsedEdge :=
  if (nodes.map qualifiedNameOf).Nodup then (nodes, edges)
  else ((keepFirst qualifiedNameOf nodes).map (collapsed nodes), dedupeContains [] edges)

/-- One edge of `contain_in_file`. -/
def containEdge (filePath : String) (declared : List String) (e : ParsedEdge) : ParsedEdge :=
  if e.kind = .contains ∧ e.source ≠ filePath ∧ e.source ∉ declared then
    { e with source := filePath }
  else e

def containInFile (filePath : String) (nodes : List ParsedNode) (edges : List ParsedEdge) :
    List ParsedEdge :=
  edges.map (containEdge filePath (nodes.map qualifiedNameOf))

/-- The end of `parse_file_in_repo`. -/
def finishParse (filePath : String) (nodes : List ParsedNode) (edges : List ParsedEdge) :
    List ParsedNode × List ParsedEdge :=
  let d := dropMalformedNames nodes edges
  let c := collapseDuplicateNodes d.1 d.2
  (c.1, containInFile filePath c.1 c.2)

/-! ## What they guarantee -/

/-- The node `m` is what the definitions `defs` of one qualified name were merged to. -/
structure Spans (defs : List ParsedNode) (m : ParsedNode) : Prop where
  start_le : ∀ d ∈ defs, m.lineStart ≤ d.lineStart
  start_eq : ∃ d ∈ defs, d.lineStart = m.lineStart
  le_end : ∀ d ∈ defs, d.lineEnd ≤ m.lineEnd
  eq_end : ∃ d ∈ defs, d.lineEnd = m.lineEnd
  isTest : m.isTest = true ↔ ∃ d ∈ defs, d.isTest = true
  /-- The number of definitions, added to what the first of them had recorded. -/
  declarations : ∀ first fields, defs.head? = some first → first.extra = .obj fields →
    1 < defs.length → m.extra.get "merged_declarations"
      = some (.int ((previousDeclarations first.extra + defs.length - 1 : Nat) : Int))
  single : ∀ d, defs = [d] → m = d

/-- What the three steps make of raw lists. -/
structure Normalised (filePath : String) (nodes : List ParsedNode) (edges : List ParsedEdge)
    (r : List ParsedNode × List ParsedEdge) : Prop where
  names_nodup : (r.1.map qualifiedNameOf).Nodup
  /-- Every node that stays is the merge of the well-named nodes of its name, and
  every well-named node is part of one. -/
  merged : ∀ m ∈ r.1, Spans
    ((nodes.filter wellNamed).filter fun n => qualifiedNameOf n = qualifiedNameOf m) m
  complete : ∀ n ∈ nodes, wellNamed n = true → qualifiedNameOf n ∈ r.1.map qualifiedNameOf
  contained : ∀ e ∈ r.2, e.kind = .contains →
    e.source = filePath ∨ e.source ∈ r.1.map qualifiedNameOf
  /-- The edges are edges of the input, in order, with the source of a CONTAINS edge
  moved to the file where it is no node; what is missing has a malformed target or an
  end that was dropped, or repeats a CONTAINS edge. -/
  lost : ∃ kept : List ParsedEdge, kept.Sublist edges ∧
    r.2 = kept.map (containEdge filePath (r.1.map qualifiedNameOf)) ∧
    ∀ e ∈ edges, e ∉ kept → malformed e.target = true ∨ e.source ∈ droppedNames nodes ∨
      e.target ∈ droppedNames nodes ∨
      (e.kind = .contains ∧ ∃ e' ∈ kept, e'.kind = .contains ∧ e'.source = e.source ∧
        e'.target = e.target)
  /-- A node keeps each container that is the file or a node; for any other that was
  not dropped, the file contains it. -/
  containers : ∀ n ∈ r.1, ∀ e ∈ edges, e.kind = .contains → e.target = qualifiedNameOf n →
    keepsEdge (droppedNames nodes) e = true →
    ∃ e' ∈ r.2, e'.kind = .contains ∧ e'.target = e.target ∧ e'.source =
      if e.source = filePath ∨ e.source ∈ r.1.map qualifiedNameOf then e.source else filePath
  qualified : ∀ n ∈ r.1, n.kind ≠ .file → n.parentName ≠ some "" →
    qualifiedNameOf n = qualify n.filePath n.name n.parentName
  again : finishParse filePath r.1 r.2 = r

/-! ## Merging -/

theorem foldl_mergeInto : ∀ (rest : List ParsedNode) (first : ParsedNode),
    qualifiedNameOf (rest.foldl mergeInto first) = qualifiedNameOf first ∧
      (rest.foldl mergeInto first).extra = first.extra ∧
      wellNamed (rest.foldl mergeInto first) = wellNamed first ∧
      (rest.foldl mergeInto first).kind = first.kind
  | [], _ => ⟨rfl, rfl, rfl, rfl⟩
  | n :: rest, first => foldl_mergeInto rest (mergeInto first n)

theorem recordMerged_fields (n : ParsedNode) (count : Nat) :
    qualifiedNameOf (recordMerged n count) = qualifiedNameOf n ∧
      wellNamed (recordMerged n count) = wellNamed n ∧
      (recordMerged n count).lineStart = n.lineStart ∧
      (recordMerged n count).lineEnd = n.lineEnd ∧ (recordMerged n count).isTest = n.isTest := by
  unfold recordMerged
  split
  · split <;> exact ⟨rfl, rfl, rfl, rfl, rfl⟩
  · exact ⟨rfl, rfl, rfl, rfl, rfl⟩

theorem lookup_setField (key : String) (value : Json) : ∀ fields : List (String × Json),
    (setField key value fields).lookup key = some value
  | [] => by simp [setField]
  | f :: fields => by
      unfold setField
      split
      · simp
      · rename_i hne
        rw [List.lookup_cons, beq_eq_false_iff_ne.mpr (Ne.symm hne)]
        exact lookup_setField key value fields

theorem recordMerged_declarations (n : ParsedNode) (count : Nat)
    {fields : List (String × Json)} (h : n.extra = .obj fields) (hc : 1 < count) :
    (recordMerged n count).extra.get "merged_declarations"
      = some (.int ((previousDeclarations n.extra + count - 1 : Nat) : Int)) := by
  unfold recordMerged
  rw [h]
  dsimp only
  rw [if_pos hc]
  exact lookup_setField _ _ _

theorem foldl_mergeInto_span : ∀ (rest : List ParsedNode) (first : ParsedNode),
    (∀ d ∈ first :: rest, (rest.foldl mergeInto first).lineStart ≤ d.lineStart) ∧
      (∃ d ∈ first :: rest, d.lineStart = (rest.foldl mergeInto first).lineStart) ∧
      (∀ d ∈ first :: rest, d.lineEnd ≤ (rest.foldl mergeInto first).lineEnd) ∧
      (∃ d ∈ first :: rest, d.lineEnd = (rest.foldl mergeInto first).lineEnd) ∧
      ((rest.foldl mergeInto first).isTest = true ↔ ∃ d ∈ first :: rest, d.isTest = true)
  | [], first => by simp
  | n :: rest, first => by
      obtain ⟨h1, ⟨d2, hd2, h2⟩, h3, ⟨d4, hd4, h4⟩, h5⟩ :=
        foldl_mergeInto_span rest (mergeInto first n)
      have hs := h1 (mergeInto first n) List.mem_cons_self
      have he := h3 (mergeInto first n) List.mem_cons_self
      have hstart : (mergeInto first n).lineStart = min first.lineStart n.lineStart := rfl
      have hend : (mergeInto first n).lineEnd = max first.lineEnd n.lineEnd := rfl
      rw [List.foldl_cons]
      refine ⟨fun d hd => ?_, ?_, fun d hd => ?_, ?_, ?_⟩
      · rcases List.mem_cons.mp hd with rfl | hd
        · omega
        · rcases List.mem_cons.mp hd with rfl | hd
          · omega
          · exact h1 d (List.mem_cons_of_mem _ hd)
      · rcases List.mem_cons.mp hd2 with rfl | hd2
        · rw [hstart] at h2
          rcases Int.min_def first.lineStart n.lineStart ▸ h2 with h2
          split at h2
          · exact ⟨first, List.mem_cons_self, h2⟩
          · exact ⟨n, List.mem_cons_of_mem _ List.mem_cons_self, h2⟩
        · exact ⟨d2, List.mem_cons_of_mem _ (List.mem_cons_of_mem _ hd2), h2⟩
      · rcases List.mem_cons.mp hd with rfl | hd
        · omega
        · rcases List.mem_cons.mp hd with rfl | hd
          · omega
          · exact h3 d (List.mem_cons_of_mem _ hd)
      · rcases List.mem_cons.mp hd4 with rfl | hd4
        · rw [hend] at h4
          rcases Int.max_def first.lineEnd n.lineEnd ▸ h4 with h4
          split at h4
          · exact ⟨n, List.mem_cons_of_mem _ List.mem_cons_self, h4⟩
          · exact ⟨first, List.mem_cons_self, h4⟩
        · exact ⟨d4, List.mem_cons_of_mem _ (List.mem_cons_of_mem _ hd4), h4⟩
      · rw [h5]
        simp only [List.exists_mem_cons_iff, mergeInto, Bool.or_eq_true, or_assoc]

theorem filter_eq_cons_of_keepFirst : ∀ {nodes : List ParsedNode} {first : ParsedNode},
    first ∈ keepFirst qualifiedNameOf nodes →
      nodes.filter (fun n => qualifiedNameOf n = qualifiedNameOf first)
        = first :: duplicatesOf nodes first
  | [], first, h => absurd h List.not_mem_nil
  | n :: nodes, first, h => by
      unfold duplicatesOf
      rw [keepFirst] at h
      rcases List.mem_cons.mp h with rfl | h
      · rw [List.filter_cons_of_pos (by simp)]
        rfl
      · obtain ⟨hmem, hne⟩ := List.mem_filter.mp h
        have hne' : qualifiedNameOf first ≠ qualifiedNameOf n := by simpa using hne
        rw [List.filter_cons_of_neg (by simpa using hne'.symm)]
        exact filter_eq_cons_of_keepFirst hmem

theorem collapsed_spans {nodes : List ParsedNode} {first : ParsedNode}
    (h : first ∈ keepFirst qualifiedNameOf nodes) :
    Spans (nodes.filter fun n => qualifiedNameOf n = qualifiedNameOf first)
      (collapsed nodes first) := by
  rw [filter_eq_cons_of_keepFirst h]
  obtain ⟨h1, h2, h3, h4, h5⟩ := foldl_mergeInto_span (duplicatesOf nodes first) first
  obtain ⟨-, hextra, -, -⟩ := foldl_mergeInto (duplicatesOf nodes first) first
  obtain ⟨-, -, hs, he, ht⟩ := recordMerged_fields
    ((duplicatesOf nodes first).foldl mergeInto first) ((duplicatesOf nodes first).length + 1)
  unfold collapsed
  refine ⟨fun d hd => hs ▸ h1 d hd, hs ▸ h2, fun d hd => he ▸ h3 d hd, he ▸ h4, ht ▸ h5, ?_, ?_⟩
  · intro f fields hf hobj hlen
    obtain rfl : first = f := by simpa using hf
    have hrec := recordMerged_declarations ((duplicatesOf nodes first).foldl mergeInto first)
      ((duplicatesOf nodes first).length + 1) (hextra.trans hobj) (by simpa using hlen)
    rw [hextra] at hrec
    exact hrec
  · intro d hd
    obtain ⟨rfl, hnil⟩ := List.cons.inj hd
    rw [hnil]
    change recordMerged first 1 = first
    unfold recordMerged
    split
    · rw [if_neg (by decide)]
    · rfl

theorem qualifiedNameOf_collapsed (nodes : List ParsedNode) (first : ParsedNode) :
    qualifiedNameOf (collapsed nodes first) = qualifiedNameOf first ∧
      wellNamed (collapsed nodes first) = wellNamed first := by
  obtain ⟨hq, -, hw, -⟩ := foldl_mergeInto (duplicatesOf nodes first) first
  obtain ⟨hq', hw', -⟩ := recordMerged_fields
    ((duplicatesOf nodes first).foldl mergeInto first) ((duplicatesOf nodes first).length + 1)
  exact ⟨hq'.trans hq, hw'.trans hw⟩

/-! ## Collapsing -/

theorem collapse_nodup (nodes : List ParsedNode) (edges : List ParsedEdge) :
    ((collapseDuplicateNodes nodes edges).1.map qualifiedNameOf).Nodup := by
  unfold collapseDuplicateNodes
  split
  · assumption
  · rw [List.map_map]
    have hcomp : qualifiedNameOf ∘ collapsed nodes = qualifiedNameOf :=
      funext fun n => (qualifiedNameOf_collapsed nodes n).1
    rw [hcomp, List.Nodup, List.pairwise_map]
    exact keepFirst_pairwise qualifiedNameOf nodes

theorem collapse_mem {nodes : List ParsedNode} {edges : List ParsedEdge} {m : ParsedNode}
    (hm : m ∈ (collapseDuplicateNodes nodes edges).1) :
    Spans (nodes.filter fun n => qualifiedNameOf n = qualifiedNameOf m) m ∧
      ∃ n ∈ nodes, qualifiedNameOf n = qualifiedNameOf m ∧ wellNamed m = wellNamed n := by
  unfold collapseDuplicateNodes at hm
  split at hm
  · rename_i hnodup
    have hfilter : nodes.filter (fun n => qualifiedNameOf n = qualifiedNameOf m) = [m] := by
      have hfirst : m ∈ keepFirst qualifiedNameOf nodes := by
        obtain ⟨b, hb, heq⟩ : ∃ b ∈ keepFirst qualifiedNameOf nodes,
          qualifiedNameOf b = qualifiedNameOf m := exists_mem_keepFirst hm
        rwa [← List.inj_on_of_nodup_map hnodup (mem_of_mem_keepFirst hb) hm heq]
      have hcons := filter_eq_cons_of_keepFirst hfirst
      have hlen : (nodes.filter fun n => qualifiedNameOf n = qualifiedNameOf m).length ≤ 1 := by
        rw [← List.countP_eq_length_filter]
        have hcount := List.nodup_iff_count_le_one.mp hnodup (qualifiedNameOf m)
        rw [List.count, List.countP_map] at hcount
        exact hcount
      rw [hcons, List.length_cons] at hlen
      have hnil : duplicatesOf nodes m = [] := List.eq_nil_of_length_eq_zero (by omega)
      rw [hcons, hnil]
    have hsingle : Spans [m] m := by
      refine ⟨?_, ?_, ?_, ?_, ?_, ?_, ?_⟩
      · simp
      · simp
      · simp
      · simp
      · simp
      · intro _ _ _ _ hlen
        exact absurd hlen (Nat.lt_irrefl 1)
      · intro d hd
        exact (List.cons.inj hd).1
    rw [hfilter]
    exact ⟨hsingle, m, hm, rfl, rfl⟩
  · obtain ⟨first, hfirst, rfl⟩ := List.mem_map.mp hm
    obtain ⟨hq, hw⟩ := qualifiedNameOf_collapsed nodes first
    rw [hq]
    exact ⟨collapsed_spans hfirst, first, mem_of_mem_keepFirst hfirst, rfl, hw⟩

theorem collapse_complete {nodes : List ParsedNode} (edges : List ParsedEdge) {n : ParsedNode}
    (hn : n ∈ nodes) :
    qualifiedNameOf n ∈ (collapseDuplicateNodes nodes edges).1.map qualifiedNameOf := by
  unfold collapseDuplicateNodes
  split
  · exact List.mem_map_of_mem hn
  · obtain ⟨b, hb, heq⟩ : ∃ b ∈ keepFirst qualifiedNameOf nodes,
        qualifiedNameOf b = qualifiedNameOf n := exists_mem_keepFirst hn
    rw [List.map_map]
    exact List.mem_map.mpr ⟨b, hb, (qualifiedNameOf_collapsed nodes b).1.trans heq⟩

theorem dedupeContains_sublist : ∀ (es : List ParsedEdge) (seen : List (String × String)),
    (dedupeContains seen es).Sublist es
  | [], _ => .slnil
  | e :: es, seen => by
      unfold dedupeContains
      split
      · exact (dedupeContains_sublist es seen).cons_cons e
      · split
        · exact (dedupeContains_sublist es seen).cons e
        · exact (dedupeContains_sublist es _).cons_cons e

theorem mem_dedupeContains : ∀ (es : List ParsedEdge) (seen : List (String × String))
    {e : ParsedEdge}, e ∈ es → e ∈ dedupeContains seen es ∨
      (e.kind = .contains ∧ ((e.source, e.target) ∈ seen ∨
        ∃ e' ∈ dedupeContains seen es, e'.kind = .contains ∧ e'.source = e.source ∧
          e'.target = e.target))
  | x :: es, seen, e, h => by
      unfold dedupeContains
      split
      · rcases List.mem_cons.mp h with rfl | h
        · exact .inl List.mem_cons_self
        · rcases mem_dedupeContains es seen h with hin | ⟨hk, hs | ⟨e', he', hrest⟩⟩
          · exact .inl (List.mem_cons_of_mem _ hin)
          · exact .inr ⟨hk, .inl hs⟩
          · exact .inr ⟨hk, .inr ⟨e', List.mem_cons_of_mem _ he', hrest⟩⟩
      · rename_i hk
        have hk : x.kind = .contains := not_not.mp hk
        split
        · rename_i hseen
          rcases List.mem_cons.mp h with rfl | h
          · exact .inr ⟨hk, .inl hseen⟩
          · exact mem_dedupeContains es seen h
        · rcases List.mem_cons.mp h with rfl | h
          · exact .inl List.mem_cons_self
          · rcases mem_dedupeContains es ((x.source, x.target) :: seen) h with
              hin | ⟨hke, hs | ⟨e', he', hrest⟩⟩
            · exact .inl (List.mem_cons_of_mem _ hin)
            · rcases List.mem_cons.mp hs with heq | hs
              · obtain ⟨h1, h2⟩ := Prod.mk.inj heq
                exact .inr ⟨hke, .inr ⟨x, List.mem_cons_self, hk, h1.symm, h2.symm⟩⟩
              · exact .inr ⟨hke, .inl hs⟩
            · exact .inr ⟨hke, .inr ⟨e', List.mem_cons_of_mem _ he', hrest⟩⟩

theorem collapse_edges_sublist (nodes : List ParsedNode) (edges : List ParsedEdge) :
    (collapseDuplicateNodes nodes edges).2.Sublist edges := by
  unfold collapseDuplicateNodes
  split
  · exact List.Sublist.refl _
  · exact dedupeContains_sublist edges []

theorem collapse_edges_mem (nodes : List ParsedNode) {edges : List ParsedEdge} {e : ParsedEdge}
    (he : e ∈ edges) : e ∈ (collapseDuplicateNodes nodes edges).2 ∨
      (e.kind = .contains ∧ ∃ e' ∈ (collapseDuplicateNodes nodes edges).2,
        e'.kind = .contains ∧ e'.source = e.source ∧ e'.target = e.target) := by
  unfold collapseDuplicateNodes
  split
  · exact .inl he
  · rcases mem_dedupeContains edges [] he with hin | ⟨hk, hs | hrest⟩
    · exact .inl hin
    · exact absurd hs List.not_mem_nil
    · exact .inr ⟨hk, hrest⟩

/-! ## Containing -/

section Contain

variable {filePath : String} {declared : List String}

theorem containEdge_kind (e : ParsedEdge) :
    (containEdge filePath declared e).kind = e.kind ∧
      (containEdge filePath declared e).target = e.target := by
  unfold containEdge
  split <;> exact ⟨rfl, rfl⟩

theorem containEdge_source {e : ParsedEdge} (hk : e.kind = .contains) :
    (containEdge filePath declared e).source =
      if e.source = filePath ∨ e.source ∈ declared then e.source else filePath := by
  unfold containEdge
  by_cases h : e.source = filePath ∨ e.source ∈ declared
  · rw [if_neg (fun hc => h.elim hc.2.1 hc.2.2), if_pos h]
  · rw [if_pos ⟨hk, not_or.mp h⟩, if_neg h]

theorem containEdge_idem (e : ParsedEdge) :
    containEdge filePath declared (containEdge filePath declared e)
      = containEdge filePath declared e := by
  by_cases h : e.kind = .contains ∧ e.source ≠ filePath ∧ e.source ∉ declared
  · have hmove : containEdge filePath declared e = { e with source := filePath } := if_pos h
    rw [hmove]
    exact if_neg fun hc => hc.2.1 rfl
  · have hkeep : containEdge filePath declared e = e := if_neg h
    rw [hkeep, hkeep]

theorem containEdge_contained (e : ParsedEdge)
    (hk : (containEdge filePath declared e).kind = .contains) :
    (containEdge filePath declared e).source = filePath ∨
      (containEdge filePath declared e).source ∈ declared := by
  rw [(containEdge_kind e).1] at hk
  rw [containEdge_source hk]
  split
  · assumption
  · exact .inl rfl

theorem keepsEdge_containEdge_nil {e : ParsedEdge} (h : malformed e.target = false) :
    keepsEdge [] (containEdge filePath declared e) = true := by
  unfold keepsEdge
  rw [(containEdge_kind e).2, h]
  simp

end Contain

/-! ## The three steps together -/

theorem qualifiedNameOf_of_ne_file {n : ParsedNode} (hk : n.kind ≠ .file) :
    qualifiedNameOf n =
      match n.parentName with
      | some parent => n.filePath ++ "::" ++ parent ++ "." ++ n.name
      | none => n.filePath ++ "::" ++ n.name := by
  unfold qualifiedNameOf
  cases hkind : n.kind with
  | file => exact absurd hkind hk
  | _ => cases n.parentName <;> rfl

theorem qualify_eq {n : ParsedNode} (hk : n.kind ≠ .file) (hp : n.parentName ≠ some "") :
    qualifiedNameOf n = qualify n.filePath n.name n.parentName := by
  rw [qualifiedNameOf_of_ne_file hk]
  unfold qualify
  cases hparent : n.parentName with
  | none => rfl
  | some parent =>
      have hne : parent ≠ "" := fun h => hp (by rw [hparent, h])
      have hfilter : (some parent).filter (fun p => decide (p ≠ "")) = some parent := by
        simp [Option.filter, hne]
      rw [hfilter]

theorem droppedNames_eq_nil {nodes : List ParsedNode} (h : ∀ n ∈ nodes, wellNamed n = true) :
    droppedNames nodes = [] := by
  unfold droppedNames
  rw [List.map_eq_nil_iff, List.filter_eq_nil_iff]
  intro n hn
  simp [h n hn]

theorem finishParse_again (filePath : String) (nodes : List ParsedNode)
    (edges : List ParsedEdge) :
    finishParse filePath (finishParse filePath nodes edges).1 (finishParse filePath nodes edges).2
      = finishParse filePath nodes edges := by
  obtain ⟨ns, es⟩ : ∃ ns es, finishParse filePath nodes edges = (ns, es) :=
    ⟨_, _, rfl⟩
  obtain ⟨es, hr⟩ := es
  have hns : ns = (collapseDuplicateNodes (dropMalformedNames nodes edges).1
      (dropMalformedNames nodes edges).2).1 := (congrArg Prod.fst hr).symm
  have hes : es = containInFile filePath ns (collapseDuplicateNodes
      (dropMalformedNames nodes edges).1 (dropMalformedNames nodes edges).2).2 := by
    rw [hns]
    exact (congrArg Prod.snd hr).symm
  have hnodup : (ns.map qualifiedNameOf).Nodup := hns ▸ collapse_nodup _ _
  have hwell : ∀ n ∈ ns, wellNamed n = true := by
    intro n hn
    rw [hns] at hn
    obtain ⟨-, d, hd, -, hw⟩ := collapse_mem hn
    rw [hw]
    exact (List.mem_filter.mp hd).2
  have hedges : ∀ e ∈ es, keepsEdge [] e = true := by
    intro e he
    rw [hes] at he
    obtain ⟨e', he', rfl⟩ := List.mem_map.mp he
    have hmem := (collapse_edges_sublist _ _).subset he'
    have hkeep := (List.mem_filter.mp hmem).2
    unfold keepsEdge at hkeep
    rw [Bool.and_eq_true, Bool.and_eq_true, Bool.not_eq_true'] at hkeep
    exact keepsEdge_containEdge_nil hkeep.1.1
  rw [hr]
  have hdrop : dropMalformedNames ns es = (ns, es) := by
    unfold dropMalformedNames
    rw [droppedNames_eq_nil hwell, List.filter_eq_self.mpr hwell, List.filter_eq_self.mpr hedges]
  unfold finishParse
  simp only [hdrop]
  have hcollapse : collapseDuplicateNodes ns es = (ns, es) := if_pos hnodup
  rw [hcollapse]
  refine Prod.ext rfl ?_
  change containInFile filePath ns es = es
  rw [hes]
  unfold containInFile
  rw [List.map_map]
  refine List.map_congr_left fun e _ => ?_
  exact containEdge_idem e

/-- The three steps, on any raw lists. -/
theorem finishParse_normalised (filePath : String) (nodes : List ParsedNode)
    (edges : List ParsedEdge) :
    Normalised filePath nodes edges (finishParse filePath nodes edges) := by
  refine ⟨collapse_nodup _ _, fun m hm => (collapse_mem hm).1, ?_, ?_, ?_, ?_,
    fun n _ => qualify_eq, finishParse_again filePath nodes edges⟩
  · intro n hn hw
    exact collapse_complete _ (List.mem_filter.mpr ⟨hn, hw⟩)
  · intro e he hk
    obtain ⟨e', -, rfl⟩ := List.mem_map.mp he
    exact containEdge_contained e' hk
  · refine ⟨(collapseDuplicateNodes (dropMalformedNames nodes edges).1
      (dropMalformedNames nodes edges).2).2,
      (collapse_edges_sublist _ _).trans List.filter_sublist, rfl, fun e he hnot => ?_⟩
    by_cases hkeep : keepsEdge (droppedNames nodes) e = true
    · rcases collapse_edges_mem (dropMalformedNames nodes edges).1
        (show e ∈ (dropMalformedNames nodes edges).2 from List.mem_filter.mpr ⟨he, hkeep⟩) with
        hin | hrest
      · exact absurd hin hnot
      · exact .inr (.inr (.inr hrest))
    · unfold keepsEdge at hkeep
      rw [Bool.and_eq_true, Bool.and_eq_true, Bool.not_eq_true', decide_eq_true_eq,
        decide_eq_true_eq] at hkeep
      by_cases ht : malformed e.target = true
      · exact .inl ht
      · by_cases hs : e.source ∈ droppedNames nodes
        · exact .inr (.inl hs)
        · by_cases htd : e.target ∈ droppedNames nodes
          · exact .inr (.inr (.inl htd))
          · exact absurd ⟨⟨Bool.not_eq_true _ ▸ ht, hs⟩, htd⟩ hkeep
  · intro n _ e he hk _ hkeep
    have hmem : e ∈ (dropMalformedNames nodes edges).2 := List.mem_filter.mpr ⟨he, hkeep⟩
    obtain ⟨e', he', hk', hs', ht'⟩ : ∃ e' ∈ (collapseDuplicateNodes
        (dropMalformedNames nodes edges).1 (dropMalformedNames nodes edges).2).2,
        e'.kind = .contains ∧ e'.source = e.source ∧ e'.target = e.target := by
      rcases collapse_edges_mem (dropMalformedNames nodes edges).1 hmem with
        hin | ⟨-, e', he', hrest⟩
      · exact ⟨e, hin, hk, rfl, rfl⟩
      · exact ⟨e', he', hrest⟩
    refine ⟨_, List.mem_map_of_mem he', (containEdge_kind e').1.trans hk',
      (containEdge_kind e').2.trans ht', ?_⟩
    rw [containEdge_source hk', hs']
    rfl

/-- A file with a method of a type declared elsewhere, and one of a class whose name
error recovery left empty. -/
def strayMembers : List ParsedNode × List ParsedEdge :=
  ([{ kind := .file, name := "a.go", filePath := "a.go" },
    { kind := .function, name := "draw", filePath := "a.go", parentName := some "Widget" },
    { kind := .cls, name := "", filePath := "a.go" },
    { kind := .function, name := "run", filePath := "a.go" }],
   [{ kind := .contains, source := "a.go::Widget", target := "a.go::Widget.draw"
      filePath := "a.go" },
    { kind := .contains, source := "a.go::", target := "a.go::run", filePath := "a.go" }])

def containersOf (edges : List ParsedEdge) (target : String) : List String :=
  (edges.filter fun e => e.kind = .contains ∧ e.target = target).map ParsedEdge.source

/-- A container that is no node is replaced by the file; one that was dropped is gone. -/
theorem containers_change :
    let r := finishParse "a.go" strayMembers.1 strayMembers.2
    r.1.map qualifiedNameOf = ["a.go", "a.go::Widget.draw", "a.go::run"] ∧
      containersOf strayMembers.2 "a.go::Widget.draw" = ["a.go::Widget"] ∧
      containersOf r.2 "a.go::Widget.draw" = ["a.go"] ∧
      containersOf strayMembers.2 "a.go::run" = ["a.go::"] ∧
      containersOf r.2 "a.go::run" = [] := by
  decide +kernel

end Dagayn
