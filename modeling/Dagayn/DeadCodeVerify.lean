import Dagayn.ImportScopes
import Dagayn.ScipIndex
import Dagayn.Store

/-!
# The last check of dead code

`verify` of the dead-code search: a candidate is kept only when its name is mentioned nowhere
in the text of the repository but in its own definition, in the doc comment above it, or where
the imports of a file bind it to another module. Every other candidate is counted under a reason.
-/

namespace Dagayn

namespace DeadCode

open ImportScopes
open Scip (lines isWord)

/-! ## The text of the repository -/

/-- What the scan finds where a file is listed. -/
inductive Reading where
  | gone
  | tooLarge
  | unreadable
  | binary
  | text (content : List Char)

structure Verification where
  status : String := "complete"
  filesScanned : Nat := 0
  filesSkipped : Nat := 0

/-- The tokens of a line: `split` at what is no identifier character. -/
def tokens (line : List Char) : List (List Char) := line.splitOnP fun c => !isWord c

/-- Where a name appears in one text as a whole identifier, as often as it does. -/
def textOccurrences (name : String) (content : List Char) : List Int :=
  ((lines content).zipIdx).flatMap fun (line, index) =>
    ((tokens line).filter fun token => token ≠ [] && token = name.toList).map fun _ =>
      (index : Int) + 1

/-- `occurrences`, for one of the names: `(file, line)`. -/
def occurrences (listing : List (String × Reading)) (name : String) : List (String × Int) :=
  listing.flatMap fun (file, reading) =>
    match reading with
    | .text content => (textOccurrences name content).map fun line => (file, line)
    | _ => []

def scanCounts (listing : List (String × Reading)) : Verification :=
  listing.foldl (fun v (_, reading) =>
    match reading with
    | .gone => v
    | .tooLarge => { v with filesSkipped := v.filesSkipped + 1 }
    | .unreadable => { v with filesSkipped := v.filesSkipped + 1 }
    | .binary => v
    | .text _ => { v with filesScanned := v.filesScanned + 1 }) {}

/-! ## The doc comment -/

def startsWith (front : String) (text : List Char) : Bool := front.toList.isPrefixOf text

def endsWith (back : String) (text : List Char) : Bool := back.toList.isSuffixOf text

def contains (part : String) (text : List Char) : Bool := (splitFirst part.toList text).isSome

def commentLine (text : List Char) : Bool :=
  startsWith "//" text || startsWith "/*" text || startsWith "*" text || startsWith "--" text ||
    match text with
    | '#' :: rest =>
        !startsWith "[" rest && !startsWith "![" rest && !rest.head?.any fun c => c.isAlpha
    | _ => false

/-- A line that the search for the doc comment passes over. -/
def attributeLine (text : List Char) : Bool :=
  startsWith "@" text || startsWith "#[" text || (startsWith "[" text && endsWith "]" text)

/-- The loop of `own_doc_start` over the lines above, the nearest first; the index of a line is
the number of those above it. -/
def docWalk : List (List Char) → Nat → Bool → Nat
  | [], start, _ => start
  | line :: above, start, inBlock =>
      let text := trim line
      if inBlock then docWalk above above.length (!contains "/*" text)
      else if endsWith "*/" text && !contains "/*" text then docWalk above above.length true
      else if commentLine text then docWalk above above.length false
      else if attributeLine text then docWalk above start false
      else start

def ownDocStart (source : List (List Char)) (line : Int) : Int :=
  if line < 1 then line
  else
    let index := (line - 1).toNat
    docWalk (source.take index).reverse index false + 1

/-! ## The check -/

def importScopedFamily (language : String) : Option String :=
  if language ∈ ["javascript", "typescript", "tsx", "vue", "svelte"] then some "javascript"
  else if language = "python" then some "python"
  else none

/-- What `verify` reads: the graph and the root of the repository, the files below it, the lines
of the candidates' files, why the graph or its source keeps a candidate, and the language of a
file. -/
structure Inputs where
  reads : GraphReads
  root : Option String
  listing : Option (List (String × Reading))
  sources : String → Option (List (List Char))
  structuralReason : NodeRow → List (List Char) → Option String
  detectLanguage : String → Option String

abbrev Candidate := NodeRow × Json

namespace Inputs

variable (i : Inputs)

/-- A graph built with absolute paths names files by them. -/
def relative (path : String) : String :=
  match i.root with
  | none => path
  | some root =>
      let root := String.ofList (root.toList.rdropWhile (· = '/')) ++ "/"
      if root.toList.isPrefixOf path.toList then
        String.ofList (path.toList.drop root.toList.length)
      else path

/-- Why a candidate is left out before its name is looked for. -/
def firstReason (c : Candidate) : Option String :=
  if c.1.input.name = "" || !c.1.input.name.toList.all isWord then some "name_not_checkable"
  else i.structuralReason c.1 ((i.sources c.1.input.filePath).getD [])

def pending (candidates : List Candidate) : List Candidate :=
  candidates.filter fun c => (i.firstReason c).isNone

def scopedNames (candidates : List Candidate) : List String :=
  ((i.pending candidates).filter fun c =>
    c.1.input.parentName.isNone && (importScopedFamily c.1.input.language).isSome).map
      fun c => c.1.input.name

def imports (candidates : List Candidate) : Dict String FileImports :=
  if (i.scopedNames candidates).isEmpty then ∅
  else fileImports i.reads (i.scopedNames candidates) i.relative

def docStart (node : NodeRow) : Int :=
  match i.sources node.input.filePath with
  | none => node.input.lineStart
  | some source => ownDocStart source node.input.lineStart

def family (node : NodeRow) : Option String :=
  if node.input.parentName.isNone then importScopedFamily node.input.language else none

def explained (imports : Dict String FileImports) (node : NodeRow) (file : String) (line : Int) :
    Bool :=
  (family node).any fun family =>
    (i.detectLanguage file).bind importScopedFamily = some family &&
      (imports.lookup file).any fun fileImports =>
        fileImports.explains node.input.name line (i.relative node.input.filePath)

/-- A mention of the name that keeps the candidate alive. -/
def mentionedElsewhere (imports : Dict String FileImports) (node : NodeRow)
    (occurrence : String × Int) : Bool :=
  if occurrence.1 = i.relative node.input.filePath then
    occurrence.2 < i.docStart node || node.input.lineEnd < occurrence.2
  else !i.explained imports node occurrence.1 occurrence.2

structure Verified where
  dead : List Json := []
  suppressed : Dict String Nat := ∅
  verification : Verification := {}

def Verified.suppress (v : Verified) (reason : String) (count : Nat) : Verified :=
  { v with suppressed := v.suppressed.insert reason (Dict.getD v.suppressed reason 0 + count) }

/-- `reason_codes` gets one more code. -/
def pushReason (record : Json) : Json :=
  match record with
  | .obj fields => .obj (fields.map fun field =>
      match field with
      | ("reason_codes", .arr reasons) =>
          ("reason_codes", .arr (reasons ++ [.str "name_unreferenced_in_source"]))
      | other => other)
  | other => other

/-- The first loop: the candidates that are left out for a reason of their own. -/
def sort (v : Verified) (candidates : List Candidate) : Verified :=
  candidates.foldl (fun v c =>
    match i.firstReason c with
    | some reason => v.suppress reason 1
    | none => v) v

/-- The second loop: the pending candidates whose name is mentioned elsewhere, and the dead. -/
def check (imports : Dict String FileImports) (listing : List (String × Reading)) (v : Verified)
    (pending : List Candidate) : Verified :=
  pending.foldl (fun v c =>
    if (occurrences listing c.1.input.name).any (i.mentionedElsewhere imports c.1) then
      v.suppress "name_referenced_in_source" 1
    else { v with dead := v.dead ++ [pushReason c.2] }) v

def verify (candidates : List Candidate) : Verified :=
  let v := i.sort {} candidates
  let pending := i.pending candidates
  if pending.isEmpty then v
  else
    match i.root, i.listing with
    | some _, some listing =>
        let counts := scanCounts listing
        let counts :=
          if 0 < counts.filesSkipped then { counts with status := "partial" } else counts
        i.check (i.imports candidates) listing { v with verification := counts } pending
    | _, _ =>
        { v with verification := { v.verification with status := "unavailable" } }.suppress
          "source_scan_unavailable" pending.length

/-! ## One place for each candidate -/

def place (candidates : List Candidate) (c : Candidate) : Option String :=
  match i.firstReason c with
  | some reason => some reason
  | none =>
      match i.root, i.listing with
      | some _, some listing =>
          if (occurrences listing c.1.input.name).any
              (i.mentionedElsewhere (i.imports candidates) c.1) then
            some "name_referenced_in_source"
          else none
      | _, _ => some "source_scan_unavailable"

/-- Each candidate is dead or counted under one reason. -/
structure Places (candidates : List Candidate) (place : Candidate → Option String)
    (v : Verified) : Prop where
  dead : v.dead = (candidates.filter fun c => (place c).isNone).map fun c => pushReason c.2
  count : ∀ reason, Dict.getD v.suppressed reason 0 =
    candidates.countP fun c => place c = some reason
  total : v.dead.length + (Dict.values v.suppressed).sum = candidates.length

theorem sum_values_insert (d : Dict String Nat) (k : String) (n : Nat) :
    (Dict.values (d.insert k (Dict.getD d k 0 + n))).sum = (Dict.values d).sum + n := by
  simp only [Dict.values, AList.entries_insert, List.map_cons, List.sum_cons]
  by_cases hk : k ∈ d.entries.keys
  · obtain ⟨m, front, back, -, hentries, herase⟩ := List.exists_of_kerase hk
    have hlookup : d.lookup k = some m := by
      refine Option.mem_def.mp (AList.mem_lookup_iff.mpr ?_)
      rw [hentries]
      exact List.mem_append_right _ List.mem_cons_self
    rw [herase, hentries, Dict.getD, hlookup]
    simp only [Option.getD_some, List.map_append, List.map_cons, List.sum_append, List.sum_cons]
    omega
  · have hnone : d.lookup k = none := AList.lookup_eq_none.mpr hk
    rw [List.kerase_of_notMem_keys hk, Dict.getD, hnone, Option.getD_none]
    omega

variable {i}

theorem Places.nil {place : Candidate → Option String} : Places [] place {} where
  dead := rfl
  count _ := rfl
  total := rfl

theorem Places.suppress {candidates others : List Candidate}
    {place : Candidate → Option String} {v : Verified} (h : Places candidates place v)
    {reason : String} (hothers : ∀ c ∈ others, place c = some reason) :
    Places (candidates ++ others) place (v.suppress reason others.length) where
  dead := by
    have hnone : others.filter (fun c => (place c).isNone) = [] :=
      List.filter_eq_nil_iff.mpr fun c hc => by simp [hothers c hc]
    rw [List.filter_append, hnone, List.append_nil]
    exact h.dead
  count reason' := by
    rw [Verified.suppress, Dict.getD_insert, List.countP_append, ← h.count reason']
    by_cases heq : reason' = reason
    · subst heq
      rw [if_pos rfl, List.countP_eq_length.mpr fun c hc => decide_eq_true (hothers c hc)]
    · have hzero : others.countP (fun c => place c = some reason') = 0 := by
        refine List.countP_eq_zero.mpr fun c hc => ?_
        rw [hothers c hc, decide_eq_true_eq]
        exact fun h => heq (Option.some.inj h).symm
      rw [if_neg heq, hzero, Nat.add_zero]
  total := by
    have hsum := h.total
    rw [Verified.suppress, sum_values_insert, List.length_append]
    dsimp only
    omega

theorem Places.bury {candidates : List Candidate} {place : Candidate → Option String}
    {v : Verified} (h : Places candidates place v) {c : Candidate} (hc : place c = none) :
    Places (candidates ++ [c]) place { v with dead := v.dead ++ [pushReason c.2] } where
  dead := by
    rw [List.filter_append, List.map_append, ← h.dead]
    simp [hc]
  count reason := by
    rw [List.countP_append, ← h.count reason]
    simp [hc]
  total := by
    have hsum := h.total
    simp only [List.length_append, List.length_singleton]
    omega

theorem Places.of_perm {candidates candidates' : List Candidate}
    {place : Candidate → Option String} {v : Verified} (h : Places candidates place v)
    (hperm : candidates.Perm candidates')
    (hdead : candidates'.filter (fun c => (place c).isNone) =
      candidates.filter fun c => (place c).isNone) : Places candidates' place v where
  dead := by rw [hdead]; exact h.dead
  count reason := by rw [h.count reason, hperm.countP_eq]
  total := by rw [h.total, hperm.length_eq]

theorem places_sort {place : Candidate → Option String} {rest : List Candidate}
    (hplace : ∀ c ∈ rest, ∀ reason, i.firstReason c = some reason → place c = some reason)
    {before : List Candidate} {v : Verified} (h : Places before place v) :
    Places (before ++ rest.filter fun c => (i.firstReason c).isSome) place (i.sort v rest) := by
  induction rest generalizing before v with
  | nil => simpa [sort] using h
  | cons c rest ih =>
      have hrest := fun c hc => hplace c (List.mem_cons_of_mem _ hc)
      rw [sort, List.foldl_cons, ← sort, List.filter_cons]
      cases hreason : i.firstReason c with
      | none => exact ih hrest h
      | some reason =>
          have hone : Places (before ++ [c]) place (v.suppress reason 1) :=
            h.suppress fun c' hc' => by
              rw [List.mem_singleton.mp hc']
              exact hplace c List.mem_cons_self reason hreason
          have hall := ih hrest hone
          rwa [List.append_assoc] at hall

theorem places_check {place : Candidate → Option String} {imports : Dict String FileImports}
    {listing : List (String × Reading)} {rest : List Candidate}
    (hplace : ∀ c ∈ rest, place c = if (occurrences listing c.1.input.name).any
      (i.mentionedElsewhere imports c.1) then some "name_referenced_in_source" else none)
    {before : List Candidate} {v : Verified} (h : Places before place v) :
    Places (before ++ rest) place (i.check imports listing v rest) := by
  induction rest generalizing before v with
  | nil => simpa [check] using h
  | cons c rest ih =>
      have hrest := fun c hc => hplace c (List.mem_cons_of_mem _ hc)
      have hc := hplace c List.mem_cons_self
      rw [check, List.foldl_cons, ← check, List.append_cons]
      split
      · rename_i hmentioned
        rw [if_pos hmentioned] at hc
        refine ih hrest (h.suppress fun c' hc' => ?_)
        rw [List.mem_singleton.mp hc']
        exact hc
      · rename_i hmentioned
        rw [if_neg hmentioned] at hc
        exact ih hrest (h.bury hc)

theorem Places.with_verification {candidates : List Candidate}
    {place : Candidate → Option String} {v : Verified} (h : Places candidates place v)
    (verification : Verification) :
    Places candidates place { v with verification := verification } :=
  ⟨h.dead, h.count, h.total⟩

theorem places_verify (i : Inputs) (candidates : List Candidate) :
    Places candidates (i.place candidates) (i.verify candidates) := by
  have hsort : Places (candidates.filter fun c => (i.firstReason c).isSome)
      (i.place candidates) (i.sort {} candidates) :=
    places_sort (fun c _ reason h => by rw [place, h]) Places.nil
  have hpending : ∀ c ∈ i.pending candidates, i.firstReason c = none := fun c hc =>
    Option.isNone_iff_eq_none.mp (List.mem_filter.mp hc).2
  have hperm : ((candidates.filter fun c => (i.firstReason c).isSome) ++
      i.pending candidates).Perm candidates := by
    have hnot : (fun c => (i.firstReason c).isNone) = fun c => !(i.firstReason c).isSome := by
      funext c
      cases i.firstReason c <;> rfl
    rw [pending, hnot]
    exact List.filter_append_perm _ _
  have hdead : candidates.filter (fun c => (i.place candidates c).isNone) =
      ((candidates.filter fun c => (i.firstReason c).isSome) ++ i.pending candidates).filter
        fun c => (i.place candidates c).isNone := by
    have hfirst : (candidates.filter fun c => (i.firstReason c).isSome).filter
        (fun c => (i.place candidates c).isNone) = [] := by
      refine List.filter_eq_nil_iff.mpr fun c hc => ?_
      obtain ⟨reason, hreason⟩ := Option.isSome_iff_exists.mp (List.mem_filter.mp hc).2
      simp [place, hreason]
    rw [List.filter_append, hfirst, List.nil_append, pending, List.filter_filter]
    refine List.filter_congr fun c _ => ?_
    cases hreason : i.firstReason c <;> simp [place, hreason]
  suffices hall : Places ((candidates.filter fun c => (i.firstReason c).isSome) ++
      i.pending candidates) (i.place candidates) (i.verify candidates) from
    hall.of_perm hperm hdead
  rw [verify]
  dsimp only
  split
  · rename_i hempty
    rw [List.isEmpty_iff.mp hempty, List.append_nil]
    exact hsort
  · split
    · rename_i root listing hroot hlisting
      refine places_check (fun c hc => ?_) (hsort.with_verification _)
      rw [place, hpending c hc, hroot, hlisting]
    · rename_i hunavailable
      refine (hsort.with_verification _).suppress fun c hc => ?_
      rw [place, hpending c hc]
      dsimp only
      split
      · rename_i root listing hroot hlisting
        exact absurd hlisting (hunavailable root listing hroot)
      · rfl

/-! ## What the mentions of a dead candidate are -/

def lineComment (text : List Char) : Bool :=
  startsWith "//" text || startsWith "--" text ||
    match text with
    | '#' :: rest =>
        !startsWith "[" rest && !startsWith "![" rest && !rest.head?.any fun c => c.isAlpha
    | _ => false

/-- The line is in a block comment that has its lines for itself: it begins with `/*`, and the
first `*/` behind is the end of a line. -/
def BlockLine (source : List (List Char)) (j : Nat) : Prop :=
  ∃ o c, o ≤ j ∧ j ≤ c ∧ (∃ line, source[o]? = some line ∧ startsWith "/*" (trim line) = true) ∧
    (∃ line front, source[c]? = some line ∧ splitFirst "*/".toList (trim line) = some (front, [])) ∧
    ∀ k, o ≤ k → k < c → ∀ line, source[k]? = some line → contains "*/" (trim line) = false

def CommentOrAttribute (source : List (List Char)) (j : Nat) : Prop :=
  ∃ line, source[j]? = some line ∧ (lineComment (trim line) = true ∨
    attributeLine (trim line) = true ∨ BlockLine source j)

def DirectlyAbove (source : List (List Char)) (definition line : Int) : Prop :=
  line < definition ∧ ∀ j : Nat, line ≤ (j : Int) + 1 → (j : Int) + 1 < definition →
    CommentOrAttribute source j

/-- A mention of the name of a node that is no use of it. -/
inductive Harmless (i : Inputs) (node : NodeRow) (file : String) (content : List Char)
    (line : Int) : Prop
  | own : file = i.relative node.input.filePath → node.input.lineStart ≤ line →
      line ≤ node.input.lineEnd → Harmless i node file content line
  | doc : file = i.relative node.input.filePath →
      DirectlyAbove (lines content) node.input.lineStart line → Harmless i node file content line
  | bound (family : String) : file ≠ i.relative node.input.filePath →
      Inputs.family node = some family →
      (i.detectLanguage file).bind importScopedFamily = some family →
      BoundElsewhere i.reads i.relative file node.input.name line
        (i.relative node.input.filePath) → Harmless i node file content line

/-- Every mention in a file that was scanned is harmless. -/
def Unused (i : Inputs) (listing : List (String × Reading)) (node : NodeRow) : Prop :=
  ∀ file content, (file, .text content) ∈ listing →
    ∀ line ∈ textOccurrences node.input.name content, Harmless i node file content line

/-- Where the search for the doc comment puts a mention into it, only comments and attributes
stand between the mention and the definition. -/
def DocRight (i : Inputs) (listing : List (String × Reading)) (node : NodeRow) : Prop :=
  ∀ content, (i.relative node.input.filePath, .text content) ∈ listing →
    ∀ line ∈ textOccurrences node.input.name content, i.docStart node ≤ line →
      line < node.input.lineStart → DirectlyAbove (lines content) node.input.lineStart line

theorem mem_occurrences {listing : List (String × Reading)} {name file : String} {line : Int} :
    (file, line) ∈ occurrences listing name ↔
      ∃ content, (file, .text content) ∈ listing ∧ line ∈ textOccurrences name content := by
  rw [occurrences, List.mem_flatMap]
  constructor
  · rintro ⟨⟨file', reading⟩, hlisted, hmem⟩
    cases reading with
    | text content =>
        obtain ⟨line', hline, heq⟩ := List.mem_map.mp hmem
        obtain ⟨rfl, rfl⟩ := Prod.mk.inj heq
        exact ⟨content, hlisted, hline⟩
    | gone => exact absurd hmem List.not_mem_nil
    | tooLarge => exact absurd hmem List.not_mem_nil
    | unreadable => exact absurd hmem List.not_mem_nil
    | binary => exact absurd hmem List.not_mem_nil
  · rintro ⟨content, hlisted, hline⟩
    exact ⟨(file, .text content), hlisted, List.mem_map_of_mem hline⟩

theorem checked_of_place {candidates : List Candidate} {c : Candidate}
    (h : i.place candidates c = none) : ∃ listing, i.listing = some listing ∧
      ∀ file line, (file, line) ∈ occurrences listing c.1.input.name →
        i.mentionedElsewhere (i.imports candidates) c.1 (file, line) = false := by
  rw [place] at h
  split at h
  · cases h
  · split at h
    · rename_i root listing hroot hlisting
      split at h
      · cases h
      · rename_i hany
        refine ⟨listing, hlisting, fun file line hmem => ?_⟩
        rw [List.any_eq_true] at hany
        push Not at hany
        exact Bool.eq_false_iff.mpr (hany _ hmem)
    · cases h

theorem harmless_of_explained {candidates : List Candidate} {node : NodeRow} {file : String}
    {content : List Char} {line : Int} (hfile : file ≠ i.relative node.input.filePath)
    (h : i.explained (i.imports candidates) node file line = true) :
    Harmless i node file content line := by
  rw [explained] at h
  cases hfamily : Inputs.family node with
  | none =>
      rw [hfamily] at h
      cases h
  | some family =>
      rw [hfamily, Option.any_some, Bool.and_eq_true, decide_eq_true_eq] at h
      obtain ⟨hlanguage, himports⟩ := h
      cases hlookup : (i.imports candidates).lookup file with
      | none =>
          rw [hlookup] at himports
          cases himports
      | some fileImports =>
          rw [hlookup, Option.any_some] at himports
          refine .bound family hfile hfamily hlanguage ?_
          rw [imports] at hlookup
          split at hlookup
          · cases hlookup
          · exact boundElsewhere_of_explains hlookup himports

/-- The mentions of a dead candidate are harmless exactly where its doc comment is one. -/
theorem unused_iff_docRight {candidates : List Candidate} {c : Candidate}
    (h : i.place candidates c = none) {listing : List (String × Reading)}
    (hlisting : i.listing = some listing) : Unused i listing c.1 ↔ DocRight i listing c.1 := by
  obtain ⟨listing', hlisting', hchecked⟩ := checked_of_place h
  obtain rfl : listing = listing' := Option.some.inj (hlisting.symm.trans hlisting')
  constructor
  · intro hunused content hlisted line hline _ hbefore
    cases hunused _ content hlisted line hline with
    | own _ hstart _ => omega
    | doc _ habove => exact habove
    | bound family hfile _ _ _ => exact absurd rfl hfile
  · intro hdoc file content hlisted line hline
    have hmention := hchecked file line (mem_occurrences.mpr ⟨content, hlisted, hline⟩)
    rw [mentionedElsewhere] at hmention
    dsimp only at hmention
    split at hmention
    · rename_i hfile
      simp only [Bool.or_eq_false_iff, decide_eq_false_iff_not, not_lt] at hmention
      rcases Int.lt_or_le line c.1.input.lineStart with hbefore | hstart
      · exact .doc hfile (hdoc content (hfile ▸ hlisted) line hline hmention.1 hbefore)
      · exact .own hfile hstart hmention.2
    · rename_i hfile
      exact harmless_of_explained hfile (by simpa using hmention)

/-! ## A dead candidate is unused -/

/-- `verify` puts each candidate in one place, and the mentions of the dead ones are their own
definition, its doc comment, or another module's name, as far as the doc comment is one. -/
theorem verify_sound_iff (i : Inputs) (candidates : List Candidate) :
    Places candidates (i.place candidates) (i.verify candidates) ∧
      ∀ c ∈ candidates, i.place candidates c = none →
        ∃ listing, i.listing = some listing ∧ (Unused i listing c.1 ↔ DocRight i listing c.1) := by
  refine ⟨places_verify i candidates, fun c _ hdead => ?_⟩
  obtain ⟨listing, hlisting, -⟩ := checked_of_place hdead
  exact ⟨listing, hlisting, unused_iff_docRight hdead hlisting⟩

/-- A registry that names a function, and a comment above the function that ends in `*/`. -/
def registryText : String := "REGISTRY = [\"target\"]\n# for lib*/\ndef target():\n    pass\n"

def registryNode : NodeRow where
  id := 1
  qualifiedName := "app.py::target"
  input :=
    { kind := "Function"
      name := "target"
      filePath := "app.py"
      lineStart := 3
      lineEnd := 4
      language := "python" }
  fileHash := ""
  mtimeNs := 0

def registryInputs : Inputs where
  reads :=
    { keys := .rootless
      nodes := .empty
      edges := []
      scanned := []
      edge_ids_nodup := List.nodup_nil
      scanned_perm := List.Perm.refl _ }
  root := some "/repo"
  listing := some [("app.py", .text registryText.toList)]
  sources := fun _ => some (lines registryText.toList)
  structuralReason := fun _ _ => none
  detectLanguage := fun _ => some "python"

/-- The function is called dead though the registry, a line of code, names it. -/
theorem verify_not_sound_registry :
    (registryInputs.verify [(registryNode, .obj [])]).dead.length = 1 ∧
      ¬ Unused registryInputs [("app.py", .text registryText.toList)] registryNode := by
  have htext : registryText.toList = _ := String.toList_ofList
  refine ⟨by rw [registryInputs, htext]; decide +kernel, fun hunused => ?_⟩
  have hmention : (1 : Int) ∈ textOccurrences "target" registryText.toList := by
    rw [htext]
    decide +kernel
  have hown : "app.py" = registryInputs.relative "app.py" := by decide +kernel
  cases hunused "app.py" _ List.mem_cons_self 1 hmention with
  | own _ hstart _ => exact absurd hstart (by decide)
  | doc _ habove =>
      -- the registry is no comment, no attribute, and in no block comment
      obtain ⟨line, hline, hcounts⟩ := habove.2 0 (by decide) (by decide)
      obtain rfl : "REGISTRY = [\"target\"]".toList = line := by
        have hfirst : (lines registryText.toList)[0]? =
            some "REGISTRY = [\"target\"]".toList := by
          rw [htext]
          decide +kernel
        exact Option.some.inj (hfirst.symm.trans hline)
      rcases hcounts with hcomment | hattribute | ⟨o, c, ho, -, ⟨line', hline', hopens⟩, -⟩
      · exact absurd hcomment (by decide +kernel)
      · exact absurd hattribute (by decide +kernel)
      · obtain rfl : o = 0 := Nat.le_zero.mp ho
        obtain rfl : _ = line' := Option.some.inj (hline.symm.trans hline')
        exact absurd hopens (by decide +kernel)
  | bound family hfile _ _ _ => exact hfile hown

end Inputs

end DeadCode

end Dagayn
