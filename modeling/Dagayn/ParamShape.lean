import Dagayn.BaseSymbols

/-!
# Counting parameters

`param_shape` counts the parameters of a declaration and those a caller must pass, from the
text of its parameter list: commas at bracket depth 0 cut the text into parts, and a part is
optional by what it starts, ends and is written with. `unchanged_callers` compares two such
counts. Every angle bracket moves the depth, and so do those of an arrow; a quoted comma cuts.
`shapesHold_iff` says for which parameters of a language the counts are right.
-/

namespace Dagayn

namespace ParamShape

open BaseSymbols

/-- `ParamShape`. -/
structure Shape where
  total : Nat
  required : Nat
deriving DecidableEq, Repr

def opening : List Char := ['(', '[', '\x7b', '<']

def closing : List Char := [')', ']', '\x7d', '>']

def depthStep (depth : Int) (c : Char) : Int :=
  if c ∈ opening then depth + 1 else if c ∈ closing then depth - 1 else depth

def cut : Int → List Char → List (List Char)
  | _, [] => [[]]
  | depth, c :: rest =>
      if c = ',' ∧ depth = 0 then [] :: cut 0 rest
      else
        match cut (depthStep depth c) rest with
        | [] => [[c]]
        | part :: parts => (c :: part) :: parts

def nameOf (part : List Char) : List Char := trim ((trim part).takeWhile (· ≠ ':'))

/-- Receivers, and the separators of a Python list. -/
def uncounted : List (List Char) :=
  ["self".toList, "&self".toList, "&mut self".toList, "mut self".toList, "cls".toList,
    "this".toList, "/".toList, "*".toList]

def counts (part : List Char) : Bool := !(trim part).isEmpty && nameOf part ∉ uncounted

/-- A default, an optional marker, or a variadic form. -/
def isOptional (part : List Char) : Bool :=
  '=' ∈ trim part || (nameOf part).getLast? = some '?' || (nameOf part).head? = some '*' ||
    "...".toList.isPrefixOf (nameOf part) || "...".toList.isSuffixOf (trim part)

def shapeOf (parts : List (List Char)) : Shape where
  total := parts.countP counts
  required := parts.countP fun part => counts part && !isOptional part

def paramShape (params : List Char) : Shape :=
  let inner := trim params
  let inner := if inner.head? = some '(' then inner.tail else inner
  let inner := if inner.getLast? = some ')' then inner.dropLast else inner
  shapeOf (cut 0 inner)

example : paramShape "(&self, a: HashMap<String, i32>, b: i32)".toList = ⟨2, 2⟩ := by decide

/-! ## Callers that were not edited -/

inductive MatchKind where
  | exactTarget
  | importedName
  | importedModule
  | bareNameViaImport
  | unresolvedBareName
deriving DecidableEq, Repr

def MatchKind.asStr : MatchKind → String
  | .exactTarget => "exact_target"
  | .importedName => "imported_name"
  | .importedModule => "imported_module"
  | .bareNameViaImport => "bare_name_via_import"
  | .unresolvedBareName => "unresolved_bare_name"

def MatchKind.confidence : MatchKind → String
  | .exactTarget | .importedName => "high"
  | .importedModule => "medium"
  | .bareNameViaImport | .unresolvedBareName => "low"

structure Reference where
  target : String
  edgeKind : String
  sourceQualified : String
  filePath : String
  line : Int
  matchedBy : MatchKind

/-- A row of a finding's `sites`. -/
structure Site where
  qualifiedName : String
  file : String
  line : Int
  edge : String
  matchedBy : String
  confidence : String
deriving DecidableEq, Repr

def sitesFor (references : List Reference) (target : String) (keep : Reference → Bool) :
    List Site :=
  (references.filter fun r => r.target = target && keep r).map fun r =>
    ⟨r.sourceQualified, r.filePath, r.line, r.edgeKind, r.matchedBy.asStr, r.matchedBy.confidence⟩

structure UnchangedCaller where
  qualifiedName : String
  file : String
  line : Int
  claim : String
  before : Option String
  after : Option String
  sites : List Site
deriving DecidableEq, Repr

def callKinds : List String := ["CALLS", "INHERITS", "IMPLEMENTS"]

def unchangedCaller (references : List Reference) (change : SignatureChange) :
    Option UnchangedCaller :=
  if !change.paramsChanged then none
  else
    let before := paramShape (change.before.params.getD "").toList
    let after := paramShape (change.after.params.getD "").toList
    if after.required ≤ before.required ∧ before.total ≤ after.total then none
    else
      let symbol := change.symbol
      let sites := sitesFor references symbol.qualifiedName fun r => r.edgeKind ∈ callKinds
      if sites.isEmpty then none
      else
        some {
          qualifiedName := symbol.currentQualifiedName.getD symbol.qualifiedName
          file := symbol.currentFile.getD symbol.filePath
          line := change.lineStart
          claim := symbol.name ++ " now takes " ++ change.after.params.getD "()" ++ " (" ++
            toString after.required ++ " required, was " ++ toString before.required ++
            "); callers outside the change were not edited."
          before := change.before.params
          after := change.after.params
          sites := sites }

/-! ## Parameters of a language -/

/-- A parameter as a language has it: its text between the commas, whether callers count it
(a receiver or a separator they do not), and whether they may leave it out. -/
structure Param where
  text : List Char
  counted : Bool
  optional : Bool

def joined (ps : List Param) : List Char := [','].intercalate (ps.map Param.text)

def render (ps : List Param) : List Char := '(' :: (joined ps ++ [')'])

def shape (ps : List Param) : Shape where
  total := ps.countP (·.counted)
  required := ps.countP fun p => p.counted && !p.optional

def Counted (ps : List Param) : Prop := paramShape (render ps) = shape ps

/-- A changed signature with callers outside the change is reported exactly when it has a new
required parameter or fewer parameters. -/
def Reported (ps qs : List Param) : Prop :=
  ∀ references change, change.before.params = some (String.ofList (render ps)) →
    change.after.params = some (String.ofList (render qs)) →
      ((unchangedCaller references change).isSome ↔ change.paramsChanged = true ∧
        sitesFor references change.symbol.qualifiedName (fun r => r.edgeKind ∈ callKinds) ≠ [] ∧
        ((shape ps).required < (shape qs).required ∨ (shape qs).total < (shape ps).total))

/-- The counts are right for all lists of parameters of a language. -/
def ShapesHold (language : Param → Prop) : Prop :=
  (∀ ps, (∀ p ∈ ps, language p) → Counted ps) ∧
    ∀ ps qs, (∀ p ∈ ps, language p) → (∀ q ∈ qs, language q) → Reported ps qs

/-! ## Cutting a list -/

def depthAfter (depth : Int) (text : List Char) : Int := text.foldl depthStep depth

def isBracket (c : Char) : Bool := c ∈ opening || c ∈ closing

variable {depth : Int} {text rest : List Char} {c : Char}

theorem depthStep_eq_self (h : isBracket c = false) : depthStep depth c = depth := by
  obtain ⟨hopen, hclose⟩ : c ∉ opening ∧ c ∉ closing := by simpa [isBracket] using h
  rw [depthStep, if_neg hopen, if_neg hclose]

theorem cut_ne_nil (depth : Int) (text : List Char) : cut depth text ≠ [] := by
  cases text with
  | nil => simp [cut]
  | cons c rest =>
      rw [cut]
      split
      · simp
      · split <;> simp

theorem cut_cons (h : ¬(c = ',' ∧ depth = 0)) {part : List Char} {parts : List (List Char)}
    (hparts : cut (depthStep depth c) rest = part :: parts) :
    cut depth (c :: rest) = (c :: part) :: parts := by
  rw [cut, if_neg h, hparts]

theorem cut_append_comma (h : depthAfter depth text = 0) :
    cut depth (text ++ ',' :: rest) = cut depth text ++ cut 0 rest := by
  induction text generalizing depth with
  | nil =>
      obtain rfl : depth = 0 := h
      rfl
  | cons c text ih =>
      by_cases hc : c = ',' ∧ depth = 0
      · obtain ⟨rfl, rfl⟩ := hc
        have htext : depthAfter 0 text = 0 := h
        rw [List.cons_append, cut, cut, if_pos ⟨rfl, rfl⟩, if_pos ⟨rfl, rfl⟩, ih htext]
        rfl
      · obtain ⟨part, parts, hparts⟩ :=
          List.exists_cons_of_ne_nil (cut_ne_nil (depthStep depth c) text)
        have happend : cut (depthStep depth c) (text ++ ',' :: rest) =
            part :: (parts ++ cut 0 rest) := by rw [ih h, hparts]; rfl
        rw [List.cons_append, cut_cons hc happend, cut_cons hc hparts]
        rfl

theorem cut_of_plain (h : ∀ c ∈ text, isBracket c = false ∧ c ≠ ',') :
    cut depth text = [text] := by
  induction text with
  | nil => rfl
  | cons c text ih =>
      obtain ⟨⟨hbracket, hcomma⟩, htext⟩ := List.forall_mem_cons.mp h
      refine cut_cons (fun hc => hcomma hc.1) ?_
      rw [depthStep_eq_self hbracket]
      exact ih htext

/-- Behind a text that does not bring the depth back, a plain one goes on with its last part. -/
theorem cut_append_of_ne (h : depthAfter depth text ≠ 0)
    (hrest : ∀ c ∈ rest, isBracket c = false ∧ c ≠ ',') :
    ∃ parts last, cut depth text = parts ++ [last] ∧
      cut depth (text ++ ',' :: rest) = parts ++ [last ++ ',' :: rest] ∧
      ((depth = 0 ∨ parts ≠ []) → ∃ c ∈ last, isBracket c = true) := by
  induction text generalizing depth with
  | nil =>
      have hdepth : depth ≠ 0 := h
      refine ⟨[], [], rfl, ?_, fun hor => hor.elim (fun h => absurd h hdepth) (absurd rfl)⟩
      have hstep : depthStep depth ',' = depth := depthStep_eq_self (by decide)
      have hcut : cut depth rest = [rest] := cut_of_plain hrest
      exact cut_cons (fun hc => hdepth hc.2) (hstep ▸ hcut)
  | cons c text ih =>
      obtain ⟨parts, last, hcut, happend, hlast⟩ := ih h
      by_cases hc : c = ',' ∧ depth = 0
      · obtain ⟨rfl, rfl⟩ := hc
        refine ⟨[] :: parts, last, ?_, ?_, fun _ => hlast (.inl rfl)⟩
        · rw [cut, if_pos ⟨rfl, rfl⟩]
          exact congrArg _ hcut
        · rw [List.cons_append, cut, if_pos ⟨rfl, rfl⟩]
          exact congrArg _ happend
      · cases parts with
        | nil =>
            refine ⟨[], c :: last, cut_cons hc hcut, cut_cons hc happend, fun hor => ?_⟩
            obtain rfl : depth = 0 := hor.elim id (absurd rfl)
            cases hbracket : isBracket c with
            | true => exact ⟨c, List.mem_cons_self, hbracket⟩
            | false =>
                obtain ⟨b, hb, hbb⟩ := hlast (.inl (depthStep_eq_self hbracket))
                exact ⟨b, List.mem_cons_of_mem _ hb, hbb⟩
        | cons part parts =>
            refine ⟨(c :: part) :: parts, last, cut_cons hc hcut, cut_cons hc happend, fun _ => ?_⟩
            exact hlast (.inr (List.cons_ne_nil _ _))

/-! ## Parts of a parameter -/

theorem trim_eq (part : List Char) :
    ∃ front back, part = front ++ trim part ++ back ∧ (∀ c ∈ front, isWhitespace c = true) ∧
      ∀ c ∈ back, isWhitespace c = true := by
  refine ⟨part.takeWhile isWhitespace, (part.dropWhile isWhitespace).rtakeWhile isWhitespace, ?_,
    fun c hc => List.mem_takeWhile_imp hc, fun c hc => List.mem_rtakeWhile_imp hc⟩
  rw [trim, List.append_assoc, List.rdropWhile_append_rtakeWhile, List.takeWhile_append_dropWhile]

theorem mem_trim (hc : c ∈ text) (hblank : isWhitespace c = false) : c ∈ trim text := by
  obtain ⟨front, back, heq, hfront, hback⟩ := trim_eq text
  rw [heq, List.mem_append, List.mem_append] at hc
  rcases hc with (hc | hc) | hc
  · rw [hfront c hc] at hblank
    cases hblank
  · exact hc
  · rw [hback c hc] at hblank
    cases hblank

theorem isWhitespace_of_isBracket (h : isBracket c = true) : isWhitespace c = false := by
  have hmem : c ∈ opening ++ closing := by simpa [isBracket] using h
  have hall : ∀ x ∈ opening ++ closing, isWhitespace x = false := forall_mem_of_all (by decide)
  exact hall c hmem

theorem takeWhile_append_of_mem {a b : List Char} (h : ':' ∈ a) :
    (a ++ b).takeWhile (· ≠ ':') = a.takeWhile (· ≠ ':') := by
  induction a with
  | nil => cases h
  | cons c a ih =>
      rw [List.cons_append, List.takeWhile_cons, List.takeWhile_cons]
      split
      · rename_i hc
        rw [ih ((List.mem_cons.mp h).resolve_left fun heq => by simp [← heq] at hc)]
      · rfl

theorem mem_nameOf (hc : c ∈ text.takeWhile (· ≠ ':')) (hblank : isWhitespace c = false) :
    c ∈ nameOf text := by
  obtain ⟨front, back, heq, hfront, hback⟩ := trim_eq text
  refine mem_trim ?_ hblank
  have hcolon : ∀ x ∈ front, decide (x ≠ ':') = true := by
    intro x hx
    refine decide_eq_true fun heq => ?_
    have hwhite := hfront x hx
    rw [heq] at hwhite
    cases hwhite
  rw [heq, List.append_assoc, List.takeWhile_append_of_pos hcolon] at hc
  have hbehind : c ∈ (trim text ++ back).takeWhile (· ≠ ':') := by
    refine (List.mem_append.mp hc).resolve_left fun hin => ?_
    rw [hfront c hin] at hblank
    cases hblank
  by_cases hmem : ':' ∈ trim text
  · rwa [takeWhile_append_of_mem hmem] at hbehind
  · have hall : ∀ x ∈ trim text, decide (x ≠ ':') = true := fun x hx =>
      decide_eq_true fun heq => hmem (heq ▸ hx)
    rw [List.takeWhile_append_of_pos hall] at hbehind
    rw [List.takeWhile_eq_self_iff.mpr hall]
    refine (List.mem_append.mp hbehind).resolve_right fun hin => ?_
    rw [hback c ((List.takeWhile_subset _) hin)] at hblank
    cases hblank

theorem counts_of_bracket (hc : c ∈ text.takeWhile (· ≠ ':')) (hbracket : isBracket c = true) :
    counts text = true := by
  have hblank := isWhitespace_of_isBracket hbracket
  have hname := mem_nameOf hc hblank
  have hnames : ∀ name ∈ uncounted, (name.all fun x => !isBracket x) = true := by decide
  have hplain : ∀ name ∈ uncounted, ∀ x ∈ name, isBracket x = false := fun name hmem x hx => by
    simpa using List.all_eq_true.mp (hnames name hmem) x hx
  have hin : nameOf text ∉ uncounted := by
    intro hmem
    rw [hplain _ hmem c hname] at hbracket
    cases hbracket
  have hne : (trim text).isEmpty = false := by
    rw [List.isEmpty_eq_false_iff]
    exact List.ne_nil_of_mem (mem_trim ((List.takeWhile_subset _) hc) hblank)
  simp [counts, hne, hin]

theorem nameOf_append_of_colon (h : ':' ∈ text) : nameOf (text ++ rest) = nameOf text := by
  have hdrop : (text ++ rest).dropWhile isWhitespace = text.dropWhile isWhitespace ++ rest := by
    induction text with
    | nil => cases h
    | cons c text ih =>
        rw [List.cons_append, List.dropWhile_cons, List.dropWhile_cons]
        split
        · rename_i hc
          exact ih ((List.mem_cons.mp h).resolve_left fun heq => by rw [← heq] at hc; cases hc)
        · rfl
  have hkeep : ∀ part : List Char, ':' ∈ part →
      (trim part).takeWhile (· ≠ ':') = (part.dropWhile isWhitespace).takeWhile (· ≠ ':') := by
    intro part hpart
    have hsplit : part.dropWhile isWhitespace =
        trim part ++ (part.dropWhile isWhitespace).rtakeWhile isWhitespace :=
      List.rdropWhile_append_rtakeWhile.symm
    rw [hsplit, takeWhile_append_of_mem (mem_trim hpart (by decide))]
  have hmem : ':' ∈ text.dropWhile isWhitespace := by
    have htrim : ':' ∈ trim text := mem_trim h (by decide)
    exact (List.rdropWhile_prefix isWhitespace _).subset htrim
  rw [nameOf, nameOf, hkeep _ (List.mem_append_left _ h), hkeep _ h, hdrop,
    takeWhile_append_of_mem hmem]

theorem counts_append (hc : c ∈ text) (hbracket : isBracket c = true) :
    counts (text ++ rest) = counts text := by
  by_cases hcolon : ':' ∈ text
  · have hne : ∀ part : List Char, ':' ∈ part → (trim part).isEmpty = false := fun part hpart =>
      List.isEmpty_eq_false_iff.mpr (List.ne_nil_of_mem (mem_trim hpart (by decide)))
    rw [counts, counts, nameOf_append_of_colon hcolon, hne _ hcolon,
      hne _ (List.mem_append_left _ hcolon)]
  · have hall : ∀ x ∈ text, decide (x ≠ ':') = true := fun x hx =>
      decide_eq_true fun heq => hcolon (heq ▸ hx)
    have htext : c ∈ text.takeWhile (· ≠ ':') := by
      rw [List.takeWhile_eq_self_iff.mpr hall]
      exact hc
    have happend : c ∈ (text ++ rest).takeWhile (· ≠ ':') := by
      rw [List.takeWhile_append_of_pos hall]
      exact List.mem_append_left _ hc
    rw [counts_of_bracket htext hbracket, counts_of_bracket happend hbracket]

/-! ## Right counts -/

/-- The commas that the code cuts at leave one part that counts of a counted parameter and none
of another; the part is optional as the parameter is, and the depth is back at 0 behind it. -/
def WellCut (p : Param) : Prop :=
  depthAfter 0 p.text = 0 ∧ (cut 0 p.text).countP counts = (if p.counted then 1 else 0) ∧
    (cut 0 p.text).countP (fun part => counts part && !isOptional part) =
      if p.counted && !p.optional then 1 else 0

instance (p : Param) : Decidable (WellCut p) := by
  unfold WellCut
  infer_instance

theorem paramShape_render (ps : List Param) :
    paramShape (render ps) = shapeOf (cut 0 (joined ps)) := by
  have htrim : trim (render ps) = render ps := by
    rw [trim, render, List.dropWhile_cons_of_neg (by decide), ← List.cons_append,
      List.rdropWhile_concat_neg _ _ _ (by decide)]
  rw [paramShape, htrim]
  simp [render]

theorem shapeOf_append (parts parts' : List (List Char)) :
    shapeOf (parts ++ parts') = ⟨(shapeOf parts).total + (shapeOf parts').total,
      (shapeOf parts).required + (shapeOf parts').required⟩ := by
  rw [shapeOf, List.countP_append, List.countP_append]
  rfl

theorem shapeOf_wellCut {p : Param} (h : WellCut p) : shapeOf (cut 0 p.text) = shape [p] := by
  rw [shapeOf, h.2.1, h.2.2, shape, List.countP_singleton, List.countP_singleton]

theorem joined_cons {p : Param} {ps : List Param} (hne : ps ≠ []) :
    joined (p :: ps) = p.text ++ ',' :: joined ps := by
  obtain ⟨q, qs, rfl⟩ := List.exists_cons_of_ne_nil hne
  rw [joined, joined, List.map_cons, List.map_cons, List.intercalate_cons_cons, List.append_assoc]
  rfl

theorem counted_of_wellCut {ps : List Param} (h : ∀ p ∈ ps, WellCut p) : Counted ps := by
  rw [Counted, paramShape_render]
  induction ps with
  | nil => rfl
  | cons p ps ih =>
      obtain ⟨hp, hps⟩ := List.forall_mem_cons.mp h
      by_cases hne : ps = []
      · subst hne
        have hone : joined [p] = p.text := List.intercalate_singleton ..
        rw [hone, shapeOf_wellCut hp]
      · rw [joined_cons hne, cut_append_comma hp.1, shapeOf_append, ih hps, shapeOf_wellCut hp]
        simp only [shape, List.countP_cons, List.countP_nil]
        congr 1 <;> omega

def Plain (p : Param) : Prop := p.counted = true ∧ ∀ c ∈ p.text, isBracket c = false ∧ c ≠ ','

/-- A parameter that is counted right alone and in front of a plain one is well cut. -/
theorem wellCut_of_counted {p x : Param} (hx : Plain x) (hone : Counted [p])
    (htwo : Counted [p, x]) : WellCut p := by
  rw [Counted, paramShape_render] at hone htwo
  have hsingle : joined [p] = p.text := List.intercalate_singleton ..
  have hpair : joined [p, x] = p.text ++ ',' :: x.text := by
    rw [joined_cons (List.cons_ne_nil _ _)]
    exact congrArg (p.text ++ ',' :: ·) (List.intercalate_singleton ..)
  rw [hsingle, shapeOf, shape, Shape.mk.injEq, List.countP_singleton, List.countP_singleton] at hone
  refine ⟨?_, hone⟩
  by_contra hdepth
  -- The plain parameter goes on with the last part, which counts as it did.
  obtain ⟨parts, last, hcut, happend, hlast⟩ := cut_append_of_ne hdepth hx.2
  obtain ⟨c, hc, hbracket⟩ := hlast (.inl rfl)
  have htotal : (cut 0 (joined [p, x])).countP counts = (cut 0 p.text).countP counts := by
    rw [hpair, happend, hcut, List.countP_append, List.countP_append, List.countP_singleton,
      List.countP_singleton, counts_append hc hbracket]
  have hright : (cut 0 (joined [p, x])).countP counts = (shape [p, x]).total :=
    congrArg Shape.total htwo
  have hsum : (shape [p, x]).total = (if p.counted then 1 else 0) + 1 := by
    simp only [shape, List.countP_cons, List.countP_nil, hx.1, if_true]
    omega
  rw [htotal, hone.1, hsum] at hright
  omega

theorem reported_of_counted {ps qs : List Param} (hps : Counted ps) (hqs : Counted qs) :
    Reported ps qs := by
  intro references change hbefore hafter
  rw [unchangedCaller, hbefore, hafter]
  simp only [Option.getD_some, String.toList_ofList]
  rw [hps, hqs]
  cases change.paramsChanged with
  | false => simp
  | true =>
      simp only [Bool.not_true, Bool.false_eq_true, if_false, true_and]
      split
      · rename_i hfine
        simp only [Option.isSome_none, Bool.false_eq_true, false_iff, not_and, not_or]
        omega
      · rename_i hworse
        split
        · rename_i hempty
          simp [List.isEmpty_iff.mp hempty]
        · rename_i hsites
          simp only [Option.isSome_some, true_iff]
          refine ⟨fun h => hsites (List.isEmpty_iff.mpr h), ?_⟩
          omega

/-- The counts are right for a language with a plain parameter exactly where every parameter
of the language is well cut. -/
theorem shapesHold_iff (language : Param → Prop) (x : Param) (hx : language x) (hplain : Plain x) :
    ShapesHold language ↔ ∀ p, language p → WellCut p := by
  constructor
  · intro h p hp
    refine wellCut_of_counted hplain (h.1 [p] (List.forall_mem_singleton.mpr hp)) (h.1 [p, x] ?_)
    exact List.forall_mem_cons.mpr ⟨hp, List.forall_mem_singleton.mpr hx⟩
  · intro h
    have hcounted : ∀ ps : List Param, (∀ p ∈ ps, language p) → Counted ps := fun ps hps =>
      counted_of_wellCut fun p hp => h p (hps p hp)
    exact ⟨hcounted, fun ps qs hps hqs => reported_of_counted (hcounted ps hps) (hcounted qs hqs)⟩

/-! ## An arrow -/

def countParam : Param := ⟨" count: number".toList, true, false⟩

/-- A callback of TypeScript, which every caller must pass. -/
def callbackParam : Param := ⟨"each: (item: string) => void".toList, true, false⟩

theorem shapesHold_plain : ShapesHold (· = countParam) ↔ ∀ p, p = countParam → WellCut p :=
  shapesHold_iff (· = countParam) countParam rfl ⟨rfl, forall_mem_of_all (by decide)⟩

/-- Behind the arrow of the callback no comma cuts, and its equals sign counts as a default. -/
theorem not_shapesHold_arrow : ¬ShapesHold fun p => p = callbackParam ∨ p = countParam := by
  intro h
  have hcounted := h.1 [callbackParam, countParam] (by simp)
  have hshape : paramShape (render [callbackParam, countParam]) = ⟨1, 0⟩ := by decide +kernel
  rw [Counted, hshape] at hcounted
  exact absurd hcounted (by decide)

end ParamShape

end Dagayn
