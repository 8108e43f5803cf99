import Dagayn.RelativePaths
import Dagayn.Utf8
import Dagayn.Wildcard

/-!
# Ignore patterns

`should_ignore` decides for the build and the update which paths are indexed, and
`_should_ignore` for the watcher and the Python file lists. Both try every pattern
against the whole path and then a rule of their own: a pattern `<dir>/**` also matches
below a directory of that name at any depth. They differ in the pattern language: the
Rust side compiles patterns with globset, which matches the bytes of a path, the Python side
with `fnmatch`, which matches its characters.

globset is a library, known by its rules (`Globset.Documented`); `fnmatch` is modelled as a
parser into pieces. The two agree on the patterns that `Shared` describes: literal
characters, `?`, `*`, plain character sets, and runs of `*` that do not make up a `**/` at the
start or a `/**/` inside.
-/

namespace Dagayn

/-! ## Patterns -/

/-- An element of a pattern. -/
inductive Piece where
  | literal (c : Char)
  | any
  | star
  | set (negated : Bool) (items : List (Char × Option Char))
deriving DecidableEq

/-- A character of one of the ranges, or of none of them. -/
def inClass (negated : Bool) (ranges : List (Char × Char)) (c : Char) : Bool :=
  (ranges.any fun r => r.1 ≤ c && c ≤ r.2) != negated

namespace Piece

def itemText (i : Char × Option Char) : List Char :=
  match i.2 with
  | none => [i.1]
  | some b => [i.1, '-', b]

/-- A range that runs backwards holds nothing. -/
def itemRange (i : Char × Option Char) : Char × Char := (i.1, i.2.getD i.1)

def text : Piece → List Char
  | literal c => [c]
  | any => ['?']
  | star => ['*']
  | set negated items =>
      '[' :: ((if negated then ['!'] else []) ++ items.flatMap itemText ++ [']'])

def chars : Piece → Wildcard Char
  | literal c => .sym (· = c)
  | any => .sym fun _ => true
  | star => .many
  | set negated items => .sym (inClass negated (items.map itemRange))

def bytes : Piece → Wildcard UInt8
  | literal c => .word (String.utf8EncodeChar c)
  | any => .sym fun _ => true
  | star => .many
  | set negated items => .sym fun b => inClass negated (items.map itemRange) (.ofNat b.toNat)

/-- It matches a single byte of a longer character. -/
def splits : Piece → Bool
  | any => true
  | set negated _ => negated
  | literal _ | star => false

def settable (c : Char) : Bool := !"]-!^".toList.contains c && decide (c.toNat < 0x80)

/-- A literal no language gives a meaning, or a set of ASCII characters and ascending ranges. -/
def Plain : Piece → Prop
  | literal c => "*?[\x7b\x7d\\".toList.contains c = false
  | set _ items => items ≠ [] ∧
      ∀ i ∈ items, settable i.1 = true ∧ ∀ b ∈ i.2, settable b = true ∧ i.1 ≤ b
  | any | star => True

end Piece

/-- `**/`. -/
def anyDirs : List Piece := [.star, .star, .literal '/']

/-- Plain pieces, without a `**/` at their start and a `/**/` inside. -/
structure PlainPieces (pieces : List Piece) : Prop where
  plain : ∀ x ∈ pieces, x.Plain
  start : ¬anyDirs <+: pieces
  inside : ¬(.literal '/' :: anyDirs) <:+: pieces

/-! ## globset -/

/-- The part of globset that is called; `matchesBytes` is what one glob alone matches. -/
structure Globset where
  Glob : Type
  GlobSet : Type
  new : List Char → Option Glob
  matchesBytes : Glob → List UInt8 → Bool
  build : List Glob → Option GlobSet
  isMatch : GlobSet → List Char → Bool

namespace Globset

/-- The rules of globset's documentation: a set matches what one of its globs matches, and a glob
of plain pieces matches piece by piece, separators and single bytes like any other. -/
structure Documented (g : Globset) : Prop where
  isMatch_iff : ∀ {globs set path}, g.build globs = some set →
    (g.isMatch set path = true ↔ ∃ glob ∈ globs, g.matchesBytes glob (utf8 path) = true)
  new_pieces : ∀ {pieces}, PlainPieces pieces → ∃ glob,
    g.new (pieces.flatMap Piece.text) = some glob ∧
      ∀ bs, g.matchesBytes glob bs = (Wildcard.seqAll (pieces.map Piece.bytes)).accepts bs

/-- `build_globset`: the patterns that compile. -/
def buildGlobset (g : Globset) (patterns : List (List Char)) : Option g.GlobSet :=
  let globs := patterns.filterMap g.new
  if globs.isEmpty then none else g.build globs

/-- The globs of the patterns are not too much for one set. -/
def Builds (g : Globset) (patterns : List (List Char)) : Prop :=
  (g.build (patterns.filterMap g.new)).isSome = true

end Globset

/-! ## fnmatch -/

/-- Between the elements of a pattern, or inside a set, with what was read of it. -/
inductive FnMode where
  | plain
  | set (text : List Char)

/-- A `[` opens a set: a `]` follows, not counting one right at its start. -/
def closesSet (rest : List Char) : Bool :=
  let rest := match rest with
    | '!' :: rest => rest
    | rest => rest
  let rest := match rest with
    | ']' :: rest => rest
    | rest => rest
  rest.contains ']'

/-- The characters and ranges of a set. -/
def setItems : List Char → List (Char × Option Char)
  | a :: '-' :: b :: rest => (a, some b) :: setItems rest
  | a :: rest => (a, none) :: setItems rest
  | [] => []

/-- `[seq]` or `[!seq]`. -/
def fnmatchSet : List Char → Piece
  | '!' :: text => .set true (setItems text)
  | text => .set false (setItems text)

def translate : FnMode → List Char → List Piece
  | _, [] => []
  | .set text, c :: rest =>
      if c = ']' ∧ text ≠ [] ∧ text ≠ ['!'] then fnmatchSet text :: translate .plain rest
      else translate (.set (text ++ [c])) rest
  | .plain, '*' :: rest => .star :: translate .plain rest
  | .plain, '?' :: rest => .any :: translate .plain rest
  | .plain, '[' :: rest =>
      if closesSet rest then translate (.set []) rest else .literal '[' :: translate .plain rest
  | .plain, c :: rest => .literal c :: translate .plain rest

/-- `fnmatch.fnmatch`, where `os.path.normcase` changes nothing. -/
def fnmatch (path pattern : List Char) : Bool :=
  (Wildcard.seqAll ((translate .plain pattern).map Piece.chars)).accepts path

/-! ## The two rules -/

/-- The directory a pattern `<dir>/**` names, if it is a single one. -/
def anyDepthDir (pattern : List Char) : Option (List Char) :=
  if "/**".toList.isSuffixOf pattern then
    let dir := pattern.take (pattern.length - 3)
    if dir = [] ∨ '/' ∈ dir then none else some dir
  else none

/-- `should_ignore`. -/
def shouldIgnoreRs (g : Globset) (path : List Char) (patterns : List (List Char)) : Bool :=
  (g.buildGlobset patterns).any (fun set => g.isMatch set path) ||
    patterns.any fun p => (anyDepthDir p).any fun dir => dir ∈ path.splitOn '/'

/-- `PurePosixPath(path).parts`. -/
def purePosixParts (path : List Char) : List (List Char) :=
  let root := if "//".toList.isPrefixOf path && !"///".toList.isPrefixOf path then ["//".toList]
    else if "/".toList.isPrefixOf path then ["/".toList] else []
  root ++ (path.splitOn '/').filter fun part => part ≠ [] && part ≠ ['.']

/-- `_should_ignore`. -/
def shouldIgnorePy (path : List Char) (patterns : List (List Char)) : Bool :=
  patterns.any (fnmatch path) ||
    patterns.any fun p => (anyDepthDir p).any fun dir => dir ∈ purePosixParts path

/-! ## The language they share -/

/-- A pattern of plain pieces; where the path is not ASCII, of none that splits a character. -/
def Shared (path pattern : List Char) : Prop :=
  ∃ pieces, pattern = pieces.flatMap Piece.text ∧ PlainPieces pieces ∧
    ((∀ c ∈ path, c.toNat < 0x80) ∨ ∀ x ∈ pieces, x.splits = false)

/-! ### Sets -/

theorem settable_iff {c : Char} :
    Piece.settable c = true ↔
      c ≠ ']' ∧ c ≠ '-' ∧ c ≠ '!' ∧ c ≠ '^' ∧ c.toNat < 0x80 := by
  simp [Piece.settable, and_assoc]

theorem itemText_eq (i : Char × Option Char) : ∃ t, Piece.itemText i = i.1 :: t := by
  obtain ⟨a, b⟩ := i
  cases b with
  | none => exact ⟨[], rfl⟩
  | some b => exact ⟨['-', b], rfl⟩

theorem setItems_cons {a c : Char} {rest : List Char} (h : c ≠ '-') :
    setItems (a :: c :: rest) = (a, none) :: setItems (c :: rest) := by
  rw [setItems]
  intro b tail heq
  exact h (List.cons.inj heq).1

def PlainItems (items : List (Char × Option Char)) : Prop :=
  ∀ i ∈ items, Piece.settable i.1 = true ∧ ∀ b ∈ i.2, Piece.settable b = true ∧ i.1 ≤ b

theorem setItems_items : ∀ {items : List (Char × Option Char)}, PlainItems items →
    setItems (items.flatMap Piece.itemText) = items
  | [], _ => rfl
  | (a, some b) :: rest, h => by
      have ih := setItems_items fun i hi => h i (List.mem_cons_of_mem _ hi)
      show setItems (a :: '-' :: b :: rest.flatMap Piece.itemText) = _
      rw [setItems, ih]
  | [(a, none)], _ => rfl
  | (a, none) :: i :: rest, h => by
      have ih := setItems_items fun i hi => h i (List.mem_cons_of_mem _ hi)
      have hne := (settable_iff.mp (h i (by simp)).1).2.1
      obtain ⟨t, ht⟩ := itemText_eq i
      rw [List.flatMap_cons, ht] at ih
      show setItems (a :: (Piece.itemText i ++ rest.flatMap Piece.itemText)) = _
      rw [ht, List.cons_append, setItems_cons hne]
      exact congrArg ((a, none) :: ·) ih

theorem mem_items_text {items : List (Char × Option Char)} (h : PlainItems items) {c : Char}
    (hc : c ∈ items.flatMap Piece.itemText) : c ≠ ']' := by
  obtain ⟨⟨a, b⟩, hi, hc⟩ := List.mem_flatMap.mp hc
  have ha := settable_iff.mp (h _ hi).1
  cases b with
  | none =>
      obtain rfl : c = a := by simpa [Piece.itemText] using hc
      exact ha.1
  | some b =>
      have hb := settable_iff.mp ((h _ hi).2 b rfl).1
      simp only [Piece.itemText, List.mem_cons, List.not_mem_nil, or_false] at hc
      rcases hc with rfl | rfl | rfl
      · exact ha.1
      · decide
      · exact hb.1

theorem translate_set {rest : List Char} : ∀ {body text : List Char}, (∀ c ∈ body, c ≠ ']') →
    text ++ body ≠ [] → text ++ body ≠ ['!'] →
    translate (.set text) (body ++ ']' :: rest) = fnmatchSet (text ++ body) :: translate .plain rest
  | [], text, _, hne, hneg => by
      rw [List.append_nil] at hne hneg ⊢
      rw [List.nil_append, translate, if_pos ⟨rfl, hne, hneg⟩]
  | c :: body, text, hbody, hne, hneg => by
      have hc : c ≠ ']' := hbody c List.mem_cons_self
      rw [List.cons_append, translate, if_neg fun h => hc h.1]
      rw [translate_set (fun d hd => hbody d (List.mem_cons_of_mem _ hd))]
      · rw [List.append_assoc]
        rfl
      · rwa [List.append_assoc]
      · rwa [List.append_assoc]

/-! ### Whole patterns -/

theorem literal_iff {c : Char} : (Piece.literal c).Plain ↔
    c ≠ '*' ∧ c ≠ '?' ∧ c ≠ '[' ∧ c ≠ '\x7b' ∧ c ≠ '\x7d' ∧ c ≠ '\\' := by
  simp [Piece.Plain]

theorem translate_literal {c : Char} (h : (Piece.literal c).Plain) (rest : List Char) :
    translate .plain (c :: rest) = .literal c :: translate .plain rest := by
  obtain ⟨h₁, h₂, h₃, -⟩ := literal_iff.mp h
  rw [translate]
  · exact h₁
  · exact h₂
  · exact h₃

theorem translate_piece_set {rest : List Char} {negated : Bool}
    {items : List (Char × Option Char)} (h : (Piece.set negated items).Plain) :
    translate .plain ((Piece.set negated items).text ++ rest)
      = .set negated items :: translate .plain rest := by
  obtain ⟨hne, hitems⟩ := h
  obtain ⟨i, items, rfl⟩ := List.exists_cons_of_ne_nil hne
  obtain ⟨t, ht⟩ := itemText_eq i
  have hi := settable_iff.mp (hitems i List.mem_cons_self).1
  set body := (i :: items).flatMap Piece.itemText with hbody
  have hhead : body = i.1 :: (t ++ items.flatMap Piece.itemText) := by simp [hbody, ht]
  have hclose : ∀ c ∈ body, c ≠ ']' := fun c hc => mem_items_text hitems hc
  have hset := setItems_items hitems
  rw [← hbody] at hset
  cases negated with
  | true =>
      show translate .plain ('[' :: ('!' :: body ++ [']'] ++ rest)) = _
      rw [translate, if_pos (by simp [closesSet, hhead, hi.1]), List.append_assoc,
        List.singleton_append,
        translate_set (by simpa using hclose) (by simp) (by simp [hhead])]
      simp only [List.nil_append, fnmatchSet, hset]
  | false =>
      show translate .plain ('[' :: (body ++ [']'] ++ rest)) = _
      rw [translate, if_pos (by simp [closesSet, hhead, hi.1, hi.2.2.1]), List.append_assoc,
        List.singleton_append, translate_set hclose (by simp [hhead]) (by simp [hhead, hi.2.2.1])]
      rw [List.nil_append, hhead, fnmatchSet, ← hhead, hset]
      intro text heq
      exact hi.2.2.1 (List.cons.inj heq).1

theorem translate_pieces : ∀ {pieces : List Piece}, (∀ x ∈ pieces, x.Plain) →
    translate .plain (pieces.flatMap Piece.text) = pieces
  | [], _ => rfl
  | x :: pieces, h => by
      have hx := h x List.mem_cons_self
      have ih := translate_pieces fun y hy => h y (List.mem_cons_of_mem _ hy)
      conv => rhs; rw [← ih]
      rw [List.flatMap_cons]
      cases x with
      | literal c => exact translate_literal hx _
      | any => rfl
      | star => rfl
      | set negated items => exact translate_piece_set hx

/-! ### Bytes and characters -/

theorem encode_cut {a c : Char} {x y : List UInt8}
    (h : String.utf8EncodeChar a ++ x = String.utf8EncodeChar c ++ y) : a = c := by
  have hread := congrArg fromUtf8Lossy h
  rw [fromUtf8Lossy_encode, fromUtf8Lossy_encode] at hread
  exact (List.cons.inj hread).1

/-- In a text of ASCII characters a byte is a character. -/
theorem encodes_ascii :
    Wildcard.Encodes String.utf8EncodeChar (fun c => c.toNat < 0x80) fun _ => false where
  lead c := by
    obtain ⟨b, t, hcode⟩ := List.exists_cons_of_ne_nil (String.utf8EncodeChar_ne_nil (c := c))
    refine ⟨b, t, hcode, rfl, fun hc => ?_⟩
    rw [encode_ascii hc] at hcode
    rw [← (List.cons.inj hcode).2]
    exact fun x hx => absurd hx List.not_mem_nil
  cut := encode_cut

theorem encodes_tail : Wildcard.Encodes String.utf8EncodeChar (fun _ => True) isTail where
  lead c := by
    rcases encode_lead c with ⟨hc, hcode⟩ | ⟨-, b, t, hcode, hb, ht⟩
    · refine ⟨_, _, hcode, ?_, fun _ x hx => absurd hx List.not_mem_nil⟩
      simp only [isTail, toNat_toUInt8 hc, decide_eq_false_iff_not]
      omega
    · refine ⟨b, t, hcode, ?_, fun _ => ht⟩
      simp only [isTail, decide_eq_false_iff_not]
      omega
  cut := encode_cut

theorem ofNat_toUInt8 {c : Char} (hc : c.toNat < 0x80) : Char.ofNat c.toUInt8.toNat = c := by
  rw [toNat_toUInt8 hc, Char.ofNat_toNat]

/-- No range of ASCII characters reaches behind them. -/
theorem inClass_high {items : List (Char × Option Char)} (h : PlainItems items) {c : Char}
    (hc : 0x80 ≤ c.toNat) : inClass false (items.map Piece.itemRange) c = false := by
  rw [inClass, Bool.bne_false, List.any_eq_false]
  intro r hr
  obtain ⟨⟨a, b⟩, hi, rfl⟩ := List.mem_map.mp hr
  have hlow : (Piece.itemRange (a, b)).2.toNat < 0x80 := by
    cases b with
    | none => exact (settable_iff.mp (h _ hi).1).2.2.2.2
    | some b => exact (settable_iff.mp ((h _ hi).2 b rfl).1).2.2.2.2
  rw [Bool.and_eq_true, decide_eq_true_eq, decide_eq_true_eq]
  rintro ⟨-, hle⟩
  have hle : c.toNat ≤ (Piece.itemRange (a, b)).2.toNat := hle
  omega

namespace Piece

variable {kb : List UInt8 → Bool} {ka : List Char → Bool}

theorem agrees_ascii (x : Piece)
    (hk : Wildcard.Agrees String.utf8EncodeChar (fun c => c.toNat < 0x80) (fun _ => false) kb ka) :
    Wildcard.Agrees String.utf8EncodeChar (fun c => c.toNat < 0x80) (fun _ => false)
      (x.bytes.run kb) (x.chars.run ka) := by
  cases x with
  | literal c => exact hk.word encodes_ascii c
  | any => exact hk.sym (fun a ha => ⟨_, _, encode_ascii ha, rfl, fun _ => rfl⟩) nofun
  | star => exact hk.many encodes_ascii
  | set negated items =>
      refine hk.sym (fun a ha => ⟨_, _, encode_ascii ha, ?_, fun _ => rfl⟩) nofun
      rw [ofNat_toUInt8 ha]

theorem agrees_tail {x : Piece} (hplain : x.Plain) (hx : x.splits = false)
    (hk : Wildcard.Agrees String.utf8EncodeChar (fun _ => True) isTail kb ka) :
    Wildcard.Agrees String.utf8EncodeChar (fun _ => True) isTail (x.bytes.run kb)
      (x.chars.run ka) := by
  have hhigh : ∀ {b : UInt8}, 0x80 ≤ b.toNat → 0x80 ≤ (Char.ofNat b.toNat).toNat := fun {b} hb => by
    have hlt := b.toNat_lt
    rwa [toNat_ofNat (by omega)]
  cases x with
  | literal c => exact hk.word encodes_tail c
  | any => cases hx
  | star => exact hk.many encodes_tail
  | set negated items =>
      obtain rfl : negated = false := hx
      refine hk.sym (fun a _ => ?_) fun b hb => ?_
      · rcases encode_lead a with ⟨ha, hcode⟩ | ⟨ha, b, t, hcode, hb, -⟩
        · exact ⟨_, _, hcode, by rw [ofNat_toUInt8 ha], fun _ => rfl⟩
        · have hno := inClass_high hplain.2 ha
          refine ⟨b, t, hcode, ?_, fun hyes => absurd (hno.symm.trans hyes) Bool.false_ne_true⟩
          rw [hno, inClass_high hplain.2 (hhigh (by omega))]
      · simp only [isTail, decide_eq_true_eq] at hb
        exact inClass_high hplain.2 (hhigh hb.1)

end Piece

theorem accepts_utf8 {path : List Char} {pieces : List Piece} (hplain : ∀ x ∈ pieces, x.Plain)
    (hpath : (∀ c ∈ path, c.toNat < 0x80) ∨ ∀ x ∈ pieces, x.splits = false) :
    (Wildcard.seqAll (pieces.map Piece.bytes)).accepts (utf8 path) =
      (Wildcard.seqAll (pieces.map Piece.chars)).accepts path := by
  rcases hpath with hascii | hwhole
  · exact (Wildcard.Agrees.seqAll (fun x _ _ _ hk => x.agrees_ascii hk)
      encodes_ascii.agrees_isEmpty).same path hascii
  · exact (Wildcard.Agrees.seqAll (fun x hx _ _ hk => Piece.agrees_tail (hplain x hx)
      (hwhole x hx) hk) encodes_tail.agrees_isEmpty).same path fun _ _ => trivial

theorem new_shared {g : Globset} (hg : g.Documented) {path pattern : List Char}
    (h : Shared path pattern) :
    ∃ glob, g.new pattern = some glob ∧
      g.matchesBytes glob (utf8 path) = fnmatch path pattern := by
  obtain ⟨pieces, rfl, hpieces, hpath⟩ := h
  obtain ⟨glob, hnew, hmatch⟩ := hg.new_pieces hpieces
  refine ⟨glob, hnew, ?_⟩
  rw [hmatch, fnmatch, translate_pieces hpieces.plain, accepts_utf8 hpieces.plain hpath]

/-! ## The answers -/

theorem anyDepthDir_eq_some {pattern dir : List Char} (h : anyDepthDir pattern = some dir) :
    dir ≠ [] ∧ '/' ∉ dir := by
  simp only [anyDepthDir] at h
  split at h
  · split at h
    · cases h
    · rename_i hn
      obtain rfl := Option.some.inj h
      exact not_or.mp hn
  · cases h

theorem mem_purePosixParts (p : RepoPath) {dir : List Char} (hdir : '/' ∉ dir) :
    dir ∈ purePosixParts p.text ↔ dir ∈ p.text.splitOn '/' := by
  have hroot : ∀ {b c : Bool}, dir ∉ (if b then ["//".toList] else if c then ["/".toList]
      else ([] : List (List Char))) := by
    intro b c hmem
    split at hmem
    · rw [List.mem_singleton.mp hmem] at hdir
      exact hdir (by decide)
    · split at hmem
      · rw [List.mem_singleton.mp hmem] at hdir
        exact hdir (by decide)
      · cases hmem
  simp only [purePosixParts, List.mem_append, List.mem_filter, p.splitOn_text]
  refine ⟨fun h => (h.resolve_left hroot).1, fun h => .inr ⟨h, ?_⟩⟩
  have hc := p.proper dir h
  simp [hc.1, hc.2.1]

theorem any_buildGlobset {g : Globset} (hg : g.Documented) {path : List Char}
    {patterns : List (List Char)} (hbuild : g.Builds patterns)
    (h : ∀ p ∈ patterns, Shared path p) :
    (g.buildGlobset patterns).any (fun set => g.isMatch set path)
      = patterns.any (fnmatch path) := by
  have hall : (patterns.filterMap g.new).any (fun glob => g.matchesBytes glob (utf8 path))
      = patterns.any (fnmatch path) := by
    clear hbuild
    induction patterns with
    | nil => rfl
    | cons p patterns ih =>
        obtain ⟨glob, hglob, hmatch⟩ := new_shared hg (h p List.mem_cons_self)
        rw [List.filterMap_cons_some hglob, List.any_cons, List.any_cons, hmatch,
          ih fun q hq => h q (List.mem_cons_of_mem _ hq)]
  rw [← hall, Globset.buildGlobset]
  obtain ⟨set, hset⟩ := Option.isSome_iff_exists.mp hbuild
  cases hglobs : patterns.filterMap g.new with
  | nil => rfl
  | cons glob globs =>
      rw [hglobs] at hset
      rw [List.isEmpty_cons, if_neg Bool.false_ne_true, hset, Option.any_some, Bool.eq_iff_iff,
        hg.isMatch_iff hset, List.any_eq_true]

theorem shouldIgnore_of_shared {g : Globset} (hg : g.Documented) (path : RepoPath)
    {patterns : List (List Char)} (hbuild : g.Builds patterns)
    (h : ∀ p ∈ patterns, Shared path.text p) :
    shouldIgnoreRs g path.text patterns = shouldIgnorePy path.text patterns := by
  rw [shouldIgnoreRs, shouldIgnorePy, any_buildGlobset hg hbuild h]
  congr 2
  funext p
  cases hd : anyDepthDir p with
  | none => rfl
  | some dir =>
      simp only [Option.any_some, mem_purePosixParts path (anyDepthDir_eq_some hd).2]

/-! ## The default patterns -/

/-- `DEFAULT_IGNORE_PATTERNS`, the same list on both sides. -/
def defaultIgnorePatterns : List String :=
  [".dagayn/**", "node_modules/**", ".worktrees/**", ".claude/worktrees/**", ".git/**",
    ".svn/**", "__pycache__/**", "*.pyc", ".venv/**", "venv/**", "dist/**", "build/**",
    ".next/**", "target/**", "dagayn/_vendor_grammars/**", ".hatch-vendor-grammars/**",
    "vendor/**", "bootstrap/cache/**", "public/build/**", ".bundle/**", ".gradle/**", "*.jar",
    ".dart_tool/**", ".pub-cache/**", "coverage/**", ".cache/**", "*.min.js", "*.min.css",
    "*.map", "*.lock", "package-lock.json", "yarn.lock", "*.db", "*.sqlite", "*.db-journal",
    "*.db-wal"]

/-- The pieces of a pattern without `?` and sets. -/
def starPieces (pattern : List Char) : List Piece :=
  pattern.map fun c => if c = '*' then .star else .literal c

theorem text_starPieces (pattern : List Char) :
    (starPieces pattern).flatMap Piece.text = pattern := by
  induction pattern with
  | nil => rfl
  | cons c pattern ih =>
      show Piece.text (if c = '*' then .star else .literal c) ++
        (starPieces pattern).flatMap Piece.text = c :: pattern
      rw [ih]
      split
      · rename_i hc
        rw [hc]
        rfl
      · rfl

theorem plain_starPieces {pattern : List Char}
    (h : (pattern.all fun c => c = '*' || !"*?[\x7b\x7d\\".toList.contains c) = true) :
    ∀ x ∈ starPieces pattern, x.Plain := by
  intro x hx
  obtain ⟨c, hc, rfl⟩ := List.mem_map.mp hx
  have hchar := List.all_eq_true.mp h c hc
  split
  · trivial
  · rename_i hne
    show "*?[\x7b\x7d\\".toList.contains c = false
    simpa only [hne, decide_false, Bool.false_or, Bool.not_eq_true'] using hchar

theorem splits_starPieces {pattern : List Char} : ∀ x ∈ starPieces pattern, x.splits = false := by
  intro x hx
  obtain ⟨c, -, rfl⟩ := List.mem_map.mp hx
  split <;> rfl

theorem map_toList_cons {p : String} {text : List Char} {patterns : List String}
    (h : p = String.ofList text) :
    (p :: patterns).map String.toList = text :: patterns.map String.toList := by
  rw [List.map_cons, h, String.toList_ofList]

theorem shared_default (path : List Char) : ∀ p ∈ defaultIgnorePatterns, Shared path p.toList := by
  intro p hp
  have hall : ∀ text ∈ defaultIgnorePatterns.map String.toList,
      (text.all fun c => c = '*' || !"*?[\x7b\x7d\\".toList.contains c) = true ∧
        ¬anyDirs <+: starPieces text ∧ ¬(.literal '/' :: anyDirs) <:+: starPieces text := by
    unfold defaultIgnorePatterns
    repeat rw [map_toList_cons rfl]
    decide +kernel
  obtain ⟨hchars, hstart, hinside⟩ := hall p.toList (List.mem_map_of_mem hp)
  exact ⟨starPieces p.toList, (text_starPieces p.toList).symm,
    ⟨plain_starPieces hchars, hstart, hinside⟩, .inr splits_starPieces⟩

/-- For the default patterns and any further lines in the language globset and `fnmatch`
share, both sides ignore the same paths. -/
theorem shouldIgnore_eq {g : Globset} (hg : g.Documented) (path : RepoPath)
    (lines : List (List Char))
    (hbuild : g.Builds (defaultIgnorePatterns.map String.toList ++ lines))
    (h : ∀ line ∈ lines, Shared path.text line) :
    shouldIgnoreRs g path.text (defaultIgnorePatterns.map String.toList ++ lines)
      = shouldIgnorePy path.text (defaultIgnorePatterns.map String.toList ++ lines) := by
  refine shouldIgnore_of_shared hg path hbuild fun p hp => ?_
  rcases List.mem_append.mp hp with hp | hp
  · obtain ⟨q, hq, rfl⟩ := List.mem_map.mp hp
    exact shared_default path.text q hq
  · exact h p hp

/-! ### Globs without alternations, escapes and an inner `/**/` -/

/-- A `**/` in front also stands for no directory. -/
def globMatches (glob : List Piece) (bs : List UInt8) : Bool :=
  (Wildcard.seqAll (glob.map Piece.bytes)).accepts bs ||
    (anyDirs.isPrefixOf glob &&
      (Wildcard.seqAll ((glob.drop anyDirs.length).map Piece.bytes)).accepts bs)

def dirGlobs : Globset where
  Glob := List Piece
  GlobSet := List (List Piece)
  new pattern := some (translate .plain pattern)
  matchesBytes := globMatches
  build := some
  isMatch globs path := globs.any fun glob => globMatches glob (utf8 path)

theorem documented_dirGlobs : dirGlobs.Documented where
  isMatch_iff hbuild := by
    obtain rfl := Option.some.inj hbuild
    exact List.any_eq_true
  new_pieces {pieces} hpieces := by
    refine ⟨pieces, congrArg some (translate_pieces hpieces.plain), fun bs => ?_⟩
    have hstart : anyDirs.isPrefixOf pieces = false :=
      Bool.eq_false_iff.mpr fun h => hpieces.start (List.isPrefixOf_iff_prefix.mp h)
    show globMatches pieces bs = _
    rw [globMatches, hstart, Bool.false_and, Bool.or_false]

def generatedPath : RepoPath where
  components := ["src".toList, "gen".toList, "a.c".toList]
  nonempty := by simp
  proper := by decide

theorem shared_sources : Shared generatedPath.text "src/**.[ch]".toList := by
  have hascii : (generatedPath.text.all fun c => decide (c.toNat < 0x80)) = true := by
    decide +kernel
  refine ⟨starPieces "src/**.".toList ++ [.set false [('c', none), ('h', none)]],
    by decide +kernel, ⟨fun x hx => ?_, by decide +kernel, by decide +kernel⟩,
    .inl fun c hc => of_decide_eq_true (List.all_eq_true.mp hascii c hc)⟩
  rcases List.mem_append.mp hx with hx | hx
  · exact plain_starPieces (by decide +kernel) x hx
  · rw [List.mem_singleton.mp hx]
    refine ⟨by simp, fun i hi => ?_⟩
    have hi' : i = ('c', none) ∨ i = ('h', none) := by simpa using hi
    rcases hi' with rfl | rfl
    · exact ⟨rfl, nofun⟩
    · exact ⟨rfl, nofun⟩

theorem shouldIgnore_eq_sources :
    shouldIgnoreRs dirGlobs generatedPath.text
        (defaultIgnorePatterns.map String.toList ++ ["src/**.[ch]".toList]) = true ∧
      shouldIgnoreRs dirGlobs generatedPath.text
          (defaultIgnorePatterns.map String.toList ++ ["src/**.[ch]".toList])
        = shouldIgnorePy generatedPath.text
          (defaultIgnorePatterns.map String.toList ++ ["src/**.[ch]".toList]) := by
  refine ⟨?_, shouldIgnore_eq documented_dirGlobs generatedPath ["src/**.[ch]".toList] rfl ?_⟩
  · unfold defaultIgnorePatterns
    repeat rw [map_toList_cons rfl]
    decide +kernel
  intro line hline
  rw [List.mem_singleton.mp hline]
  exact shared_sources

def topLevelPath : RepoPath where
  components := ["secret.py".toList]
  nonempty := by simp
  proper := by decide

def accentedPath : RepoPath where
  components := ["café.py".toList]
  nonempty := by simp
  proper := by decide

/-- `**/` also stands for no directory in globset, and for at least one in `fnmatch`; `?` is a
byte in globset, and a character in `fnmatch`. -/
theorem shouldIgnore_anyDirs :
    (shouldIgnoreRs dirGlobs topLevelPath.text
        (defaultIgnorePatterns.map String.toList ++ ["**/secret.py".toList]) = true ∧
      shouldIgnorePy topLevelPath.text
        (defaultIgnorePatterns.map String.toList ++ ["**/secret.py".toList]) = false) ∧
    shouldIgnoreRs dirGlobs accentedPath.text
        (defaultIgnorePatterns.map String.toList ++ ["caf?.py".toList]) = false ∧
      shouldIgnorePy accentedPath.text
        (defaultIgnorePatterns.map String.toList ++ ["caf?.py".toList]) = true := by
  unfold defaultIgnorePatterns
  repeat rw [map_toList_cons rfl]
  refine ⟨⟨?_, ?_⟩, ?_, ?_⟩ <;> decide +kernel

end Dagayn
