import Dagayn.Dict
import Dagayn.GitPath
import Dagayn.Lines

/-!
# Changed ranges of a diff

`parse_unified_diff` reads the output of `git diff --unified=0`: a line starting with
`+++` sets the current file, a line of the shape of a hunk header adds a range to it.
The lines are those of Python's `str.splitlines`.

git's side is a printer over what a diff is made of, with arbitrary text in the lines
and section headings of the hunks and arbitrary paths, and with the prefixes `a/` and `b/` that git
has where no option or configuration sets others. `Legible` says when the reading
is exact: no line of content has a line break of Python's inside, no added line starts
with `++`, and the paths are such that `plus_plus_path` reads them back.
-/

namespace Dagayn

/-! ## The diff git prints -/

/-- A line of a file, without its newline. -/
structure FileLine where
  chars : List Char
  oneLine : '\n' ∉ chars

/-- A hunk without context. -/
structure Hunk where
  oldStart : Nat
  newStart : Nat
  removed : List FileLine
  added : List FileLine
  /-- The last removed, or added, line ends the file without a newline. -/
  removedOpen : Bool := false
  addedOpen : Bool := false
  /-- The section heading, taken from a line of the file. -/
  heading : FileLine
  /-- Line numbers are signed 64-bit. -/
  fits : newStart + added.length < 2 ^ 63

/-- `start,count`, with a count of one left out. -/
def rangeText (start count : Nat) : List Char :=
  Nat.toDigits 10 start ++ if count = 1 then [] else ',' :: Nat.toDigits 10 count

def noNewlineMark : List Char := "\\ No newline at end of file".toList

namespace Hunk

def rangeMark (h : Hunk) : List Char :=
  ['@', '@', ' ', '-'] ++ (rangeText h.oldStart h.removed.length ++ ([' ', '+'] ++
    (rangeText h.newStart h.added.length ++ [' ', '@', '@'])))

def header (h : Hunk) : List Char :=
  h.rangeMark ++ if h.heading.chars.isEmpty then [] else ' ' :: h.heading.chars

def content (h : Hunk) : List (List Char) :=
  h.removed.map (fun l => '-' :: l.chars) ++
    ((if h.removedOpen then [noNewlineMark] else []) ++
      (h.added.map (fun l => '+' :: l.chars) ++
        if h.addedOpen then [noNewlineMark] else []))

def lines (h : Hunk) : List (List Char) := h.header :: h.content

/-- The lines the hunk stands for on the new side; a hunk that adds none is placed at
the line before it. -/
def newRange (h : Hunk) : Nat × Nat :=
  (h.newStart, if h.added.length = 0 then h.newStart else h.newStart + h.added.length - 1)

end Hunk

inductive FileMode where
  | regular
  | executable
  | symlink
  | submodule

def FileMode.text : FileMode → List Char
  | regular => "100644".toList
  | executable => "100755".toList
  | symlink => "120000".toList
  | submodule => "160000".toList

/-- The lines between `diff --git` and the first hunk. -/
inductive ExtHeader where
  | oldMode (mode : FileMode)
  | newMode (mode : FileMode)
  | deletedFileMode (mode : FileMode)
  | newFileMode (mode : FileMode)
  | copyFrom (path : List Char)
  | copyTo (path : List Char)
  | renameFrom (path : List Char)
  | renameTo (path : List Char)
  | similarity (percent : Nat)
  | dissimilarity (percent : Nat)
  | index (old new : List (Fin 16)) (mode : Option FileMode)

def hexText (digits : List (Fin 16)) : List Char := digits.map fun d => d.val.digitChar

def ExtHeader.text : ExtHeader → List Char
  | oldMode m => "old mode ".toList ++ m.text
  | newMode m => "new mode ".toList ++ m.text
  | deletedFileMode m => "deleted file mode ".toList ++ m.text
  | newFileMode m => "new file mode ".toList ++ m.text
  | copyFrom p => "copy from ".toList ++ gitLabel [] p
  | copyTo p => "copy to ".toList ++ gitLabel [] p
  | renameFrom p => "rename from ".toList ++ gitLabel [] p
  | renameTo p => "rename to ".toList ++ gitLabel [] p
  | similarity n => "similarity index ".toList ++ (Nat.toDigits 10 n ++ ['%'])
  | dissimilarity n => "dissimilarity index ".toList ++ (Nat.toDigits 10 n ++ ['%'])
  | index a b m => "index ".toList ++ (hexText a ++ ("..".toList ++ (hexText b ++
      match m with
      | some m => ' ' :: m.text
      | none => [])))

/-- What follows the headers of a file. -/
inductive DiffBody where
  | none
  | binary
  | hunks (first : Hunk) (rest : List Hunk)

structure FileDiff where
  oldName : List Char
  newName : List Char
  /-- `false` for a created, or deleted, file: the side is `/dev/null`. -/
  oldExists : Bool := true
  newExists : Bool := true
  headers : List ExtHeader := []
  body : DiffBody

namespace FileDiff

def hunks (f : FileDiff) : List Hunk :=
  match f.body with
  | .hunks first rest => first :: rest
  | _ => []

def devNull : List Char := "/dev/null".toList

def oldLabel (f : FileDiff) : List Char :=
  if f.oldExists then gitLabel ['a', '/'] f.oldName else devNull

def newLabel (f : FileDiff) : List Char :=
  if f.newExists then gitLabel ['b', '/'] f.newName else devNull

def bodyLines (f : FileDiff) : List (List Char) :=
  match f.body with
  | .none => []
  | .binary =>
      ["Binary files ".toList ++ (f.oldLabel ++ (" and ".toList ++
        (f.newLabel ++ " differ".toList)))]
  | .hunks first rest =>
      labelLine ['-', '-', '-', ' '] f.oldLabel :: labelLine ['+', '+', '+', ' '] f.newLabel ::
        (first :: rest).flatMap Hunk.lines

def lines (f : FileDiff) : List (List Char) :=
  ("diff --git ".toList ++ (gitLabel ['a', '/'] f.oldName ++
      (' ' :: gitLabel ['b', '/'] f.newName))) ::
    (f.headers.map ExtHeader.text ++ f.bodyLines)

end FileDiff

def diffLines (diff : List FileDiff) : List (List Char) := diff.flatMap FileDiff.lines

def unifiedText (diff : List FileDiff) : List Char :=
  (diffLines diff).flatMap (· ++ ['\n'])

/-! ## Reading it -/

/-- A number of decimal digits at the front, as an `i64`, and what follows. -/
def digitsAt (text : List Char) : List Char × List Char :=
  (text.takeWhile Char.isDigit, text.dropWhile Char.isDigit)

/-- `str::parse::<i64>` of decimal digits. -/
def parseLong (digits : List Char) : Option Nat :=
  let n := Nat.ofDigitChars 10 digits 0
  if n < 2 ^ 63 then some n else none

def newRangeAt (text : List Char) : Option (Nat × Nat) :=
  let (digits, rest) := digitsAt text
  if digits = [] then none
  else do
    let start ← parseLong digits
    let (count, rest) ←
      match rest with
      | ',' :: after =>
          let (digits, behind) := digitsAt after
          if digits = [] then some (1, rest)
          else (parseLong digits).map fun n => (n, behind)
      | _ => some (1, rest)
    if [' ', '@', '@'].isPrefixOf rest then some (start, count) else none

/-- The earliest ` +` that the rest of the pattern accepts. -/
def findNewRange : List Char → Option (Nat × Nat)
  | [] => none
  | c :: rest =>
      if [' ', '+'].isPrefixOf (c :: rest) then
        match newRangeAt (rest.drop 1) with
        | some found => some found
        | none => findNewRange rest
      else findNewRange rest

/-- `^@@ .+? \+(\d+)(?:,(\d+))? @@`. -/
def hunkNewRange (line : List Char) : Option (Nat × Nat) :=
  if ['@', '@', ' '].isPrefixOf line then findNewRange (line.drop 4) else none

/-- Changed line ranges per path. -/
abbrev Ranges := Dict (List Char) (List (Nat × Nat))

def isFileHeader (line : List Char) : Bool := ['+', '+', '+'].isPrefixOf line

/-- One round of the loop: the current file and the ranges so far. -/
def scanLine (s : Option (List Char) × Ranges) (line : List Char) :
    Option (List Char) × Ranges :=
  if isFileHeader line then (plusPlusPath line, s.2)
  else
    match hunkNewRange line, s.1 with
    | some (start, count), some file =>
        let stop := if count = 0 then start else start + count - 1
        (s.1, AList.insert file (Dict.getD s.2 file [] ++ [(start, stop)]) s.2)
    | _, _ => s

def parseUnifiedDiff (text : List Char) : Ranges :=
  ((Coverage.splitlines text).foldl scanLine (none, ∅)).2

/-! ## A hunk header is read as its range -/

theorem digitsAt_toDigits (n : Nat) {rest : List Char}
    (h : ∀ c ∈ rest.head?, c.isDigit = false) :
    digitsAt (Nat.toDigits 10 n ++ rest) = (Nat.toDigits 10 n, rest) := by
  have hd : ∀ c ∈ Nat.toDigits 10 n, c.isDigit = true := fun _ hc =>
    Nat.isDigit_of_mem_toDigits (by omega) (by omega) hc
  have hrest : rest.takeWhile Char.isDigit = [] ∧ rest.dropWhile Char.isDigit = rest := by
    cases rest with
    | nil => exact ⟨rfl, rfl⟩
    | cons c rest =>
        have hc : c.isDigit = false := h c rfl
        simp [hc]
  unfold digitsAt
  rw [List.takeWhile_append_of_pos hd, List.dropWhile_append_of_pos hd, hrest.1, hrest.2,
    List.append_nil]

theorem parseLong_toDigits {n : Nat} (h : n < 2 ^ 63) :
    parseLong (Nat.toDigits 10 n) = some n := by
  unfold parseLong
  rw [Nat.ofDigitChars_ten_toDigits]
  exact if_pos h

theorem newRangeAt_rangeText {start count : Nat} (hs : start < 2 ^ 63) (hc : count < 2 ^ 63)
    (rest : List Char) :
    newRangeAt (rangeText start count ++ ' ' :: '@' :: '@' :: rest) = some (start, count) := by
  have hne : ∀ n, Nat.toDigits 10 n ≠ [] := fun n => Nat.toDigits_ne_nil
  have hspace : ∀ c ∈ (' ' :: '@' :: '@' :: rest).head?, c.isDigit = false := by
    rintro c ⟨⟩; decide
  have hpre : [' ', '@', '@'].isPrefixOf (' ' :: '@' :: '@' :: rest) = true := rfl
  unfold newRangeAt rangeText
  by_cases h1 : count = 1
  · subst h1
    rw [if_pos rfl, List.append_nil, digitsAt_toDigits start hspace]
    simp only [hne, if_false, parseLong_toDigits hs, Option.bind_eq_bind, Option.bind_some]
    rw [if_pos hpre]
    rfl
  · have hcomma : ∀ c ∈ (',' :: (Nat.toDigits 10 count ++ ' ' :: '@' :: '@' :: rest)).head?,
        c.isDigit = false := by
      rintro c ⟨⟩; decide
    rw [if_neg h1, List.append_assoc, List.cons_append, digitsAt_toDigits start hcomma]
    simp only [hne, if_false, parseLong_toDigits hs, Option.bind_eq_bind, Option.bind_some]
    rw [digitsAt_toDigits count hspace]
    simp only [hne, if_false, parseLong_toDigits hc, Option.map_some, Option.bind_some]
    rw [if_pos hpre]

theorem findNewRange_skip {pre : List Char} (h : ' ' ∉ pre) (rest : List Char) :
    findNewRange (pre ++ rest) = findNewRange rest := by
  induction pre with
  | nil => rfl
  | cons c pre ih =>
      have hc : c ≠ ' ' := fun hc => h (hc ▸ List.mem_cons_self)
      have hp : ' ' ∉ pre := fun hp => h (List.mem_cons_of_mem _ hp)
      have hno : [' ', '+'].isPrefixOf (c :: (pre ++ rest)) = false := by
        simp [List.isPrefixOf, hc.symm]
      rw [List.cons_append, findNewRange, hno, ih hp]
      rfl

theorem space_notMem_rangeText (start count : Nat) : ' ' ∉ rangeText start count := by
  have hd : ∀ n, ' ' ∉ Nat.toDigits 10 n := fun n hmem => by
    have := Nat.isDigit_of_mem_toDigits (by omega) (by omega) hmem
    exact absurd this (by decide)
  unfold rangeText
  rw [List.mem_append]
  rintro (h | h)
  · exact hd _ h
  · split at h
    · cases h
    · rcases List.mem_cons.mp h with h | h
      · exact absurd h (by decide)
      · exact hd _ h

theorem hunkNewRange_rangeMark (h : Hunk) (rest : List Char) :
    hunkNewRange (h.rangeMark ++ rest) = some (h.newStart, h.added.length) := by
  have hfits := h.fits
  have hfound := newRangeAt_rangeText (by omega : h.newStart < 2 ^ 63)
    (by omega : h.added.length < 2 ^ 63) rest
  have hdrop : (h.rangeMark ++ rest).drop 4 = rangeText h.oldStart h.removed.length ++
      (' ' :: '+' :: (rangeText h.newStart h.added.length ++ ' ' :: '@' :: '@' :: rest)) := by
    simp [Hunk.rangeMark]
  have hpre : ['@', '@', ' '].isPrefixOf (h.rangeMark ++ rest) = true := rfl
  unfold hunkNewRange
  rw [if_pos hpre, hdrop, findNewRange_skip (space_notMem_rangeText _ _), findNewRange]
  generalize (rangeText h.newStart h.added.length ++ _) = text at hfound ⊢
  have hplus : [' ', '+'].isPrefixOf (' ' :: '+' :: text) = true := rfl
  rw [if_pos hplus, List.drop_succ_cons, List.drop_zero, hfound]

/-! ## Lines that do nothing -/

def Inert (line : List Char) : Prop := isFileHeader line = false ∧ hunkNewRange line = none

instance (line : List Char) : Decidable (Inert line) := inferInstanceAs (Decidable (_ ∧ _))

theorem scanLine_inert {line : List Char} (h : Inert line)
    (s : Option (List Char) × Ranges) : scanLine s line = s := by
  unfold scanLine
  rw [h.1, h.2]
  rfl

theorem inert_of_head {c : Char} (hp : c ≠ '+') (ha : c ≠ '@') (line : List Char) :
    Inert (c :: line) := by
  refine ⟨?_, ?_⟩
  · simp [isFileHeader, List.isPrefixOf, hp.symm]
  · have : ['@', '@', ' '].isPrefixOf (c :: line) = false := by
      simp [List.isPrefixOf, ha.symm]
    rw [hunkNewRange, this]
    rfl

theorem hunkNewRange_plus (line : List Char) : hunkNewRange ('+' :: line) = none := rfl

/-- A line of content is taken for a header exactly if it is added and starts with `++`. -/
theorem inert_added (line : List Char) :
    Inert ('+' :: line) ↔ ['+', '+'].isPrefixOf line = false := by
  refine ⟨fun h => h.1, fun h => ⟨h, hunkNewRange_plus line⟩⟩

theorem foldl_scanLine_inert {ls : List (List Char)} (h : ∀ l ∈ ls, Inert l)
    (s : Option (List Char) × Ranges) : ls.foldl scanLine s = s := by
  induction ls with
  | nil => rfl
  | cons l ls ih =>
      rw [List.foldl_cons, scanLine_inert (h l List.mem_cons_self)]
      exact ih fun l' hl' => h l' (List.mem_cons_of_mem _ hl')

/-! ## What git prints around the contents has no line break -/

def isPrintable (c : Char) : Bool := 0x20 ≤ c.toNat ∧ c.toNat < 0x7F

theorem not_break_of_printable {c : Char} (h : isPrintable c = true) : isLineBreak c = false := by
  by_contra hb
  have hb : isLineBreak c = true := by simpa using hb
  simp only [isLineBreak, Bool.or_eq_true, decide_eq_true_eq] at hb
  rcases hb with ((((((((rfl | rfl) | rfl) | rfl) | rfl) | rfl) | rfl) | rfl) | rfl) | rfl <;>
    exact absurd h (by decide)

theorem noBreak_of_printable {cs : List Char} (h : cs.all isPrintable = true) : NoBreak cs := by
  refine List.all_eq_true.mpr fun c hc => ?_
  rw [not_break_of_printable (List.all_eq_true.mp h c hc)]
  rfl

theorem printable_toDigits (n : Nat) : (Nat.toDigits 10 n).all isPrintable = true := by
  refine List.all_eq_true.mpr fun c hc => ?_
  have hd : c.isDigit = true := Nat.isDigit_of_mem_toDigits (by omega) (by omega) hc
  have hle : 48 ≤ c.toNat ∧ c.toNat ≤ 57 := by
    simpa [Char.isDigit, UInt32.le_iff_toNat_le] using hd
  simp only [isPrintable, decide_eq_true_eq]
  omega

theorem printable_hexText (digits : List (Fin 16)) : (hexText digits).all isPrintable = true := by
  have hall : ∀ d : Fin 16, isPrintable d.val.digitChar = true := by decide
  simp [hexText, hall]

theorem printable_octDigit {n : Nat} (h : n < 8) : isPrintable (octDigit n) = true := by
  have hall : ∀ n < 8, isPrintable (octDigit n) = true := by decide
  exact hall n h

theorem printable_quoteByte (b : UInt8) : (quoteByte b).all isPrintable = true := by
  have hb : b.toNat < 256 := b.toNat_lt
  unfold quoteByte
  split
  · rfl
  split
  · rfl
  split
  · rfl
  split
  · rfl
  split
  · rfl
  split
  · rfl
  split
  · rfl
  split
  · rfl
  split
  · rfl
  split
  · have h1 := printable_octDigit (n := b.toNat / 64) (by omega)
    have h2 := printable_octDigit (n := b.toNat / 8 % 8) (by omega)
    have h3 := printable_octDigit (n := b.toNat % 8) (by omega)
    have hbs : isPrintable '\\' = true := by decide
    simp only [List.all_cons, List.all_nil, hbs, h1, h2, h3, Bool.and_self]
  · rename_i h
    have hn := toNat_ofNat (n := b.toNat) (by omega)
    simp only [List.all_cons, List.all_nil, Bool.and_true, isPrintable, hn, decide_eq_true_eq]
    omega

theorem printable_gitLabel {side : List Char} (h : side.all isPrintable = true)
    (path : List Char) : (gitLabel side path).all isPrintable = true := by
  have hq : isPrintable '"' = true := by decide
  unfold gitLabel
  split
  · simp only [List.all_cons, List.all_append, List.all_nil, hq, h, Bool.true_and, Bool.and_true,
      List.all_flatMap]
    exact List.all_eq_true.mpr fun b _ => printable_quoteByte b
  · rename_i hno
    rw [any_mustQuote] at hno
    rw [List.all_append, h, Bool.true_and]
    refine List.all_eq_true.mpr fun c hc => ?_
    have hplain : charQuoted c = false := by
      simpa using fun hc' => hno (List.any_eq_true.mpr ⟨c, hc, hc'⟩)
    simp only [charQuoted, decide_eq_false_iff_not] at hplain
    simp only [isPrintable, decide_eq_true_eq]
    omega

theorem noBreak_labelLine {mark label : List Char} (hm : mark.all isPrintable = true)
    (hl : label.all isPrintable = true) : NoBreak (labelLine mark label) := by
  have htab : NoBreak ['\t'] := by rfl
  unfold labelLine
  refine noBreak_append.mpr ⟨noBreak_of_printable hm, noBreak_append.mpr
    ⟨noBreak_of_printable hl, ?_⟩⟩
  split
  · exact htab
  · rfl

theorem printable_mode (m : FileMode) : m.text.all isPrintable = true := by
  cases m <;> rfl

theorem printable_append {as bs : List Char} (ha : as.all isPrintable = true)
    (hb : bs.all isPrintable = true) : (as ++ bs).all isPrintable = true := by
  rw [List.all_append, ha, hb]
  rfl

theorem printable_cons {c : Char} {cs : List Char} (hc : isPrintable c = true)
    (hcs : cs.all isPrintable = true) : (c :: cs).all isPrintable = true := by
  rw [List.all_cons, hc, hcs]
  rfl

theorem printable_extHeader (e : ExtHeader) : e.text.all isPrintable = true := by
  have hpath : ∀ p, (gitLabel [] p).all isPrintable = true := printable_gitLabel rfl
  have hpercent : ∀ n, (Nat.toDigits 10 n ++ ['%']).all isPrintable = true := fun n =>
    printable_append (printable_toDigits n) (by decide)
  cases e with
  | oldMode m => exact printable_append (by decide) (printable_mode m)
  | newMode m => exact printable_append (by decide) (printable_mode m)
  | deletedFileMode m => exact printable_append (by decide) (printable_mode m)
  | newFileMode m => exact printable_append (by decide) (printable_mode m)
  | copyFrom p => exact printable_append (by decide) (hpath p)
  | copyTo p => exact printable_append (by decide) (hpath p)
  | renameFrom p => exact printable_append (by decide) (hpath p)
  | renameTo p => exact printable_append (by decide) (hpath p)
  | similarity n => exact printable_append (by decide) (hpercent n)
  | dissimilarity n => exact printable_append (by decide) (hpercent n)
  | index a b m =>
      refine printable_append (by decide) (printable_append (printable_hexText a)
        (printable_append (by decide) (printable_append (printable_hexText b) ?_)))
      cases m with
      | none => rfl
      | some m =>
          exact printable_cons (by decide) (printable_mode m)

theorem inert_extHeader (e : ExtHeader) : Inert e.text := by
  cases e <;> exact inert_of_head (by decide) (by decide) _

theorem printable_oldLabel (f : FileDiff) : f.oldLabel.all isPrintable = true := by
  unfold FileDiff.oldLabel
  split
  · exact printable_gitLabel (by decide) _
  · decide

theorem printable_newLabel (f : FileDiff) : f.newLabel.all isPrintable = true := by
  unfold FileDiff.newLabel
  split
  · exact printable_gitLabel (by decide) _
  · decide

/-! ## The lines of a file -/

/-- The lines of a file in front of its hunks; they hold no text of the file. -/
def FileDiff.preamble (f : FileDiff) : List (List Char) :=
  ("diff --git ".toList ++ (gitLabel ['a', '/'] f.oldName ++
      (' ' :: gitLabel ['b', '/'] f.newName))) ::
    (f.headers.map ExtHeader.text ++
      match f.body with
      | .none => []
      | .binary =>
          ["Binary files ".toList ++ (f.oldLabel ++ (" and ".toList ++
            (f.newLabel ++ " differ".toList)))]
      | .hunks _ _ => [labelLine ['-', '-', '-', ' '] f.oldLabel])

/-- The `+++` line, of a file that has hunks. -/
def FileDiff.plusLine (f : FileDiff) : List (List Char) :=
  if f.hunks = [] then [] else [labelLine ['+', '+', '+', ' '] f.newLabel]

theorem FileDiff.lines_eq (f : FileDiff) :
    f.lines = f.preamble ++ (f.plusLine ++ f.hunks.flatMap Hunk.lines) := by
  unfold FileDiff.lines FileDiff.preamble FileDiff.plusLine FileDiff.hunks FileDiff.bodyLines
  cases f.body <;> simp

theorem preamble_inert (f : FileDiff) : ∀ l ∈ f.preamble, NoBreak l ∧ Inert l := by
  intro l hl
  rcases List.mem_cons.mp hl with rfl | hl
  · refine ⟨noBreak_of_printable (printable_append (by decide) (printable_append
      (printable_gitLabel (by decide) _) (printable_cons (by decide)
        (printable_gitLabel (by decide) _)))), inert_of_head (by decide) (by decide) _⟩
  rcases List.mem_append.mp hl with hl | hl
  · obtain ⟨e, -, rfl⟩ := List.mem_map.mp hl
    exact ⟨noBreak_of_printable (printable_extHeader e), inert_extHeader e⟩
  · split at hl
    · cases hl
    · obtain rfl := List.mem_singleton.mp hl
      refine ⟨noBreak_of_printable (printable_append (by decide) (printable_append
        (printable_oldLabel f) (printable_append (by decide) (printable_append
          (printable_newLabel f) (by decide))))), inert_of_head (by decide) (by decide) _⟩
    · obtain rfl := List.mem_singleton.mp hl
      exact ⟨noBreak_labelLine (by decide) (printable_oldLabel f),
        inert_of_head (by decide) (by decide) _⟩

theorem noBreak_plusLine (f : FileDiff) : ∀ l ∈ f.plusLine, NoBreak l := by
  intro l hl
  unfold FileDiff.plusLine at hl
  split at hl
  · cases hl
  · obtain rfl := List.mem_singleton.mp hl
    exact noBreak_labelLine (by decide) (printable_newLabel f)

theorem noBreak_rangeMark (h : Hunk) : NoBreak h.rangeMark := by
  have hrange : ∀ start count, (rangeText start count).all isPrintable = true := by
    intro start count
    unfold rangeText
    refine printable_append (printable_toDigits start) ?_
    split
    · rfl
    · exact printable_cons (by decide) (printable_toDigits count)
  exact noBreak_of_printable (printable_append (by decide) (printable_append (hrange _ _)
    (printable_append (by decide) (printable_append (hrange _ _) (by decide)))))

/-! ## When every line is clean -/

theorem noBreak_singleton {c : Char} (h : isLineBreak c = false) : NoBreak [c] :=
  noBreak_cons.mpr ⟨h, rfl⟩

theorem clean_cons {c : Char} (h : isLineBreak c = false) (line : List Char) :
    Clean (c :: line) ↔ Clean line :=
  clean_append (noBreak_singleton h)

theorem clean_header (h : Hunk) : Clean h.header ↔ Clean h.heading.chars := by
  unfold Hunk.header
  rw [clean_append (noBreak_rangeMark h)]
  split
  · rename_i hempty
    rw [List.isEmpty_iff.mp hempty]
  · exact clean_cons (by decide) _

theorem clean_content (h : Hunk) :
    (∀ l ∈ h.content, Clean l) ↔ ∀ l ∈ h.removed ++ h.added, Clean l.chars := by
  have hmark : Clean noNewlineMark := clean_of_noBreak (by rfl)
  have hif : ∀ b : Bool, ∀ l ∈ (if b then [noNewlineMark] else []), Clean l := by
    intro b l hl
    split at hl
    · obtain rfl := List.mem_singleton.mp hl
      exact hmark
    · cases hl
  unfold Hunk.content
  have hminus : isLineBreak '-' = false := by decide
  have hplus : isLineBreak '+' = false := by decide
  simp only [List.forall_mem_append, List.forall_mem_map, clean_cons hminus, clean_cons hplus]
  constructor
  · rintro ⟨hr, -, ha, -⟩
    exact ⟨hr, ha⟩
  · rintro ⟨hr, ha⟩
    exact ⟨hr, hif _, ha, hif _⟩

/-- A hunk every line of which is read as one line. -/
def Hunk.CleanText (h : Hunk) : Prop :=
  Clean h.heading.chars ∧ ∀ l ∈ h.removed ++ h.added, Clean l.chars

theorem clean_diffLines (diff : List FileDiff) :
    (∀ l ∈ diffLines diff, Clean l) ↔ ∀ f ∈ diff, ∀ h ∈ f.hunks, h.CleanText := by
  have hhunk : ∀ h : Hunk, (∀ l ∈ h.lines, Clean l) ↔ h.CleanText := fun h => by
    rw [Hunk.lines, List.forall_mem_cons, clean_header, clean_content]
    rfl
  have hfile : ∀ f : FileDiff, (∀ l ∈ f.lines, Clean l) ↔ ∀ h ∈ f.hunks, h.CleanText := fun f => by
    rw [f.lines_eq]
    simp only [List.forall_mem_append, List.forall_mem_flatMap, hhunk]
    constructor
    · exact fun h => h.2.2
    · exact fun h => ⟨fun l hl => clean_of_noBreak (preamble_inert f l hl).1,
        fun l hl => clean_of_noBreak (noBreak_plusLine f l hl), h⟩
  simp only [diffLines, List.forall_mem_flatMap, hfile]

theorem stripCr_cons {c : Char} (h : c ≠ '\r') (line : List Char) :
    stripCr (c :: line) = c :: stripCr line := by
  have hlast : [c].getLast? ≠ some '\r' := by simpa using h
  exact stripCr_append hlast

theorem stripCr_initial (line : List Char) : stripCr line <+: line := by
  unfold stripCr
  split
  · exact List.dropLast_prefix line
  · exact List.prefix_rfl

/-! ## The ranges that are read

`Holds R f` says that the map `R` has exactly the ranges `f` gives for each path. -/

def nonEmpty (ranges : List (Nat × Nat)) : Option (List (Nat × Nat)) :=
  if ranges = [] then none else some ranges

def Holds (R : Ranges) (f : List Char → List (Nat × Nat)) : Prop :=
  ∀ path, R.lookup path = nonEmpty (f path)

theorem Holds.getD {R : Ranges} {f : List Char → List (Nat × Nat)} (h : Holds R f)
    (path : List Char) : Dict.getD R path [] = f path := by
  rw [Dict.getD, h path, nonEmpty]
  split
  · rename_i hnil
    rw [hnil]
    rfl
  · rfl

theorem Holds.congr {R : Ranges} {f g : List Char → List (Nat × Nat)} (h : Holds R f)
    (hfg : ∀ path, f path = g path) : Holds R g := fun path => by rw [h path, hfg path]

theorem Holds.insert {R : Ranges} {f : List Char → List (Nat × Nat)} (h : Holds R f)
    (file : List Char) (r : Nat × Nat) :
    Holds (AList.insert file (Dict.getD R file [] ++ [r]) R)
      fun path => f path ++ if some file = some path then [r] else [] := by
  intro path
  rw [Dict.lookup_insert_ite, h.getD, h path]
  by_cases hp : path = file
  · subst hp
    simp [nonEmpty]
  · have hne : ¬ file = path := fun h' => hp h'.symm
    simp [hp, hne]

/-- None of the hunk's added lines starts with `++`. -/
def Hunk.NoPlus (h : Hunk) : Prop := ∀ l ∈ h.added, ['+', '+'].isPrefixOf l.chars = false

theorem isPrefixOf_stripCr {pre line : List Char} (h : pre.isPrefixOf line = false) :
    pre.isPrefixOf (stripCr line) = false := by
  by_contra hc
  have hc : pre.isPrefixOf (stripCr line) = true := by simpa using hc
  have := (List.isPrefixOf_iff_prefix.mp hc).trans (stripCr_initial line)
  rw [List.isPrefixOf_iff_prefix.mpr this] at h
  cases h

theorem inert_content {h : Hunk} (hplus : h.NoPlus) :
    ∀ l ∈ h.content.map stripCr, Inert l := by
  have hmark : Inert (stripCr noNewlineMark) := by decide +kernel
  have hif : ∀ b : Bool, ∀ l ∈ (if b then [noNewlineMark] else []), Inert (stripCr l) := by
    intro b l hl
    split at hl
    · obtain rfl := List.mem_singleton.mp hl
      exact hmark
    · cases hl
  have hminus : ∀ l ∈ h.removed, Inert (stripCr ('-' :: l.chars)) := fun l _ => by
    rw [stripCr_cons (by decide)]
    exact inert_of_head (by decide) (by decide) _
  have hadded : ∀ l ∈ h.added, Inert (stripCr ('+' :: l.chars)) := fun l hl => by
    rw [stripCr_cons (by decide), inert_added]
    exact isPrefixOf_stripCr (hplus l hl)
  unfold Hunk.content
  simp only [List.forall_mem_map, List.forall_mem_append]
  exact ⟨hminus, hif _, hadded, hif _⟩

theorem isFileHeader_rangeMark (h : Hunk) (rest : List Char) :
    isFileHeader (h.rangeMark ++ rest) = false := rfl

theorem scan_hunk {h : Hunk} (hplus : h.NoPlus) (cur : Option (List Char)) {R : Ranges}
    {f : List Char → List (Nat × Nat)} (hR : Holds R f) :
    ∃ R', (h.lines.map stripCr).foldl scanLine (cur, R) = (cur, R') ∧
      Holds R' fun path => f path ++ if cur = some path then [h.newRange] else [] := by
  have hheader : ∃ rest, stripCr h.header = h.rangeMark ++ rest := by
    refine ⟨_, stripCr_append fun hlast => ?_⟩
    have := (noBreak_rangeMark h).mem (List.mem_of_getLast? hlast)
    rw [isLineBreak_cr] at this
    cases this
  obtain ⟨rest, hrest⟩ := hheader
  rw [Hunk.lines, List.map_cons, List.foldl_cons, hrest,
    foldl_scanLine_inert (inert_content hplus)]
  unfold scanLine
  rw [isFileHeader_rangeMark, hunkNewRange_rangeMark]
  cases cur with
  | none => exact ⟨R, rfl, hR.congr fun path => by simp⟩
  | some file => exact ⟨_, rfl, hR.insert file h.newRange⟩

theorem scan_hunks {hs : List Hunk} (hplus : ∀ h ∈ hs, h.NoPlus) (cur : Option (List Char))
    {R : Ranges} {f : List Char → List (Nat × Nat)} (hR : Holds R f) :
    ∃ R', ((hs.flatMap Hunk.lines).map stripCr).foldl scanLine (cur, R) = (cur, R') ∧
      Holds R' fun path => f path ++ if cur = some path then hs.map Hunk.newRange else [] := by
  induction hs generalizing R f with
  | nil => exact ⟨R, rfl, hR.congr fun path => by simp⟩
  | cons h hs ih =>
      obtain ⟨hh, hhs⟩ := List.forall_mem_cons.mp hplus
      obtain ⟨R₁, hR₁, h₁⟩ := scan_hunk hh cur hR
      obtain ⟨R₂, hR₂, h₂⟩ := ih hhs h₁
      refine ⟨R₂, ?_, h₂.congr fun path => ?_⟩
      · rw [List.flatMap_cons, List.map_append, List.foldl_append, hR₁, hR₂]
      · split <;> simp

/-- The path the reader attributes a file's hunks to. -/
def FileDiff.readPath (f : FileDiff) : Option (List Char) :=
  if f.newExists then some (readBack f.newName) else none

def FileDiff.newPath (f : FileDiff) : Option (List Char) :=
  if f.newExists then some f.newName else none

theorem plusPlusPath_newLabel (f : FileDiff) :
    plusPlusPath (labelLine ['+', '+', '+', ' '] f.newLabel) = f.readPath := by
  unfold FileDiff.newLabel FileDiff.readPath
  split
  · exact plusPlusPath_line f.newName
  · decide +kernel

theorem map_stripCr_of_noBreak {ls : List (List Char)} (h : ∀ l ∈ ls, NoBreak l) :
    ls.map stripCr = ls := by
  calc ls.map stripCr = ls.map id :=
        List.map_congr_left fun l hl => stripCr_of_noBreak (h l hl)
    _ = ls := List.map_id _

/-- The ranges the hunks of a diff give the path, when `target` names each file. -/
def rangesBy (target : FileDiff → Option (List Char)) (diff : List FileDiff)
    (path : List Char) : List (Nat × Nat) :=
  diff.flatMap fun f => if target f = some path then f.hunks.map Hunk.newRange else []

theorem scan_file {f : FileDiff} (hplus : ∀ h ∈ f.hunks, h.NoPlus)
    (s : Option (List Char) × Ranges) {g : List Char → List (Nat × Nat)} (hR : Holds s.2 g) :
    Holds ((f.lines.map stripCr).foldl scanLine s).2 fun path =>
      g path ++ if f.readPath = some path then f.hunks.map Hunk.newRange else [] := by
  rw [f.lines_eq, List.map_append, List.map_append, List.foldl_append, List.foldl_append,
    map_stripCr_of_noBreak fun l hl => (preamble_inert f l hl).1,
    map_stripCr_of_noBreak (noBreak_plusLine f),
    foldl_scanLine_inert fun l hl => (preamble_inert f l hl).2]
  by_cases hnil : f.hunks = []
  · rw [FileDiff.plusLine, if_pos hnil, hnil]
    exact hR.congr fun path => by simp
  · have hheader : isFileHeader (labelLine ['+', '+', '+', ' '] f.newLabel) = true := rfl
    have hplusLine : f.plusLine.foldl scanLine s = (f.readPath, s.2) := by
      rw [FileDiff.plusLine, if_neg hnil, List.foldl_cons, List.foldl_nil, scanLine,
        if_pos hheader, plusPlusPath_newLabel]
    obtain ⟨R', hR', h'⟩ := scan_hunks hplus f.readPath hR
    rw [hplusLine, hR']
    exact h'

theorem scan_diff {diff : List FileDiff} (hplus : ∀ f ∈ diff, ∀ h ∈ f.hunks, h.NoPlus)
    (s : Option (List Char) × Ranges) {g : List Char → List (Nat × Nat)} (hR : Holds s.2 g) :
    Holds (((diffLines diff).map stripCr).foldl scanLine s).2 fun path =>
      g path ++ rangesBy FileDiff.readPath diff path := by
  induction diff generalizing s g with
  | nil => exact hR.congr fun path => by simp [rangesBy]
  | cons f diff ih =>
      obtain ⟨hf, hdiff⟩ := List.forall_mem_cons.mp hplus
      have h₁ := scan_file hf s hR
      have h₂ := ih hdiff _ h₁
      rw [diffLines, List.flatMap_cons, List.map_append, List.foldl_append]
      exact h₂.congr fun path => List.append_assoc _ _ _

/-- With every line clean and no added line starting with `++`, the ranges read are those
of the diff, under the paths as they are read back. -/
theorem parseUnifiedDiff_text {diff : List FileDiff} (hclean : ∀ l ∈ diffLines diff, Clean l)
    (hplus : ∀ f ∈ diff, ∀ h ∈ f.hunks, h.NoPlus) :
    Holds (parseUnifiedDiff (unifiedText diff)) (rangesBy FileDiff.readPath diff) := by
  have hlines : Coverage.splitlines (unifiedText diff) = (diffLines diff).map stripCr := by
    rw [unifiedText, splitlines_lines, List.map_eq_flatMap]
    exact List.flatMap_congr fun l hl => piecesOf_clean (hclean l hl)
  have hempty : Holds ∅ fun _ => [] := fun path => rfl
  unfold parseUnifiedDiff
  rw [hlines]
  exact (scan_diff hplus (none, ∅) hempty).congr fun path => List.nil_append _

/-! ## Paths that are mistaken for one another

Were the ranges right although some path is not read back, the paths of the diff would
all be read-back paths: none could have a lost character, so each wrong one would be the
trimmed form of a longer one, without end. -/

theorem length_readBack_lt {path : List Char} (h : path.any lostChar = false)
    (hne : readBack path ≠ path) : (readBack path).length < path.length := by
  have hpre : readBack path <+: path := by
    unfold readBack at hne ⊢
    split
    · rename_i hq
      rw [if_pos hq] at hne
      have hmap : path.map slipChar = path := by
        calc path.map slipChar = path.map id := List.map_congr_left fun c hc =>
              slipChar_of_not_lost (by simpa using List.any_eq_false.mp h c hc)
          _ = path := List.map_id _
      rw [hmap]
      exact List.takeWhile_prefix _
    · exact List.rdropWhile_prefix _ _
  exact Nat.lt_of_le_of_ne hpre.length_le fun hlen => hne (hpre.eq_of_length hlen)

theorem readable_of_closed {names : List (List Char)}
    (h : ∀ p ∈ names, ∃ q ∈ names, readBack q = p) : ∀ p ∈ names, Readable p := by
  have hlost : ∀ p ∈ names, p.any lostChar = false := fun p hp => by
    obtain ⟨q, -, rfl⟩ := h p hp
    exact lost_readBack q
  intro p hp
  rw [← readBack_eq_iff]
  by_contra hne
  -- every wrong path is read from a longer wrong path
  have hlong : ∀ k, ∃ q ∈ names, readBack q ≠ q ∧ k ≤ q.length := by
    intro k
    induction k with
    | zero => exact ⟨p, hp, hne, Nat.zero_le _⟩
    | succ k ih =>
        obtain ⟨q, hq, hwrong, hk⟩ := ih
        obtain ⟨q', hq', hread⟩ := h q hq
        have hwrong' : readBack q' ≠ q' := fun heq => hwrong (by rw [← hread, heq, heq])
        have hlt := length_readBack_lt (hlost q' hq') hwrong'
        rw [hread] at hlt
        exact ⟨q', hq', hwrong', by omega⟩
  obtain ⟨q, hq, -, hk⟩ := hlong (names.flatten.length + 1)
  have := (List.sublist_flatten_of_mem hq).length_le
  omega

def hunkPaths (diff : List FileDiff) : List (List Char) :=
  (diff.filter fun f => f.newExists && f.hunks ≠ []).map FileDiff.newName

theorem mem_hunkPaths {diff : List FileDiff} {path : List Char} :
    path ∈ hunkPaths diff ↔
      ∃ f ∈ diff, f.newExists = true ∧ f.hunks ≠ [] ∧ f.newName = path := by
  simp [hunkPaths, and_assoc]

theorem rangesBy_ne_nil {target : FileDiff → Option (List Char)} {diff : List FileDiff}
    {path : List Char} :
    rangesBy target diff path ≠ [] ↔ ∃ f ∈ diff, f.hunks ≠ [] ∧ target f = some path := by
  unfold rangesBy
  rw [Ne, List.flatMap_eq_nil_iff]
  push Not
  refine exists_congr fun f => and_congr_right fun _ => ?_
  split <;> simp_all

theorem newPath_eq_some {f : FileDiff} {path : List Char} :
    f.newPath = some path ↔ f.newExists = true ∧ f.newName = path := by
  unfold FileDiff.newPath
  split <;> simp_all

theorem readPath_eq_some {f : FileDiff} {path : List Char} :
    f.readPath = some path ↔ f.newExists = true ∧ readBack f.newName = path := by
  unfold FileDiff.readPath
  split <;> simp_all

theorem readable_of_rangesBy {diff : List FileDiff}
    (h : ∀ path, rangesBy FileDiff.readPath diff path = rangesBy FileDiff.newPath diff path) :
    ∀ p ∈ hunkPaths diff, Readable p := by
  refine readable_of_closed fun p hp => ?_
  obtain ⟨f, hf, he, hh, rfl⟩ := mem_hunkPaths.mp hp
  have hne : rangesBy FileDiff.newPath diff f.newName ≠ [] :=
    rangesBy_ne_nil.mpr ⟨f, hf, hh, newPath_eq_some.mpr ⟨he, rfl⟩⟩
  rw [← h] at hne
  obtain ⟨f', hf', hh', htarget⟩ := rangesBy_ne_nil.mp hne
  obtain ⟨he', hread⟩ := readPath_eq_some.mp htarget
  exact ⟨f'.newName, mem_hunkPaths.mpr ⟨f', hf', he', hh', rfl⟩, hread⟩

/-! ## When the reading is exact -/

/-- The reader gets the ranges of each path and nothing else, takes no line of content
for a header, and reads every line of the diff as one line. -/
structure ReadsExactly (diff : List FileDiff) : Prop where
  ranges : Holds (parseUnifiedDiff (unifiedText diff)) (rangesBy FileDiff.newPath diff)
  contents : ∀ f ∈ diff, ∀ h ∈ f.hunks, ∀ l ∈ h.content, Inert l
  lines : (Coverage.splitlines (unifiedText diff)).length = (diffLines diff).length

/-- Every line of content and section heading is free of Python's line breaks but for a
`\r` at its end, no added line starts with `++`, and the paths can be read back. -/
structure Legible (diff : List FileDiff) : Prop where
  clean : ∀ f ∈ diff, ∀ h ∈ f.hunks, h.CleanText
  noPlus : ∀ f ∈ diff, ∀ h ∈ f.hunks, h.NoPlus
  readable : ∀ p ∈ hunkPaths diff, Readable p

theorem inert_content_iff (h : Hunk) : (∀ l ∈ h.content, Inert l) ↔ h.NoPlus := by
  constructor
  · intro hinert l hl
    have hmem : '+' :: l.chars ∈ h.content := by
      unfold Hunk.content
      simp only [List.mem_append, List.mem_map]
      exact .inr (.inr (.inl ⟨l, hl, rfl⟩))
    exact (inert_added _).mp (hinert _ hmem)
  · intro hplus l hl
    have hmark : Inert noNewlineMark := by decide +kernel
    unfold Hunk.content at hl
    simp only [List.mem_append, List.mem_map, List.mem_ite_nil_right, List.mem_singleton] at hl
    rcases hl with ⟨l, -, rfl⟩ | ⟨-, rfl⟩ | ⟨l, hl, rfl⟩ | ⟨-, rfl⟩
    · exact inert_of_head (by decide) (by decide) _
    · exact hmark
    · exact (inert_added _).mpr (hplus l hl)
    · exact hmark

theorem rangesBy_congr {diff : List FileDiff} (h : ∀ p ∈ hunkPaths diff, Readable p)
    (path : List Char) :
    rangesBy FileDiff.readPath diff path = rangesBy FileDiff.newPath diff path := by
  refine List.flatMap_congr fun f hf => ?_
  by_cases hh : f.hunks = []
  · simp [hh]
  · have hsame : f.readPath = f.newPath := by
      unfold FileDiff.readPath FileDiff.newPath
      split
      · rename_i he
        rw [(readBack_eq_iff _).mpr (h _ (mem_hunkPaths.mpr ⟨f, hf, he, hh, rfl⟩))]
      · rfl
    rw [hsame]

theorem readsExactly_iff (diff : List FileDiff) : ReadsExactly diff ↔ Legible diff := by
  constructor
  · intro hexact
    have hclean : ∀ l ∈ diffLines diff, Clean l := (length_splitlines_iff _).mp hexact.lines
    have hplus : ∀ f ∈ diff, ∀ h ∈ f.hunks, h.NoPlus := fun f hf h hh =>
      (inert_content_iff h).mp (hexact.contents f hf h hh)
    refine ⟨(clean_diffLines diff).mp hclean, hplus, readable_of_rangesBy fun path => ?_⟩
    rw [← (parseUnifiedDiff_text hclean hplus).getD, hexact.ranges.getD]
  · intro hlegible
    have hclean : ∀ l ∈ diffLines diff, Clean l := (clean_diffLines diff).mpr hlegible.clean
    refine ⟨(parseUnifiedDiff_text hclean hlegible.noPlus).congr
      (rangesBy_congr hlegible.readable), fun f hf h hh => ?_, ?_⟩
    · exact (inert_content_iff h).mpr (hlegible.noPlus f hf h hh)
    · exact (length_splitlines_iff _).mpr hclean

/-- A new file `a` whose only line is `++ b/x`. -/
def plusFile : FileDiff where
  oldName := ['a']
  newName := ['a']
  oldExists := false
  headers := [.newFileMode .regular]
  body := .hunks
    { oldStart := 0, newStart := 1, removed := [], heading := ⟨[], by decide⟩
      added := [⟨"++ b/x".toList, by decide⟩], fits := by decide }
    []

/-- Its line is taken for a header. -/
theorem plusFile_misread : ¬ ReadsExactly [plusFile] := by
  intro h
  have hinert := h.contents plusFile (by simp) _ (List.mem_singleton.mpr rfl) _
    (List.mem_singleton.mpr rfl)
  exact absurd hinert.1 (by decide +kernel)

end Dagayn
