import Dagayn.ScipIndex

/-!
# Code without comments and layout

`normalize_code`: the lines of a text without what stands behind a comment marker, joined, and
of that the characters that are not white space, without the commas in front of a closing
bracket. The markers are looked for in every line alike, whatever they stand in.
-/

namespace Dagayn

namespace NormalizeCode

/-- The comments of a language, as `normalize_code` looks for them. -/
structure CommentSyntax where
  lineComment : List Char
  block : Bool
deriving DecidableEq, Repr

def commentSyntax (language : String) : CommentSyntax where
  lineComment :=
    if language ∈ ["python", "ruby", "perl", "r", "julia", "bash", "elixir", "gdscript", "toml",
      "terraform"] then ['#']
    else if language = "lua" then ['-', '-']
    else ['/', '/']
  block := language ∉ ["python", "ruby", "perl", "r", "bash", "elixir", "gdscript", "lua"]

/-- What is kept of a line, and whether a block comment goes on behind it. The first marker of
either kind counts; behind `/*` the next `*/` is looked for. -/
def stripLine (s : CommentSyntax) : Bool → List Char → List Char × Bool
  | inBlock, [] => ([], inBlock)
  | true, '*' :: '/' :: rest => stripLine s false rest
  | true, _ :: rest => stripLine s true rest
  | false, c :: rest =>
      if s.lineComment.isPrefixOf (c :: rest) then ([], false)
      else
        match c, s.block, rest with
        | '/', true, '*' :: rest => stripLine s true rest
        | c, _, rest =>
            let (kept, inBlock) := stripLine s false rest
            (c :: kept, inBlock)

def stripLines (s : CommentSyntax) : Bool → List (List Char) → List Char
  | _, [] => []
  | inBlock, line :: lines =>
      let (kept, inBlock) := stripLine s inBlock line
      kept ++ stripLines s inBlock lines

/-- `while text.contains(",)") { text = text.replace(",)", ")") }`: the commas in front of the
bracket go. -/
def dropCommas (close : Char) : List Char → List Char
  | [] => []
  | c :: rest =>
      let rest := dropCommas close rest
      if c = ',' ∧ rest.head? = some close then rest else c :: rest

def normalizeCode (text : List Char) (language : String) : List Char :=
  let stripped := stripLines (commentSyntax language) false (Scip.lines text)
  let compact := stripped.filter fun c => !isWhitespace c
  dropCommas '\x7d' (dropCommas ']' (dropCommas ')' compact))

example : normalizeCode "fn f(\n    a: u8, // one\n) /* none */ -> u8".toList "rust" =
    "fnf(a:u8)->u8".toList := by decide +kernel

end NormalizeCode

end Dagayn
