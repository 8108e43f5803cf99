import Dagayn.Entries
import Dagayn.JsonText

/-!
# Python's `json`

`json.loads` and `json.dumps` with their defaults. A Python string is a list of code
points: an escape may leave half of a surrogate pair in it, and two halves that follow
each other are joined. Doubles are a parameter: how a literal is rounded and how
`float.__repr__` writes the result are not of interest here.
-/

namespace Dagayn

open JsonText Scanner

def isInt (literal : List Char) : Bool := literal.all fun c => c.isDigit || c = '-'

def natOf (digits : List Char) : Nat := digits.foldl (fun n c => n * 10 + (c.toNat - 48)) 0

def intOf : List Char → Int
  | '-' :: digits => -(natOf digits)
  | digits => natOf digits

/-- IEEE doubles, as far as the payloads need them. -/
structure Doubles where
  F : Type
  /-- The double nearest to a literal. -/
  read : List Char → F
  /-- `float.__repr__`. -/
  repr : F → List Char
  isZero : F → Bool
  isFinite : F → Bool
  /-- Nothing beyond 63 bits is rounded to zero. -/
  isZero_read : ∀ literal, isInt literal = true → 2 ^ 63 ≤ (intOf literal).natAbs →
    isZero (read literal) = false

/-- The code points of a `str`. -/
abbrev PyStr := List Nat

inductive PyValue (F : Type) where
  | none
  | bool (b : Bool)
  | int (n : Int)
  | float (x : F)
  | str (s : PyStr)
  | list (items : List (PyValue F))
  | dict (entries : List (PyStr × PyValue F))

def codePoints : List Nat → PyStr
  | h :: l :: us =>
      if 0xd800 ≤ h ∧ h < 0xdc00 ∧ 0xdc00 ≤ l ∧ l < 0xe000 then
        (0x10000 + (h - 0xd800) * 0x400 + (l - 0xdc00)) :: codePoints us
      else h :: codePoints (l :: us)
  | us => us

/-! ## Reading -/

/-- The words Python's reader knows beside JSON's. -/
def floatWords : Words :=
  [("NaN".toList, .num "NaN".toList), ("Infinity".toList, .num "Infinity".toList),
    ("-Infinity".toList, .num "-Infinity".toList)]

mutual

def PyValue.ofDoc (fl : Doubles) : JsonDoc → PyValue fl.F
  | .null => .none
  | .bool b => .bool b
  | .num literal => if isInt literal then .int (intOf literal) else .float (fl.read literal)
  | .str units => .str (codePoints units)
  | .arr items => .list (ofDocs fl items)
  | .obj fields => .dict (Entries.setAll [] (ofFields fl fields))

def PyValue.ofDocs (fl : Doubles) : List JsonDoc → List (PyValue fl.F)
  | [] => []
  | d :: ds => ofDoc fl d :: ofDocs fl ds

def PyValue.ofFields (fl : Doubles) : List (List Nat × JsonDoc) → List (PyStr × PyValue fl.F)
  | [] => []
  | (key, d) :: fields => (codePoints key, ofDoc fl d) :: ofFields fl fields

end

/-- `json.loads(text)`. -/
def loadsPy (fl : Doubles) (text : List Char) : Option (PyValue fl.F) :=
  (parse (jsonWords ++ floatWords) text).map (PyValue.ofDoc fl)

/-! ## Writing -/

def hexDigit (n : Nat) : Char := if n < 10 then Char.ofNat (48 + n) else Char.ofNat (87 + n)

/-- `\\u{0:04x}`. -/
def unicodeEscape (u : Nat) : List Char :=
  ['\\', 'u', hexDigit (u / 4096 % 16), hexDigit (u / 256 % 16), hexDigit (u / 16 % 16),
    hexDigit (u % 16)]

/-- A code point in a string: `ESCAPE_DCT`, the printable ASCII characters, and escapes. -/
def escapePy (n : Nat) : List Char :=
  if n = 0x5c then ['\\', '\\']
  else if n = 0x22 then ['\\', '"']
  else if n = 0x08 then ['\\', 'b']
  else if n = 0x0c then ['\\', 'f']
  else if n = 0x0a then ['\\', 'n']
  else if n = 0x0d then ['\\', 'r']
  else if n = 0x09 then ['\\', 't']
  else if 0x20 ≤ n ∧ n ≤ 0x7e then [Char.ofNat n]
  else (utf16 n).flatMap unicodeEscape

def PyStr.dumps (s : PyStr) : List Char := '"' :: (s.flatMap escapePy ++ ['"'])

mutual

/-- `json.dumps(value)`. -/
def PyValue.dumps (fl : Doubles) : PyValue fl.F → List Char
  | .none => "null".toList
  | .bool b => if b then "true".toList else "false".toList
  | .int n => (toString n).toList
  | .float x => fl.repr x
  | .str s => PyStr.dumps s
  | .list items => '[' :: (joined (dumpsItems fl items) ++ [']'])
  | .dict entries => '\x7b' :: (joined (dumpsEntries fl entries) ++ ['\x7d'])

def PyValue.dumpsItems (fl : Doubles) : List (PyValue fl.F) → List (List Char)
  | [] => []
  | v :: vs => dumps fl v :: dumpsItems fl vs

def PyValue.dumpsEntries (fl : Doubles) : List (PyStr × PyValue fl.F) → List (List Char)
  | [] => []
  | (key, v) :: entries => (PyStr.dumps key ++ ':' :: ' ' :: dumps fl v) :: dumpsEntries fl entries

end

/-- `bool(value)`. -/
def PyValue.truthy (fl : Doubles) : PyValue fl.F → Bool
  | .none => false
  | .bool b => b
  | .int n => n ≠ 0
  | .float x => !fl.isZero x
  | .str s => !s.isEmpty
  | .list items => !items.isEmpty
  | .dict entries => !entries.isEmpty

/-- `str(value)`, with `repr` for the values whose text is a matter of its own. -/
def PyValue.pyStr {F : Type} (repr : PyValue F → PyStr) : PyValue F → PyStr
  | .none => "None".toList.map Char.toNat
  | .bool b => (if b then "True" else "False").toList.map Char.toNat
  | .int n => (toString n).toList.map Char.toNat
  | .str s => s
  | v => repr v

theorem PyValue.ofFields_eq (fl : Doubles) : ∀ fields : List (List Nat × JsonDoc),
    ofFields fl fields = fields.map (Prod.map codePoints (ofDoc fl))
  | [] => rfl
  | (key, d) :: fields => by
      rw [ofFields, ofFields_eq fl fields]
      rfl

theorem PyValue.ofDocs_eq (fl : Doubles) : ∀ ds : List JsonDoc, ofDocs fl ds = ds.map (ofDoc fl)
  | [] => rfl
  | d :: ds => by
      rw [ofDocs, ofDocs_eq fl ds]
      rfl

theorem PyValue.dumpsEntries_eq (fl : Doubles) : ∀ es : List (PyStr × PyValue fl.F),
    dumpsEntries fl es = es.map fun e => PyStr.dumps e.1 ++ ':' :: ' ' :: dumps fl e.2
  | [] => rfl
  | (key, v) :: es => by
      rw [dumpsEntries, dumpsEntries_eq fl es]
      rfl

end Dagayn
