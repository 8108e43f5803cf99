import Mathlib

/-!
# JSON values

The values both sides of the repository keep in JSON columns: task payloads and
the `extra` column of nodes and edges. A number is an integer or a double, as both
decoders read it.
-/

namespace Dagayn

inductive Json where
  | null
  | bool (b : Bool)
  | int (n : Int)
  | float (x : Float)
  | str (s : String)
  | arr (items : List Json)
  | obj (fields : List (String × Json))
deriving BEq

namespace Json

/-- Python's truthiness; the Rust port's `truthy` computes the same. -/
def truthy : Json → Bool
  | .null => false
  | .bool b => b
  | .int n => n ≠ 0
  | .float x => x != 0.0
  | .str s => s ≠ ""
  | .arr items => !items.isEmpty
  | .obj fields => !fields.isEmpty

/-- `isinstance(value, list)`. -/
def asList : Json → Option (List Json)
  | .arr items => some items
  | _ => none

def asStr : Json → Option String
  | .str s => some s
  | _ => none

/-- `Value::get` on an object; the columns hold one entry per key. -/
def get : Json → String → Option Json
  | .obj fields, key => fields.lookup key
  | _, _ => none

/-- `Value::as_f64`. -/
def asFloat : Json → Option Float
  | .int n => some (Float.ofInt n)
  | .float x => some x
  | _ => none

/-- `get(key).and_then(Value::as_str)`. -/
def getStr (v : Json) (key : String) : Option String := (v.get key).bind asStr

end Json

end Dagayn
