import QueryAccess.Dict
import QueryAccess.Numeric.Binary64

/-!
# Data values

The values that queries, callers and comments bring along: null, truth values, numbers,
strings, arrays and objects. A number is an integer or a double and stays what it is, so
`1` and `1.0` are two values. An object is a dictionary, its keys in ascending order.

`QueryAccess.Json.integerRange` is the range of the integers that a text can bring: the
signed and the unsigned 64-bit ones. The type does not enforce it.
-/

namespace QueryAccess

/-- A data value. -/
inductive Json where
  | null
  | bool (flag : Bool)
  | int (value : Int)
  | float (value : Binary64)
  | string (text : String)
  | array (items : List Json)
  | object (fields : List (String × Json))
deriving Inhabited

namespace Json

/-- The integers of a text: signed or unsigned, in 64 bits. -/
def integerRange (n : Int) : Prop := -0x8000000000000000 ≤ n ∧ n < 0x10000000000000000

instance (n : Int) : Decidable (integerRange n) := by unfold integerRange; infer_instance

/-- The object of a list of fields; of repeated names the last one counts. -/
def ofFields (fields : List (String × Json)) : Json := .object (Dict.ofList fields)

/-- The fields of an object. -/
def fields? : Json → Option (Dict Json)
  | .object fields => some fields
  | _ => none

/-- The field of that name, if the value is an object that has it. -/
def field? (name : String) : Json → Option Json
  | .object fields => fields.lookup name
  | _ => none

/-- The text of a string. -/
def string? : Json → Option String
  | .string text => some text
  | _ => none

/-- The truth value. -/
def bool? : Json → Option Bool
  | .bool flag => some flag
  | _ => none

/-- The elements of an array. -/
def items? : Json → Option (List Json)
  | .array items => some items
  | _ => none

/-- The texts of an array of strings. -/
def strings? (json : Json) : Option (List String) :=
  json.items?.bind fun items => items.mapM string?

/-! ### Equality of data

Two doubles are the same data if they are at the same place in the order, so the two
zeros are; an integer and a double never are. -/

mutual

/-- Whether two values are the same data. -/
def same : Json → Json → Bool
  | .null, .null => true
  | .bool a, .bool b => a == b
  | .int a, .int b => a == b
  | .float a, .float b => a.key == b.key
  | .string a, .string b => a == b
  | .array a, .array b => sameItems a b
  | .object a, .object b => sameFields a b
  | _, _ => false

/-- Whether two lists of values are the same, element by element. -/
def sameItems : List Json → List Json → Bool
  | [], [] => true
  | a :: as, b :: bs => same a b && sameItems as bs
  | _, _ => false

/-- Whether two lists of fields have the same names and the same values. -/
def sameFields : List (String × Json) → List (String × Json) → Bool
  | [], [] => true
  | (k, a) :: as, (l, b) :: bs => k == l && same a b && sameFields as bs
  | _, _ => false

end

end Json

end QueryAccess
