import QueryAccess.Json.Basic

/-!
# Operators

Six operators compare two data values. They rest on one partial comparison,
`QueryAccess.Json.compare?`: values of one scalar kind are ordered – numbers by size,
strings by code points, `false` before `true`, null equal to null – and nothing else is
comparable, arrays and objects not even with themselves.

**Numbers.** Two signed 64-bit integers are compared as integers. As soon as one of the
two is a double, or too large for that, both are compared as the doubles nearest to them,
so large integers that round to one double are then equal.

An operator that wants an order does not hold between incomparable values; `$neq`, the
negation of `$eq`, does.
-/

namespace QueryAccess

namespace Json

/-- Whether an integer is a signed 64-bit one. -/
def isSigned (n : Int) : Bool := -0x8000000000000000 ≤ n && n < 0x8000000000000000

/-- The position of a number among the doubles; nothing for other values. -/
def key? : Json → Option Int
  | .int n => some (Binary64.keyOfInt n)
  | .float x => some x.key
  | _ => none

/-- The order of two numbers; nothing for other values. -/
def compareNumbers? (a b : Json) : Option Ordering :=
  match a, b with
  | .int m, .int n =>
    if isSigned m && isSigned n then some (compare m n)
    else some (compare (Binary64.keyOfInt m) (Binary64.keyOfInt n))
  | a, b => do return compare (← a.key?) (← b.key?)

/-- The order of two values, where they have one. -/
def compare? : Json → Json → Option Ordering
  | .null, .null => some .eq
  | .bool a, .bool b => some (compare a b)
  | .string a, .string b => some (compare a b)
  | a, b => compareNumbers? a b

end Json

/-- A comparison that a condition may ask for. -/
inductive Operator where
  | eq
  | neq
  | gt
  | gte
  | lt
  | lte
deriving DecidableEq, Repr

namespace Operator

/-- All operators. -/
def all : List Operator := [eq, neq, gt, gte, lt, lte]

/-- The key of an operator in a note. -/
def key : Operator → String
  | eq => "$eq"
  | neq => "$neq"
  | gt => "$gt"
  | gte => "$gte"
  | lt => "$lt"
  | lte => "$lte"

/-- The operator with that key. -/
def ofKey? (key : String) : Option Operator := all.find? (·.key == key)

/-- Whether the operator holds between two values. -/
def holds (operator : Operator) (left right : Json) : Bool :=
  match operator, left.compare? right with
  | eq, order => order == some .eq
  | neq, order => order != some .eq
  | gt, order => order == some .gt
  | gte, order => order == some .gt || order == some .eq
  | lt, order => order == some .lt
  | lte, order => order == some .lt || order == some .eq

/-- `$neq` is the negation of `$eq`. -/
theorem holds_neq (left right : Json) : neq.holds left right = !eq.holds left right := rfl

/-- Every operator is found under its key. -/
theorem ofKey?_key (operator : Operator) : ofKey? operator.key = some operator := by
  cases operator <;> decide

end Operator

end QueryAccess
