import QueryAccess.Json.Basic
import QueryAccess.Numeric.Decimal
import QueryAccess.Text.Parser
import QueryAccess.Text.Quoted

/-!
# Reading data values

The strict JSON grammar: four blank characters, no control characters inside strings, no
digits before a leading zero, nothing after the value. Arrays and objects may be nested
up to a given number of levels; `QueryAccess.Json.ofText?` allows
`QueryAccess.Json.maxLevels` of them.

**Numbers.** Without fraction and exponent, a number in the range of the 64-bit integers
is an integer; `-0` is not, it is the negative zero. Every other number is a double. Its
digits are gathered into a 64-bit coefficient – a further fraction digit that does not
fit is dropped, a further whole digit only raises the exponent – and the coefficient is
scaled in double arithmetic (`QueryAccess.Decimal.scaled?`). A number beyond the finite
doubles is refused.
-/

namespace QueryAccess.Json

namespace Reader

open QueryAccess.Parser

/-- The blank characters between tokens. -/
def isSpace (c : Char) : Bool := c == ' ' || c == '\t' || c == '\n' || c == '\r'

/-- Skips blank characters. -/
def space : Parser Unit := do
  let _ ← run isSpace
  return ()

/-! ### Strings -/

/-- Inside a string every character but the control characters may stand for itself. -/
def admits (c : Char) : Bool := 0x20 ≤ c.toNat

/-- A string with its quotes. -/
def quoted : Parser String := fun text =>
  match text with
  | '"' :: inside =>
    match Text.unquote? admits inside with
    | some (decoded, rest) => .ok (String.ofList decoded, rest)
    | none => .error text
  | _ => .error text

/-! ### Numbers -/

/-- The least coefficient that does not fit. -/
def coefficientBound : Nat := 0x10000000000000000

/-- Gathers whole digits: the coefficient, and how many further digits were left out of
it once one did not fit. -/
def gatherWhole (coefficient : Nat) : List Char → Nat × Nat
  | [] => (coefficient, 0)
  | c :: rest =>
    let next := coefficient * 10 + (c.toNat - 0x30)
    if next < coefficientBound then gatherWhole next rest else (coefficient, rest.length + 1)

/-- Gathers fraction digits: the coefficient, and how many of them it took in before one
did not fit. -/
def gatherFraction (coefficient : Nat) : List Char → Nat × Nat
  | [] => (coefficient, 0)
  | c :: rest =>
    let next := coefficient * 10 + (c.toNat - 0x30)
    if next < coefficientBound then
      let (total, taken) := gatherFraction next rest
      (total, taken + 1)
    else (coefficient, 0)

/-- The digits before the point: a single zero, or a run that starts with another digit. -/
def wholeDigits : Parser (List Char) := do
  let c ← satisfy Char.isDigit
  if c = '0' then return [c] else return c :: (← run Char.isDigit)

/-- The digits after the point. -/
def fractionDigits : Parser (List Char) := do
  let _ ← char '.'
  run1 Char.isDigit

/-- The exponent after its mark. -/
def exponent : Parser Int := do
  let _ ← satisfy fun c => c == 'e' || c == 'E'
  let sign ← opt (satisfy fun c => c == '+' || c == '-')
  let digits ← run1 Char.isDigit
  let size : Int := Nat.ofDigitChars 10 digits 0
  return if sign = some '-' then -size else size

/-- The number with these parts, if it is finite. -/
def numberOf (negative : Bool) (whole : List Char) (fraction : Option (List Char))
    (exponent : Option Int) : Option Json :=
  let (coefficient, dropped) := gatherWhole 0 whole
  if fraction.isNone ∧ exponent.isNone ∧ dropped = 0 ∧ ¬(negative ∧ coefficient = 0) ∧
      (negative → coefficient ≤ 0x8000000000000000) then
    some (.int (if negative then -(coefficient : Int) else coefficient))
  else
    -- a whole digit left out raises the exponent, a fraction digit taken in lowers it
    let (coefficient, taken) := gatherFraction coefficient (fraction.getD [])
    let shift : Int := (dropped : Int) - taken + exponent.getD 0
    (Decimal.scaled? negative ⟨coefficient, shift⟩).map .float

/-- A number. What a point or an exponent mark without digits leaves unread cannot follow
a value, so it need not be refused here. -/
def number : Parser Json := do
  let minus ← opt (char '-')
  let whole ← wholeDigits
  let fraction ← opt fractionDigits
  let power ← opt exponent
  match numberOf minus.isSome whole fraction power with
  | some json => return json
  | none => fail

/-! ### Values -/

/-- A value that is not nested. -/
def scalar : Parser Json :=
  (do word "null".toList; return .null) <|>
  (do word "true".toList; return .bool true) <|>
  (do word "false".toList; return .bool false) <|>
  (Json.string <$> quoted) <|>
  number

/-- Items with commas between them. -/
def commaSeparated {α : Type} (item : Parser α) : Parser (List α) := do
  let first ← item
  space
  let rest ← many do
    let _ ← char ','
    let next ← item
    space
    return next
  return first :: rest

/-- Items between brackets, possibly none. -/
def bracketed {α : Type} (opening : Char) (item : Parser α) (closing : Char) :
    Parser (List α) := do
  let _ ← char opening
  space
  let items ← opt (commaSeparated item)
  let _ ← char closing
  return items.getD []

/-- A field of an object, its value read by `value`. -/
def namedField (value : Parser Json) : Parser (String × Json) := do
  space
  let name ← quoted
  space
  let _ ← char ':'
  return (name, ← value)

/-- The fields of an object in the order of the text, with repetitions. -/
def fields (value : Parser Json) : Parser (List (String × Json)) :=
  bracketed '\x7b' (namedField value) '\x7d'

/-- A value after blank characters, given a parser of the values in it. -/
def valueOver (inner : Parser Json) : Parser Json := do
  space
  -- the first character settles the kind, so no second reading of a nested value succeeds
  (Json.array <$> bracketed '[' inner ']') <|>
  (ofFields <$> fields inner) <|>
  scalar

/-- A value with at most so many levels of arrays and objects, after blank characters. -/
def value : Nat → Parser Json
  | 0 => do
    space
    scalar
  | levels + 1 => fun text => valueOver (value levels) text

end Reader

/-- How many levels of arrays and objects a text may have. -/
def maxLevels : Nat := 127

/-- What a parser reads off a whole text, up to blank characters at its end. -/
def whole? {α : Type} (p : Parser α) (text : List Char) : Option α :=
  match p text with
  | .ok (a, rest) => if rest.all Reader.isSpace then some a else none
  | .error _ => none

/-- The value that a whole text writes with at most so many levels, if it is one. -/
def ofTextWithin? (levels : Nat) (text : List Char) : Option Json :=
  whole? (Reader.value levels) text

/-- The value that a whole text writes, if it is one. -/
def ofText? (text : List Char) : Option Json := ofTextWithin? maxLevels text

/-- The fields of the object that a whole text writes, in the order of the text and with
repetitions. -/
def fieldsOfText? (text : List Char) : Option (List (String × Json)) :=
  whole? (do Reader.space; Reader.fields (Reader.value (maxLevels - 1))) text

end QueryAccess.Json
