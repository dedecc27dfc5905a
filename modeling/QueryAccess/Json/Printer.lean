import QueryAccess.Json.Basic
import QueryAccess.Numeric.Shortest

/-!
# Writing data values

The text of a data value, in two forms: compact, with no blank character that is not part
of a string (`QueryAccess.Json.compact`), and spread over lines with an indent of two
blanks a level (`QueryAccess.Json.pretty`). Objects are written in the order of their
keys.

In a string the quote, the backslash and the control characters below U+0020 are escaped,
by a short escape where there is one, and every other character stands for itself.
Integers are plain. Doubles have the fewest digits that read back, and are positional
from 10⁻⁵ to below 10¹⁶ (`QueryAccess.Json.numberLayout`).
-/

namespace QueryAccess.Json

/-- Doubles are positional if their first digit stands at most five places after the
point and at most sixteen before it; an exponent has its sign and no leading zeros. -/
def numberLayout : DecimalLayout := ⟨-4, 16, ['e', '+'], ['e', '-']⟩

/-- The character for a hexadecimal digit. -/
def hexDigit (n : Nat) : Char := Nat.digitChar n

/-- A character as it stands inside a string. -/
def escaped (c : Char) : List Char :=
  if c = '"' then ['\\', '"']
  else if c = '\\' then ['\\', '\\']
  else if c = '\n' then ['\\', 'n']
  else if c = '\r' then ['\\', 'r']
  else if c = '\t' then ['\\', 't']
  else if c = '\x08' then ['\\', 'b']
  else if c = '\x0c' then ['\\', 'f']
  else if c.toNat < 0x20 then
    ['\\', 'u', '0', '0', hexDigit (c.toNat / 16), hexDigit (c.toNat % 16)]
  else [c]

/-- A text in quotes, its characters escaped. -/
def writeString (text : String) : List Char := '"' :: text.toList.flatMap escaped ++ ['"']

/-- The decimal digits of an integer, after a minus if it is negative. -/
def writeInt (n : Int) : List Char :=
  (if n < 0 then ['-'] else []) ++ Nat.toDigits 10 n.natAbs

/-- A value that is not nested; nothing for arrays and objects. -/
def writeScalar : Json → List Char
  | .null => ['n', 'u', 'l', 'l']
  | .bool true => ['t', 'r', 'u', 'e']
  | .bool false => ['f', 'a', 'l', 's', 'e']
  | .int n => writeInt n
  | .float x => numberLayout.writeBinary64 x
  | .string text => writeString text
  | .array _ => []
  | .object _ => []

/-! ### The compact form -/

mutual

/-- A value, compact. -/
def writeCompact : Json → List Char
  | .array items => '[' :: writeCompactItems items ++ [']']
  | .object fields => '\x7b' :: writeCompactFields fields ++ ['\x7d']
  | json => writeScalar json

/-- Values with commas between them. -/
def writeCompactItems : List Json → List Char
  | [] => []
  | [item] => writeCompact item
  | item :: rest => writeCompact item ++ ',' :: writeCompactItems rest

/-- Fields with commas between them. -/
def writeCompactFields : List (String × Json) → List Char
  | [] => []
  | [(name, value)] => writeString name ++ ':' :: writeCompact value
  | (name, value) :: rest =>
    writeString name ++ ':' :: writeCompact value ++ ',' :: writeCompactFields rest

end

/-- The compact text of a value. -/
def compact (json : Json) : String := String.ofList (writeCompact json)

/-! ### The form spread over lines -/

/-- A line break and the indent of a level. -/
def newLine (level : Nat) : List Char := '\n' :: List.replicate (2 * level) ' '

mutual

/-- A value at a level, spread over lines; empty arrays and objects stay closed. -/
def writePretty (level : Nat) : Json → List Char
  | .array [] => ['[', ']']
  | .array items => '[' :: writePrettyItems (level + 1) items ++ newLine level ++ [']']
  | .object [] => ['\x7b', '\x7d']
  | .object fields =>
    '\x7b' :: writePrettyFields (level + 1) fields ++ newLine level ++ ['\x7d']
  | json => writeScalar json

/-- Values on lines of their own, with commas between them. -/
def writePrettyItems (level : Nat) : List Json → List Char
  | [] => []
  | [item] => newLine level ++ writePretty level item
  | item :: rest => newLine level ++ writePretty level item ++ ',' :: writePrettyItems level rest

/-- Fields on lines of their own, with commas between them. -/
def writePrettyFields (level : Nat) : List (String × Json) → List Char
  | [] => []
  | [(name, value)] => newLine level ++ writeString name ++ ':' :: ' ' :: writePretty level value
  | (name, value) :: rest =>
    newLine level ++ writeString name ++ ':' :: ' ' :: writePretty level value ++
      ',' :: writePrettyFields level rest

end

/-- The text of a value, spread over lines. -/
def pretty (json : Json) : String := String.ofList (writePretty 0 json)

end QueryAccess.Json
