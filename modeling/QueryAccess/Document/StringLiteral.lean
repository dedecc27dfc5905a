import QueryAccess.Text.Blank
import QueryAccess.Text.Parser
import QueryAccess.Text.Quoted

/-!
# String literals

A document has two forms of string. Between single quotes every character but a line end
may stand for itself, and escapes are those of `QueryAccess.Text.unquote?`. Between
triple quotes – a block string – everything stands for itself but `\"""`, which is three
quotes, and the text is then laid out anew:

* the lines after the first lose the indent that those of them that are not blank have in
  common;
* blank lines at the beginning and at the end are dropped;
* what is left is joined by line feeds.

The common indent is measured in bytes of the encoding. Where it is taken off a line of
blanks and tabs that makes no difference; a blank line too short for it, or cut in the
middle of a character, becomes empty.
-/

namespace QueryAccess.StringLiteral

open Text

/-! ### Block strings -/

/-- What a block string holds after its opening quotes, and what is left after the
closing ones. -/
def blockContent? : List Char → Option (List Char × List Char)
  | [] => none
  -- only in front of three quotes is a backslash more than itself
  | '\\' :: '"' :: '"' :: '"' :: rest =>
    consTo '"' (consTo '"' (consTo '"' (blockContent? rest)))
  | '"' :: '"' :: '"' :: rest => some ([], rest)
  | c :: rest => consTo c (blockContent? rest)

/-- The lines of a text: each ends with a line feed, or a carriage return and a line
feed; the last may end with the text. -/
def lines : List Char → List (List Char)
  | [] => []
  | '\r' :: '\n' :: rest => [] :: lines rest
  | '\n' :: rest => [] :: lines rest
  | c :: rest =>
    match lines rest with
    | [] => [[c]]
    | line :: more => (c :: line) :: more

/-- The characters that indent a line. -/
def isIndent (c : Char) : Bool := c == ' ' || c == '\t'

/-- The indent of a line. -/
def indentOf (line : List Char) : Nat := (line.takeWhile isIndent).length

/-- The indent that the lines that are not blank have in common, `0` if all are blank. -/
def commonIndent (lines : List (List Char)) : Nat :=
  (((lines.filter fun line => !isBlankText line).map indentOf).min?).getD 0

/-- The line without its first bytes; empty if it has not so many, or if a character
reaches across the cut. -/
def dropBytes : Nat → List Char → List Char
  | 0, line => line
  | _ + 1, [] => []
  | bytes + 1, c :: line =>
    if c.utf8Size ≤ bytes + 1 then dropBytes (bytes + 1 - c.utf8Size) line else []

/-- The lines without the common indent of all but the first. -/
def unindent : List (List Char) → List (List Char)
  | [] => []
  | first :: rest => first :: rest.map (dropBytes (commonIndent rest))

/-- The lines without the blank ones at the beginning and at the end. -/
def dropBlankEnds (lines : List (List Char)) : List (List Char) :=
  ((lines.dropWhile isBlankText).reverse.dropWhile isBlankText).reverse

/-- Lines with a line feed between them. -/
def joinLines (lines : List (List Char)) : List Char := List.intercalate ['\n'] lines

/-- The layout of a block string's content. -/
def layout (content : List Char) : List Char :=
  joinLines (dropBlankEnds (unindent (lines content)))

/-! ### Literals -/

/-- Between single quotes everything but a line end may stand for itself. -/
def admits (c : Char) : Bool := !isLineEnd c

/-- The text that a literal at the front of a text writes, and what follows it. -/
def read? : List Char → Option (List Char × List Char)
  | '"' :: '"' :: '"' :: rest =>
    (blockContent? rest).map fun (content, rest) => (layout content, rest)
  | '"' :: rest => unquote? admits rest
  | _ => none

/-- A string literal; on failure the place is its opening quote. -/
def parser : Parser String := fun text =>
  match read? text with
  | some (decoded, rest) => .ok (String.ofList decoded, rest)
  | none => .error text

end QueryAccess.StringLiteral
