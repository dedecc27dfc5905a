import QueryAccess.Text.Blank

/-!
# The nesting of a text

Selection sets, lists, objects and list types nest. Before a text is read as a document
its brackets are counted, and a text nested deeper than `QueryAccess.maxDepth` is refused
at the bracket that goes too deep. The count looks at brackets and braces alone, outside
comments and strings (`QueryAccess.Nesting.Region`); a closing one without partner counts
for nothing.

A block string that never ends hides everything after it: such a text cannot be a
document anyway.
-/

namespace QueryAccess

/-- How deep selection sets, lists, objects and list types may nest, and how deep
fragments are expanded. -/
def maxDepth : Nat := 64

namespace Nesting

/-- Where in the text a character stands. -/
inductive Region where
  | code
  | comment
  | quoted
  | block
deriving DecidableEq, Repr

/-- A bracket or brace that opens a level. -/
def isOpening (c : Char) : Bool := c == '[' || c == '\x7b'

/-- A bracket or brace that closes a level. -/
def isClosing (c : Char) : Bool := c == ']' || c == '\x7d'

/-- The text from the first bracket on that opens a level beyond `maxDepth`, scanning a
text that starts in a region at a depth. -/
def tooDeep? : Region → Nat → List Char → Option (List Char)
  | _, _, [] => none
  | .comment, depth, c :: rest =>
    tooDeep? (if Text.isLineEnd c then .code else .comment) depth rest
  -- after a backslash neither a quote nor a line end ends the string
  | .quoted, depth, '\\' :: _ :: rest => tooDeep? .quoted depth rest
  | .quoted, depth, c :: rest =>
    tooDeep? (if c = '"' ∨ Text.isLineEnd c = true then .code else .quoted) depth rest
  | .block, depth, '\\' :: '"' :: '"' :: '"' :: rest => tooDeep? .block depth rest
  | .block, depth, '"' :: '"' :: '"' :: rest => tooDeep? .code depth rest
  | .block, depth, _ :: rest => tooDeep? .block depth rest
  | .code, depth, '#' :: rest => tooDeep? .comment depth rest
  | .code, depth, '"' :: '"' :: '"' :: rest => tooDeep? .block depth rest
  | .code, depth, '"' :: rest => tooDeep? .quoted depth rest
  | .code, depth, c :: rest =>
    if isOpening c then
      if depth < maxDepth then tooDeep? .code (depth + 1) rest else some (c :: rest)
    else if isClosing c then tooDeep? .code (depth - 1) rest
    else tooDeep? .code depth rest

/-- In code, what begins neither a comment nor a string counts if it is a bracket or brace. -/
theorem tooDeep?_code {c : Char} (hcomment : c ≠ '#') (hstring : c ≠ '"') (depth : Nat)
    (rest : List Char) :
    tooDeep? .code depth (c :: rest) =
      if isOpening c then
        if depth < maxDepth then tooDeep? .code (depth + 1) rest else some (c :: rest)
      else if isClosing c then tooDeep? .code (depth - 1) rest
      else tooDeep? .code depth rest := by
  rw [tooDeep?]
  · exact hcomment
  · exact fun _ hc _ => hstring hc
  · exact hstring

end Nesting

end QueryAccess
