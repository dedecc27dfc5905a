/-!
# Blank characters

The characters that separate words without being part of one: the twenty-five code
points with the Unicode property `White_Space`. Core's `Char.isWhitespace` knows the
ASCII ones only – and of these not the vertical tab and the form feed – so the property
is a table here, `QueryAccess.Text.blankRanges`, and `QueryAccess.Text.isBlank` looks a
character up in it.

Trimming is by this property, at the end (`QueryAccess.Text.trimEnd`) or at both ends
(`QueryAccess.Text.trim`).
-/

namespace QueryAccess.Text

/-- The code points with the property `White_Space`, as closed ranges in ascending
order. -/
def blankRanges : List (Nat × Nat) :=
  [(0x9, 0xD), (0x20, 0x20), (0x85, 0x85), (0xA0, 0xA0), (0x1680, 0x1680),
   (0x2000, 0x200A), (0x2028, 0x2029), (0x202F, 0x202F), (0x205F, 0x205F),
   (0x3000, 0x3000)]

/-- A character is blank if it has the property `White_Space`. -/
def isBlank (c : Char) : Bool :=
  blankRanges.any fun range => range.1 ≤ c.toNat && c.toNat ≤ range.2

/-- A text is blank if all its characters are; the empty text is. -/
def isBlankText (text : List Char) : Bool := text.all isBlank

/-- The text without the blank characters at its end. -/
def trimEnd (text : List Char) : List Char := (text.reverse.dropWhile isBlank).reverse

/-- The text without the blank characters at its two ends. -/
def trim (text : List Char) : List Char := trimEnd (text.dropWhile isBlank)

/-- A character ends a line if it is a line feed or a carriage return. -/
def isLineEnd (c : Char) : Bool := c == '\n' || c == '\r'

/-- The text cut at every occurrence of a separator: one more part than there are
separators, so the empty text has one empty part. -/
def splitOn (separator : Char) : List Char → List (List Char)
  | [] => [[]]
  | c :: rest =>
    if c = separator then [] :: splitOn separator rest
    else
      match splitOn separator rest with
      | [] => [[c]]
      | part :: parts => (c :: part) :: parts

/-- Cutting never gives the empty list of parts. -/
theorem splitOn_ne_nil (separator : Char) (text : List Char) :
    splitOn separator text ≠ [] := by
  cases text with
  | nil => simp [splitOn]
  | cons c rest =>
    unfold splitOn
    split
    · simp
    · split <;> simp

end QueryAccess.Text
