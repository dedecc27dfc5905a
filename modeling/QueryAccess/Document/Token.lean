import QueryAccess.Text.Blank
import QueryAccess.Text.Parser

/-!
# Tokens of a document

Between the tokens of a document stands an ignored run: blank characters, commas, byte
order marks and comments. A comment reaches from `#` to the end of the line. Most of the
run means nothing, but the *last* comment of it may belong to what follows, so
`QueryAccess.Token.ignored` answers that.

A token reader that skips the run before its token (`QueryAccess.Token.mark`,
`QueryAccess.Token.tokenName`) fails where the token should stand, after the run.
-/

namespace QueryAccess.Token

open QueryAccess.Parser

/-- The characters that mean nothing between tokens, `#` apart. -/
def isIgnored (c : Char) : Bool := Text.isBlank c || c == ',' || c == '\ufeff'

/-- Skips an ignored run. `last` is the last comment so far, and `inside` the comment
being read, reversed. -/
def skip (last inside : Option (List Char)) : List Char → Option (List Char) × List Char
  | [] => (inside.map List.reverse <|> last, [])
  | c :: rest =>
    match inside with
    | some comment =>
      if Text.isLineEnd c then skip (some comment.reverse) none rest
      else skip last (some (c :: comment)) rest
    | none =>
      if c = '#' then skip last (some []) rest
      else if isIgnored c then skip last none rest
      else (last, c :: rest)

/-- An ignored run; its value is the last comment in it, trimmed. -/
def ignored : Parser (Option String) := fun text =>
  let (comment, rest) := skip none none text
  .ok (comment.map fun comment => String.ofList (Text.trim comment), rest)

/-- A punctuation mark after an ignored run. -/
def mark (c : Char) : Parser Char := do
  let _ ← ignored
  char c

/-- A letter or underscore. -/
def isNameStart (c : Char) : Bool := c.isAlpha || c == '_'

/-- A letter, digit or underscore. -/
def isNamePart (c : Char) : Bool := c.isAlphanum || c == '_'

/-- A name, on the spot. -/
def name : Parser String := do
  let first ← satisfy isNameStart
  let rest ← run isNamePart
  return String.ofList (first :: rest)

/-- A name after an ignored run. -/
def tokenName : Parser String := do
  let _ ← ignored
  name

/-- One given name after an ignored run; another one fails before the run. -/
def keyword (wanted : String) : Parser String := guarded tokenName (· == wanted)

end QueryAccess.Token
