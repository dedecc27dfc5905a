/-!
# Quoted text

The inside of a text in double quotes, with backslash escapes: eight short escapes
(`QueryAccess.Text.shortEscape?`), and `\u` with four hexadecimal digits for a UTF-16
unit. A character above U+FFFF is written as a surrogate pair of two such units; a
surrogate without its partner stands for nothing, and is refused.

Which characters may stand for themselves differs from format to format, so
`QueryAccess.Text.unquote?` takes the class as an argument. The quote and the backslash
never stand for themselves.
-/

namespace QueryAccess.Text

/-- The value of a hexadecimal digit, of either case. -/
def hexDigit? (c : Char) : Option Nat :=
  if '0' ≤ c ∧ c ≤ '9' then some (c.toNat - 0x30)
  else if 'a' ≤ c ∧ c ≤ 'f' then some (c.toNat - 0x57)
  else if 'A' ≤ c ∧ c ≤ 'F' then some (c.toNat - 0x37)
  else none

/-- The UTF-16 unit written by four hexadecimal digits. -/
def unit? (a b c d : Char) : Option Nat := do
  let a ← hexDigit? a
  let b ← hexDigit? b
  let c ← hexDigit? c
  let d ← hexDigit? d
  return ((a * 16 + b) * 16 + c) * 16 + d

/-- A unit that opens a surrogate pair. -/
def isHighSurrogate (unit : Nat) : Bool := 0xD800 ≤ unit && unit < 0xDC00

/-- A unit that closes a surrogate pair. -/
def isLowSurrogate (unit : Nat) : Bool := 0xDC00 ≤ unit && unit < 0xE000

/-- The character of a surrogate pair. -/
def ofSurrogates (high low : Nat) : Char :=
  Char.ofNat (0x10000 + (high - 0xD800) * 0x400 + (low - 0xDC00))

/-- The character that a backslash and one letter stand for. -/
def shortEscape? : Char → Option Char
  | '"' => some '"'
  | '\\' => some '\\'
  | '/' => some '/'
  | 'b' => some '\x08'
  | 'f' => some '\x0c'
  | 'n' => some '\n'
  | 'r' => some '\r'
  | 't' => some '\t'
  | _ => none

/-- One more character before a decoded text. -/
def consTo (c : Char) (decoded : Option (List Char × List Char)) :
    Option (List Char × List Char) :=
  decoded.map fun result => (c :: result.1, result.2)

/-- Decodes what follows an opening quote, up to the closing one: the text, and what is
left after the closing quote. The characters of the class `admits` stand for themselves. -/
def unquote? (admits : Char → Bool) : List Char → Option (List Char × List Char)
  | [] => none
  | '"' :: rest => some ([], rest)
  | '\\' :: 'u' :: a :: b :: c :: d :: rest =>
    match unit? a b c d with
    | none => none
    | some unit =>
      if isHighSurrogate unit then
        -- the partner has to follow at once
        match rest with
        | '\\' :: 'u' :: e :: f :: g :: h :: rest =>
          match unit? e f g h with
          | none => none
          | some low =>
            if isLowSurrogate low then consTo (ofSurrogates unit low) (unquote? admits rest)
            else none
        | _ => none
      else if isLowSurrogate unit then none
      else consTo (Char.ofNat unit) (unquote? admits rest)
  | '\\' :: c :: rest =>
    match shortEscape? c with
    | none => none
    | some meant => consTo meant (unquote? admits rest)
  | c :: rest =>
    if c ≠ '\\' ∧ admits c = true then consTo c (unquote? admits rest) else none

end QueryAccess.Text
