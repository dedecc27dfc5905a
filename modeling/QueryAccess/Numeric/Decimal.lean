import QueryAccess.Numeric.Binary64

/-!
# Decimal numbers

A decimal is a natural coefficient times a power of ten. Two readings of it as a double
are in use, and they differ in the last bit:

* `QueryAccess.Decimal.nearest?` rounds the exact value once;
* `QueryAccess.Decimal.scaled?` works in double arithmetic: the coefficient becomes a
  double first, and is then multiplied or divided by the double nearest to the power of
  ten. Each step rounds.

The decimal notation of a literal – sign, digits, a fraction, an exponent – is read by
`QueryAccess.Decimal.ofText`.
-/

namespace QueryAccess

/-- The number `coefficient * 10 ^ exponent`. -/
structure Decimal where
  coefficient : Nat
  exponent : Int
deriving DecidableEq, Repr

namespace Decimal

/-- The value of a decimal as a ratio. -/
def ratio (d : Decimal) : Nat × Nat :=
  (d.coefficient * Nat.pow 10 d.exponent.toNat, Nat.pow 10 (-d.exponent).toNat)

/-! ### Rounding once -/

/-- The double nearest to a decimal of the given sign; none beyond the finite ones. An
exponent so large that any digit overflows, or so small that none survives, is settled
without raising ten to it. -/
def nearest? (negative : Bool) (d : Decimal) : Option Binary64 :=
  if d.coefficient = 0 then some (Binary64.zero negative)
  else if 400 < d.exponent then none
  else if d.exponent < -(400 + d.coefficient.log2 : Int) then some (Binary64.zero negative)
  else Binary64.ofRatio? negative d.ratio.1 d.ratio.2

/-! ### Scaling in double arithmetic -/

/-- The largest power of ten with a finite double. -/
def largestPower : Nat := 308

/-- The magnitude of the double nearest to a power of ten. -/
def power (n : Nat) : Nat := Binary64.nearest (Nat.pow 10 n) 1

/-- A magnitude divided by a power of ten, in steps of the largest one. -/
def scaleDown (magnitude n : Nat) : Nat :=
  if magnitude = 0 then 0
  else if n ≤ largestPower then Binary64.quotient magnitude (power n)
  else scaleDown (Binary64.quotient magnitude (power largestPower)) (n - largestPower)
termination_by n
decreasing_by simp only [largestPower] at *; omega

/-- The double of that sign that scaling in double arithmetic gives; none if it is not
finite. -/
def scaled? (negative : Bool) (d : Decimal) : Option Binary64 :=
  let start := Binary64.nearest d.coefficient 1
  -- upwards there is one step at most, since two would overflow
  if 0 ≤ d.exponent then
    if start = 0 then some (Binary64.zero negative)
    else if d.exponent ≤ largestPower then
      Binary64.ofMagnitude? negative (Binary64.product start (power d.exponent.toNat))
    else none
  else Binary64.ofMagnitude? negative (scaleDown start (-d.exponent).toNat)

/-! ### Reading the notation of a literal -/

/-- The sign, if it is a minus, and the rest. -/
def splitSign : List Char → Bool × List Char
  | '-' :: rest => (true, rest)
  | '+' :: rest => (false, rest)
  | rest => (false, rest)

/-- The fraction digits after a point, and the rest. -/
def splitFraction : List Char → List Char × List Char
  | '.' :: rest => (rest.takeWhile Char.isDigit, rest.dropWhile Char.isDigit)
  | rest => ([], rest)

/-- The exponent after its mark, and `0` without one. -/
def exponentOf : List Char → Int
  | c :: rest =>
    if c = 'e' ∨ c = 'E' then
      let (negative, digits) := splitSign rest
      let size : Int := Nat.ofDigitChars 10 (digits.takeWhile Char.isDigit) 0
      if negative then -size else size
    else 0
  | [] => 0

/-- Whether a literal is negative, and the decimal it writes. -/
def ofText (text : List Char) : Bool × Decimal :=
  let (negative, text) := splitSign text
  let whole := text.takeWhile Char.isDigit
  let (fraction, rest) := splitFraction (text.dropWhile Char.isDigit)
  (negative, ⟨Nat.ofDigitChars 10 (whole ++ fraction) 0, exponentOf rest - fraction.length⟩)

end Decimal

end QueryAccess
