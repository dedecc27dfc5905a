/-!
# Finite binary64 numbers

The finite IEEE doubles, in exact natural-number arithmetic. A number is its sign and its
*magnitude* – the sixty-three bits below the sign bit, read as one natural number. The
magnitude is strictly increasing in the absolute value, so the order of doubles is the
order of an integer, `QueryAccess.Binary64.key`; both zeros have key `0`.

**Rounding.** `QueryAccess.Binary64.nearest` gives the magnitude nearest to a ratio of
natural numbers, with a tie going to the even significand. It first finds the last place:
the exponent at which the ratio has fifty-three binary digits before the point, but never
below the subnormal one. It may answer a magnitude of `QueryAccess.Binary64.infinite` or
more: then the ratio is beyond the largest finite number, and
`QueryAccess.Binary64.ofRatio?` has no answer.

**Arithmetic.** `QueryAccess.Binary64.product` and `QueryAccess.Binary64.quotient` round
the exact product and quotient of two magnitudes once.
-/

namespace QueryAccess

/-- The least magnitude that is no longer a finite number. -/
def Binary64.infinite : Nat := 0x7FF0000000000000

/-- A finite double: its sign, and the bits below the sign bit as a natural number. -/
structure Binary64 where
  negative : Bool
  magnitude : Nat
  finite : magnitude < Binary64.infinite
deriving DecidableEq

namespace Binary64

/-- The number of that sign and magnitude, unless the magnitude is not finite. -/
def ofMagnitude? (negative : Bool) (magnitude : Nat) : Option Binary64 :=
  if finite : magnitude < infinite then some ⟨negative, magnitude, finite⟩ else none

/-- The zero of that sign. -/
def zero (negative : Bool) : Binary64 := ⟨negative, 0, by decide⟩

/-- The sixty-four bits as a natural number, sign first. -/
def bits (x : Binary64) : Nat := (if x.negative then 0x8000000000000000 else 0) + x.magnitude

/-- The position of a number in the order of the doubles. -/
def key (x : Binary64) : Int := if x.negative then -(x.magnitude : Int) else x.magnitude

/-! ### Significand and exponent

The fraction of a magnitude has fifty-two bits. Above it stands the exponent, which is
zero in a subnormal number. -/

/-- The value of the bit just above the fraction. -/
def hiddenBit : Nat := 0x10000000000000

/-- The integral significand of a magnitude, with the hidden bit of a normal number. -/
def significand (magnitude : Nat) : Nat :=
  if magnitude < hiddenBit then magnitude else hiddenBit + magnitude % hiddenBit

/-- The exponent of the last place of a magnitude: its value is the significand times two
to this power. -/
def exponent (magnitude : Nat) : Int :=
  if magnitude < hiddenBit then -1074 else (magnitude / hiddenBit : Nat) - 1075

/-- The value of a magnitude as a ratio. -/
def ratio (magnitude : Nat) : Nat × Nat :=
  (significand magnitude <<< (exponent magnitude).toNat, 1 <<< (-exponent magnitude).toNat)

/-! ### Rounding -/

/-- The integer nearest to a ratio, a tie going to the even one. -/
def roundDiv (num den : Nat) : Nat :=
  let whole := num / den
  let twice := 2 * (num % den)
  if twice < den then whole
  else if den < twice then whole + 1
  else whole + whole % 2

/-- The exponent of the last place to which a positive ratio is rounded. -/
def lastPlace (num den : Nat) : Int :=
  let guess : Int := (num.log2 : Int) - (den.log2 : Int) - 52
  -- the lengths of the two numbers leave the guess right or one too large
  let place :=
    if num <<< (-guess).toNat < (den <<< guess.toNat) * hiddenBit then guess - 1 else guess
  max place (-1074)

/-- The magnitude nearest to the ratio `num / den`; it is not finite when the ratio
rounds beyond the largest finite number. -/
def nearest (num den : Nat) : Nat :=
  if num = 0 then 0
  else
    let place := lastPlace num den
    -- a significand that rounds up to a power of two carries into the exponent
    (place + 1074).toNat * hiddenBit + roundDiv (num <<< (-place).toNat) (den <<< place.toNat)

/-- The double nearest to a ratio of the given sign, if it is finite. -/
def ofRatio? (negative : Bool) (num den : Nat) : Option Binary64 :=
  ofMagnitude? negative (nearest num den)

/-- The position of the double nearest to an integer, finite or not. -/
def keyOfInt (n : Int) : Int :=
  if n < 0 then -(nearest n.natAbs 1 : Int) else nearest n.natAbs 1

/-! ### Arithmetic on magnitudes -/

/-- The magnitude of the product of two magnitudes. -/
def product (x y : Nat) : Nat :=
  let (a, b) := ratio x
  let (c, d) := ratio y
  nearest (a * c) (b * d)

/-- The magnitude of the quotient of two magnitudes, the second not zero. -/
def quotient (x y : Nat) : Nat :=
  let (a, b) := ratio x
  let (c, d) := ratio y
  nearest (a * d) (b * c)

end Binary64

end QueryAccess
