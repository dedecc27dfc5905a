import QueryAccess.Numeric.Decimal

/-!
# The shortest decimal of a double

A double is written with the fewest digits that still read back as itself; among several
such decimals the one nearest to it is taken, and of two equally near ones the even one.

`QueryAccess.Binary64.shortest` finds them on the decimal grids `10 ^ k`, from coarse to
fine. On each grid it looks at the value's two neighbours, the multiples of `10 ^ k` next
below and next above; the first grid on which one of them rounds to the value has the
fewest digits. Seventeen digits always suffice, so the number of grids is bounded.

Where the point goes is the decision of a format: `QueryAccess.DecimalLayout` says which
numbers are written positionally, and how an exponent is written.
-/

namespace QueryAccess

namespace Binary64

/-- Whether a decimal rounds to a magnitude. -/
def readsBack (magnitude : Nat) (d : Decimal) : Bool :=
  nearest d.ratio.1 d.ratio.2 == magnitude

/-- A magnitude in steps of the grid `10 ^ k`, as a ratio. -/
def inSteps (magnitude : Nat) (k : Int) : Nat × Nat :=
  let (num, den) := ratio magnitude
  (num * Nat.pow 10 (-k).toNat, den * Nat.pow 10 k.toNat)

/-- The neighbour of a magnitude on the grid `10 ^ k` that reads back: of two, the nearer
one, and in the middle the even one. -/
def neighbour? (magnitude : Nat) (k : Int) : Option Decimal :=
  let (num, den) := inSteps magnitude k
  let below := num / den
  let low : Decimal := ⟨below, k⟩
  let high : Decimal := ⟨below + 1, k⟩
  match readsBack magnitude low, readsBack magnitude high with
  | true, false => some low
  | false, true => some high
  | true, true => some ⟨roundDiv num den, k⟩
  | false, false => none

/-- A grid that is too coarse for the magnitude: its step is above the value. -/
def coarsest (magnitude : Nat) : Int :=
  let (num, den) := ratio magnitude
  let bits : Int := (num.log2 : Int) - (den.log2 : Int) + 1
  (bits * 30103).fdiv 100000 + 1

/-- The first grid with a neighbour that reads back, from `k` downwards. -/
def shortestFrom (magnitude : Nat) : Nat → Int → Decimal
  | 0, k => ⟨(inSteps magnitude k).1 / (inSteps magnitude k).2, k⟩
  | grids + 1, k =>
    match neighbour? magnitude k with
    | some d => d
    | none => shortestFrom magnitude grids (k - 1)

/-- The decimal with the fewest digits that reads back as a magnitude other than zero. -/
def shortest (magnitude : Nat) : Decimal := shortestFrom magnitude 21 (coarsest magnitude)

end Binary64

/-- How a format writes the digits of a double. With the point before all digits when the
*point position* is `0`, and after the first when it is `1`, a number is positional if its
point position lies in `lowest … highest`. Any other has one digit before the point and an
exponent. -/
structure DecimalLayout where
  lowest : Int
  highest : Int
  /-- What stands between the digits and a non-negative exponent. -/
  mark : List Char
  /-- What stands between the digits and the digits of a negative exponent. -/
  negativeMark : List Char

namespace DecimalLayout

/-- The digits of a decimal, laid out; `.0` follows if there is no fraction. -/
def write (layout : DecimalLayout) (d : Decimal) : List Char :=
  let digits := Nat.toDigits 10 d.coefficient
  -- how many of the digits stand before the point; negative for zeros after it
  let point : Int := digits.length + d.exponent
  if layout.lowest ≤ point ∧ point ≤ layout.highest then
    if point ≤ 0 then ['0', '.'] ++ List.replicate (-point).toNat '0' ++ digits
    else if 0 ≤ d.exponent then digits ++ List.replicate d.exponent.toNat '0' ++ ['.', '0']
    else digits.take point.toNat ++ ['.'] ++ digits.drop point.toNat
  else
    let head := match digits with
      | first :: second :: rest => first :: '.' :: second :: rest
      | digits => digits
    if 0 < point then head ++ layout.mark ++ Nat.toDigits 10 (point - 1).toNat
    else head ++ layout.negativeMark ++ Nat.toDigits 10 (1 - point).toNat

/-- A double, laid out. -/
def writeBinary64 (layout : DecimalLayout) (x : Binary64) : List Char :=
  (if x.negative then ['-'] else []) ++
    if x.magnitude = 0 then ['0', '.', '0'] else layout.write (Binary64.shortest x.magnitude)

end DecimalLayout

end QueryAccess
