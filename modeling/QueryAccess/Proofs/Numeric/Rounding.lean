import Mathlib.Data.Int.Log
import Mathlib.Data.Rat.Floor
import QueryAccess.Numeric.Decimal

/-!
# Rounding what needs no rounding

Rounding a ratio to a double finds the last place first, from the lengths of the two numbers
in binary. What the last place *is* does not depend on how the ratio is written:
`QueryAccess.Binary64.lastPlace_eq` gives it by the binary logarithm of the ratio, with the
subnormal exponent as its floor.

What is left is to round to an integer, in steps of the last place, and
`QueryAccess.Binary64.lt_roundDiv_iff` says which integers are below the rounded one.

So a ratio whose value is that of a magnitude is rounded to that magnitude, however it is
written (`QueryAccess.Binary64.nearest_of_value`). In particular every double is read back
from its exact decimal, which has as many fraction digits as the double has bits after the
point (`QueryAccess.Binary64.nearest?_exact`).
-/

namespace QueryAccess.Binary64

/-- **The value of a magnitude**: its significand, times two to its exponent. -/
def value (magnitude : Nat) : ℚ := significand magnitude * (2 : ℚ) ^ exponent magnitude

/-! ### Shifts as powers of two -/

theorem zpow_eq_div (z : ℤ) : (2 : ℚ) ^ z = 2 ^ z.toNat / 2 ^ (-z).toNat := by
  obtain ⟨n, rfl | rfl⟩ := Int.eq_nat_or_neg z
  · simp
  · simp

/-- Shifting one of two numbers by an exponent compares their ratio with a power of two. -/
theorem shift_lt_iff (a : Nat) {b : Nat} (hb : 0 < b) (z : ℤ) :
    a <<< (-z).toNat < (b <<< z.toNat) * hiddenBit ↔ (a : ℚ) / b < 2 ^ (z + 52) := by
  have hbpos : (0 : ℚ) < b := by exact_mod_cast hb
  have hpow : (0 : ℚ) < 2 ^ (-z).toNat := by positivity
  have hsplit : (2 : ℚ) ^ (z + 52) = 2 ^ z.toNat * hiddenBit / 2 ^ (-z).toNat := by
    rw [zpow_add₀ two_ne_zero, zpow_eq_div z, hiddenBit]
    norm_num
    ring
  rw [hsplit, div_lt_div_iff₀ hbpos hpow, Nat.shiftLeft_eq, Nat.shiftLeft_eq,
    ← Nat.cast_lt (α := ℚ)]
  push_cast
  rw [mul_right_comm, mul_comm (b : ℚ)]
  constructor <;> intro h <;> linarith

/-! ### The last place -/

/-- The lengths of two numbers in binary leave one guess for the logarithm of their ratio, or
the one before it. -/
theorem log_ratio {num den : Nat} (hnum : 0 < num) (hden : 0 < den) :
    (num.log2 : ℤ) - den.log2 - 1 ≤ Int.log 2 ((num : ℚ) / den) ∧
      Int.log 2 ((num : ℚ) / den) < num.log2 - den.log2 + 1 := by
  have hnumpos : (0 : ℚ) < num := by exact_mod_cast hnum
  have hdenpos : (0 : ℚ) < den := by exact_mod_cast hden
  have hpos : (0 : ℚ) < (num : ℚ) / den := div_pos hnumpos hdenpos
  have hnumlow : (2 : ℚ) ^ num.log2 ≤ num := by exact_mod_cast Nat.log2_self_le hnum.ne'
  have hdenlow : (2 : ℚ) ^ den.log2 ≤ den := by exact_mod_cast Nat.log2_self_le hden.ne'
  have hnumhigh : (num : ℚ) < 2 ^ (num.log2 + 1) := by exact_mod_cast Nat.lt_log2_self
  have hdenhigh : (den : ℚ) < 2 ^ (den.log2 + 1) := by exact_mod_cast Nat.lt_log2_self
  constructor
  · rw [← Int.zpow_le_iff_le_log one_lt_two hpos, Nat.cast_ofNat, zpow_sub₀ two_ne_zero,
      zpow_sub₀ two_ne_zero, div_div, ← zpow_add₀ two_ne_zero]
    exact div_le_div₀ hnumpos.le (by exact_mod_cast hnumlow) hdenpos (by exact_mod_cast hdenhigh.le)
  · rw [← Int.lt_zpow_iff_log_lt one_lt_two hpos, Nat.cast_ofNat, sub_add_eq_add_sub,
      zpow_sub₀ two_ne_zero]
    exact div_lt_div₀ (by exact_mod_cast hnumhigh) (by exact_mod_cast hdenlow)
      (zpow_pos two_pos _).le (zpow_pos two_pos _)

/-- **The last place of a ratio** is known from its binary logarithm. -/
theorem lastPlace_eq {num den : Nat} (hnum : 0 < num) (hden : 0 < den) :
    lastPlace num den = max (Int.log 2 ((num : ℚ) / den) - 52) (-1074) := by
  have hpos : (0 : ℚ) < (num : ℚ) / den := by positivity
  obtain ⟨hlow, hhigh⟩ := log_ratio hnum hden
  have hcompare := Int.lt_zpow_iff_log_lt (b := 2) one_lt_two hpos
    (x := (num.log2 : ℤ) - den.log2 - 52 + 52)
  rw [Nat.cast_ofNat] at hcompare
  rw [lastPlace]
  simp only [shift_lt_iff num hden, hcompare]
  split <;> omega

/-! ### Rounding to an integer -/

/-- An integer is below the rounded ratio if its upper half step is below the ratio, or is the
ratio and goes up to the even neighbour. -/
theorem lt_roundDiv_iff (num k : Nat) {den : Nat} (hden : 0 < den) :
    k < roundDiv num den ↔
      (k : ℚ) + 1 / 2 < num / den ∨ ((k : ℚ) + 1 / 2 = num / den ∧ k % 2 = 1) := by
  have hdenpos : (0 : ℚ) < den := by exact_mod_cast hden
  have habove : (k : ℚ) + 1 / 2 < num / den ↔ (2 * k + 1) * den < 2 * num := by
    rw [lt_div_iff₀ hdenpos, ← Nat.cast_lt (α := ℚ)]
    push_cast
    constructor <;> intro h <;> linarith
  have hhalf : (k : ℚ) + 1 / 2 = num / den ↔ (2 * k + 1) * den = 2 * num := by
    rw [eq_div_iff hdenpos.ne', ← Nat.cast_inj (R := ℚ)]
    push_cast
    constructor <;> intro h <;> linarith
  have hexpand : (2 * k + 1) * den = 2 * (den * k) + den := by ring
  rw [habove, hhalf, hexpand, roundDiv]
  have hsum := Nat.div_add_mod num den
  have hrest := Nat.mod_lt num hden
  generalize num / den = whole at *
  generalize num % den = rest at *
  -- `k` is below the whole part of the quotient, it is the whole part, or it is above
  rcases Nat.lt_trichotomy k whole with hlt | rfl | hgt
  · have hle : den * (k + 1) ≤ den * whole := Nat.mul_le_mul_left den hlt
    rw [Nat.mul_add_one] at hle
    refine iff_of_true ?_ (by omega)
    split
    · exact hlt
    · split <;> omega
  · split
    · omega
    · split <;> omega
  · have hle : den * (whole + 1) ≤ den * k := Nat.mul_le_mul_left den hgt
    rw [Nat.mul_add_one] at hle
    refine iff_of_false ?_ (by omega)
    split
    · omega
    · split <;> omega

/-! ### Rounding to a last place -/

/-- A ratio in steps of a last place. -/
theorem shift_ratio (num den : Nat) (z : ℤ) :
    ((num <<< (-z).toNat : Nat) : ℚ) / (den <<< z.toNat : Nat) = num / den / 2 ^ z := by
  rw [zpow_eq_div, Nat.shiftLeft_eq, Nat.shiftLeft_eq]
  push_cast
  rw [div_div_eq_mul_div, div_mul_eq_mul_div, div_div, mul_comm (den : ℚ)]

/-- The significand of a ratio that is rounded to a last place. -/
def rounded (num den : Nat) (place : ℤ) : Nat :=
  roundDiv (num <<< (-place).toNat) (den <<< place.toNat)

section Rounded

variable {num den n : Nat} {place : ℤ}

/-- The shifted denominator is positive too. -/
theorem shift_pos (hden : 0 < den) : 0 < den <<< place.toNat := by
  rw [Nat.shiftLeft_eq]
  positivity

theorem rounded_le (hden : 0 < den) (h : (num : ℚ) / den ≤ n * 2 ^ place) :
    rounded num den place ≤ n := by
  rw [← not_lt, rounded, lt_roundDiv_iff _ _ (shift_pos hden), shift_ratio]
  rw [← div_le_iff₀ (zpow_pos two_pos place)] at h
  rintro (habove | ⟨hhalf, -⟩) <;> linarith

theorem le_rounded (hden : 0 < den) (h : n * 2 ^ place ≤ (num : ℚ) / den) :
    n ≤ rounded num den place := by
  rw [← le_div_iff₀ (zpow_pos two_pos place)] at h
  cases n with
  | zero => exact Nat.zero_le _
  | succ k =>
    rw [Nat.succ_le_iff, rounded, lt_roundDiv_iff _ _ (shift_pos hden), shift_ratio]
    push_cast at h
    exact .inl (by linarith)

end Rounded

/-- A magnitude is its last place and the significand rounded to it. -/
theorem nearest_eq {num : Nat} (hnum : 0 < num) (den : Nat) :
    nearest num den =
      (lastPlace num den + 1074).toNat * hiddenBit + rounded num den (lastPlace num den) := by
  rw [nearest, if_neg hnum.ne']
  rfl

/-! ### Exact ratios -/

/-- A magnitude is put together from its exponent and its significand. -/
theorem magnitude_eq (magnitude : Nat) :
    (exponent magnitude + 1074).toNat * hiddenBit + significand magnitude = magnitude := by
  rw [exponent, significand]
  split
  · simp
  · next h =>
    have hpos : 0 < magnitude / hiddenBit :=
      Nat.div_pos (Nat.not_lt.1 h) (by decide)
    have hsum := Nat.div_add_mod' magnitude hiddenBit
    have hexponent : ((magnitude / hiddenBit : Nat) - 1075 + 1074 : ℤ).toNat =
        magnitude / hiddenBit - 1 := by omega
    rw [hexponent, Nat.sub_one_mul]
    have hle : hiddenBit ≤ magnitude / hiddenBit * hiddenBit := Nat.le_mul_of_pos_left _ hpos
    omega

theorem significand_pos {magnitude : Nat} (h : 0 < magnitude) : 0 < significand magnitude := by
  rw [significand]
  split
  · exact h
  · exact Nat.add_pos_left (by decide) _

theorem value_pos {magnitude : Nat} (h : 0 < magnitude) : 0 < value magnitude :=
  mul_pos (by exact_mod_cast significand_pos h) (zpow_pos two_pos _)

theorem log_value_lt {magnitude : Nat} (hpos : 0 < magnitude) {bits : ℤ}
    (h : (significand magnitude : ℚ) < 2 ^ bits) :
    Int.log 2 (value magnitude) < bits + exponent magnitude := by
  rw [← Int.lt_zpow_iff_log_lt one_lt_two (value_pos hpos), Nat.cast_ofNat,
    zpow_add₀ two_ne_zero]
  exact mul_lt_mul_of_pos_right h (zpow_pos two_pos _)

theorem le_log_value {magnitude : Nat} (hpos : 0 < magnitude) {bits : ℤ}
    (h : (2 : ℚ) ^ bits ≤ significand magnitude) :
    bits + exponent magnitude ≤ Int.log 2 (value magnitude) := by
  rw [← Int.zpow_le_iff_le_log one_lt_two (value_pos hpos), Nat.cast_ofNat,
    zpow_add₀ two_ne_zero]
  exact mul_le_mul_of_nonneg_right h (zpow_pos two_pos _).le

/-- The last place of a value is its exponent. -/
theorem max_log_value {magnitude : Nat} (h : 0 < magnitude) :
    max (Int.log 2 (value magnitude) - 52) (-1074) = exponent magnitude := by
  by_cases hsub : magnitude < hiddenBit
  · -- a subnormal value has the lowest exponent, and too few bits to be above it
    have hlow : (significand magnitude : ℚ) < 2 ^ (52 : ℤ) := by
      rw [significand, if_pos hsub]
      exact_mod_cast hsub
    have hlog := log_value_lt h hlow
    rw [exponent, if_pos hsub] at hlog ⊢
    omega
  · have hexponent : -1074 ≤ exponent magnitude := by
      have hdiv : 0 < magnitude / hiddenBit := Nat.div_pos (Nat.not_lt.1 hsub) (by decide)
      rw [exponent, if_neg hsub]
      omega
    have hlow : (2 : ℚ) ^ (52 : ℤ) ≤ significand magnitude := by
      rw [significand, if_neg hsub]
      exact_mod_cast Nat.le_add_right hiddenBit _
    have hhigh : (significand magnitude : ℚ) < 2 ^ (53 : ℤ) := by
      have hmod := Nat.mod_lt magnitude (show 0 < hiddenBit by decide)
      have hlt : hiddenBit + magnitude % hiddenBit < 2 ^ 53 := by
        rw [hiddenBit] at hmod ⊢
        omega
      rw [significand, if_neg hsub]
      exact_mod_cast hlt
    have hlogLow := le_log_value h hlow
    have hlogHigh := log_value_lt h hhigh
    omega

/-- **A ratio with the value of a magnitude is rounded to it.** -/
theorem nearest_of_value {magnitude num den : Nat} (hden : 0 < den)
    (h : (num : ℚ) / den = value magnitude) : nearest num den = magnitude := by
  have hdenpos : (0 : ℚ) < den := by exact_mod_cast hden
  rcases Nat.eq_zero_or_pos magnitude with rfl | hpos
  · have hnum : (num : ℚ) = 0 := by
      have hzero : value 0 = 0 := by simp [value, significand, hiddenBit]
      rw [hzero, div_eq_zero_iff] at h
      exact h.resolve_right hdenpos.ne'
    rw [nearest, if_pos (by exact_mod_cast hnum)]
  · have hnum : 0 < num := by
      have hvalue := value_pos hpos
      rw [← h] at hvalue
      have hnumpos := pos_of_mul_pos_left (by rwa [div_eq_mul_inv] at hvalue) (by positivity)
      exact_mod_cast hnumpos
    have hplace : lastPlace num den = exponent magnitude := by
      rw [lastPlace_eq hnum hden, h, max_log_value hpos]
    have hexact : rounded num den (exponent magnitude) = significand magnitude :=
      le_antisymm (rounded_le hden h.le) (le_rounded hden h.ge)
    rw [nearest_eq hnum, hplace, hexact, magnitude_eq]

/-! ### Exact decimals -/

/-- The exact decimal of a magnitude: each bit after the point takes one digit. -/
def exactDecimal (magnitude : Nat) : Decimal :=
  ⟨(ratio magnitude).1 * 5 ^ (-exponent magnitude).toNat, -(-exponent magnitude).toNat⟩

/-- The exact decimal of a magnitude is rounded to it, for it has its value. -/
theorem nearest_exactDecimal (magnitude : Nat) :
    nearest (exactDecimal magnitude).ratio.1 (exactDecimal magnitude).ratio.2 = magnitude := by
  have hup : (-((-exponent magnitude).toNat : ℤ)).toNat = 0 := by omega
  have hdown : (-(-((-exponent magnitude).toNat : ℤ))).toNat = (-exponent magnitude).toNat := by
    omega
  simp only [Decimal.ratio, exactDecimal, hup, hdown, Nat.pow_eq, pow_zero, mul_one]
  refine nearest_of_value (by positivity) ?_
  have hten : (10 : ℚ) ^ (-exponent magnitude).toNat =
      2 ^ (-exponent magnitude).toNat * 5 ^ (-exponent magnitude).toNat := by
    rw [← mul_pow]
    norm_num
  rw [value, zpow_eq_div, ratio, Nat.shiftLeft_eq]
  push_cast
  rw [hten, mul_div_mul_right _ _ (by positivity), mul_div_assoc]

/-- The exact decimal of a magnitude is not so small that it would be taken for zero: five to a
power has more than twice as many bits as the power says. -/
theorem le_log2_exactDecimal {magnitude : Nat} (h : 0 < magnitude) :
    (exactDecimal magnitude).coefficient ≠ 0 ∧
      2 * (-exponent magnitude).toNat ≤ (exactDecimal magnitude).coefficient.log2 := by
  have hratio : 0 < (ratio magnitude).1 := by
    rw [ratio, Nat.shiftLeft_eq]
    exact Nat.mul_pos (significand_pos h) (by positivity)
  have hcoefficient : 0 < (exactDecimal magnitude).coefficient :=
    Nat.mul_pos hratio (by positivity)
  refine ⟨hcoefficient.ne', ?_⟩
  rw [Nat.le_log2 hcoefficient.ne', pow_mul]
  calc (2 ^ 2) ^ (-exponent magnitude).toNat ≤ 5 ^ (-exponent magnitude).toNat :=
        Nat.pow_le_pow_left (by decide) _
    _ ≤ (exactDecimal magnitude).coefficient := Nat.le_mul_of_pos_left _ hratio

/-- **Every double is read back from its exact decimal.** -/
theorem nearest?_exact (x : Binary64) :
    (exactDecimal x.magnitude).nearest? x.negative = some x := by
  obtain ⟨negative, magnitude, finite⟩ := x
  show (exactDecimal magnitude).nearest? negative = some ⟨negative, magnitude, finite⟩
  rcases Nat.eq_zero_or_pos magnitude with rfl | hpos
  · have hcoefficient : (exactDecimal 0).coefficient = 0 := by
      simp [exactDecimal, ratio, significand, hiddenBit]
    rw [Decimal.nearest?, if_pos hcoefficient]
    rfl
  · obtain ⟨hcoefficient, hlength⟩ := le_log2_exactDecimal hpos
    have hexponent : (exactDecimal magnitude).exponent = -(-exponent magnitude).toNat := rfl
    rw [Decimal.nearest?, if_neg hcoefficient, if_neg (by omega), if_neg (by omega), ofRatio?,
      nearest_exactDecimal, ofMagnitude?, dif_pos finite]

/-- The double that is nearest to a tenth has fifty-five decimal places. -/
example :
    (⟨1000000000000000055511151231257827021181583404541015625, -55⟩ : Decimal).nearest? false =
      ofMagnitude? false 0x3FB999999999999A := by
  decide +kernel

end QueryAccess.Binary64
