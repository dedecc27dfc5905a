import QueryAccess.Proofs.Numeric.Rounding

/-!
# Rounding keeps the order

A greater ratio is never rounded to a smaller magnitude: `QueryAccess.Binary64.nearest_mono`.
Within one last place this is the monotonicity of rounding to an integer
(`QueryAccess.Binary64.roundDiv_mono`). Between two of them it is a matter of the carry: a
significand that rounds up reaches at most the first significand of the next last place
(`QueryAccess.Binary64.rounded_lastPlace_le`), and above the subnormal numbers every
significand is one of fifty-three bits (`QueryAccess.Binary64.le_rounded_lastPlace`).

Rounding does not keep *strict* order: beyond the signed 64-bit integers the doubles are 2048
apart. `QueryAccess.Binary64.keyOfInt_eq_iff` says which integers of up to 64 bits have one
double in common, when one of them is no signed one.
-/

namespace QueryAccess.Binary64

/-! ### Significands -/

/-- Rounding to an integer is monotone. -/
theorem roundDiv_mono {a b c d : Nat} (hb : 0 < b) (hd : 0 < d) (h : (a : ℚ) / b ≤ c / d) :
    roundDiv a b ≤ roundDiv c d := by
  rw [← not_lt]
  intro hlt
  rw [lt_roundDiv_iff _ _ hb] at hlt
  refine lt_irrefl (roundDiv c d) ((lt_roundDiv_iff _ _ hd).2 ?_)
  rcases hlt with habove | ⟨hhalf, hodd⟩
  · exact .inl (lt_of_lt_of_le habove h)
  · rcases h.lt_or_eq with hlt | heq
    · exact .inl (hhalf ▸ hlt)
    · exact .inr ⟨hhalf.trans heq, hodd⟩

theorem rounded_mono {num den num' den' : Nat} (hden : 0 < den) (hden' : 0 < den')
    (h : (num : ℚ) / den ≤ num' / den') (place : ℤ) :
    rounded num den place ≤ rounded num' den' place := by
  refine roundDiv_mono (shift_pos hden) (shift_pos hden') ?_
  rw [shift_ratio, shift_ratio]
  exact div_le_div_of_nonneg_right h (zpow_pos two_pos place).le

/-- A significand that carries stays below the next exponent. -/
theorem carry_le {bit exponent exponent' significand significand' : Nat}
    (hexponent : exponent + 1 ≤ exponent') (hcarry : significand ≤ 2 * bit)
    (hfirst : bit ≤ significand') :
    exponent * bit + significand ≤ exponent' * bit + significand' := by
  have hmul := Nat.mul_le_mul_right bit hexponent
  rw [Nat.add_one_mul] at hmul
  omega

/-! ### Magnitudes -/

section Nearest

variable {num den : Nat}

/-- The significand at the last place has fifty-three bits at most, or is the next power of
two. -/
theorem rounded_lastPlace_le (hnum : 0 < num) (hden : 0 < den) :
    rounded num den (lastPlace num den) ≤ 2 * hiddenBit := by
  refine rounded_le hden ?_
  have hpos : (0 : ℚ) < (num : ℚ) / den := by positivity
  have hlog := Int.lt_zpow_succ_log_self (b := 2) one_lt_two ((num : ℚ) / den)
  have hplace := lastPlace_eq hnum hden
  have htwo : ((2 * hiddenBit : Nat) : ℚ) = 2 ^ (53 : ℤ) := by norm_num [hiddenBit]
  rw [Nat.cast_ofNat] at hlog
  rw [htwo, ← zpow_add₀ two_ne_zero]
  exact hlog.le.trans (zpow_le_zpow_right₀ one_le_two (by omega))

/-- Above the lowest last place the significand has fifty-three bits. -/
theorem le_rounded_lastPlace (hnum : 0 < num) (hden : 0 < den)
    (h : -1074 < lastPlace num den) : hiddenBit ≤ rounded num den (lastPlace num den) := by
  refine le_rounded hden ?_
  have hpos : (0 : ℚ) < (num : ℚ) / den := by positivity
  have hlog := Int.zpow_log_le_self (b := 2) one_lt_two hpos
  have hplace := lastPlace_eq hnum hden
  have htwo : (hiddenBit : ℚ) = 2 ^ (52 : ℤ) := by norm_num [hiddenBit]
  rw [Nat.cast_ofNat] at hlog
  rw [htwo, ← zpow_add₀ two_ne_zero]
  exact (zpow_le_zpow_right₀ one_le_two (by omega)).trans hlog

theorem num_pos_of_le {num' den' : Nat} (hnum : 0 < num) (hden : 0 < den) (hden' : 0 < den')
    (h : (num : ℚ) / den ≤ num' / den') : 0 < num' := by
  have hpos : (0 : ℚ) < (num : ℚ) / den := by positivity
  have hlt := hpos.trans_le h
  rw [div_pos_iff_of_pos_right (by exact_mod_cast hden')] at hlt
  exact_mod_cast hlt

theorem lastPlace_mono {num' den' : Nat} (hnum : 0 < num) (hden : 0 < den) (hden' : 0 < den')
    (h : (num : ℚ) / den ≤ num' / den') : lastPlace num den ≤ lastPlace num' den' := by
  have hpos : (0 : ℚ) < (num : ℚ) / den := by positivity
  rw [lastPlace_eq hnum hden, lastPlace_eq (num_pos_of_le hnum hden hden' h) hden']
  have hlog := Int.log_mono_right (b := 2) hpos h
  omega

/-- **Rounding is monotone**: the greater ratio has the greater magnitude nearest to it, or the
same. -/
theorem nearest_mono {num' den' : Nat} (hden : 0 < den) (hden' : 0 < den')
    (h : (num : ℚ) / den ≤ num' / den') : nearest num den ≤ nearest num' den' := by
  rcases Nat.eq_zero_or_pos num with rfl | hnum
  · have hzero : nearest 0 den = 0 := by rw [nearest, if_pos rfl]
    rw [hzero]
    exact Nat.zero_le _
  have hplaces := lastPlace_mono hnum hden hden' h
  have hnum' := num_pos_of_le hnum hden hden' h
  have hlow := lastPlace_eq hnum hden
  rw [nearest_eq hnum, nearest_eq hnum']
  rcases hplaces.lt_or_eq with hlt | heq
  · -- the carry of the smaller one reaches the first significand of the next place at most
    have hnext : (lastPlace num den + 1074).toNat + 1 ≤ (lastPlace num' den' + 1074).toNat := by
      omega
    exact carry_le hnext (rounded_lastPlace_le hnum hden)
      (le_rounded_lastPlace hnum' hden' (by omega))
  · rw [heq]
    exact Nat.add_le_add_left (rounded_mono hden hden' h _) _

end Nearest

/-- **The double nearest to an integer** is monotone in the integer. -/
theorem keyOfInt_mono {m n : Int} (h : m ≤ n) : keyOfInt m ≤ keyOfInt n := by
  have hnat : ∀ {a b : Nat}, a ≤ b → nearest a 1 ≤ nearest b 1 := fun hab =>
    nearest_mono one_pos one_pos (by simpa using hab)
  rw [keyOfInt, keyOfInt]
  split
  · split
    · have hle : nearest n.natAbs 1 ≤ nearest m.natAbs 1 := hnat (by omega)
      omega
    · omega
  · have hle : nearest m.natAbs 1 ≤ nearest n.natAbs 1 := hnat (by omega)
    rw [if_neg (by omega)]
    omega

/-! ### Integers of sixty-four bits -/

/-- From the first integer that is not a signed one on, the doubles are 2048 apart. -/
theorem nearest_unsigned {n : Nat} (hlow : 0x8000000000000000 ≤ n)
    (hhigh : n < 0x10000000000000000) : nearest n 1 = 1085 * hiddenBit + roundDiv n 2048 := by
  have hpos : 0 < n := by omega
  have hlog : Int.log 2 ((n : ℚ) / (1 : Nat)) = 63 := by
    rw [Nat.cast_one, div_one, Int.log_natCast]
    exact_mod_cast (Nat.log_eq_iff (.inl (by decide))).2 ⟨hlow, hhigh⟩
  have hplace : lastPlace n 1 = 11 := by
    rw [lastPlace_eq hpos one_pos, hlog]
    rfl
  rw [nearest_eq hpos, hplace]
  rfl

theorem keyOfInt_unsigned {n : Int} (hlow : 0x8000000000000000 ≤ n)
    (hhigh : n < 0x10000000000000000) :
    keyOfInt n = (1085 * hiddenBit + roundDiv n.toNat 2048 : Nat) := by
  have hnat : n.natAbs = n.toNat := by omega
  rw [keyOfInt, if_neg (by omega), hnat, nearest_unsigned (by omega) (by omega)]

/-- **Which integers share a double** if one of them is beyond the signed ones: from there on the
doubles are 2048 apart, and the first of them is also the nearest to the last 512 signed
integers. -/
theorem keyOfInt_eq_iff {m n : Int} (hle : m ≤ n) (hbig : 0x8000000000000000 ≤ n)
    (hrange : n < 0x10000000000000000) :
    keyOfInt m = keyOfInt n ↔
      (0x8000000000000000 ≤ m ∧ roundDiv m.toNat 2048 = roundDiv n.toNat 2048) ∨
        (0x7FFFFFFFFFFFFE00 ≤ m ∧ n ≤ 0x8000000000000400) := by
  -- the nearest doubles at the ends of the gap around the first integer that is not a signed one
  have hbefore : keyOfInt 0x7FFFFFFFFFFFFDFF < keyOfInt 0x8000000000000000 := by decide +kernel
  have hfrom : keyOfInt 0x7FFFFFFFFFFFFE00 = keyOfInt 0x8000000000000000 := by decide +kernel
  have hto : keyOfInt 0x8000000000000400 = keyOfInt 0x8000000000000000 := by decide +kernel
  have hafter : keyOfInt 0x8000000000000000 < keyOfInt 0x8000000000000401 := by decide +kernel
  have hmono := keyOfInt_mono hle
  have hfirst := keyOfInt_mono hbig
  have hgap : 0x7FFFFFFFFFFFFE00 ≤ m ∧ n ≤ 0x8000000000000400 → keyOfInt m = keyOfInt n := by
    rintro ⟨hlow, hhigh⟩
    have hm := keyOfInt_mono hlow
    have hn := keyOfInt_mono hhigh
    omega
  by_cases hunsigned : 0x8000000000000000 ≤ m
  · have hsteps : keyOfInt m = keyOfInt n ↔ roundDiv m.toNat 2048 = roundDiv n.toNat 2048 := by
      rw [keyOfInt_unsigned hunsigned (by omega), keyOfInt_unsigned hbig hrange, Int.ofNat_inj,
        Nat.add_left_cancel_iff]
    exact ⟨fun heq => .inl ⟨hunsigned, hsteps.1 heq⟩, fun h => h.elim (hsteps.2 ·.2) hgap⟩
  · refine ⟨fun heq => .inr ?_, fun h => h.elim (fun h => absurd h.1 hunsigned) hgap⟩
    by_contra hout
    rw [not_and_or, not_le, not_le] at hout
    rcases hout with hlow | hhigh
    · have hm := keyOfInt_mono (show m ≤ 0x7FFFFFFFFFFFFDFF by omega)
      omega
    · have hm := keyOfInt_mono (show m ≤ 0x8000000000000000 by omega)
      have hn := keyOfInt_mono (show 0x8000000000000401 ≤ n by omega)
      omega

end QueryAccess.Binary64
