import Mathlib.Algebra.Order.Field.Power
import Mathlib.Algebra.Order.Ring.Rat
import Mathlib.Tactic.GCongr
import Mathlib.Tactic.Linarith
import TypedForest.Number.Rounding
import TypedForest.Proofs.Number.Numeral

namespace TypedForest.Binary64

/-!
# Rounding does not reach infinity

Half a step above the largest 64-bit number lies the least number that is rounded to an
infinity (`overflow`).  A written number below it becomes a finite one
(`isInfinite_ofNumeral`).

The quotients of the algorithm are compared as rationals.  The unit in the last place is chosen
such that a number has fifty-three binary digits before the point (`unitExponent_bounds`), so a
number below `overflow` has a unit below that of an infinity.
-/

/-! ### Scaled quotients -/

/-- A power is the quotient of one for the positive and one for the negative part of its
    exponent. -/
theorem pow_toNat_div {b : ℕ} (hb : b ≠ 0) (e : ℤ) :
    ((Nat.pow b e.toNat : ℕ) : ℚ) / (Nat.pow b (-e).toNat : ℕ) = (b : ℚ) ^ e := by
  have hb' : (b : ℚ) ≠ 0 := Nat.cast_ne_zero.mpr hb
  rw [Nat.pow_eq, Nat.pow_eq, Nat.cast_pow, Nat.cast_pow, ← zpow_natCast, ← zpow_natCast,
    ← zpow_sub₀ hb']
  congr 1
  omega

/-- A number times a power of ten as a quotient. -/
theorem scaled_eq_div (c : ℕ) (e : ℤ) :
    (c : ℚ) * 10 ^ e = (c * Nat.pow 10 e.toNat : ℕ) / (Nat.pow 10 (-e).toNat : ℕ) := by
  rw [Nat.cast_mul, mul_div_assoc, pow_toNat_div (by decide)]
  rfl

/-- Multiplying above or below the line is scaling by a power of two. -/
theorem scaled_ratio (num den : ℕ) (q : ℤ) :
    ((num * Nat.pow 2 (-q).toNat : ℕ) : ℚ) / (den * Nat.pow 2 q.toNat : ℕ)
      = (num : ℚ) / den * 2 ^ (-q) := by
  have hpow := pow_toNat_div two_ne_zero (-q)
  rw [neg_neg, Nat.cast_ofNat] at hpow
  rw [Nat.cast_mul, Nat.cast_mul, mul_div_mul_comm, hpow]

/-- A quotient is below a number after scaling if it was below the scaled number. -/
theorem scaled_floor_lt_iff {num den : ℕ} (hden : den ≠ 0) (q : ℤ) (n : ℕ) :
    num * Nat.pow 2 (-q).toNat / (den * Nat.pow 2 q.toNat) < n ↔ (num : ℚ) / den < n * 2 ^ q := by
  have hpos : 0 < den * Nat.pow 2 q.toNat :=
    Nat.mul_pos (Nat.pos_of_ne_zero hden) (Nat.pow_pos two_pos)
  have hcast : (0 : ℚ) < (den * Nat.pow 2 q.toNat : ℕ) := Nat.cast_pos.mpr hpos
  rw [Nat.div_lt_iff_lt_mul hpos, ← @Nat.cast_lt ℚ, Nat.cast_mul n, ← div_lt_iff₀ hcast,
    scaled_ratio, zpow_neg, ← div_eq_mul_inv, div_lt_iff₀ (zpow_pos two_pos q)]

/-- Rounding goes up by half a unit at most. -/
theorem roundDiv_le {num den : ℕ} (hden : den ≠ 0) {n : ℕ} (h : (num : ℚ) / den < n + 1 / 2) :
    roundDiv num den ≤ n := by
  have hnat : 2 * (den * roundDiv num den) ≤ 2 * num + den := by
    have hdiv := Nat.div_add_mod num den
    have hnext := Nat.mul_add_one den (num / den)
    simp only [roundDiv]
    split_ifs <;> omega
  have hden' : (0 : ℚ) < den := Nat.cast_pos.mpr (Nat.pos_of_ne_zero hden)
  have hcast : 2 * ((den : ℚ) * roundDiv num den) ≤ 2 * num + den := by exact_mod_cast hnat
  have hlt : (roundDiv num den : ℚ) < n + 1 := by
    rw [div_lt_iff₀ hden'] at h
    refine lt_of_mul_lt_mul_left ?_ hden'.le
    linarith
  exact Nat.lt_succ_iff.mp (by exact_mod_cast hlt)

/-! ### The unit in the last place -/

/-- Fifty-two bits are for the fraction. -/
theorem fractionRange_eq : fractionRange = 2 ^ 52 := rfl

/-- A number is between two powers of two that its binary logarithm gives. -/
theorem log2_bounds {n : ℕ} (h : n ≠ 0) :
    (2 : ℚ) ^ (Nat.log2 n : ℤ) ≤ n ∧ (n : ℚ) < 2 ^ ((Nat.log2 n : ℤ) + 1) := by
  have hlow := Nat.log2_self_le h
  have hhigh : n < 2 ^ (Nat.log2 n + 1) := Nat.lt_log2_self
  constructor
  · exact_mod_cast hlow
  · exact_mod_cast hhigh

/-- The binary logarithms of the two parts of a quotient give its own up to one. -/
theorem ratio_bounds {num den : ℕ} (hnum : num ≠ 0) (hden : den ≠ 0) :
    (2 : ℚ) ^ ((Nat.log2 num : ℤ) - Nat.log2 den - 1) ≤ num / den ∧
      (num : ℚ) / den < 2 ^ ((Nat.log2 num : ℤ) - Nat.log2 den + 1) := by
  have hpos : (0 : ℚ) < den := Nat.cast_pos.mpr (Nat.pos_of_ne_zero hden)
  obtain ⟨hnum₁, hnum₂⟩ := log2_bounds hnum
  obtain ⟨hden₁, hden₂⟩ := log2_bounds hden
  constructor
  · rw [le_div_iff₀ hpos]
    calc (2 : ℚ) ^ ((Nat.log2 num : ℤ) - Nat.log2 den - 1) * den
        ≤ 2 ^ ((Nat.log2 num : ℤ) - Nat.log2 den - 1) * 2 ^ ((Nat.log2 den : ℤ) + 1) := by gcongr
      _ = 2 ^ (Nat.log2 num : ℤ) := by rw [← zpow_add₀ two_ne_zero]; congr 1; ring
      _ ≤ num := hnum₁
  · rw [div_lt_iff₀ hpos]
    calc (num : ℚ) < 2 ^ ((Nat.log2 num : ℤ) + 1) := hnum₂
      _ = 2 ^ ((Nat.log2 num : ℤ) - Nat.log2 den + 1) * 2 ^ (Nat.log2 den : ℤ) := by
        rw [← zpow_add₀ two_ne_zero]; congr 1; ring
      _ ≤ 2 ^ ((Nat.log2 num : ℤ) - Nat.log2 den + 1) * den := by gcongr

/-- The unit in the last place leaves at most fifty-three binary digits before the point, and no
    fewer unless it is the least one. -/
theorem unitExponent_bounds {num den : ℕ} (hnum : num ≠ 0) (hden : den ≠ 0) :
    (num : ℚ) / den < 2 ^ (unitExponent num den + 53) ∧
    (-1074 < unitExponent num den → (2 : ℚ) ^ (unitExponent num den + 52) ≤ num / den) ∧
    -1074 ≤ unitExponent num den := by
  obtain ⟨hlow, hhigh⟩ := ratio_bounds hnum hden
  have hdigits : ∀ t : ℤ, ((2 * fractionRange : ℕ) : ℚ) * 2 ^ t = 2 ^ (t + 53) := by
    intro t
    rw [fractionRange_eq, zpow_add₀ two_ne_zero]
    push_cast
    ring
  simp only [unitExponent, scaled_floor_lt_iff hden, hdigits]
  set t : ℤ := max ((Nat.log2 num : ℤ) - Nat.log2 den - 53) (-1074)
  split_ifs with h
  · refine ⟨h, fun hlt => le_trans (zpow_le_zpow_right₀ one_le_two ?_) hlow, by omega⟩
    omega
  · refine ⟨hhigh.trans_le (zpow_le_zpow_right₀ one_le_two (by omega)), fun _ => ?_, by omega⟩
    rw [show t + 1 + 52 = t + 53 by ring]
    exact not_lt.mp h

/-! ### Below the least number that overflows -/

/-- The least number that is rounded to an infinity, half a step above the largest one. -/
def overflow : ℚ := (2 ^ 54 - 1) * 2 ^ (970 : ℤ)

/-- The bound of overflow is below the next power of two. -/
theorem overflow_lt : overflow < 2 ^ (1024 : ℤ) := by
  have hsplit : (2 : ℚ) ^ (1024 : ℤ) = 2 ^ 54 * 2 ^ (970 : ℤ) := by
    rw [← zpow_natCast, ← zpow_add₀ two_ne_zero]
    rfl
  rw [overflow, hsplit]
  exact mul_lt_mul_of_pos_right (sub_one_lt _) (zpow_pos two_pos _)

/-- A larger unit in the last place is that of a number from `2 ^ 1024` on. -/
theorem unitExponent_le {num den : ℕ} (hnum : num ≠ 0) (hden : den ≠ 0)
    (h : (num : ℚ) / den < overflow) : unitExponent num den ≤ 971 := by
  obtain ⟨-, hlow, -⟩ := unitExponent_bounds hnum hden
  by_contra hgt
  have hle : (2 : ℚ) ^ (1024 : ℤ) ≤ num / den :=
    (zpow_le_zpow_right₀ one_le_two (by omega)).trans (hlow (by omega))
  exact absurd (h.trans overflow_lt) (not_lt.mpr hle)

/-- What is less than a half above a number is not rounded beyond it. -/
theorem roundDiv_scaled_le {num den n : ℕ} {q : ℤ} (hden : den ≠ 0)
    (h : (num : ℚ) / den * 2 ^ (-q) < n + 1 / 2) :
    roundDiv (num * Nat.pow 2 (-q).toNat) (den * Nat.pow 2 q.toNat) ≤ n := by
  have hscaled : den * Nat.pow 2 q.toNat ≠ 0 := Nat.mul_ne_zero hden (Nat.pow_pos two_pos).ne'
  refine roundDiv_le hscaled ?_
  rw [scaled_ratio]
  exact h

/-- A ratio below the bound of overflow is not rounded to infinity. -/
theorem restOfRatio_lt {num den : ℕ} (hnum : num ≠ 0) (hden : den ≠ 0)
    (h : (num : ℚ) / den < overflow) : restOfRatio num den < infinityBits := by
  obtain ⟨hhigh, -, hleast⟩ := unitExponent_bounds hnum hden
  have hq := unitExponent_le hnum hden h
  simp only [restOfRatio]
  set q := unitExponent num den
  have hpos : (0 : ℚ) < 2 ^ (-q) := zpow_pos two_pos _
  -- the unit is chosen so that the quotient has fifty-three binary digits
  have hm : roundDiv (num * Nat.pow 2 (-q).toNat) (den * Nat.pow 2 q.toNat) ≤ 2 ^ 53 := by
    refine roundDiv_scaled_le hden ?_
    have hmul := mul_lt_mul_of_pos_right hhigh hpos
    rw [← zpow_add₀ two_ne_zero, show q + 53 + -q = (53 : ℕ) by omega, zpow_natCast] at hmul
    push_cast
    linarith
  -- with the largest unit, rounding does not carry over to one more binary digit
  have hmax : q = 971 →
      roundDiv (num * Nat.pow 2 (-q).toNat) (den * Nat.pow 2 q.toNat) ≤ 2 ^ 53 - 1 := by
    intro hq
    refine roundDiv_scaled_le hden ?_
    have hmul := mul_lt_mul_of_pos_right h hpos
    have htop : overflow * 2 ^ (-q) = (2 ^ 54 - 1) / 2 := by
      rw [overflow, mul_assoc, ← zpow_add₀ two_ne_zero, hq]
      norm_num
    rw [htop] at hmul
    norm_num at hmul ⊢
    linarith
  rw [fractionRange_eq, infinityBits, fractionRange_eq]
  split_ifs with hsmall
  · omega
  · refine (min_le_left _ _).trans_lt ?_
    by_cases hq' : q = 971
    · have hle := hmax hq'
      rw [hq'] at hle ⊢
      omega
    · omega

/-- Nor is a number with a decimal exponent. -/
theorem restOfScaled_lt {c : ℕ} {e : ℤ} (h : (c : ℚ) * 10 ^ e < overflow) :
    restOfScaled c e < infinityBits := by
  have hzero : 0 < infinityBits := by decide
  simp only [restOfScaled]
  split_ifs with hc hlarge hsmall
  · exact hzero
  · -- the first digit alone would count more than the largest number
    obtain ⟨d, ds, hds, -, hle⟩ := Digits.exists_ofNat_eq_cons hc
    rw [hds, List.length_cons, Nat.cast_add_one] at hlarge
    have hfirst : (10 : ℚ) ^ (310 : ℤ) ≤ c * 10 ^ e := by
      calc (10 : ℚ) ^ (310 : ℤ) ≤ 10 ^ ((ds.length : ℤ) + e) :=
            zpow_le_zpow_right₀ (by norm_num) (by omega)
        _ = 10 ^ ds.length * 10 ^ e := by rw [zpow_add₀ (by norm_num), zpow_natCast]
        _ ≤ c * 10 ^ e := by
          have hcast : (10 : ℚ) ^ ds.length ≤ c := by exact_mod_cast hle
          gcongr
    have hten : (2 : ℚ) ^ (1024 : ℤ) ≤ 10 ^ (310 : ℤ) := by
      have hnat : 2 ^ 1024 ≤ 10 ^ 310 := by decide +kernel
      exact_mod_cast hnat
    exact absurd (h.trans overflow_lt) (not_lt.mpr (hten.trans hfirst))
  · exact hzero
  · -- in between the ratio is rounded, and stays below the bound
    rw [scaled_eq_div] at h
    exact restOfRatio_lt (Nat.mul_ne_zero hc (Nat.pow_pos (by decide)).ne')
      (Nat.pow_pos (by decide)).ne' h

/-- The exponent is found above the fraction, whatever the sign is. -/
theorem exponentField_ofSignAndRest (negative : Bool) {rest : ℕ} (h : rest < signRange) :
    (ofSignAndRest negative rest).exponentField = rest / fractionRange := by
  simp only [exponentField, ofSignAndRest, UInt64.toNat_ofNat']
  cases negative <;> simp [signRange, fractionRange] at h ⊢ <;> omega

/-- A number below `overflow` is not read as an infinity. -/
theorem isInfinite_ofNumeral {n : Numeral} (h : n.magnitude < overflow) :
    (ofNumeral n).isInfinite = false := by
  have hlt := restOfScaled_lt h
  have hfield : (ofNumeral n).exponentField ≠ 2047 := by
    rw [ofNumeral, exponentField_ofSignAndRest n.negative (hlt.trans (by decide))]
    rw [infinityBits, Nat.mul_comm] at hlt
    exact (Nat.div_lt_of_lt_mul hlt).ne
  rw [isInfinite, beq_eq_false_iff_ne.mpr hfield, Bool.false_and]

end TypedForest.Binary64
