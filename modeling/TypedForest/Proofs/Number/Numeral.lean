import Mathlib.Algebra.Field.Rat
import Mathlib.Data.List.Induction
import Mathlib.Tactic.Ring
import TypedForest.Number.Numeral

namespace TypedForest

/-!
# Digits and written numbers

The digits of a number stand for it again (`Digits.toNat_ofNat`) and do not start with a zero
(`Digits.exists_ofNat_eq_cons`).  A numeral is well formed if it is spelled like a number: there
are digits before the point, and after it if there is one, and a zero in front stands alone.
-/

namespace Digit

/-- A digit is read from its own character. -/
@[simp] theorem ofChar?_toChar (d : Digit) : ofChar? d.toChar = some d := by
  revert d
  decide

end Digit

namespace Digits

/-- A number below ten has one digit. -/
theorem ofNat_of_lt {n : ℕ} (h : n < 10) : ofNat n = [⟨n, h⟩] := by
  rw [ofNat, dif_pos h]

/-- The last digit of a larger number is its remainder by ten. -/
theorem ofNat_of_le {n : ℕ} (h : 10 ≤ n) :
    ofNat n = ofNat (n / 10) ++ [⟨n % 10, Nat.mod_lt _ (by decide)⟩] := by
  rw [ofNat, dif_neg (Nat.not_lt.mpr h)]

/-- Every number has a digit. -/
theorem ofNat_ne_nil (n : ℕ) : ofNat n ≠ [] := by
  by_cases h : n < 10
  · rw [ofNat_of_lt h]
    exact List.cons_ne_nil _ _
  · rw [ofNat_of_le (Nat.not_lt.mp h)]
    exact List.append_ne_nil_of_right_ne_nil _ (List.cons_ne_nil _ _)

/-- Digits after digits count tens of them. -/
theorem toNat_append (ds es : List Digit) :
    toNat (ds ++ es) = toNat ds * 10 ^ es.length + toNat es := by
  -- the last digit counts ones, and moves all digits before it up by one place
  induction es using List.reverseRecOn with
  | nil => simp [toNat]
  | append_singleton es e ih =>
    have hlast : ∀ fs : List Digit, toNat (fs ++ [e]) = 10 * toNat fs + e.val := by
      intro fs
      simp [toNat]
    rw [← List.append_assoc, hlast, hlast, ih, List.length_append, List.length_singleton, pow_succ]
    ring

theorem toNat_replicate_zero (n : ℕ) : toNat (List.replicate n Digit.zero) = 0 := by
  induction n with
  | zero => rfl
  | succ n ih => rw [List.replicate_succ', toNat_append, ih]; rfl

/-- The digits of a number stand for the number. -/
theorem toNat_ofNat (n : ℕ) : toNat (ofNat n) = n := by
  induction n using Nat.strongRecOn with
  | ind n ih =>
    by_cases h : n < 10
    · rw [ofNat_of_lt h]
      simp [toNat]
    · rw [ofNat_of_le (Nat.not_lt.mp h), toNat_append, ih _ (by omega)]
      simp only [List.length_singleton, pow_one, toNat, List.foldl_cons, List.foldl_nil]
      omega

/-- A number does not start with a zero and has no more digits than it needs. -/
theorem exists_ofNat_eq_cons {n : ℕ} (h : n ≠ 0) :
    ∃ d ds, ofNat n = d :: ds ∧ d ≠ Digit.zero ∧ 10 ^ ds.length ≤ n := by
  induction n using Nat.strongRecOn with
  | ind n ih =>
    by_cases hlt : n < 10
    · refine ⟨⟨n, hlt⟩, [], ofNat_of_lt hlt, fun heq => h (congrArg Fin.val heq), ?_⟩
      rw [List.length_nil, pow_zero]
      omega
    · obtain ⟨d, ds, hds, hd, hle⟩ := ih (n / 10) (by omega) (by omega)
      refine ⟨d, ds ++ [⟨n % 10, Nat.mod_lt _ (by decide)⟩], ?_, hd, ?_⟩
      · rw [ofNat_of_le (Nat.not_lt.mp hlt), hds, List.cons_append]
      · rw [List.length_append, List.length_singleton, pow_succ]
        omega

end Digits

namespace Numeral

/-- Spelled like a number. -/
structure WellFormed (n : Numeral) : Prop where
  /-- There are digits before the point, and a zero in front of others is none of them. -/
  whole : ∃ d ds, n.whole = d :: ds ∧ (ds = [] ∨ d ≠ Digit.zero)
  /-- There are digits after the point, if there is one. -/
  fraction : n.fraction ≠ some []

/-- The absolute value of a written number. -/
def magnitude (n : Numeral) : ℚ := n.coefficient * 10 ^ n.scale

/-- An integer has a numeral in its usual form. -/
theorem wellFormed_ofInt (i : ℤ) : (ofInt i).WellFormed := by
  refine ⟨?_, by simp [ofInt]⟩
  by_cases h : i.natAbs = 0
  · exact ⟨Digit.zero, [], by rw [ofInt, h, Digits.ofNat_of_lt (by decide)]; rfl, .inl rfl⟩
  · obtain ⟨d, ds, hds, hd, -⟩ := Digits.exists_ofNat_eq_cons h
    exact ⟨d, ds, hds, .inr hd⟩

/-- The numeral of an integer stands for the integer. -/
theorem toInt?_ofInt (i : ℤ) : (ofInt i).toInt? = some i := by
  have hcoefficient : (ofInt i).coefficient = i.natAbs := by
    simp [coefficient, ofInt, Digits.toNat_ofNat]
  have hinteger : (ofInt i).isInteger = true := rfl
  rw [toInt?, hcoefficient, hinteger, if_neg (by decide)]
  by_cases h : i < 0
  · rw [if_pos (by simpa [ofInt] using h), if_neg (by omega)]
    exact congrArg some (by omega)
  · rw [if_neg (by simpa [ofInt] using h)]
    exact congrArg some (by omega)

end Numeral

end TypedForest
