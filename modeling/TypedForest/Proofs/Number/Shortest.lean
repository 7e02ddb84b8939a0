import Mathlib.Data.List.Basic
import Mathlib.Data.List.TakeWhile
import TypedForest.Number.Shortest
import TypedForest.Proofs.Number.Rounding

namespace TypedForest

/-!
# How finite numbers are written

A finite number is written as a well-formed numeral that is read as a finite number again
(`Binary64.numeral?_eq_some`).  The numeral has the value of a decimal in the window around the
number, whichever layout is taken, and the window of a finite number ends below
`Binary64.overflow`: the end of the topmost window is `overflow` itself, but its mantissa is odd,
so that the end does not belong to it.
-/

namespace Shortest

/-! ### Decimals -/

namespace Decimal

/-- The number that a decimal stands for. -/
def value (d : Decimal) : ℚ := Digits.toNat d.digits * 10 ^ (d.leading + 1 - d.digits.length)

/-- There are digits, the first of which is no zero unless the decimal is the lone digit zero. -/
def Proper (d : Decimal) : Prop :=
  ∃ e es, d.digits = e :: es ∧ (e ≠ Digit.zero ∨ es = [] ∧ d.leading = 0)

/-- Only zeros are cut off at the end of digits. -/
theorem exists_trailing_zeros (ds : List Digit) :
    ∃ n, ds = (ds.reverse.dropWhile (· == Digit.zero)).reverse
      ++ List.replicate n Digit.zero := by
  have hzeros : ∀ d ∈ ds.reverse.takeWhile (· == Digit.zero), d = Digit.zero :=
    fun d hd => beq_iff_eq.mp (List.mem_takeWhile_imp (p := (· == Digit.zero)) hd)
  refine ⟨(ds.reverse.takeWhile (· == Digit.zero)).length, List.reverse_injective ?_⟩
  rw [List.reverse_append, List.reverse_reverse, List.reverse_replicate,
    ← List.eq_replicate_of_mem hzeros, List.takeWhile_append_dropWhile]

/-- Taking zeros off the end keeps the value. -/
theorem value_ofScaled (c : ℕ) (i : ℤ) : (ofScaled c i).value = c * 10 ^ i := by
  obtain ⟨n, hn⟩ := exists_trailing_zeros (Digits.ofNat c)
  have hvalue := Digits.toNat_ofNat c
  simp only [value, ofScaled]
  set es := ((Digits.ofNat c).reverse.dropWhile (· == Digit.zero)).reverse
  rw [hn, Digits.toNat_append, Digits.toNat_replicate_zero, List.length_replicate,
    Nat.add_zero] at hvalue
  have hscale : i + ((Digits.ofNat c).length : ℤ) - 1 + 1 - es.length = n + i := by
    rw [hn, List.length_append, List.length_replicate]
    push_cast
    ring
  rw [hscale, zpow_add₀ (by norm_num), zpow_natCast, ← mul_assoc]
  congr 1
  exact_mod_cast hvalue

/-- A number other than zero has digits that start with another digit than zero. -/
theorem proper_ofScaled {c : ℕ} (h : c ≠ 0) (i : ℤ) : (ofScaled c i).Proper := by
  obtain ⟨n, hn⟩ := exists_trailing_zeros (Digits.ofNat c)
  obtain ⟨d, ds, hds, hd, -⟩ := Digits.exists_ofNat_eq_cons h
  simp only [Proper, ofScaled]
  set es := ((Digits.ofNat c).reverse.dropWhile (· == Digit.zero)).reverse
  cases hes : es with
  | nil =>
    -- a row of zeros stands for no other number than zero
    have hzero := Digits.toNat_ofNat c
    rw [hn, hes, List.nil_append, Digits.toNat_replicate_zero] at hzero
    exact absurd hzero.symm h
  | cons e fs =>
    rw [hes, hds, List.cons_append] at hn
    exact ⟨e, fs, rfl, .inl ((List.cons.inj hn).1 ▸ hd)⟩

end Decimal

/-! ### Windows -/

namespace Window

/-- The number that is found nearest is in the window. -/
theorem contains_of_nearest? {w : Window} {tie : Tie} {i : ℤ} {c : ℕ}
    (h : w.nearest? tie i = some c) : w.contains c i = true := by
  simp only [nearest?] at h
  set b := w.value * Nat.pow 10 (-i).toNat / (w.den * Nat.pow 10 i.toNat)
  -- neither, one or both of the two multiples next to the number can be in the window
  split at h
  · cases h
  · next hfirst _ => exact Option.some.inj h ▸ hfirst
  · next _ hsecond => exact Option.some.inj h ▸ hsecond
  · next hfirst hsecond =>
    have hboth : c = b ∨ c = b + 1 := by
      split at h
      · exact .inl (Option.some.inj h).symm
      · exact .inr (Option.some.inj h).symm
      · cases tie with
        | up => exact .inr (Option.some.inj h).symm
        | even =>
          simp only [] at h
          split_ifs at h
          · exact .inl (Option.some.inj h).symm
          · exact .inr (Option.some.inj h).symm
    rcases hboth with rfl | rfl
    · exact hfirst
    · exact hsecond

/-- The shortest decimal of a window lies in it, unless the search finds none. -/
theorem shortest_cases (w : Window) (tie : Tie) :
    (∃ c i, w.contains c i = true ∧ w.shortest tie = Decimal.ofScaled c i) ∨
      w.shortest tie = ⟨[Digit.zero], 0⟩ := by
  rw [shortest]
  cases hfind : (List.range 17).findSome? fun (n : Nat) =>
      (w.nearest? tie (w.leading - (n + 1))).map (Decimal.ofScaled · (w.leading - (n + 1))) with
  | none => exact .inr rfl
  | some d =>
    obtain ⟨n, -, hn⟩ := List.exists_of_findSome?_eq_some hfind
    obtain ⟨c, hc, rfl⟩ := Option.map_eq_some_iff.mp hn
    exact .inl ⟨c, _, contains_of_nearest? hc, rfl⟩

/-- What lies in a window is between its ends, and at the upper end only if the window is
    closed. -/
theorem bounds_of_contains {w : Window} {c : ℕ} {i : ℤ} (h : w.contains c i = true) :
    w.low * Nat.pow 10 (-i).toNat ≤ c * Nat.pow 10 i.toNat * w.den ∧
    c * Nat.pow 10 i.toNat * w.den ≤ w.high * Nat.pow 10 (-i).toNat ∧
    (w.closed = false →
      c * Nat.pow 10 i.toNat * w.den < w.high * Nat.pow 10 (-i).toNat) := by
  simp only [contains] at h
  cases hclosed : w.closed with
  | false =>
    rw [hclosed, if_neg (by decide), Bool.and_eq_true, decide_eq_true_iff, decide_eq_true_iff] at h
    exact ⟨h.1.le, h.2.le, fun _ => h.2⟩
  | true =>
    rw [hclosed, if_pos rfl, Bool.and_eq_true, decide_eq_true_iff, decide_eq_true_iff] at h
    exact ⟨h.1, h.2, fun hopen => absurd hopen (by decide)⟩

/-- What is in a window is not above its upper end, and below it if the end does not belong to the
    window. -/
theorem le_of_contains {w : Window} (hden : w.den ≠ 0) {c : ℕ} {i : ℤ}
    (h : w.contains c i = true) :
    (c : ℚ) * 10 ^ i ≤ w.high / w.den ∧
      (w.closed = false → (c : ℚ) * 10 ^ i < w.high / w.den) := by
  obtain ⟨-, hle, hlt⟩ := bounds_of_contains h
  have hden' : (0 : ℚ) < w.den := Nat.cast_pos.mpr (Nat.pos_of_ne_zero hden)
  have hten : (0 : ℚ) < (Nat.pow 10 (-i).toNat : ℕ) := Nat.cast_pos.mpr (Nat.pow_pos (by decide))
  rw [Binary64.scaled_eq_div, div_le_div_iff₀ hten hden', div_lt_div_iff₀ hten hden',
    ← Nat.cast_mul, ← Nat.cast_mul, Nat.cast_le, Nat.cast_lt]
  exact ⟨hle, hlt⟩

/-- Zero is not in a window that ends above it. -/
theorem ne_zero_of_contains {w : Window} (hlow : w.low ≠ 0) {c : ℕ} {i : ℤ}
    (h : w.contains c i = true) : c ≠ 0 := by
  rintro rfl
  obtain ⟨hle, -⟩ := bounds_of_contains h
  have hpos : 0 < w.low * Nat.pow 10 (-i).toNat :=
    Nat.mul_pos (Nat.pos_of_ne_zero hlow) (Nat.pow_pos (by decide))
  rw [Nat.zero_mul, Nat.zero_mul] at hle
  omega

end Window

/-- The window of a number ends half a step above it. -/
theorem high_window (m : Binary64.Magnitude) (narrow : Bool) :
    ((window m narrow).high : ℚ) / (window m narrow).den
      = (m.mantissa + 1 / 2) * 2 ^ m.exponent := by
  have hpow := Binary64.pow_toNat_div two_ne_zero m.exponent
  rw [Nat.cast_ofNat] at hpow
  rw [← hpow]
  simp only [window]
  push_cast
  ring

end Shortest

/-! ### Layouts -/

namespace FloatLayout

open Shortest

variable (layout : FloatLayout) (negative : Bool)

/-- A layout puts no point before nothing. -/
theorem fraction_ne_some_nil (ds : List Digit) : layout.fraction ds ≠ some [] := by
  unfold fraction
  cases ds <;> cases layout.pointZero <;> simp

/-- Digits with a point between them are a numeral in its usual form. -/
theorem wellFormed_place {d : Decimal} (h : d.Proper) : (layout.place negative d).WellFormed := by
  obtain ⟨e, es, hds, he⟩ := h
  unfold place
  split_ifs with hlead
  · exact ⟨⟨Digit.zero, [], rfl, .inl rfl⟩, by simp [hds]⟩
  · refine ⟨?_, layout.fraction_ne_some_nil _⟩
    simp only [hds, List.take_succ_cons, List.cons_append]
    refine ⟨e, _, rfl, ?_⟩
    obtain he | ⟨rfl, hlead⟩ := he
    · exact .inr he
    · exact .inl (by simp [hlead])

/-- So are digits with an exponent. -/
theorem wellFormed_scientific {d : Decimal} (h : d.Proper) :
    (scientific negative d).WellFormed := by
  obtain ⟨e, es, hds, -⟩ := h
  refine ⟨⟨e, [], by simp [scientific, hds], .inl rfl⟩, ?_⟩
  cases es <;> simp [scientific, hds]

/-- A zero after the point does not change the value. -/
theorem toNat_fraction (whole ds : List Digit) :
    (Digits.toNat (whole ++ (layout.fraction ds).getD []) : ℚ)
        * 10 ^ (0 - (((layout.fraction ds).getD []).length : ℤ))
      = Digits.toNat (whole ++ ds) * 10 ^ (-(ds.length : ℤ)) := by
  cases ds with
  | cons d ds => simp [fraction]
  | nil =>
    cases hpoint : layout.pointZero with
    | false => simp [fraction, hpoint]
    | true =>
      have hzero : Digits.toNat [Digit.zero] = 0 := rfl
      simp [fraction, hpoint, Digits.toNat_append, hzero]

/-- Placing the point keeps the number. -/
theorem magnitude_place (d : Decimal) : (layout.place negative d).magnitude = d.value := by
  unfold place
  -- a number below one has zeros between the point and its digits
  split_ifs with hlead
  · have hzeros : Digits.toNat ([Digit.zero]
        ++ (List.replicate (-d.leading - 1).toNat Digit.zero ++ d.digits))
        = Digits.toNat d.digits := by
      rw [← List.append_assoc, Digits.toNat_append, ← List.replicate_one, ← List.replicate_add,
        Digits.toNat_replicate_zero, Nat.zero_mul, Nat.zero_add]
    have hscale : (0 : ℤ) - (List.replicate (-d.leading - 1).toNat Digit.zero ++ d.digits).length
        = d.leading + 1 - d.digits.length := by
      rw [List.length_append, List.length_replicate]
      omega
    simp only [Numeral.magnitude, Numeral.coefficient, Numeral.scale, Decimal.value,
      Option.getD_some, Option.getD_none, hzeros, hscale]
  · simp only [Numeral.magnitude, Numeral.coefficient, Numeral.scale, Option.getD_none]
    rw [toNat_fraction, Decimal.value]
    by_cases hlength : d.digits.length ≤ d.leading.toNat + 1
    · -- all digits stand before the point, with zeros after them
      have hscale : d.leading + 1 - d.digits.length
          = (d.leading.toNat + 1 - d.digits.length : ℕ) := by omega
      rw [List.take_of_length_le hlength, List.drop_eq_nil_of_le hlength, List.append_nil,
        Digits.toNat_append, Digits.toNat_replicate_zero, List.length_replicate, hscale,
        zpow_natCast]
      simp
    · have hscale : d.leading + 1 - d.digits.length
          = -((d.digits.drop (d.leading.toNat + 1)).length : ℤ) := by
        rw [List.length_drop]
        omega
      rw [Nat.sub_eq_zero_of_le (by omega), List.replicate_zero, List.append_nil,
        List.take_append_drop, hscale]

/-- So does an exponent in its place. -/
theorem magnitude_scientific {d : Decimal} (h : d.Proper) :
    (scientific negative d).magnitude = d.value := by
  obtain ⟨e, es, hds, -⟩ := h
  have hscale : d.leading - (es.length : ℤ) = d.leading + 1 - ((e :: es).length : ℤ) := by
    rw [List.length_cons, Nat.cast_add_one]
    ring
  have hfraction : (if es.isEmpty then none else some es : Option (List Digit)).getD [] = es := by
    cases es <;> rfl
  simp only [Numeral.magnitude, Numeral.coefficient, Numeral.scale, Decimal.value, scientific, hds,
    List.take_succ_cons, List.take_zero, List.drop_succ_cons, List.drop_zero, hfraction,
    Option.getD_some, hscale, List.singleton_append]

end FloatLayout

/-! ### Finite numbers -/

namespace Binary64

/-- A finite number has a mantissa of fifty-three bits, and an exponent that is not too large. -/
theorem magnitude?_bounds {x : Binary64} {m : Magnitude} (h : x.magnitude? = some m) :
    m.mantissa < 2 ^ 53 ∧ m.exponent ≤ 971 := by
  have hfraction : x.fractionField < 2 ^ 52 := Nat.mod_lt _ (by decide)
  have hexponent : x.exponentField < 2048 := Nat.mod_lt _ (by decide)
  unfold magnitude? at h
  split_ifs at h with hlast hzero <;> cases h
  · exact ⟨hfraction.trans (by norm_num), by norm_num⟩
  · constructor
    · show fractionRange + x.fractionField < 2 ^ 53
      rw [fractionRange_eq]
      omega
    · show (x.exponentField : ℤ) - 1075 ≤ 971
      omega

/-- The window of a finite number lies below `overflow`.  Only that of the largest number reaches
    up to it, and the mantissa of this number is odd. -/
theorem lt_overflow {x : Binary64} {m : Magnitude} (hm : x.magnitude? = some m) {v : ℚ}
    (hle : v ≤ (m.mantissa + 1 / 2) * 2 ^ m.exponent)
    (hlt : m.mantissa % 2 ≠ 0 → v < (m.mantissa + 1 / 2) * 2 ^ m.exponent) : v < overflow := by
  obtain ⟨hmantissa, hexponent⟩ := magnitude?_bounds hm
  have htop : overflow = (2 ^ 53 - 1 / 2) * 2 ^ (971 : ℤ) := by
    rw [overflow, show (971 : ℤ) = 970 + 1 by norm_num, zpow_add₀ two_ne_zero]
    ring
  have hpow : (m.mantissa + 1 / 2) * (2 : ℚ) ^ m.exponent
      ≤ (m.mantissa + 1 / 2) * 2 ^ (971 : ℤ) :=
    mul_le_mul_of_nonneg_left (zpow_le_zpow_right₀ one_le_two hexponent) (by positivity)
  have hpos : (0 : ℚ) < 2 ^ (971 : ℤ) := zpow_pos two_pos _
  rw [htop]
  -- an even mantissa may reach the end of its window, but it is not the largest one
  by_cases heven : m.mantissa % 2 = 0
  · have hcast : ((m.mantissa + 1 : ℕ) : ℚ) < (2 ^ 53 : ℕ) := Nat.cast_lt.mpr (by omega)
    push_cast at hcast
    refine (hle.trans hpow).trans_lt (mul_lt_mul_of_pos_right ?_ hpos)
    linarith only [hcast]
  · have hcast : ((m.mantissa + 1 : ℕ) : ℚ) ≤ (2 ^ 53 : ℕ) := Nat.cast_le.mpr hmantissa
    push_cast at hcast
    refine ((hlt heven).trans_le hpow).trans_le (mul_le_mul_of_nonneg_right ?_ hpos.le)
    linarith only [hcast]

theorem overflow_pos : 0 < overflow := mul_pos (by norm_num) (zpow_pos two_pos _)

/-- The shortest digits of a finite number start with another digit than zero, and stay below the
    bound of overflow. -/
theorem shortest_of_magnitude? {x : Binary64} {m : Magnitude} (hm : x.magnitude? = some m)
    (hne : m.mantissa ≠ 0) (narrow : Bool) (tie : Tie) :
    ((Shortest.window m narrow).shortest tie).Proper ∧
      ((Shortest.window m narrow).shortest tie).value < overflow := by
  have hlow : (Shortest.window m narrow).low ≠ 0 := by
    refine Nat.mul_ne_zero ?_ (Nat.pow_pos two_pos).ne'
    cases narrow <;> simp <;> omega
  have hden : (Shortest.window m narrow).den ≠ 0 :=
    Nat.mul_ne_zero (by decide) (Nat.pow_pos two_pos).ne'
  obtain ⟨c, i, hc, heq⟩ | heq := (Shortest.window m narrow).shortest_cases tie
  · obtain ⟨hle, hlt⟩ := Shortest.Window.le_of_contains hden hc
    rw [Shortest.high_window] at hle hlt
    rw [heq, Shortest.Decimal.value_ofScaled]
    refine ⟨Shortest.Decimal.proper_ofScaled (Shortest.Window.ne_zero_of_contains hlow hc) i,
      lt_overflow hm hle fun hodd => hlt ?_⟩
    simpa [Shortest.window] using hodd
  · rw [heq]
    refine ⟨⟨Digit.zero, [], rfl, .inr ⟨rfl, rfl⟩⟩, ?_⟩
    have hvalue : Shortest.Decimal.value ⟨[Digit.zero], 0⟩ = 0 := zero_mul _
    rw [hvalue]
    exact overflow_pos

/-- **Written numbers.**  A finite number is written as a well-formed numeral, which is read as a
    finite number again. -/
theorem numeral?_eq_some {layout : FloatLayout} {x : Binary64} {n : Numeral}
    (h : layout.numeral? x = some n) : n.WellFormed ∧ (ofNumeral n).isInfinite = false := by
  suffices hn : n.WellFormed ∧ n.magnitude < overflow from ⟨hn.1, isInfinite_ofNumeral hn.2⟩
  obtain ⟨m, hm, rfl⟩ := Option.map_eq_some_iff.mp h
  split_ifs with hzero
  · refine ⟨⟨⟨Digit.zero, [], rfl, .inl rfl⟩, layout.fraction_ne_some_nil []⟩, ?_⟩
    have hvalue := layout.toNat_fraction [Digit.zero] []
    rw [show Digits.toNat ([Digit.zero] ++ []) = 0 from rfl, Nat.cast_zero, zero_mul] at hvalue
    exact hvalue.trans_lt overflow_pos
  · obtain ⟨hproper, hlt⟩ := shortest_of_magnitude? hm hzero x.hasNarrowLowerGap layout.tie
    dsimp only
    split_ifs
    · refine ⟨layout.wellFormed_place x.isNegative hproper, ?_⟩
      rw [layout.magnitude_place]
      exact hlt
    · refine ⟨FloatLayout.wellFormed_scientific x.isNegative hproper, ?_⟩
      rw [FloatLayout.magnitude_scientific x.isNegative hproper]
      exact hlt

end Binary64

end TypedForest
