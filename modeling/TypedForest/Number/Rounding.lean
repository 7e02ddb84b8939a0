import TypedForest.Number.Binary64
import TypedForest.Number.Numeral

namespace TypedForest

/-!
# Reading a decimal as a floating-point number

`Binary64.ofNumeral` rounds a written number to the nearest 64-bit number, a half
to the even neighbour, in exact arithmetic.  A number too large for the format
becomes an infinity, one too small becomes a zero of its sign.
-/

namespace Binary64

/-- The bits, sign apart, of the largest exponent: those of an infinity. -/
def infinityBits : Nat := 2047 * fractionRange

/-- A quotient rounded to the nearest integer, a half to the even one. -/
def roundDiv (num den : Nat) : Nat :=
  let q := num / den
  let r := num % den
  if 2 * r < den then q
  else if den < 2 * r then q + 1
  else if q % 2 = 0 then q else q + 1

/-- The unit in the last place for a positive quotient: the power of two that
    leaves fifty-three binary digits before the point, but at least `2 ^ -1074`. -/
def unitExponent (num den : Nat) : Int :=
  let t : Int := max ((Nat.log2 num : Int) - Nat.log2 den - 53) (-1074)
  if num * Nat.pow 2 (-t).toNat / (den * Nat.pow 2 t.toNat) < 2 * fractionRange then t
  else t + 1

/-- The bits, sign apart, of the number nearest to a positive quotient. -/
def restOfRatio (num den : Nat) : Nat :=
  let q := unitExponent num den
  let m := roundDiv (num * Nat.pow 2 (-q).toNat) (den * Nat.pow 2 q.toNat)
  if m < fractionRange then m
  else min ((q + 1074).toNat * fractionRange + m) infinityBits

/-- The bits, sign apart, of the number nearest to `c * 10 ^ e`.  Outside the range
    of exponents that the format can hold, the answer is known without computing
    the power of ten. -/
def restOfScaled (c : Nat) (e : Int) : Nat :=
  let leading := e + (Digits.ofNat c).length
  if c = 0 then 0
  else if 310 < leading then infinityBits
  else if leading < -330 then 0
  else restOfRatio (c * Nat.pow 10 e.toNat) (Nat.pow 10 (-e).toNat)

/-- The 64-bit number nearest to a written number. -/
def ofNumeral (n : Numeral) : Binary64 :=
  ofSignAndRest n.negative (restOfScaled n.coefficient n.scale)

end Binary64

end TypedForest
