namespace TypedForest

/-!
# 64-bit floating-point patterns

A floating-point value is kept as its bit pattern, so that equality of patterns
tells apart the two zeros and the payloads of not-a-number.  The numeric reading
of a pattern (`Binary64.magnitude?`) and numeric equality (`Binary64.numEq`) are
functions of the pattern.
-/

/-- A 64-bit binary floating-point number, held as its bit pattern. -/
structure Binary64 where
  bits : UInt64
deriving DecidableEq, Repr, Inhabited

namespace Binary64

/-- The first number that the fifty-two fraction bits cannot hold: `2 ^ 52`. -/
def fractionRange : Nat := 0x10000000000000

/-- The first number that the bits below the sign cannot hold: `2 ^ 63`. -/
def signRange : Nat := 0x8000000000000000

/-- The eleven exponent bits. -/
def exponentField (x : Binary64) : Nat := x.bits.toNat / fractionRange % 2048

/-- The fifty-two fraction bits. -/
def fractionField (x : Binary64) : Nat := x.bits.toNat % fractionRange

/-- Whether the sign bit is set. -/
def isNegative (x : Binary64) : Bool := decide (signRange ≤ x.bits.toNat)

/-- Not a number: the largest exponent with a nonzero fraction. -/
def isNaN (x : Binary64) : Bool := x.exponentField == 2047 && x.fractionField != 0

/-- Infinite: the largest exponent with fraction zero. -/
def isInfinite (x : Binary64) : Bool := x.exponentField == 2047 && x.fractionField == 0

/-- One of the two zeros. -/
def isZero (x : Binary64) : Bool := x.exponentField == 0 && x.fractionField == 0

/-- Numeric equality: the two zeros are equal, and not-a-number differs from
    everything, itself included. -/
def numEq (x y : Binary64) : Bool :=
  !x.isNaN && !y.isNaN && (x == y || x.isZero && y.isZero)

/-- A nonnegative number `mantissa * 2 ^ exponent`. -/
structure Magnitude where
  mantissa : Nat
  exponent : Int
deriving DecidableEq, Repr

/-- The absolute value of a finite number; `none` for infinities and
    not-a-number. -/
def magnitude? (x : Binary64) : Option Magnitude :=
  if x.exponentField = 2047 then none
  else if x.exponentField = 0 then some ⟨x.fractionField, -1074⟩
  else some ⟨fractionRange + x.fractionField, x.exponentField - 1075⟩

/-- Whether the next smaller number is nearer than the next larger one, which is
    so at the powers of two above the least normal number. -/
def hasNarrowLowerGap (x : Binary64) : Bool :=
  decide (1 < x.exponentField) && x.fractionField == 0

/-- The number with the given sign and the given remaining 63 bits. -/
def ofSignAndRest (negative : Bool) (rest : Nat) : Binary64 :=
  ⟨UInt64.ofNat ((if negative then signRange else 0) + rest)⟩

end Binary64

end TypedForest
