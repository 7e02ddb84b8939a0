namespace TypedForest

/-!
# Written numbers

A `Numeral` is a number as it stands in a text: a sign, the digits before the
point, the digits after it and a power of ten.  It is what a number printer
produces and a number reader returns; `Numeral.render` is its one spelling here.
-/

/-- A decimal digit. -/
abbrev Digit := Fin 10

namespace Digit

/-- The digit zero. -/
def zero : Digit := ⟨0, by decide⟩

/-- The character of a digit. -/
def toChar (d : Digit) : Char := Char.ofNat ('0'.toNat + d.val)

/-- The digit that a character stands for. -/
def ofChar? (c : Char) : Option Digit :=
  if h : '0'.toNat ≤ c.toNat ∧ c.toNat ≤ '9'.toNat then
    some ⟨c.toNat - '0'.toNat, by
      have h9 : '9'.toNat = 57 := rfl
      have h0 : '0'.toNat = 48 := rfl
      omega⟩
  else none

end Digit

namespace Digits

/-- The decimal digits of a number, most significant first. -/
def ofNat (n : Nat) : List Digit :=
  if h : n < 10 then [⟨n, h⟩]
  else ofNat (n / 10) ++ [⟨n % 10, Nat.mod_lt _ (by decide)⟩]
termination_by n
decreasing_by omega

/-- The number that a row of digits stands for. -/
def toNat (ds : List Digit) : Nat := ds.foldl (fun n d => 10 * n + d.val) 0

/-- The characters of a row of digits. -/
def render (ds : List Digit) : List Char := ds.map Digit.toChar

end Digits

/-- The decimal spelling of a natural number. -/
def decimalText (n : Nat) : String := String.ofList (Digits.render (Digits.ofNat n))

/-- The decimal spelling of an integer. -/
def signedText (i : Int) : String :=
  if i < 0 then "-" ++ decimalText i.natAbs else decimalText i.natAbs

/-- A number as written: sign, digits before the point, digits after the point
    if there is one, power of ten if there is one. -/
structure Numeral where
  negative : Bool
  whole : List Digit
  fraction : Option (List Digit)
  exponent : Option Int
deriving DecidableEq, Repr

namespace Numeral

/-- The numeral of an integer. -/
def ofInt (i : Int) : Numeral := ⟨decide (i < 0), Digits.ofNat i.natAbs, none, none⟩

/-- Written without point and without power of ten. -/
def isInteger (n : Numeral) : Bool := n.fraction.isNone && n.exponent.isNone

/-- All digits read as one number. -/
def coefficient (n : Numeral) : Nat := Digits.toNat (n.whole ++ n.fraction.getD [])

/-- The power of ten by which `coefficient` is scaled. -/
def scale (n : Numeral) : Int := n.exponent.getD 0 - (n.fraction.getD []).length

/-- The integer that is written, if no point and no power of ten occur.  A
    negative zero is no integer: its sign would be lost. -/
def toInt? (n : Numeral) : Option Int :=
  if !n.isInteger then none
  else if n.negative then
    if n.coefficient = 0 then none else some (-(n.coefficient : Int))
  else some n.coefficient

/-- The power of ten as written: always with a sign. -/
def renderExponent (e : Int) : List Char :=
  'e' :: (if e < 0 then '-' else '+') :: Digits.render (Digits.ofNat e.natAbs)

/-- The spelling of a numeral. -/
def render (n : Numeral) : List Char :=
  (if n.negative then ['-'] else []) ++ Digits.render n.whole
    ++ (n.fraction.map fun ds => '.' :: Digits.render ds).getD []
    ++ (n.exponent.map renderExponent).getD []

end Numeral

end TypedForest
