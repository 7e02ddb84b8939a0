import TypedForest.Number.Binary64
import TypedForest.Number.Numeral

namespace TypedForest

/-!
# The fewest digits that read back

`Shortest.digits` finds the decimal with the fewest digits among those that
round to a given number.  The numbers that round to `m * 2 ^ q` form an interval
(`Shortest.Window`), whose ends belong to it when `m` is even.  For one digit,
then two, and so on, the two neighbours of the number with that many digits are
tested; the first hit is the answer, of two hits the nearer one.
-/

/-- Which of two equally near decimals is taken. -/
inductive Tie
  /-- The larger one. -/
  | up
  /-- The one whose last digit is even. -/
  | even
deriving DecidableEq, Repr

namespace Shortest

/-- The reals that round to a number: from `low / den` to `high / den`, the number
    itself being `value / den`. -/
structure Window where
  low : Nat
  value : Nat
  high : Nat
  den : Nat
  /-- Whether the two ends round to the number as well. -/
  closed : Bool
deriving DecidableEq, Repr

/-- The window around `m * 2 ^ q`, in quarters of `2 ^ q`: half a step up, and half
    a step or a quarter of one down. -/
def window (m : Binary64.Magnitude) (narrow : Bool) : Window :=
  let scale := Nat.pow 2 m.exponent.toNat
  { low := (4 * m.mantissa - if narrow then 1 else 2) * scale
    value := 4 * m.mantissa * scale
    high := (4 * m.mantissa + 2) * scale
    den := 4 * Nat.pow 2 (-m.exponent).toNat
    closed := m.mantissa % 2 == 0 }

/-- Whether `c * 10 ^ i` lies in the window. -/
def Window.contains (w : Window) (c : Nat) (i : Int) : Bool :=
  let point := c * Nat.pow 10 i.toNat * w.den
  let low := w.low * Nat.pow 10 (-i).toNat
  let high := w.high * Nat.pow 10 (-i).toNat
  if w.closed then decide (low ≤ point) && decide (point ≤ high)
  else decide (low < point) && decide (point < high)

/-- Whether the window's number is below `10 ^ k`. -/
def Window.below (w : Window) (k : Int) : Bool :=
  decide (w.value * Nat.pow 10 (-k).toNat < Nat.pow 10 k.toNat * w.den)

/-- The least `k` with the number below `10 ^ k`.  The search starts just under an
    estimate from the binary exponent, where `1233 / 4096` stands for `log 2`. -/
def Window.leading (w : Window) : Int :=
  let estimate := ((Nat.log2 w.value : Int) - Nat.log2 w.den) * 1233 / 4096
  ((List.range 6).map fun (j : Nat) => estimate - 2 + j).find? w.below |>.getD estimate

/-- The multiple of `10 ^ i` next to the number and inside the window, if any. -/
def Window.nearest? (w : Window) (tie : Tie) (i : Int) : Option Nat :=
  let num := w.value * Nat.pow 10 (-i).toNat
  let den := w.den * Nat.pow 10 i.toNat
  let c := num / den
  match w.contains c i, w.contains (c + 1) i with
  | false, false => none
  | true, false => some c
  | false, true => some (c + 1)
  | true, true =>
    match compare (2 * num) ((2 * c + 1) * den) with
    | .lt => some c
    | .gt => some (c + 1)
    | .eq =>
      match tie with
      | .up => some (c + 1)
      | .even => if c % 2 = 0 then some c else some (c + 1)

/-- A positive decimal: its digits, the first of which counts `10 ^ leading`. -/
structure Decimal where
  digits : List Digit
  leading : Int
deriving DecidableEq, Repr

/-- The decimal `c * 10 ^ i`, without trailing zeros. -/
def Decimal.ofScaled (c : Nat) (i : Int) : Decimal :=
  let ds := Digits.ofNat c
  ⟨(ds.reverse.dropWhile (· == Digit.zero)).reverse, i + ds.length - 1⟩

/-- The decimal with the fewest digits in the window; seventeen always suffice. -/
def Window.shortest (w : Window) (tie : Tie) : Decimal :=
  let k := w.leading
  ((List.range 17).findSome? fun (n : Nat) =>
    (w.nearest? tie (k - (n + 1))).map (Decimal.ofScaled · (k - (n + 1))))
    |>.getD ⟨[Digit.zero], 0⟩

end Shortest

/-- How a floating-point number is laid out in a text. -/
structure FloatLayout where
  /-- Which of two equally near shortest decimals is written. -/
  tie : Tie
  /-- Whether a number whose first digit counts `10 ^ e` is written without a power
      of ten. -/
  positional : Int → Bool
  /-- Whether a whole number is written with `.0`. -/
  pointZero : Bool

namespace FloatLayout

/-- The digits after the point, if there are any or `.0` is asked for. -/
def fraction (layout : FloatLayout) (ds : List Digit) : Option (List Digit) :=
  if ds.isEmpty then (if layout.pointZero then some [Digit.zero] else none) else some ds

/-- A decimal without a power of ten. -/
def place (layout : FloatLayout) (negative : Bool) (d : Shortest.Decimal) : Numeral :=
  if d.leading < 0 then
    ⟨negative, [Digit.zero],
      some (List.replicate (-d.leading - 1).toNat Digit.zero ++ d.digits), none⟩
  else
    let width := d.leading.toNat + 1
    ⟨negative, d.digits.take width ++ List.replicate (width - d.digits.length) Digit.zero,
      layout.fraction (d.digits.drop width), none⟩

/-- A decimal with one digit before the point and a power of ten. -/
def scientific (negative : Bool) (d : Shortest.Decimal) : Numeral :=
  ⟨negative, d.digits.take 1,
    if (d.digits.drop 1).isEmpty then none else some (d.digits.drop 1), some d.leading⟩

/-- The numeral of a finite number; `none` for infinities and not-a-number. -/
def numeral? (layout : FloatLayout) (x : Binary64) : Option Numeral :=
  x.magnitude?.map fun m =>
    if m.mantissa = 0 then ⟨x.isNegative, [Digit.zero], layout.fraction [], none⟩
    else
      let d := (Shortest.window m x.hasNarrowLowerGap).shortest layout.tie
      if layout.positional d.leading then layout.place x.isNegative d
      else scientific x.isNegative d

end FloatLayout

end TypedForest
