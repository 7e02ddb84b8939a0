namespace TypedForest

/-!
# Ignorable characters

The code points with the property `Default_Ignorable_Code_Point` in version 17.0 of
the Unicode character database: characters that leave no trace when they are shown
and not supported.  Most of them are format characters, marks or unassigned; the
fillers of the Hangul scripts are letters.
-/

namespace DefaultIgnorable

/-- All ranges, first and last code point, in ascending order. -/
def ranges : List (Nat × Nat) :=
  [(0x00AD, 0x00AD), (0x034F, 0x034F), (0x061C, 0x061C), (0x115F, 0x1160), (0x17B4, 0x17B5),
   (0x180B, 0x180F), (0x200B, 0x200F), (0x202A, 0x202E), (0x2060, 0x206F), (0x3164, 0x3164),
   (0xFE00, 0xFE0F), (0xFEFF, 0xFEFF), (0xFFA0, 0xFFA0), (0xFFF0, 0xFFF8), (0x1BCA0, 0x1BCA3),
   (0x1D173, 0x1D17A), (0xE0000, 0xE0FFF)]

end DefaultIgnorable

/-- Whether a character leaves no trace when it is shown and not supported. -/
def isDefaultIgnorable (c : Char) : Bool :=
  DefaultIgnorable.ranges.any fun r => decide (r.1 ≤ c.toNat) && decide (c.toNat ≤ r.2)

end TypedForest
