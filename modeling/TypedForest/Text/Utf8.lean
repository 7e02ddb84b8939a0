import TypedForest.Number.Numeral

namespace TypedForest

/-!
# UTF-8

Texts as bytes and back.  `Utf8.decode` tells where bytes stop being UTF-8: after
`index` good bytes come bytes that no character starts with, or the beginning of a
character that the bytes end in.
-/

namespace Utf8

/-- The bytes of a text. -/
def encode (s : String) : List UInt8 := s.toList.flatMap String.utf8EncodeChar

/-- Why bytes are not UTF-8. -/
inductive Fault
  /-- The bytes from `index` on, `length` of them, start no character. -/
  | invalid (length index : Nat)
  /-- The bytes end inside the character that starts at `index`. -/
  | incomplete (index : Nat)
deriving DecidableEq, Repr

/-- The wording of a fault. -/
def Fault.message : Fault → String
  | invalid length index =>
    "invalid utf-8 sequence of " ++ decimalText length ++ " bytes from index " ++ decimalText index
  | incomplete index => "incomplete utf-8 byte sequence from index " ++ decimalText index

/-- Whether a byte goes on with a character. -/
def isTail (b : UInt8) : Bool := decide (0x80 ≤ b) && decide (b ≤ 0xBF)

/-- Whether `b` may follow the first byte `a` of a character of three or four bytes: some
    first bytes leave out what has a shorter form, the surrogates, or what is too
    large. -/
def isSecond (a b : UInt8) : Bool :=
  if a = 0xE0 then decide (0xA0 ≤ b) && decide (b ≤ 0xBF)
  else if a = 0xED then decide (0x80 ≤ b) && decide (b ≤ 0x9F)
  else if a = 0xF0 then decide (0x90 ≤ b) && decide (b ≤ 0xBF)
  else if a = 0xF4 then decide (0x80 ≤ b) && decide (b ≤ 0x8F)
  else isTail b

/-- The character of two bytes. -/
def char2 (a b : UInt8) : Char := Char.ofNat ((a.toNat - 0xC0) * 64 + (b.toNat - 0x80))

/-- The character of three bytes. -/
def char3 (a b c : UInt8) : Char :=
  Char.ofNat (((a.toNat - 0xE0) * 64 + (b.toNat - 0x80)) * 64 + (c.toNat - 0x80))

/-- The character of four bytes. -/
def char4 (a b c d : UInt8) : Char :=
  Char.ofNat ((((a.toNat - 0xF0) * 64 + (b.toNat - 0x80)) * 64 + (c.toNat - 0x80)) * 64
    + (d.toNat - 0x80))

/-- The characters of the bytes from `index` on, after the characters in `done`, which
    stand last one first. -/
def decodeFrom (index : Nat) (done : List Char) : List UInt8 → Except Fault (List Char)
  | [] => .ok done.reverse
  | a :: rest =>
    if a ≤ 0x7F then decodeFrom (index + 1) (Char.ofNat a.toNat :: done) rest
    else if 0xC2 ≤ a ∧ a ≤ 0xDF then
      match rest with
      | [] => .error (.incomplete index)
      | b :: rest =>
        if isTail b then decodeFrom (index + 2) (char2 a b :: done) rest
        else .error (.invalid 1 index)
    else if 0xE0 ≤ a ∧ a ≤ 0xEF then
      match rest with
      | [] => .error (.incomplete index)
      | [b] => .error (if isSecond a b then .incomplete index else .invalid 1 index)
      | b :: c :: rest =>
        if !isSecond a b then .error (.invalid 1 index)
        else if !isTail c then .error (.invalid 2 index)
        else decodeFrom (index + 3) (char3 a b c :: done) rest
    else if 0xF0 ≤ a ∧ a ≤ 0xF4 then
      match rest with
      | [] => .error (.incomplete index)
      | [b] => .error (if isSecond a b then .incomplete index else .invalid 1 index)
      | [b, c] =>
        .error (if !isSecond a b then .invalid 1 index
          else if isTail c then .incomplete index else .invalid 2 index)
      | b :: c :: d :: rest =>
        if !isSecond a b then .error (.invalid 1 index)
        else if !isTail c then .error (.invalid 2 index)
        else if !isTail d then .error (.invalid 3 index)
        else decodeFrom (index + 4) (char4 a b c d :: done) rest
    else .error (.invalid 1 index)

/-- The text of bytes. -/
def decode (data : List UInt8) : Except Fault String :=
  (decodeFrom 0 [] data).map String.ofList

end Utf8

end TypedForest
