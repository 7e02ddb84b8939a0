import TypedForest.Wire.Error

namespace TypedForest.Wire

/-!
# Variable-length integers

An integer is written in groups of seven bits, the lowest group first, one group in
each byte; the top bit of a byte says that another byte follows.  Writing uses as few
bytes as possible.  Reading takes longer forms as well, up to ten bytes, the last of
which may only hold what still fits in 64 bits.
-/

/-! ### Writing -/

/-- The bytes of a natural number. -/
def writeUnsigned (n : Nat) : List UInt8 :=
  if n < 128 then [UInt8.ofNat n]
  else UInt8.ofNat (n % 128 + 128) :: writeUnsigned (n / 128)
termination_by n
decreasing_by omega

/-- The bytes of an integer: the last group has the sign in its top bit. -/
def writeSigned (i : Int) : List UInt8 :=
  if -64 ≤ i ∧ i < 64 then [UInt8.ofNat (i % 128).toNat]
  else UInt8.ofNat ((i % 128).toNat + 128) :: writeSigned (i / 128)
termination_by i.natAbs
decreasing_by omega

/-! ### Reading -/

/-- A reader takes bytes off the front and returns what they mean with the rest. -/
abbrev Reader (α : Type) := StateT (List UInt8) (Except WireError) α

/-- Fails whatever the bytes are. -/
def Reader.fail {α : Type} (e : WireError) : Reader α := fun _ => .error e

/-- Skips the rest of a number that is too long, and reports it. -/
def overflow {α : Type} (field : Field) (last : UInt8) : Reader α
  | [] => .error (if last < 128 then .malformed (.varintOverflow field) else .truncated field)
  | b :: rest =>
    if last < 128 then .error (.malformed (.varintOverflow field)) else overflow field b rest

/-- The bytes of one number.  After `n` more bytes comes the last that a 64-bit number can
    have, which must be one of those that `allowed` admits. -/
def readGroups (allowed : UInt8 → Bool) (field : Field) : (n : Nat) → Reader (List UInt8)
  | _, [] => .error (.truncated field)
  | 0, b :: rest => if allowed b then .ok ([b], rest) else overflow field b rest
  | n + 1, b :: rest =>
    if b < 128 then .ok ([b], rest)
    else
      match readGroups allowed field n rest with
      | .error e => .error e
      | .ok (bs, rest) => .ok (b :: bs, rest)

/-- The number that groups stand for, without sign. -/
def groupsToNat : List UInt8 → Nat
  | [] => 0
  | b :: bs => b.toNat % 128 + 128 * groupsToNat bs

/-- Whether the last group has its top bit set. -/
def signBit : List UInt8 → Bool
  | [] => false
  | [b] => decide (b.toNat / 64 % 2 = 1)
  | _ :: b :: bs => signBit (b :: bs)

/-- The number that groups stand for when the top bit of the last one is the sign. -/
def groupsToInt (bs : List UInt8) : Int :=
  if signBit bs then (groupsToNat bs : Int) - Nat.pow 128 bs.length else groupsToNat bs

/-- A natural number below `2 ^ 64`. -/
def readUnsigned (field : Field) : Reader Nat := do
  let bs ← readGroups (fun b => b == 0x00 || b == 0x01) field 9
  return groupsToNat bs

/-- An integer of 64 bits. -/
def readSigned (field : Field) : Reader Int64 := do
  let bs ← readGroups (fun b => b == 0x00 || b == 0x7F) field 9
  return Int64.ofInt (groupsToInt bs)

end TypedForest.Wire
