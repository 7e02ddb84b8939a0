import TypedForest.Wire.Error

namespace TypedForest.Wire

/-!
# The byte format

Four magic bytes and a version byte come first, then the root node.  A node is

* the name of its kind,
* the number of its values and the values,
* the number of its notes and, in the order of the keys, each key with its value,
* the number of its child slots and the slots.

A slot starts with a tag for "no node", "one node" or "a list of nodes"; a list has its
length in front.  A value starts with a tag for its form.  Texts are in UTF-8 with their
length in bytes in front, floating-point numbers are eight bytes, the lowest first, and
all other numbers have variable length.
-/

/-- The bytes that every tree in this format starts with. -/
def magic : List UInt8 := [0x41, 0x52, 0x42, 0x52]

/-- The version of the format. -/
def version : UInt8 := 1

namespace Tag

def null : UInt8 := 0x00
def bool : UInt8 := 0x01
def int : UInt8 := 0x02
def float : UInt8 := 0x03
def str : UInt8 := 0x04
def bytes : UInt8 := 0x05
def list : UInt8 := 0x06

/-- A slot without a node. -/
def slotVacant : UInt8 := 0x00

/-- A slot with one node. -/
def slotOne : UInt8 := 0x01

/-- A slot with a list of nodes. -/
def slotMany : UInt8 := 0x02

end Tag

/-- The `n` lowest bytes of a number, the lowest first. -/
def littleEndian : (n : Nat) → Nat → List UInt8
  | 0, _ => []
  | n + 1, x => UInt8.ofNat (x % 256) :: littleEndian n (x / 256)

/-- The number of bytes that stand lowest first. -/
def ofLittleEndian : List UInt8 → Nat
  | [] => 0
  | b :: bs => b.toNat + 256 * ofLittleEndian bs

end TypedForest.Wire
