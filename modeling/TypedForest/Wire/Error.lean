import TypedForest.Store.Error
import TypedForest.Text.Utf8

namespace TypedForest

/-!
# What can be wrong with bytes
-/

namespace Wire

/-- The part of the format that was being read. -/
inductive Field
  | magic
  | formatVersion
  | rootNode
  | kindName
  | valueCount
  | noteCount
  | noteKey
  | slotCount
  | slotTag
  | listLength
  | valueTag
  | bool
  | int
  | float
  | string
  | bytesLength
  | bytes
deriving DecidableEq, Repr

/-- The wording of a part. -/
def Field.text : Field → String
  | magic => "magic"
  | formatVersion => "format version"
  | rootNode => "root node"
  | kindName => "kind name"
  | valueCount => "value count"
  | noteCount => "note count"
  | noteKey => "note key"
  | slotCount => "slot count"
  | slotTag => "slot tag"
  | listLength => "list length"
  | valueTag => "value tag"
  | bool => "bool"
  | int => "int"
  | float => "float"
  | string => "string"
  | bytesLength => "bytes length"
  | bytes => "bytes"

/-- The most lists that may stand inside each other in a value. -/
def maxValueDepth : Nat := 128

/-- How bytes break the format. -/
inductive Fault
  | trailingBytes (count : Nat)
  | unknownSlotTag (tag : UInt8)
  | unknownValueTag (tag : UInt8)
  | invalidBool (byte : UInt8)
  | valueTooDeep
  | valueCount (kind : String) (expected found : Nat)
  | slotCount (kind : String) (expected found : Nat)
  | notUtf8 (field : Field) (fault : Utf8.Fault)
  | varintOverflow (field : Field)
deriving DecidableEq, Repr

/-- A byte in hexadecimal with two digits. -/
def hexByte (b : UInt8) : String :=
  "0x" ++ String.ofList [Nat.digitChar (b.toNat / 16), Nat.digitChar (b.toNat % 16)]

/-- The wording of a fault. -/
def Fault.message : Fault → String
  | trailingBytes count => decimalText count ++ " trailing bytes after the root node"
  | unknownSlotTag tag => "unknown slot tag " ++ hexByte tag
  | unknownValueTag tag => "unknown value tag " ++ hexByte tag
  | invalidBool byte => "invalid bool byte " ++ hexByte byte
  | valueTooDeep => "value nests more than " ++ decimalText maxValueDepth ++ " lists"
  | valueCount kind expected found =>
    s!"kind `{kind}` has " ++ decimalText expected ++ " value slots, input has "
      ++ decimalText found
  | slotCount kind expected found =>
    s!"kind `{kind}` has " ++ decimalText expected ++ " child slots, input has "
      ++ decimalText found
  | notUtf8 field fault => field.text ++ " is not UTF-8: " ++ fault.message
  | varintOverflow field => field.text ++ " varint overflows 64 bits"

end Wire

/-- Why a tree cannot be written to bytes or read from them. -/
inductive WireError
  | badMagic
  | unsupportedVersion (version : UInt8)
  | truncated (field : Wire.Field)
  | malformed (fault : Wire.Fault)
  | unknownKind (name : String)
  | rejected (error : NodeError)
deriving DecidableEq, Repr

/-- The wording of an error. -/
def WireError.message : WireError → String
  | badMagic => "input does not start with the tree format magic"
  | unsupportedVersion version =>
    "unsupported tree format version " ++ decimalText version.toNat
  | truncated field => "input ended unexpectedly while reading " ++ field.text
  | malformed fault => "malformed input: " ++ fault.message
  | unknownKind name => s!"encoded kind `{name}` is not registered"
  | rejected error => "decoded content was rejected: " ++ error.message

end TypedForest
