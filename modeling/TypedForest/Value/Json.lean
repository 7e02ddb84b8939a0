import TypedForest.Json.Printer
import TypedForest.Json.Reader
import TypedForest.Number.Rounding
import TypedForest.Number.Shortest
import TypedForest.Value.Basic

namespace TypedForest

/-!
# Values and types as JSON

A value is an object with one field, whose name says which form of value it is;
a form without content is written as its bare name.  Reading also takes the object
with a `null` in it for such a form.

* `Json.maxDepth` : readers follow at most so many documents inside each other.
-/

/-- The number of arrays and objects that may stand inside each other in a document
    that is read. -/
def Json.maxDepth : Nat := 127

namespace Json

/-- Numbers in documents have the fewest digits that read back and are written with
    a power of ten below `1e-5` and from `1e16` on; a whole number keeps `.0`, and
    of two nearest the one with the even digit is taken. -/
def floatLayout : FloatLayout :=
  ⟨.even, fun e => decide (-5 ≤ e) && decide (e ≤ 15), true⟩

/-- The document of a floating-point number; infinities and not-a-number have none
    of their own and become `null`. -/
def ofBinary64 (x : Binary64) : Json :=
  match floatLayout.numeral? x with
  | some n => .num n
  | none => .null

/-- The integer of a document, if it is written as one and fits in 64 bits. -/
def toInt64? : Json → Option Int64
  | .num n =>
    match n.toInt? with
    | some i =>
      if Int64.minValue.toInt ≤ i ∧ i ≤ Int64.maxValue.toInt then some (Int64.ofInt i) else none
    | none => none
  | _ => none

/-- The byte of a document, if it is written as an integer below 256. -/
def toByte? : Json → Option UInt8
  | .num n =>
    match n.toInt? with
    | some i => if 0 ≤ i ∧ i < 256 then some (UInt8.ofNat i.toNat) else none
    | none => none
  | _ => none

/-- The floating-point number of a document; one that would become infinite is
    refused. -/
def toBinary64? : Json → Option Binary64
  | .num n =>
    let x := Binary64.ofNumeral n
    if x.isInfinite then none else some x
  | _ => none

end Json

namespace Value

mutual

/-- The document of a value. -/
def toJson : Value → Json
  | null => Json.ofString "Null"
  | bool b => Json.tagged "Bool" (.bool b)
  | int i => Json.tagged "Int" (Json.ofInt i.toInt)
  | float x => Json.tagged "Float" (Json.ofBinary64 x)
  | str s => Json.tagged "Str" (Json.ofString s)
  | bytes data => Json.tagged "Bytes" (.arr (data.map fun b => Json.ofInt b.toNat))
  | list items => Json.tagged "List" (.arr (toJsons items))

/-- The documents of several values. -/
def toJsons : List Value → List Json
  | [] => []
  | v :: vs => toJson v :: toJsons vs

end

/-- The value with a given name and content, for the forms that hold no values. -/
def ofScalar? (tag : String) (payload : Json) : Option Value :=
  if tag = "Null" then
    match payload with
    | .null => some null
    | _ => none
  else if tag = "Bool" then
    match payload with
    | .bool b => some (bool b)
    | _ => none
  else if tag = "Int" then payload.toInt64?.map int
  else if tag = "Float" then payload.toBinary64?.map float
  else if tag = "Str" then payload.text?.map str
  else none

/-- The value of a document in which at most `depth` arrays and objects stand inside
    each other. -/
def ofJson? : (depth : Nat) → Json → Option Value
  | _, .str (some tag) => if tag = "Null" then some null else none
  | depth + 2, .obj [(some tag, .arr items)] =>
    if tag = "List" then (items.mapM (ofJson? depth)).map list
    else if tag = "Bytes" then (items.mapM Json.toByte?).map bytes
    else none
  | _ + 1, .obj [(some tag, payload)] => ofScalar? tag payload
  | _, _ => none

/-- The compact JSON text of a value. -/
def jsonText (v : Value) : String := v.toJson.compactText

/-- The value of a JSON text. -/
def ofJsonText? (text : String) : Option Value :=
  (Json.read? text).bind (ofJson? Json.maxDepth)

end Value

namespace ValueType

/-- The name of a type that holds no other. -/
def scalarOfName? (tag : String) : Option ValueType :=
  if tag = "Bool" then some bool
  else if tag = "Int" then some int
  else if tag = "Float" then some float
  else if tag = "Str" then some str
  else if tag = "Bytes" then some bytes
  else if tag = "Any" then some any
  else none

/-- The document of a type. -/
def toJson : ValueType → Json
  | bool => Json.ofString "Bool"
  | int => Json.ofString "Int"
  | float => Json.ofString "Float"
  | str => Json.ofString "Str"
  | bytes => Json.ofString "Bytes"
  | list element => Json.tagged "List" element.toJson
  | any => Json.ofString "Any"

/-- The type of a document in which at most `depth` objects stand inside each
    other. -/
def ofJson? : (depth : Nat) → Json → Option ValueType
  | _, .str (some tag) => scalarOfName? tag
  | depth + 1, .obj [(some tag, payload)] =>
    if tag = "List" then (ofJson? depth payload).map list
    else
      match payload with
      | .null => scalarOfName? tag
      | _ => none
  | _, _ => none

/-- The compact JSON text of a type. -/
def jsonText (t : ValueType) : String := t.toJson.compactText

/-- The type of a JSON text. -/
def ofJsonText? (text : String) : Option ValueType :=
  (Json.read? text).bind (ofJson? Json.maxDepth)

end ValueType

end TypedForest
