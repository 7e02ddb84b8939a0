import TypedForest.Number.Shortest
import TypedForest.Text.Quoted
import TypedForest.Value.Basic

namespace TypedForest

/-!
# The text of values and value types

The form in which values and types are shown to a person, types also inside error
messages.
-/

/-- The text of a type; a list type is its element type in brackets. -/
def ValueType.text : ValueType → String
  | bool => "bool"
  | int => "int"
  | float => "float"
  | str => "str"
  | bytes => "bytes"
  | list element => "[" ++ element.text ++ "]"
  | any => "any"

namespace Value

/-- Shown numbers have the fewest digits that read back, never a power of ten, and
    no point unless a digit follows it; of two nearest the larger is taken. -/
def floatLayout : FloatLayout := ⟨.up, fun _ => true, false⟩

/-- The text of a floating-point number. -/
def floatText (x : Binary64) : String :=
  match floatLayout.numeral? x with
  | some n => String.ofList n.render
  | none => if x.isNaN then "NaN" else if x.isNegative then "-inf" else "inf"

mutual

/-- The text of a value. -/
def text : Value → String
  | null => "null"
  | bool b => if b then "true" else "false"
  | int i => signedText i.toInt
  | float x => floatText x
  | str s => quoted s
  | bytes data => "<" ++ decimalText data.length ++ " bytes>"
  | list items => "[" ++ String.intercalate ", " (texts items) ++ "]"

/-- The texts of several values. -/
def texts : List Value → List String
  | [] => []
  | v :: vs => text v :: texts vs

end

end Value

end TypedForest
