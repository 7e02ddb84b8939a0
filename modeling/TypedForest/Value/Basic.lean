import TypedForest.Number.Binary64

namespace TypedForest

/-!
# Slot values

A `Value` is what a value slot or a note holds; a `ValueType` says which values a
slot takes.  Two relations compare values: equality of data, which
`Value.identical` decides, and `Value.numEq`, which compares floating-point
numbers as numbers.

* `Value.identical_iff` : `identical` decides equality.
* `ValueType.accepts` : the values of a type; `null` is in every type.
-/

/-- A value. -/
inductive Value
  | null
  | bool (b : Bool)
  | int (i : Int64)
  | float (x : Binary64)
  | str (s : String)
  | bytes (data : List UInt8)
  | list (items : List Value)
deriving Repr, Inhabited

/-- A type of values. -/
inductive ValueType
  | bool
  | int
  | float
  | str
  | bytes
  | list (element : ValueType)
  /-- Every value. -/
  | any
deriving DecidableEq, Repr, Inhabited

namespace Value

/-- The name of the form of a value. -/
def typeName : Value → String
  | null => "null"
  | bool _ => "bool"
  | int _ => "int"
  | float _ => "float"
  | str _ => "str"
  | bytes _ => "bytes"
  | list _ => "list"

def isNull : Value → Bool
  | null => true
  | _ => false

def asBool? : Value → Option Bool
  | bool b => some b
  | _ => none

def asInt? : Value → Option Int64
  | int i => some i
  | _ => none

def asFloat? : Value → Option Binary64
  | float x => some x
  | _ => none

def asStr? : Value → Option String
  | str s => some s
  | _ => none

/-! ### Equality of data -/

mutual

/-- Whether two values are the same data, floating-point numbers bit by bit. -/
def identical : Value → Value → Bool
  | null, null => true
  | bool a, bool b => a == b
  | int a, int b => a == b
  | float a, float b => a == b
  | str a, str b => a == b
  | bytes a, bytes b => a == b
  | list a, list b => identicalAll a b
  | _, _ => false

/-- `identical` item by item. -/
def identicalAll : List Value → List Value → Bool
  | [], [] => true
  | a :: as, b :: bs => identical a b && identicalAll as bs
  | _, _ => false

end

mutual

/-- `identical` decides equality. -/
theorem identical_iff : ∀ a b : Value, identical a b = true ↔ a = b
  | .list a, .list b => by simp [identical, identicalAll_iff a b]
  | .null, b | .bool _, b | .int _, b | .float _, b | .str _, b | .bytes _, b => by
    cases b <;> simp [identical]
  | .list _, .null | .list _, .bool _ | .list _, .int _ | .list _, .float _ | .list _, .str _
  | .list _, .bytes _ => by simp [identical]

theorem identicalAll_iff : ∀ a b : List Value, identicalAll a b = true ↔ a = b
  | [], [] => by simp [identicalAll]
  | [], _ :: _ | _ :: _, [] => by simp [identicalAll]
  | a :: as, b :: bs => by simp [identicalAll, identical_iff a b, identicalAll_iff as bs]

end

instance : DecidableEq Value := fun a b =>
  decidable_of_iff (identical a b = true) (identical_iff a b)

/-! ### Numeric equality -/

mutual

/-- Whether two values are equal when floating-point numbers are compared as
    numbers. -/
def numEq : Value → Value → Bool
  | null, null => true
  | bool a, bool b => a == b
  | int a, int b => a == b
  | float a, float b => a.numEq b
  | str a, str b => a == b
  | bytes a, bytes b => a == b
  | list a, list b => numEqAll a b
  | _, _ => false

/-- `numEq` item by item. -/
def numEqAll : List Value → List Value → Bool
  | [], [] => true
  | a :: as, b :: bs => numEq a b && numEqAll as bs
  | _, _ => false

end

end Value

/-- Whether a type has a value.  `null` is in every type, and a list is in a list
    type when each of its items is in the element type. -/
def ValueType.accepts : ValueType → Value → Bool
  | _, .null => true
  | any, _ => true
  | bool, .bool _ => true
  | int, .int _ => true
  | float, .float _ => true
  | str, .str _ => true
  | bytes, .bytes _ => true
  | list element, .list items => items.all element.accepts
  | _, _ => false

end TypedForest
