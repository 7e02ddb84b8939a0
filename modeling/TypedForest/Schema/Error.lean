import TypedForest.Schema.Basic
import TypedForest.Value.Text

namespace TypedForest

/-!
# What can be wrong with a declaration
-/

/-- Why the description of a child slot is refused. -/
inductive ChildSpecFault
  /-- It names a kind that is not declared. -/
  | unknownKind (name : String)
  /-- It is a list that does not name exactly one kind. -/
  | notOneKind (count : Nat)
  /-- It is a type of values. -/
  | scalar (type : ValueType)
deriving DecidableEq, Repr

namespace ChildSpecFault

/-- The wording of a fault. -/
def message : ChildSpecFault → String
  | unknownKind name => s!"`{name}` is not a registered kind"
  | notOneKind count =>
    "a list marker must name exactly one kind, found " ++ decimalText count
  | scalar type => "`" ++ type.text ++ "` is a scalar type, child slots hold nodes"

end ChildSpecFault

/-- Why a declaration is refused. -/
inductive SchemaError
  | duplicateSlotName (kind slot owner : String)
  | invalidSlotType (kind slot : String) (fault : ChildSpecFault)
  | duplicateKind (name : String)
  | unknownKind (name : String)
  | tooManyKinds
deriving DecidableEq, Repr

namespace SchemaError

/-- The wording of an error. -/
def message : SchemaError → String
  | duplicateSlotName kind slot owner =>
    s!"slot `{slot}` is already declared on kind `{kind}` or one of its relatives (on `{owner}`)"
  | invalidSlotType kind slot fault =>
    s!"child slot `{slot}` of kind `{kind}` has an invalid type: " ++ fault.message
  | duplicateKind name => s!"kind `{name}` is already registered"
  | unknownKind name => s!"kind `{name}` is not registered"
  | tooManyKinds => "a schema cannot register more than 2^32 kinds"

end SchemaError

end TypedForest
