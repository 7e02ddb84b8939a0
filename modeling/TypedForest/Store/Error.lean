import TypedForest.Store.Basic
import TypedForest.Value.Text

namespace TypedForest

/-!
# What can go wrong with nodes
-/

/-- The three forms of slot. -/
inductive SlotShape
  | value
  | one
  | many
deriving DecidableEq, Repr

/-- The wording of a slot form. -/
def SlotShape.text : SlotShape → String
  | value => "value"
  | one => "single node"
  | many => "node list"

/-- Which slots were searched for a name. -/
inductive SlotSort
  | value
  | child
  | either
deriving DecidableEq, Repr

/-- The wording of the slots searched. -/
def SlotSort.text : SlotSort → String
  | value => "value"
  | child => "child"
  | either => "value or child"

/-- What a slot takes. -/
inductive Expected
  | value (type : ValueType)
  | one (kind : String)
  | many (kind : String)
deriving DecidableEq, Repr

/-- The wording of what a slot takes. -/
def Expected.text : Expected → String
  | value type => type.text ++ " value"
  | one kind => s!"a `{kind}` node"
  | many kind => s!"a list of `{kind}` nodes"

/-- What a slot was given instead. -/
inductive Found
  | value (typeName : String)
  | noNode
  | node (kind : String)
  | staleNode (h : Handle)
  | nodeList
  | listWith (kind : String)
deriving DecidableEq, Repr

/-- The wording of what a slot was given. -/
def Found.text : Found → String
  | value typeName => typeName ++ " value"
  | noNode => "no node"
  | node kind => s!"a `{kind}` node"
  | staleNode h => "stale node " ++ h.text
  | nodeList => "a node list"
  | listWith kind => s!"a list containing a `{kind}` node"

/-- Why an operation on nodes fails. -/
inductive NodeError
  | typeMismatch (slot : String) (expected : Expected) (found : Found)
  | arityMismatch (kind : String) (expected found : Nat)
  | countMismatch (kind : String) (expected found : Nat)
  | unknownSlot (kind slot : String) (sort : SlotSort)
  | slotShape (kind slot : String) (actual requested : SlotShape)
  | staleNode (h : Handle)
  | unknownKind (name : String)
  | storeFull
  | tooDeep (limit : Nat)
  /-- The links from this node never end. -/
  | endless (h : Handle)
deriving DecidableEq, Repr

namespace NodeError

/-- The wording of an error. -/
def message : NodeError → String
  | typeMismatch slot expected found =>
    s!"slot `{slot}` expects " ++ expected.text ++ ", found " ++ found.text
  | arityMismatch kind expected found =>
    s!"kind `{kind}` has " ++ decimalText expected ++ " slots, but " ++ decimalText found
      ++ " arguments were provided"
  | countMismatch kind expected found =>
    s!"bulk set on kind `{kind}` expects " ++ decimalText expected ++ " entries, found "
      ++ decimalText found
  | unknownSlot kind slot sort =>
    s!"kind `{kind}` has no " ++ sort.text ++ s!" slot named `{slot}`"
  | slotShape kind slot actual requested =>
    s!"slot `{slot}` of kind `{kind}` is a " ++ actual.text ++ " slot, not a "
      ++ requested.text ++ " slot"
  | staleNode h => "node " ++ h.text ++ " is no longer alive in this arena"
  | unknownKind name => s!"kind `{name}` is not registered"
  | storeFull => "the arena cannot hold more than 2^32 nodes"
  | tooDeep limit => "tree is deeper than the supported " ++ decimalText limit ++ " levels"
  | endless h => "the links from node " ++ h.text ++ " never end"

end NodeError

/-- An operation on a store: it changes the store and has a result or fails.  What was
    changed before a failure stays changed. -/
abbrev Edit (α : Type) := EStateM NodeError Store α

namespace Store

/-- The node of a handle. -/
def get (s : Store) (h : Handle) : Except NodeError Node :=
  match s.node? h with
  | some n => .ok n
  | none => .error (.staleNode h)

/-- The kind of the node of a handle. -/
def kindOf (s : Store) (h : Handle) : Except NodeError KindId := (s.get h).map Node.kind

end Store

end TypedForest
