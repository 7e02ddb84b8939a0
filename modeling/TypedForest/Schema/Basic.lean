import TypedForest.Number.Numeral
import TypedForest.Value.Basic

namespace TypedForest

/-!
# Schemas

A schema is a list of kinds.  A kind has a name, possibly a base kind, and two rows
of slots: value slots, each with a type of values, and child slots, each holding
one node or a list of nodes of a given kind.  A kind also stands for the kinds that
derive from it.

* `Schema.kindByName?` : the kind of a name.
* `Schema.isSubkind` : whether a kind is another one or derives from it.
-/

/-- A kind, by its place in the schema. -/
structure KindId where
  index : Nat
deriving DecidableEq, Repr, Inhabited

/-- The text of a kind handle. -/
def KindId.text (k : KindId) : String := "#" ++ decimalText k.index

/-- A slot for a value. -/
structure ValueSlot where
  name : String
  type : ValueType
deriving DecidableEq, Repr, Inhabited

/-- What a child slot holds: at most one node, or any number of them. -/
inductive ChildType
  | one (kind : KindId)
  | many (kind : KindId)
deriving DecidableEq, Repr, Inhabited

namespace ChildType

/-- The kind that nodes in the slot must have or derive from. -/
def kind : ChildType → KindId
  | one k => k
  | many k => k

/-- Whether the slot holds a list of nodes. -/
def isMany : ChildType → Bool
  | one _ => false
  | many _ => true

end ChildType

/-- A slot for nodes. -/
structure ChildSlot where
  name : String
  type : ChildType
deriving DecidableEq, Repr, Inhabited

/-- A kind of node: its name, its base and its slots. -/
structure Kind where
  name : String
  base : Option KindId
  values : List ValueSlot
  children : List ChildSlot
deriving DecidableEq, Repr, Inhabited

namespace Kind

/-- The number of slots of both sorts. -/
def slotCount (k : Kind) : Nat := k.values.length + k.children.length

/-- The place of the value slot of a name. -/
def valueIndex? (k : Kind) (slot : String) : Option Nat := k.values.findIdx? (·.name == slot)

/-- The place of the child slot of a name. -/
def childIndex? (k : Kind) (slot : String) : Option Nat := k.children.findIdx? (·.name == slot)

/-- Whether a slot of either sort has the name. -/
def hasSlot (k : Kind) (slot : String) : Bool :=
  k.values.any (·.name == slot) || k.children.any (·.name == slot)

/-- The kind at a place of a list.  A place outside the list reads as a nameless kind
    without slots. -/
def get (kinds : List Kind) (k : KindId) : Kind := kinds[k.index]?.getD ⟨"", none, [], []⟩

/-- The kind of a name. -/
def byName? (kinds : List Kind) (name : String) : Option KindId :=
  (kinds.findIdx? (·.name == name)).map KindId.mk

/-- A kind, its base, the base of that, and so on, at most `n` of them. -/
def lineageWithin (kinds : List Kind) : (n : Nat) → KindId → List KindId
  | 0, _ => []
  | n + 1, k =>
    match (get kinds k).base with
    | none => [k]
    | some base => k :: lineageWithin kinds n base

/-- A kind and everything that it derives from, nearest first.  A base is declared
    before the kinds that derive from it, so no more kinds than have a smaller or
    equal place can occur. -/
def lineage (kinds : List Kind) (k : KindId) : List KindId :=
  lineageWithin kinds (k.index + 1) k

end Kind

/-- A schema: its kinds, each with all of its slots, inherited ones first. -/
structure Schema where
  kinds : List Kind
deriving DecidableEq, Repr, Inhabited

namespace Schema

/-- The number of kinds. -/
def size (s : Schema) : Nat := s.kinds.length

/-- The kind at a place. -/
def kind (s : Schema) (k : KindId) : Kind := Kind.get s.kinds k

/-- The name of a kind. -/
def kindName (s : Schema) (k : KindId) : String := (s.kind k).name

/-- The kind of a name. -/
def kindByName? (s : Schema) (name : String) : Option KindId := Kind.byName? s.kinds name

/-- Whether `k` is `ancestor` or derives from it. -/
def isSubkind (s : Schema) (k ancestor : KindId) : Bool :=
  decide (ancestor ∈ Kind.lineage s.kinds k)

end Schema

end TypedForest
