import TypedForest.Notes
import TypedForest.Schema.Basic

namespace TypedForest

/-!
# The node store

Nodes live in a store and refer to each other by handles.  A handle is the place of
an entry together with the generation that the entry had when the node was put
there; once the node is reclaimed the entry's generation moves on, and the handle
no longer finds anything.

`Store.node?` is the view of a store through which all operations are described.
-/

/-- A reference to a node: a place in the store and the generation of that place. -/
structure Handle where
  index : Nat
  generation : UInt32
deriving DecidableEq, Repr, Inhabited

/-- The text of a handle. -/
def Handle.text (h : Handle) : String :=
  decimalText h.index ++ "v" ++ decimalText h.generation.toNat

/-- What a child slot of a node holds. -/
inductive Content
  /-- At most one node. -/
  | one (node : Option Handle)
  /-- Any number of nodes. -/
  | many (nodes : List Handle)
deriving DecidableEq, Repr, Inhabited

namespace Content

/-- The nodes in a slot, in order. -/
def nodes : Content → List Handle
  | one node => node.toList
  | many nodes => nodes

/-- What a slot holds that was given nothing. -/
def vacant : ChildType → Content
  | .one _ => one none
  | .many _ => many []

end Content

/-- A node: its kind, what its slots hold, the node that last took it as a child, and
    its notes. -/
structure Node where
  kind : KindId
  values : List Value
  children : List Content
  parent : Option Handle
  notes : Notes
deriving DecidableEq, Repr, Inhabited

/-- The children of a node, slot by slot. -/
def Node.childNodes (n : Node) : List Handle := n.children.flatMap Content.nodes

/-- A place in the store: its generation, and the node in it unless it is free. -/
structure Entry where
  generation : UInt32
  node : Option Node
deriving DecidableEq, Repr, Inhabited

/-- A store of nodes over a schema.  `free` lists the free places, the next one to be
    used first; `live` is the number of nodes. -/
structure Store where
  schema : Schema
  entries : Array Entry
  free : List Nat
  live : Nat
deriving DecidableEq, Repr, Inhabited

namespace Store

/-- The store without nodes. -/
def empty (schema : Schema) : Store := ⟨schema, #[], [], 0⟩

/-- The most nodes that a store can hold: `2 ^ 32`. -/
def maxNodes : Nat := 0x100000000

/-- The node of a handle, if it is alive. -/
def node? (s : Store) (h : Handle) : Option Node :=
  match s.entries[h.index]? with
  | some e => if e.generation = h.generation then e.node else none
  | none => none

/-- Whether the node of a handle is alive. -/
def isAlive (s : Store) (h : Handle) : Bool := (s.node? h).isSome

/-- Changes the node of a handle; a stale handle changes nothing. -/
def modifyNode (s : Store) (h : Handle) (f : Node → Node) : Store :=
  { s with entries := s.entries.modify h.index fun e =>
      if e.generation = h.generation then { e with node := e.node.map f } else e }

/-- Makes `parent` the parent of each of the given nodes. -/
def adopt (s : Store) (parent : Handle) (children : List Handle) : Store :=
  children.foldl (fun s c => s.modifyNode c fun n => { n with parent := some parent }) s

end Store

end TypedForest
