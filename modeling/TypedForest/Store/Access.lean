import TypedForest.Store.Construct

namespace TypedForest

/-!
# Reading nodes

Reading a slot by its name, and following the links to children and parents.
-/

/-- The form of slot that holds a filling. -/
def Filling.shape : Filling → SlotShape
  | value _ => .value
  | one _ => .one
  | many _ => .many

namespace Store

/-- An error that names the kind of a node. -/
def unknownSlot (s : Store) (k : KindId) (slot : String) (sort : SlotSort) : NodeError :=
  .unknownSlot (s.schema.kindName k) slot sort

/-- What the slot of a name holds. -/
def slot (s : Store) (h : Handle) (name : String) : Except NodeError Filling :=
  match s.get h with
  | .error e => .error e
  | .ok n =>
    let kind := s.schema.kind n.kind
    match kind.valueIndex? name with
    | some i => .ok (.value (n.values[i]?.getD .null))
    | none =>
      match kind.childIndex? name with
      | some i => .ok (n.children[i]?.getD default).toFilling
      | none => .error (s.unknownSlot n.kind name .either)

/-- The error for a slot of the wrong form. -/
def wrongShape (s : Store) (h : Handle) (name : String) (actual requested : SlotShape) :
    NodeError :=
  .slotShape ((s.node? h).elim "" fun n => s.schema.kindName n.kind) name actual requested

/-- The value in a value slot. -/
def value (s : Store) (h : Handle) (name : String) : Except NodeError Value :=
  match s.slot h name with
  | .error e => .error e
  | .ok (.value v) => .ok v
  | .ok f => .error (s.wrongShape h name f.shape .value)

/-- The node in a slot for one node. -/
def child (s : Store) (h : Handle) (name : String) : Except NodeError (Option Handle) :=
  match s.slot h name with
  | .error e => .error e
  | .ok (.one node) => .ok node
  | .ok f => .error (s.wrongShape h name f.shape .one)

/-- The nodes in a slot for a list of nodes. -/
def childList (s : Store) (h : Handle) (name : String) : Except NodeError (List Handle) :=
  match s.slot h name with
  | .error e => .error e
  | .ok (.many nodes) => .ok nodes
  | .ok f => .error (s.wrongShape h name f.shape .many)

/-- The children of a node, slot by slot. -/
def children (s : Store) (h : Handle) : Except NodeError (List Handle) :=
  (s.get h).map Node.childNodes

/-- The node that last took a node as a child. -/
def parent (s : Store) (h : Handle) : Except NodeError (Option Handle) :=
  (s.get h).map Node.parent

/-- Follows parent links through at most `n` nodes from `h` on. -/
def climb (s : Store) (start : Handle) : (n : Nat) → Handle → Except NodeError Handle
  | 0, _ => .error (.endless start)
  | n + 1, h =>
    match s.parent h with
    | .error e => .error e
    | .ok none => .ok h
    | .ok (some p) => climb s start n p

/-- The node without parent that is reached by following parent links.  A climb through
    more nodes than there are places has come back to a node and never ends. -/
def root (s : Store) (h : Handle) : Except NodeError Handle :=
  s.climb h (s.entries.size + 1) h

end Store

end TypedForest
