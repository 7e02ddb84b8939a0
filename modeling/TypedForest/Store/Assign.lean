import TypedForest.Store.Access

namespace TypedForest

/-!
# Writing to nodes

One slot at a time by name (`Store.set`), or several at once (`Store.setValues`,
`Store.setChildren`).  Writing several slots is not all or nothing: the slots are
written in the order of their declaration, up to the first that is refused.
-/

/-- Contents for several slots: one for each slot in order, or by name. -/
inductive Bulk (α : Type)
  | all (entries : List α)
  | named (entries : List (String × α))

/-- The places of the slots that named entries are for; an unknown name is refused. -/
def Bulk.resolve {α : Type} (slots : List String) (unknown : String → NodeError) :
    List (String × α) → Except NodeError (List (Nat × α))
  | [] => .ok []
  | (name, a) :: rest =>
    match slots.findIdx? (· == name) with
    | none => .error (unknown name)
    | some i =>
      match Bulk.resolve slots unknown rest with
      | .error e => .error e
      | .ok es => .ok ((i, a) :: es)

/-- The entries with the places of their slots, in the order of the slots; entries for
    the same slot stay in their order. -/
def Bulk.order {α : Type} (kind : String) (slots : List String) (sort : SlotSort) :
    Bulk α → Except NodeError (List (Nat × α))
  | all entries =>
    if entries.length = slots.length then .ok (entries.zipIdx.map fun (a, i) => (i, a))
    else .error (.countMismatch kind slots.length entries.length)
  | named entries =>
    (Bulk.resolve slots (.unknownSlot kind · sort) entries).map
      (·.mergeSort fun a b => decide (a.1 ≤ b.1))

namespace Store

/-- Writes to the value slot at a place; past the last slot nothing is written. -/
def setValueAt (h : Handle) (i : Nat) (arg : Filling) : Edit Unit := fun s =>
  match s.kindOf h with
  | .error e => .error e s
  | .ok k =>
    match (s.schema.kind k).values[i]? with
    | none => .ok () s
    | some slot =>
      match s.checkValue slot arg with
      | .error e => .error e s
      | .ok v => .ok () (s.modifyNode h fun n => { n with values := n.values.set i v })

/-- Writes to the child slot at a place and makes the node the parent of what it is
    given; past the last slot nothing is written. -/
def setChildAt (h : Handle) (i : Nat) (arg : Filling) : Edit Unit := fun s =>
  match s.kindOf h with
  | .error e => .error e s
  | .ok k =>
    match (s.schema.kind k).children[i]? with
    | none => .ok () s
    | some slot =>
      match s.checkChild slot arg with
      | .error e => .error e s
      | .ok c =>
        .ok () ((s.modifyNode h fun n => { n with children := n.children.set i c }).adopt h c.nodes)

/-- Writes to the slot of a name. -/
def set (h : Handle) (name : String) (arg : Filling) : Edit Unit := fun s =>
  match s.kindOf h with
  | .error e => .error e s
  | .ok k =>
    match (s.schema.kind k).valueIndex? name with
    | some i => setValueAt h i arg s
    | none =>
      match (s.schema.kind k).childIndex? name with
      | some i => setChildAt h i arg s
      | none => .error (s.unknownSlot k name .either) s

/-- Writes each entry in turn, up to the first that is refused. -/
def writeAll {α : Type} (write : Nat → α → Edit Unit) : List (Nat × α) → Edit Unit
  | [], s => .ok () s
  | (i, a) :: rest, s =>
    match write i a s with
    | .error e s => .error e s
    | .ok () s => writeAll write rest s

/-- Writes several value slots. -/
def setValues (h : Handle) (bulk : Bulk Value) : Edit Unit := fun s =>
  match s.kindOf h with
  | .error e => .error e s
  | .ok k =>
    let kind := s.schema.kind k
    match bulk.order kind.name (kind.values.map ValueSlot.name) .value with
    | .error e => .error e s
    | .ok entries => writeAll (fun i v => setValueAt h i (.value v)) entries s

/-- Writes several child slots. -/
def setChildren (h : Handle) (bulk : Bulk Filling) : Edit Unit := fun s =>
  match s.kindOf h with
  | .error e => .error e s
  | .ok k =>
    let kind := s.schema.kind k
    match bulk.order kind.name (kind.children.map ChildSlot.name) .child with
    | .error e => .error e s
    | .ok entries => writeAll (setChildAt h) entries s

end Store

end TypedForest
