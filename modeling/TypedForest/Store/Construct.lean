import TypedForest.Store.Error

namespace TypedForest

/-!
# Making nodes

`Store.construct` makes a node of a kind from what its slots are to hold, value
slots first.  Everything is checked against the schema before anything changes:

* `Store.checkValue`, `Store.checkChild` : the checks for one slot, which writing to
  a slot uses as well;
* `Store.fill` : the checks for all slots of a kind;
* `Store.insert` : puts a node into a free place.
-/

/-- What a slot holds or is given. -/
inductive Filling
  | value (v : Value)
  | one (node : Option Handle)
  | many (nodes : List Handle)
deriving DecidableEq, Repr, Inhabited

/-- What a child slot holds, as a filling. -/
def Content.toFilling : Content → Filling
  | one node => .one node
  | many nodes => .many nodes

namespace Store

/-! ### Checks -/

/-- What a slot was given, for an error. -/
def describe (s : Store) : Filling → Found
  | .value v => .value v.typeName
  | .one none => .noNode
  | .one (some h) =>
    match s.node? h with
    | some n => .node (s.schema.kindName n.kind)
    | none => .staleNode h
  | .many _ => .nodeList

/-- The value that a filling puts into a value slot. -/
def checkValue (s : Store) (slot : ValueSlot) (arg : Filling) : Except NodeError Value :=
  let mismatch := NodeError.typeMismatch slot.name (.value slot.type) (s.describe arg)
  match arg with
  | .value v => if slot.type.accepts v then .ok v else .error mismatch
  | .one _ => .error mismatch
  | .many _ => .error mismatch

/-- What a child slot takes, for an error. -/
def expects (s : Store) : ChildType → Expected
  | .one k => .one (s.schema.kindName k)
  | .many k => .many (s.schema.kindName k)

/-- Checks that each node is alive and has or derives from a kind; `found` words the
    kind of one that does not. -/
def checkNodes (s : Store) (slot : ChildSlot) (found : String → Found) :
    List Handle → Except NodeError Unit
  | [] => .ok ()
  | h :: hs =>
    match s.node? h with
    | none => .error (.staleNode h)
    | some n =>
      if s.schema.isSubkind n.kind slot.type.kind then checkNodes s slot found hs
      else
        .error (.typeMismatch slot.name (s.expects slot.type)
          (found (s.schema.kindName n.kind)))

/-- What a filling puts into a child slot. -/
def checkChild (s : Store) (slot : ChildSlot) (arg : Filling) : Except NodeError Content :=
  match slot.type, arg with
  | .one _, .one node => (s.checkNodes slot .node node.toList).map fun _ => .one node
  | .many _, .many nodes => (s.checkNodes slot .listWith nodes).map fun _ => .many nodes
  | _, _ => .error (.typeMismatch slot.name (s.expects slot.type) (s.describe arg))

/-- The contents of value slots, and the fillings left over.  A slot that is given
    nothing holds `null`. -/
def fillValues (s : Store) :
    List ValueSlot → List Filling → Except NodeError (List Value × List Filling)
  | [], args => .ok ([], args)
  | _ :: slots, [] =>
    match fillValues s slots [] with
    | .error e => .error e
    | .ok (vs, rest) => .ok (.null :: vs, rest)
  | slot :: slots, arg :: args =>
    match s.checkValue slot arg with
    | .error e => .error e
    | .ok v =>
      match fillValues s slots args with
      | .error e => .error e
      | .ok (vs, rest) => .ok (v :: vs, rest)

/-- The contents of child slots.  A slot that is given nothing is vacant. -/
def fillChildren (s : Store) :
    List ChildSlot → List Filling → Except NodeError (List Content)
  | [], _ => .ok []
  | slot :: slots, [] =>
    match fillChildren s slots [] with
    | .error e => .error e
    | .ok cs => .ok (Content.vacant slot.type :: cs)
  | slot :: slots, arg :: args =>
    match s.checkChild slot arg with
    | .error e => .error e
    | .ok c =>
      match fillChildren s slots args with
      | .error e => .error e
      | .ok cs => .ok (c :: cs)

/-- A node of a kind with the given fillings, without parent and notes. -/
def fill (s : Store) (k : KindId) (args : List Filling) : Except NodeError Node :=
  let kind := s.schema.kind k
  if kind.slotCount < args.length then
    .error (.arityMismatch kind.name kind.slotCount args.length)
  else
    match s.fillValues kind.values args with
    | .error e => .error e
    | .ok (values, rest) =>
      match s.fillChildren kind.children rest with
      | .error e => .error e
      | .ok children => .ok ⟨k, values, children, none, Notes.empty⟩

/-! ### Making a node -/

/-- Whether one more node fits. -/
def hasRoom (s : Store) : Bool := !s.free.isEmpty || decide (s.entries.size < maxNodes)

/-- Puts a node into the next free place, or into a new place of generation zero. -/
def insert (s : Store) (n : Node) : Handle × Store :=
  match s.free with
  | i :: rest =>
    (⟨i, (s.entries[i]?.map Entry.generation).getD 0⟩,
      { s with
        entries := s.entries.modify i fun e => { e with node := some n }
        free := rest
        live := s.live + 1 })
  | [] =>
    (⟨s.entries.size, 0⟩,
      { s with entries := s.entries.push ⟨0, some n⟩, live := s.live + 1 })

/-- Makes a node of a kind; its children get it as their parent. -/
def construct (k : KindId) (args : List Filling) : Edit Handle := fun s =>
  match s.fill k args with
  | .error e => .error e s
  | .ok n =>
    if s.hasRoom then
      let (h, s) := s.insert n
      .ok h (s.adopt h n.childNodes)
    else .error .storeFull s

/-- Makes a node of the kind of a name. -/
def constructNamed (kind : String) (args : List Filling) : Edit Handle := fun s =>
  match s.schema.kindByName? kind with
  | none => .error (.unknownKind kind) s
  | some k => construct k args s

end Store

end TypedForest
