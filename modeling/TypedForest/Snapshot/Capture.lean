import TypedForest.Snapshot.Basic
import TypedForest.Store.Annotation
import TypedForest.Store.Construct

namespace TypedForest

/-!
# Taking and restoring snapshots

`Store.snapshot` copies the tree under a node out of a store, `Store.restore` makes the
nodes of a snapshot in a store.  Both follow at most `Snapshot.maxDepth` nodes below each
other.

Restoring finds slots by name.  A slot that the snapshot leaves out is vacant, and of
several entries for a slot the last one counts, though nodes are made for all of them.
-/

/-- The most nodes that may stand below each other in a snapshot. -/
def Snapshot.maxDepth : Nat := 256

namespace Store

/-! ### Taking a snapshot -/

/-- The snapshot of a child slot, given how nodes are captured. -/
def captureSlot (capture : Handle → Except NodeError Snapshot) :
    Content → Except NodeError Snapshot.Child
  | .one none => .ok .absent
  | .one (some h) => (capture h).map .node
  | .many hs => (hs.mapM capture).map .list

/-- The snapshot of the tree under a node, through at most `n` nodes below each other. -/
def capture (s : Store) : (n : Nat) → Handle → Except NodeError Snapshot
  | 0, _ => .error (.tooDeep Snapshot.maxDepth)
  | n + 1, h =>
    match s.get h with
    | .error e => .error e
    | .ok node =>
      let kind := s.schema.kind node.kind
      let slots := kind.children.zip node.children
      match slots.mapM fun (slot, c) => (captureSlot (capture s n) c).map (slot.name, ·) with
      | .error e => .error e
      | .ok children =>
        .ok (.mk kind.name ((kind.values.zip node.values).map fun (slot, v) => (slot.name, v))
          children node.notes)

/-- The snapshot of the tree under a node. -/
def snapshot (s : Store) (root : Handle) : Except NodeError Snapshot :=
  s.capture Snapshot.maxDepth root

/-! ### Restoring a snapshot -/

/-- Puts named values into the fillings of the value slots of a kind. -/
def placeValues (kind : Kind) :
    List (String × Value) → List Filling → Except NodeError (List Filling)
  | [], fs => .ok fs
  | (name, v) :: rest, fs =>
    match kind.valueIndex? name with
    | none => .error (.unknownSlot kind.name name .value)
    | some i => placeValues kind rest (fs.set i (.value v))

/-- Makes nodes one after the other. -/
def restoreAll (restore : Snapshot → Edit Handle) : List Snapshot → Edit (List Handle)
  | [], s => .ok [] s
  | t :: ts, s =>
    match restore t s with
    | .error e s => .error e s
    | .ok h s =>
      match restoreAll restore ts s with
      | .error e s => .error e s
      | .ok hs s => .ok (h :: hs) s

/-- Makes the nodes of one slot. -/
def restoreChild (restore : Snapshot → Edit Handle) : Snapshot.Child → Edit Filling
  | .absent, s => .ok (.one none) s
  | .node t, s =>
    match restore t s with
    | .error e s => .error e s
    | .ok h s => .ok (.one (some h)) s
  | .list ts, s =>
    match restoreAll restore ts s with
    | .error e s => .error e s
    | .ok hs s => .ok (.many hs) s

/-- Makes the nodes of named slots and puts them into the fillings of the child slots of a
    kind. -/
def placeChildren (restore : Snapshot → Edit Handle) (kind : Kind) :
    List (String × Snapshot.Child) → List Filling → Edit (List Filling)
  | [], fs, s => .ok fs s
  | (name, child) :: rest, fs, s =>
    match kind.childIndex? name with
    | none => .error (.unknownSlot kind.name name .child) s
    | some i =>
      match restoreChild restore child s with
      | .error e s => .error e s
      | .ok f s => placeChildren restore kind rest (fs.set i f) s

/-- What a child slot is given: a list slot takes "no node" as the empty list. -/
def settle (slot : ChildSlot) (f : Filling) : Filling :=
  if slot.type.isMany ∧ f = .one none then .many [] else f

/-- Makes the nodes of a snapshot, through at most `n` nodes below each other. -/
def rebuild : (n : Nat) → Snapshot → Edit Handle
  | 0, _, s => .error (.tooDeep Snapshot.maxDepth) s
  | n + 1, .mk name values children notes, s =>
    match s.schema.kindByName? name with
    | none => .error (.unknownKind name) s
    | some k =>
      let kind := s.schema.kind k
      match placeValues kind values (List.replicate kind.values.length (.value .null)) with
      | .error e => .error e s
      | .ok vs =>
        let vacant := List.replicate kind.children.length (Filling.one none)
        match placeChildren (rebuild n) kind children vacant s with
        | .error e s => .error e s
        | .ok cs s =>
          match construct k (vs ++ List.zipWith settle kind.children cs) s with
          | .error e s => .error e s
          | .ok h s =>
            match setNotes h notes.entries s with
            | .error e s => .error e s
            | .ok () s => .ok h s

/-- Makes the nodes of a snapshot and returns its root. -/
def restore (t : Snapshot) : Edit Handle := rebuild Snapshot.maxDepth t

end Store

end TypedForest
