import TypedForest.Store.Assign

namespace TypedForest

/-!
# Revising trees

A revision visits a tree from the leaves up and hands every node to a callback, after
everything below the node has been revised.  What the callback returns takes the
place of the node in its parent: no node leaves a slot vacant and drops the item from
a list.  A revision works on the nodes themselves or makes copies of them.

The callback may change the store in any way and keeps a state of its own.  The nodes
that are being revised form a list of frames, the innermost first; `Revision.step`
does one step of work on it.

* `Revision.loop` : step after step until the work is done;
* `Store.revise` : a whole revision.
-/

namespace Revision

/-- Whether a revision works on the nodes themselves or on copies. -/
inductive Mode
  | copy
  | inPlace
deriving DecidableEq, Repr

/-- An operation on a store that also keeps a state of type `τ`. -/
abbrev Action (τ α : Type) := EStateM NodeError (Store × τ) α

/-- An operation on the store as one that leaves the other state alone. -/
def onStore {τ α : Type} (e : Edit α) : Action τ α := fun (s, t) =>
  match e s with
  | .ok a s => .ok a (s, t)
  | .error e s => .error e (s, t)

/-- A node that is being revised. -/
structure Frame where
  /-- The node. -/
  node : Handle
  /-- What its value slots held when the revision came to it. -/
  values : List Value
  /-- The place of the child slot in hand. -/
  slot : Nat
  /-- What is left to do: the rest of the slot in hand and the slots after it, as they
      were when the revision came to the node. -/
  pending : List Content
  /-- The results for the list in hand, the last one first. -/
  results : List Handle
  /-- What finished slots of the copy hold, the last one first. -/
  fillings : List Filling
deriving DecidableEq, Repr

/-- The frame of a node that the revision comes to. -/
def Frame.enter {τ : Type} (h : Handle) : Action τ Frame := fun (s, t) =>
  match s.get h with
  | .error e => .error e (s, t)
  | .ok n => .ok ⟨h, n.values, 0, n.children, [], []⟩ (s, t)

/-- Finishes the slot in hand: writes it to the node, or keeps it for the copy. -/
def Frame.close {τ : Type} (mode : Mode) (f : Frame) (filling : Filling) : Action τ Frame :=
  let f' := { f with slot := f.slot + 1, pending := f.pending.tail, results := [] }
  match mode with
  | .copy => pure { f' with fillings := filling :: f.fillings }
  | .inPlace => do
    onStore (Store.setChildAt f.node f.slot filling)
    return f'

/-- The copy of a node whose slots are all done, with the notes that the node has now. -/
def Frame.copy {τ : Type} (f : Frame) : Action τ Handle := fun (s, t) =>
  match s.get f.node with
  | .error e => .error e (s, t)
  | .ok n =>
    match Store.construct n.kind (f.values.map .value ++ f.fillings.reverse) s with
    | .error e s => .error e (s, t)
    | .ok h s => .ok h (s.modifyNode h fun c => { c with notes := n.notes }, t)

/-- Hands a node whose slots are all done, or its copy, to the callback. -/
def Frame.finish {τ : Type} (mode : Mode) (callback : Handle → Action τ (Option Handle))
    (f : Frame) : Action τ (Option Handle) :=
  match mode with
  | .copy => do callback (← f.copy)
  | .inPlace => callback f.node

/-- Takes over the result for a child: an item of the list in hand, or the whole slot. -/
def Frame.receive {τ : Type} (mode : Mode) (f : Frame) (result : Option Handle) :
    Action τ Frame :=
  match f.pending with
  | .many _ :: _ => pure { f with results := result.toList ++ f.results }
  | _ => f.close mode (.one result)

/-- How far a revision has come. -/
inductive Progress
  /-- These frames are still open, the innermost first. -/
  | more (frames : List Frame)
  | done (result : Option Handle)
deriving DecidableEq, Repr

/-- One step of work: enters a child, finishes a slot or finishes a node. -/
def step {τ : Type} (mode : Mode) (callback : Handle → Action τ (Option Handle)) :
    List Frame → Action τ Progress
  | [] => pure (.done none)
  | f :: outer =>
    match f.pending with
    | .one none :: _ => do return .more ((← f.close mode (.one none)) :: outer)
    | .one (some child) :: _ => do return .more ((← Frame.enter child) :: f :: outer)
    | .many [] :: _ => do return .more ((← f.close mode (.many f.results.reverse)) :: outer)
    | .many (child :: rest) :: later => do
      return .more ((← Frame.enter child) :: { f with pending := .many rest :: later } :: outer)
    | [] => do
      let result ← f.finish mode callback
      match outer with
      | [] => return .done result
      | g :: outer => return .more ((← g.receive mode result) :: outer)

/-- Works until a step ends the revision or fails.  A callback can keep a revision going for
    ever; then there is no outcome. -/
def loop {τ : Type} (mode : Mode) (callback : Handle → Action τ (Option Handle))
    (frames : List Frame) (s : Store × τ) :
    Option (EStateM.Result NodeError (Store × τ) (Option Handle)) :=
  match step mode callback frames s with
  | .error e s => some (.error e s)
  | .ok (.done result) s => some (.ok result s)
  | .ok (.more frames) s => (loop mode callback (s := s)) frames
partial_fixpoint

/-- The outcome of a revision from a node on, if it ends. -/
def outcome? {τ : Type} (mode : Mode) (callback : Handle → Action τ (Option Handle))
    (root : Handle) (st : Store × τ) :
    Option (EStateM.Result NodeError (Store × τ) (Option Handle)) :=
  match Frame.enter root st with
  | .error e st => some (.error e st)
  | .ok f st => loop mode callback [f] st

end Revision

namespace Store

/-- Revises the tree under a node and returns what takes its place.  A revision without end
    counts as one that fails and changes nothing. -/
def revise {τ : Type} (mode : Revision.Mode)
    (callback : Handle → Revision.Action τ (Option Handle)) (root : Handle) :
    Revision.Action τ (Option Handle) := fun st =>
  (Revision.outcome? mode callback root st).getD (.error (.endless root) st)

end Store

end TypedForest
