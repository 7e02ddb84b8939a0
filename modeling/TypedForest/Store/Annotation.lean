import TypedForest.Store.Sweep

namespace TypedForest

/-!
# Notes on nodes

Reading, setting and deleting the notes of a node; deletion can take in everything
below the node.
-/

namespace Store

/-- Puts a note on a node, in place of the one under the same key. -/
def setNote (h : Handle) (key : String) (v : Value) : Edit Unit := fun s =>
  match s.get h with
  | .error e => .error e s
  | .ok _ => .ok () (s.modifyNode h fun n => { n with notes := n.notes.insert key v })

/-- Puts several notes on a node, one after the other. -/
def setNotes (h : Handle) : List (String × Value) → Edit Unit
  | [], s => .ok () s
  | (key, v) :: rest, s =>
    match setNote h key v s with
    | .error e s => .error e s
    | .ok () s => setNotes h rest s

/-- The notes of a node. -/
def notes (s : Store) (h : Handle) : Except NodeError Notes := (s.get h).map Node.notes

/-- The note under a key. -/
def note (s : Store) (h : Handle) (key : String) : Except NodeError (Option Value) :=
  (s.notes h).map (·.find? key)

/-- Whether a node has a note under a key. -/
def hasNote (s : Store) (h : Handle) (key : String) : Except NodeError Bool :=
  (s.notes h).map (·.contains key)

/-- A node without the note under a key. -/
def dropNote (key : String) (n : Node) : Node := { n with notes := n.notes.erase key }

/-- Takes the note under a key off every node with a mark. -/
def dropNotes (s : Store) (key : String) (marks : Array Bool) : Store :=
  { s with entries := s.entries.mapIdx fun i e =>
      if isMarked marks i then { e with node := e.node.map (dropNote key) } else e }

/-- Deletes the note under a key, from the node alone or from everything that can be
    reached from it, and returns whether the node itself had one. -/
def deleteNote (h : Handle) (key : String) (recursive : Bool) : Edit Bool := fun s =>
  match s.get h with
  | .error e => .error e s
  | .ok n =>
    .ok (n.notes.contains key)
      (if recursive then s.dropNotes key (s.reachable [h])
      else s.modifyNode h (dropNote key))

end Store

end TypedForest
