import TypedForest.Wire.Format
import TypedForest.Wire.Varint

namespace TypedForest

/-!
# Writing a tree as bytes

`Store.encode` writes a node and everything below it.  The nodes still to be written
stand in a list of pieces, so the depth of the tree does not matter.  A node comes with
the length that a way below it may still have: a way through more nodes than there are
places has come back to a node, and the bytes would never end.
-/

namespace Wire

/-! ### Values -/

/-- The bytes of a text. -/
def writeString (s : String) : List UInt8 :=
  writeUnsigned (Utf8.encode s).length ++ Utf8.encode s

mutual

/-- The bytes of a value in which at most `room` lists stand inside each other. -/
def writeValue (room : Nat) : Value → Except WireError (List UInt8)
  | .null => .ok [Tag.null]
  | .bool b => .ok [Tag.bool, if b then 1 else 0]
  | .int i => .ok (Tag.int :: writeSigned i.toInt)
  | .float x => .ok (Tag.float :: littleEndian 8 x.bits.toNat)
  | .str s => .ok (Tag.str :: writeString s)
  | .bytes data => .ok (Tag.bytes :: (writeUnsigned data.length ++ data))
  | .list items =>
    match room with
    | 0 => .error (.malformed .valueTooDeep)
    | room + 1 =>
      match writeValues room items with
      | .error e => .error e
      | .ok bs => .ok (Tag.list :: (writeUnsigned items.length ++ bs))

/-- The bytes of values one after the other. -/
def writeValues (room : Nat) : List Value → Except WireError (List UInt8)
  | [] => .ok []
  | v :: vs =>
    match writeValue room v with
    | .error e => .error e
    | .ok bs =>
      match writeValues room vs with
      | .error e => .error e
      | .ok cs => .ok (bs ++ cs)

end

/-- The bytes of notes one after the other. -/
def writeNotes : List (String × Value) → Except WireError (List UInt8)
  | [] => .ok []
  | (key, v) :: rest =>
    match writeValue maxValueDepth v with
    | .error e => .error e
    | .ok bs =>
      match writeNotes rest with
      | .error e => .error e
      | .ok cs => .ok (writeString key ++ bs ++ cs)

/-! ### Nodes -/

/-- The bytes of a node up to its child slots. -/
def writeHeader (schema : Schema) (n : Node) : Except WireError (List UInt8) :=
  match writeValues maxValueDepth n.values with
  | .error e => .error e
  | .ok values =>
    match writeNotes n.notes.entries with
    | .error e => .error e
    | .ok notes =>
      .ok (writeString (schema.kindName n.kind)
        ++ (writeUnsigned n.values.length ++ values)
        ++ (writeUnsigned n.notes.entries.length ++ notes)
        ++ writeUnsigned n.children.length)

/-- Something still to be written: bytes, or a node with everything below it, on a way
    that may still have `room` nodes. -/
inductive Piece
  | raw (data : List UInt8)
  | node (room : Nat) (h : Handle)
deriving DecidableEq, Repr

/-- The pieces of a child slot. -/
def slotPieces (room : Nat) : Content → List Piece
  | .one none => [.raw [Tag.slotVacant]]
  | .one (some h) => [.raw [Tag.slotOne], .node room h]
  | .many hs => .raw (Tag.slotMany :: writeUnsigned hs.length) :: hs.map (.node room)

/-- The pieces of all child slots of a node. -/
def childPieces (room : Nat) (n : Node) : List Piece := n.children.flatMap (slotPieces room)

/-- The pieces that come up while a node is written, on ways of at most `room` nodes. -/
def nodePieces (s : Store) : (room : Nat) → Handle → List Piece
  | 0, h => [.node 0 h]
  | room + 1, h =>
    .node (room + 1) h :: ((s.node? h).elim [] (childPieces room)).flatMap fun
      | .raw data => [.raw data]
      | .node _ c => nodePieces s room c

/-- The pieces that come up while a piece is written. -/
def Piece.upcoming (s : Store) : Piece → List Piece
  | raw data => [.raw data]
  | node room h => nodePieces s room h

/-- What comes up while the pieces of a node are written is what `nodePieces` lists for them. -/
theorem flatMap_upcoming_childPieces (s : Store) (room : Nat) (n : Node) :
    (childPieces room n).flatMap (Piece.upcoming s)
      = (childPieces room n).flatMap fun
          | .raw data => [.raw data]
          | .node _ c => nodePieces s room c := by
  rw [List.flatMap_def, List.flatMap_def]
  refine congrArg List.flatten (List.map_congr_left fun p hp => ?_)
  obtain ⟨c, -, hc⟩ := List.mem_flatMap.mp hp
  cases p with
  | raw data => rfl
  | node r h =>
    -- every node among the pieces has the same room
    have hr : r = room := by
      cases c with
      | one o => cases o <;> simp [slotPieces] at hc; exact hc.1
      | many hs => simp [slotPieces] at hc; exact hc.2.symm
    rw [hr, Piece.upcoming]

/-- Writes the pieces after the bytes in `out`. -/
def writePieces (s : Store) (todo : List Piece) (out : Array UInt8) :
    Except WireError (Array UInt8) :=
  match todo with
  | [] => .ok out
  | .raw data :: rest => writePieces s rest (out ++ data)
  | .node 0 h :: _ => .error (.rejected (.endless h))
  | .node (room + 1) h :: rest =>
    match _hn : s.node? h with
    | none => .error (.rejected (.staleNode h))
    | some n =>
      match writeHeader s.schema n with
      | .error e => .error e
      | .ok header => writePieces s (childPieces room n ++ rest) (out ++ header)
termination_by (todo.flatMap (Piece.upcoming s)).length
decreasing_by
  · simp [Piece.upcoming]
  · rw [List.flatMap_append, flatMap_upcoming_childPieces, List.flatMap_cons, Piece.upcoming,
      nodePieces, _hn, Option.elim_some, List.length_append, List.length_append, List.length_cons]
    omega

end Wire

namespace Store

/-- The bytes of a node and everything below it. -/
def encode (s : Store) (root : Handle) : Except WireError (List UInt8) :=
  (Wire.writePieces s [.node (s.entries.size + 1) root]
    (Wire.magic ++ [Wire.version]).toArray).map Array.toList

end Store

end TypedForest
