import TypedForest.Store.Annotation
import TypedForest.Wire.Header

namespace TypedForest

/-!
# Reading a tree from bytes

`Store.decode` reads one tree and makes its nodes in the store, each after all nodes
below it.  The nodes that are not complete yet form a list of frames, the innermost
first.  Nodes that were made before a failure stay in the store.

Reading ends because each step takes bytes away, or finishes a list or a node.
-/

namespace Wire

/-- Finishes the slot in hand. -/
def Frame.close (f : Frame) (filling : Filling) : Frame :=
  { f with fillings := filling :: f.fillings, slotsLeft := f.slotsLeft - 1, list := none }

/-- Takes over a node that was read: an item of the list in hand, or the whole slot. -/
def Frame.receive (f : Frame) (h : Handle) : Frame :=
  match f.list with
  | some (left, nodes) => { f with list := some (left, h :: nodes) }
  | none => f.close (.one (some h))

theorem Frame.list_receive (f : Frame) (h : Handle) :
    (f.receive h).list.isSome = f.list.isSome := by
  unfold receive
  split
  · next hl => simp [hl]
  · next hl => simp [close, hl]

/-- A bound for how much work is left.  A byte may open a frame with a list in hand, and both are to
    be finished. -/
def remaining (frames : List Frame) (data : List UInt8) : Nat :=
  3 * data.length + frames.length + frames.countP (·.list.isSome)

theorem remaining_cons_lt (g : Frame) (frames : List Frame) {data rest : List UInt8}
    (h : rest.length < data.length) : remaining (g :: frames) rest < remaining frames data := by
  simp only [remaining, List.length_cons, List.countP_cons]
  split <;> omega

/-- It makes no difference which list is in hand. -/
theorem remaining_of_list {f : Frame} {p : Nat × List Handle} (h : f.list = some p)
    (q : Nat × List Handle) (outer : List Frame) (data : List UInt8) :
    remaining ({ f with list := some q } :: outer) data = remaining (f :: outer) data := by
  simp [remaining, h]

theorem remaining_close_lt {f : Frame} {p : Nat × List Handle} (h : f.list = some p)
    (filling : Filling) (outer : List Frame) (data : List UInt8) :
    remaining (f.close filling :: outer) data < remaining (f :: outer) data := by
  simp [remaining, Frame.close, h]

/-- A byte pays for all that can be changed on a frame. -/
theorem remaining_replace_lt (f f' : Frame) (outer : List Frame) {data rest : List UInt8}
    (h : rest.length < data.length) :
    remaining (f' :: outer) rest < remaining (f :: outer) data := by
  simp only [remaining, List.length_cons, List.countP_cons]
  split <;> split <;> omega

theorem remaining_receive_lt (f g : Frame) (h : Handle) (outer : List Frame) (data : List UInt8) :
    remaining (g.receive h :: outer) data < remaining (f :: g :: outer) data := by
  simp only [remaining, List.length_cons, List.countP_cons, Frame.list_receive]
  omega

/-- Makes the node of a frame whose slots are all read. -/
def Frame.make (f : Frame) : EStateM WireError Store Handle := fun s =>
  match Store.construct f.kind (f.values.map .value ++ f.fillings.reverse) s with
  | .error e s => .error (.rejected e) s
  | .ok h s =>
    match Store.setNotes h f.notes s with
    | .error e s => .error (.rejected e) s
    | .ok () s => .ok h s

/-- Reads on until the outermost frame is complete, and returns its node and the rest of
    the bytes. -/
def readFrames (frames : List Frame) (data : List UInt8) (s : Store) :
    EStateM.Result WireError Store (Handle × List UInt8) :=
  match frames with
  | [] => .error (.truncated .rootNode) s
  | f :: outer =>
    match _hlist : f.list with
    | some (left + 1, nodes) =>
      match _h : readHeader s.schema data with
      | .error e => .error e s
      | .ok (g, data) => readFrames (g :: { f with list := some (left, nodes) } :: outer) data s
    | some (0, nodes) => readFrames (f.close (.many nodes.reverse) :: outer) data s
    | none =>
      match f.slotsLeft with
      | _ + 1 =>
        match data with
        | [] => .error (.truncated .slotTag) s
        | tag :: data =>
          if tag = Tag.slotVacant then readFrames (f.close (.one none) :: outer) data s
          else if tag = Tag.slotOne then
            match _h : readHeader s.schema data with
            | .error e => .error e s
            | .ok (g, data) => readFrames (g :: f :: outer) data s
          else if tag = Tag.slotMany then
            match _h : readUnsigned .listLength data with
            | .error e => .error e s
            | .ok (n, data) => readFrames ({ f with list := some (n, []) } :: outer) data s
          else .error (.malformed (.unknownSlotTag tag)) s
      | 0 =>
        match f.make s with
        | .error e s => .error e s
        | .ok h s =>
          match outer with
          | [] => .ok (h, data) s
          | g :: outer => readFrames (g.receive h :: outer) data s
termination_by remaining frames data
decreasing_by
  · exact remaining_of_list _hlist (left, nodes) outer _ ▸ remaining_cons_lt _ _ (readHeader_lt _h)
  · exact remaining_close_lt _hlist _ _ _
  · exact remaining_replace_lt _ _ _ (by simp)
  · exact remaining_cons_lt _ _ (Nat.lt_succ_of_lt (readHeader_lt _h))
  · exact remaining_replace_lt _ _ _
      (Nat.lt_succ_of_le (compositional_shortens.readUnsigned .listLength nofun _ _ _ _h).length_le)
  · exact remaining_receive_lt _ _ _ _ _

/-- The magic bytes and the version. -/
def readPreamble : Reader Unit := do
  let start ← readBytes magic.length .magic
  if start ≠ magic then Reader.fail .badMagic
  else
    let v ← readByte .formatVersion
    if v ≠ version then Reader.fail (.unsupportedVersion v) else return ()

theorem Compositional.readPreamble {P : ∀ {α : Type}, Reader α → Prop} (hP : Compositional P) :
    P readPreamble := by
  refine hP.bind (hP.readBytes _ .magic nofun) fun start => ?_
  split
  · exact hP.fail _ trivial
  · refine hP.bind (hP.readByte .formatVersion nofun) fun v => ?_
    split
    · exact hP.fail _ trivial
    · exact hP.pure _

end Wire

namespace Store

/-- Reads a tree, makes its nodes and returns its root. -/
def decode (data : List UInt8) : EStateM WireError Store Handle := fun s =>
  match Wire.readPreamble data with
  | .error e => .error e s
  | .ok ((), data) =>
    match Wire.readHeader s.schema data with
    | .error e => .error e s
    | .ok (f, data) =>
      match Wire.readFrames [f] data s with
      | .error e s => .error e s
      | .ok (root, rest) s =>
        if rest.isEmpty then .ok root s
        else .error (.malformed (.trailingBytes rest.length)) s

end Store

end TypedForest
