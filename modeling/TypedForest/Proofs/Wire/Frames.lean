import TypedForest.Wire.Reader

namespace TypedForest.Wire

/-!
# Reading frame by frame

`readFrames` works on the innermost open frame.  What it does there depends on how far the frame
has come, and there is one equation for each case:

* `readFrames_of_item` : the list in hand has items to come;
* `readFrames_of_listEnd` : the list in hand is complete;
* `readFrames_of_slot` : a slot is to come (`readFrames_of_no_slot` if the bytes end here);
* `readFrames_of_complete` : all slots are there, and the node is made (`resume`).
-/

/-- How reading goes on when a node is complete. -/
def resume (outer : List Frame) (h : Handle) (data : List UInt8) (s : Store) :
    EStateM.Result WireError Store (Handle × List UInt8) :=
  match outer with
  | [] => .ok (h, data) s
  | g :: outer => readFrames (g.receive h :: outer) data s

/-- How reading goes on with a node inside the frames `outer`. -/
def descend (outer : List Frame) (data : List UInt8) (s : Store) :
    EStateM.Result WireError Store (Handle × List UInt8) :=
  match readHeader s.schema data with
  | .error e => .error e s
  | .ok (g, rest) => readFrames (g :: outer) rest s

section

variable {f : Frame} (outer : List Frame) (data : List UInt8) (s : Store)

/-- The list in hand has items to come: the next one is a node inside the frame, which then waits
    for one item less. -/
theorem readFrames_of_item {m : Nat} {nodes : List Handle}
    (hlist : f.list = some (m + 1, nodes)) :
    readFrames (f :: outer) data s
      = descend ({ f with list := some (m, nodes) } :: outer) data s := by
  rw [readFrames.eq_def, descend]
  dsimp only
  -- the equation of the definition has a case for each state of the list
  split
  · next left nodes' h =>
    rw [hlist] at h
    cases h
    split
    · next e he => simp only [he]
    · next g rest hg => simp only [hg]
  · simp_all
  · simp_all

/-- The list in hand is complete: its nodes, which were gathered from the last to the first, fill
    the slot. -/
theorem readFrames_of_listEnd {nodes : List Handle} (hlist : f.list = some (0, nodes)) :
    readFrames (f :: outer) data s
      = readFrames (f.close (.many nodes.reverse) :: outer) data s := by
  rw [readFrames.eq_def]
  dsimp only
  split
  · simp_all
  · simp_all
  · simp_all

/-- A slot is to come: its tag says whether it is vacant, has one node, or has a list whose length
    is read next. -/
theorem readFrames_of_slot {n : Nat} (hlist : f.list = none) (hslots : f.slotsLeft = n + 1)
    (tag : UInt8) :
    readFrames (f :: outer) (tag :: data) s
      = if tag = Tag.slotVacant then readFrames (f.close (.one none) :: outer) data s
        else if tag = Tag.slotOne then descend (f :: outer) data s
        else if tag = Tag.slotMany then
          match readUnsigned .listLength data with
          | .error e => .error e s
          | .ok (m, rest) => readFrames ({ f with list := some (m, []) } :: outer) rest s
        else .error (.malformed (.unknownSlotTag tag)) s := by
  rw [readFrames.eq_def, descend]
  dsimp only
  split
  · simp_all
  · simp_all
  · -- only the case without a list in hand is left, and there one for each tag
    simp only [hslots]
    split
    · rfl
    · split
      · split
        · next e he => simp only [he]
        · next g rest hg => simp only [hg]
      · split
        · split
          · next e he => simp only [he]
          · next m rest hm => simp only [hm]
        · rfl

/-- A slot is to come but the bytes end here. -/
theorem readFrames_of_no_slot {n : Nat} (hlist : f.list = none) (hslots : f.slotsLeft = n + 1) :
    readFrames (f :: outer) [] s = .error (.truncated .slotTag) s := by
  rw [readFrames.eq_def]
  dsimp only
  split
  · simp_all
  · simp_all
  · simp only [hslots]

/-- All slots are there: the node is made and handed to the frame outside, if there is one. -/
theorem readFrames_of_complete (hlist : f.list = none) (hslots : f.slotsLeft = 0) :
    readFrames (f :: outer) data s = match f.make s with
      | .error e s => .error e s
      | .ok h s => resume outer h data s := by
  rw [readFrames.eq_def]
  dsimp only
  split
  · simp_all
  · simp_all
  · simp only [hslots]
    cases f.make s with
    | error e s => rfl
    | ok h s => cases outer <;> rfl

end

end TypedForest.Wire
