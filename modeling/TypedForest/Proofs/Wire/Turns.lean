import TypedForest.Proofs.Store.Step
import TypedForest.Proofs.Wire.Frames

namespace TypedForest.Wire

/-!
# Reading turn by turn

`readFrames` goes on from one turn to the next by calling itself.  Here a turn is a function of
its own, so that what one turn does can be said once and carried through the whole of reading.

* `step` : one turn, from the open frames and the bytes that are left to the next;
* `readFrames_eq_step` : reading is a turn, and then reading on from where it has led;
* `Moves`, `moves_step` : all that a turn does;
* `readFrames_induction` : induction along the turns, of which there are not infinitely many
  (`step_lt`).
-/

/-- How far reading has come. -/
inductive Progress
  /-- These frames are still open, the innermost first, and these bytes are left. -/
  | more (frames : List Frame) (data : List UInt8)
  /-- The outermost node is made, and these bytes are left. -/
  | done (root : Handle) (rest : List UInt8)

/-- Begins with a node inside the frames `outer`. -/
def enter (outer : List Frame) (data : List UInt8) : EStateM WireError Store Progress := fun s =>
  match readHeader s.schema data with
  | .error e => .error e s
  | .ok (g, rest) => .ok (.more (g :: outer) rest) s

/-- Hands a node that was made to the frame around it. -/
def deliver (h : Handle) (data : List UInt8) : List Frame → Progress
  | [] => .done h data
  | g :: outer => .more (g.receive h :: outer) data

/-- One turn of reading: begins with a node, finishes a slot or makes a node. -/
def step : List Frame → List UInt8 → EStateM WireError Store Progress
  | [], _, s => .error (.truncated .rootNode) s
  | f :: outer, data, s =>
    match f.list with
    | some (left + 1, nodes) => enter ({ f with list := some (left, nodes) } :: outer) data s
    | some (0, nodes) => .ok (.more (f.close (.many nodes.reverse) :: outer) data) s
    | none =>
      match f.slotsLeft with
      | _ + 1 =>
        match data with
        | [] => .error (.truncated .slotTag) s
        | tag :: data =>
          if tag = Tag.slotVacant then .ok (.more (f.close (.one none) :: outer) data) s
          else if tag = Tag.slotOne then enter (f :: outer) data s
          else if tag = Tag.slotMany then
            match readUnsigned .listLength data with
            | .error e => .error e s
            | .ok (n, data) => .ok (.more ({ f with list := some (n, []) } :: outer) data) s
          else .error (.malformed (.unknownSlotTag tag)) s
      | 0 => (f.make >>= fun h => pure (deliver h data outer)) s

/-- How reading goes on from there. -/
def Progress.proceed : Progress → EStateM WireError Store (Handle × List UInt8)
  | more frames data => readFrames frames data
  | done root rest => pure (root, rest)

/-! ### Reading is turn after turn -/

/-- To enter a node and go on from there is to descend to it. -/
theorem enter_bind_proceed (outer : List Frame) (data : List UInt8) (s : Store) :
    (enter outer data >>= Progress.proceed) s = descend outer data s := by
  rw [Store.bind_apply, enter, descend]
  cases readHeader s.schema data <;> rfl

/-- Reading is a turn, and then reading on from where the turn has led. -/
theorem readFrames_eq_step (frames : List Frame) (data : List UInt8) (s : Store) :
    readFrames frames data s = (step frames data >>= Progress.proceed) s := by
  cases frames with
  | nil =>
    rw [readFrames]
    rfl
  | cons f outer =>
    -- the cases in which the frames are read are those of a turn
    cases hlist : f.list with
    | some p =>
      obtain ⟨left, nodes⟩ := p
      cases left with
      | zero =>
        rw [readFrames_of_listEnd _ _ _ hlist, Store.bind_apply]
        simp only [step, hlist, Progress.proceed]
      | succ left =>
        rw [readFrames_of_item _ _ _ hlist, ← enter_bind_proceed, Store.bind_apply,
          Store.bind_apply]
        simp only [step, hlist]
    | none =>
      cases hslots : f.slotsLeft with
      | zero =>
        rw [readFrames_of_complete _ _ _ hlist hslots, Store.bind_apply]
        simp only [step, hlist, hslots, Store.bind_apply]
        cases f.make s with
        | error e s => rfl
        | ok h s => cases outer <;> rfl
      | succ n =>
        cases data with
        | nil =>
          rw [readFrames_of_no_slot _ _ hlist hslots, Store.bind_apply]
          simp only [step, hlist, hslots]
        | cons tag data =>
          rw [readFrames_of_slot _ _ _ hlist hslots, ← enter_bind_proceed, Store.bind_apply,
            Store.bind_apply]
          simp only [step, hlist, hslots]
          split
          · rfl
          · split
            · rfl
            · split
              · cases readUnsigned .listLength data <;> rfl
              · rfl

/-! ### What a turn does -/

/-- Whether all slots of a frame are read. -/
def Frame.isComplete (f : Frame) : Bool := f.list.isNone && f.slotsLeft == 0

/-- A frame is complete when no list is in hand and no slot is to come. -/
theorem Frame.isComplete_iff {f : Frame} :
    f.isComplete = true ↔ f.list = none ∧ f.slotsLeft = 0 := by
  simp [isComplete]

/-- All that a turn does.  Only the node of a complete frame is made; any other turn leaves the
    store alone and reading nearer to its end. -/
inductive Moves (s : Store) :
    List Frame → List UInt8 → EStateM.Result WireError Store Progress → Prop
  | stops {frames : List Frame} {data : List UInt8} {e : WireError}
      (unfinished : ∀ f ∈ frames.head?, f.isComplete = false) : Moves s frames data (.error e s)
  | enters {f f' g : Frame} {outer : List Frame} {data start rest : List UInt8}
      (unfinished : f.isComplete = false) (kind : f'.kind = f.kind)
      (header : readHeader s.schema start = .ok (g, rest))
      (nearer : remaining (g :: f' :: outer) rest < remaining (f :: outer) data) :
      Moves s (f :: outer) data (.ok (.more (g :: f' :: outer) rest) s)
  | fills {f f' : Frame} {outer : List Frame} {data rest : List UInt8}
      (unfinished : f.isComplete = false) (kind : f'.kind = f.kind)
      (nearer : remaining (f' :: outer) rest < remaining (f :: outer) data) :
      Moves s (f :: outer) data (.ok (.more (f' :: outer) rest) s)
  | makes {f : Frame} (outer : List Frame) (data : List UInt8) (complete : f.isComplete = true) :
      Moves s (f :: outer) data ((f.make >>= fun h => pure (deliver h data outer)) s)

/-- A turn that begins with a node, if it can. -/
theorem moves_enter {s : Store} {f f' : Frame} (hopen : f.isComplete = false)
    (hkind : f'.kind = f.kind) (outer : List Frame) {data start : List UInt8}
    (hnearer : remaining (f' :: outer) start ≤ remaining (f :: outer) data) :
    Moves s (f :: outer) data (enter (f' :: outer) start s) := by
  unfold enter
  cases hheader : readHeader s.schema start with
  | error e => exact .stops (by simpa using hopen)
  | ok p =>
    have hbegun := remaining_cons_lt p.1 (f' :: outer) (readHeader_lt hheader)
    exact .enters hopen hkind hheader (Nat.lt_of_lt_of_le hbegun hnearer)

/-- A turn does one of the things that a move can be. -/
theorem moves_step (frames : List Frame) (data : List UInt8) (s : Store) :
    Moves s frames data (step frames data s) := by
  cases frames with
  | nil => exact .stops (by simp)
  | cons f outer =>
    cases hlist : f.list with
    | some p =>
      have hopen : f.isComplete = false := by simp [Frame.isComplete, hlist]
      obtain ⟨left, nodes⟩ := p
      cases left with
      | zero =>
        simp only [step, hlist]
        exact .fills hopen rfl (remaining_close_lt hlist _ outer data)
      -- taking an item off the list does not change what is left to do
      | succ left =>
        simp only [step, hlist]
        have hsame := remaining_of_list hlist (left, nodes) outer data
        refine moves_enter hopen ?_ outer hsame.le
        rfl
    | none =>
      cases hslots : f.slotsLeft with
      | zero =>
        have hcomplete := Frame.isComplete_iff.mpr ⟨hlist, hslots⟩
        simp only [step, hlist, hslots]
        exact .makes outer data hcomplete
      | succ n =>
        have hopen : f.isComplete = false := by simp [Frame.isComplete, hslots]
        cases data with
        | nil =>
          simp only [step, hlist, hslots]
          exact .stops (by simpa using hopen)
        | cons tag data =>
          simp only [step, hlist, hslots]
          split
          · exact .fills hopen rfl (remaining_replace_lt _ _ outer (by simp))
          · split
            · exact moves_enter hopen rfl outer (remaining_replace_lt _ _ outer (by simp)).le
            · split
              · cases hcount : readUnsigned .listLength data with
                | error e => exact .stops (by simpa using hopen)
                | ok p =>
                  have hle := (compositional_shortens.readUnsigned .listLength (by decide) _ _ _
                    hcount).length_le
                  exact .fills hopen rfl (remaining_replace_lt _ _ outer (Nat.lt_succ_of_le hle))
              · exact .stops (by simpa using hopen)

/-! ### Turns come to an end -/

/-- Each turn brings reading nearer to its end. -/
theorem step_lt {frames frames' : List Frame} {data data' : List UInt8} {s s' : Store}
    (h : step frames data s = .ok (.more frames' data') s') :
    remaining frames' data' < remaining frames data := by
  have hmoves := moves_step frames data s
  generalize step frames data s = r at h hmoves
  cases hmoves with
  | stops => cases h
  | enters _ _ _ nearer =>
    cases h
    exact nearer
  | fills _ _ nearer =>
    cases h
    exact nearer
  -- the frame of the node that was made is gone, and no bytes were read for that
  | @makes f outer =>
    rw [Store.bind_apply] at h
    cases hmake : f.make s with
    | error e s₁ =>
      rw [hmake] at h
      cases h
    | ok x s₁ =>
      rw [hmake] at h
      cases outer with
      | nil => cases h
      | cons g outer =>
        cases h
        exact remaining_receive_lt f g x outer data

/-- Induction along the turns of reading: what holds wherever it holds after the next turn holds
    everywhere. -/
theorem readFrames_induction {P : List Frame → List UInt8 → Store → Prop}
    (turn : ∀ frames data s,
      (∀ frames' data' s', step frames data s = .ok (.more frames' data') s' →
        P frames' data' s') → P frames data s)
    (frames : List Frame) (data : List UInt8) (s : Store) : P frames data s :=
  turn frames data s fun frames' data' s' _hstep => readFrames_induction turn frames' data' s'
termination_by remaining frames data
decreasing_by exact step_lt _hstep

end TypedForest.Wire
