import TypedForest.Proofs.Store.Recording
import TypedForest.Proofs.Store.Run

namespace TypedForest

/-!
# What a revision records

A revision in place writes slot after slot, one that copies makes node after node, and between
these the callback does with the store what it likes.  All of it is recorded in the order in which
it happens, given what the callback records when it is called.

* `Revision.stepRecord` : one step of work;
* `Revision.loopRecord` : step after step, as long as the revision goes on
  (`Revision.loop_of_loopRecord`);
* `Record.revise` : a whole revision;
* `Store.chronicle_revise` : what is recorded is what happens to the store.
-/

namespace Revision

variable {τ : Type}

/-- Whether a handle has a child slot at a place.  A revision finds one at every place that it
    comes to, unless the handle of a node has come to stand for another one meanwhile. -/
def hasSlot (s : Store) (h : Handle) (i : Nat) : Bool :=
  (s.node? h).any fun n => decide (i < (s.schema.kind n.kind).children.length)

/-- A slot that is finished in place is recorded if the write is accepted. -/
def Frame.closeRecord (mode : Mode) (f : Frame) (filling : Filling) : Record (Store × τ) :=
  fun (s, _) =>
    match mode with
    | .copy => []
    | .inPlace =>
      match Store.setChildAt f.node f.slot filling s with
      | .ok () _ => if hasSlot s f.node f.slot then [.assign f.node filling.nodes] else []
      | .error _ _ => []

/-- The copy of a node is recorded under the handle with which the callback is called. -/
def Frame.copyRecord (f : Frame) : Record (Store × τ) :=
  Record.making f.copy (f.values.map .value ++ f.fillings.reverse)

def Frame.receiveRecord (mode : Mode) (f : Frame) (result : Option Handle) : Record (Store × τ) :=
  match f.pending with
  | .many _ :: _ => fun _ => []
  | _ => f.closeRecord mode (.one result)

variable (mode : Mode) (callback : Handle → Action τ (Option Handle))
  (record : Handle → Record (Store × τ))

/-- The copy, if there is one, and then what the callback records. -/
def Frame.finishRecord (f : Frame) : Record (Store × τ) :=
  match mode with
  | .copy => Record.andThen f.copy f.copyRecord record
  | .inPlace => record f.node

/-- One step of work. -/
def stepRecord : List Frame → Record (Store × τ)
  | [] => fun _ => []
  | f :: outer =>
    match f.pending with
    | .one none :: _ => f.closeRecord mode (.one none)
    | .one (some _) :: _ => fun _ => []
    | .many [] :: _ => f.closeRecord mode (.many f.results.reverse)
    | .many (_ :: _) :: _ => fun _ => []
    | [] =>
      Record.andThen (f.finish mode callback) (f.finishRecord mode record) fun result =>
        match outer with
        | [] => fun _ => []
        | g :: _ => g.receiveRecord mode result

/-- Step after step; a revision without end has no record. -/
def loopRecord (frames : List Frame) (s : Store × τ) : Option (List Event) :=
  match step mode callback frames s with
  | .error _ _ => some (stepRecord mode callback record frames s)
  | .ok (.done _) _ => some (stepRecord mode callback record frames s)
  | .ok (.more frames') s' =>
    (loopRecord (s := s')) frames' >>= fun es =>
      some (stepRecord mode callback record frames s ++ es)
partial_fixpoint

end Revision

/-- What a revision records, given what its callback records.  A revision without end counts as one
    that changes nothing. -/
def Record.revise {τ : Type} (mode : Revision.Mode)
    (callback : Handle → Revision.Action τ (Option Handle)) (record : Handle → Record (Store × τ))
    (root : Handle) : Record (Store × τ) := fun st =>
  match Revision.Frame.enter root st with
  | .error _ _ => []
  | .ok f st => (Revision.loopRecord mode callback record [f] st).getD []

/-! ### What is recorded is what happens -/

namespace Revision

open Store (Chronicle)

variable {τ : Type}

/-- Entering a frame only reads, and so records nothing. -/
theorem chronicle_enter (h : Handle) (st : Store × τ) :
    Chronicle st.1 [] (after (Frame.enter h) st).1 := by
  unfold after Frame.enter
  dsimp only
  cases st.1.get h <;> exact .nil

/-- An operation on the store of a revision does to it what it does by itself. -/
theorem after_onStore {α : Type} (e : Edit α) (st : Store × τ) :
    (after (onStore e) st).1 = after e st.1 := by
  unfold after onStore
  dsimp only
  cases e st.1 <;> rfl

/-- The record of closing a slot is true: in place it is a write. -/
theorem chronicle_close (mode : Mode) (f : Frame) (filling : Filling) (st : Store × τ) :
    Chronicle st.1 (f.closeRecord mode filling st) (after (f.close mode filling) st).1 := by
  cases mode with
  | copy => exact .nil
  | inPlace =>
    unfold Frame.close Frame.closeRecord
    dsimp only
    rw [Store.after_bind_pure, after_onStore]
    cases hw : Store.setChildAt f.node f.slot filling st.1 with
    | error e s' =>
      rw [Store.after_of_error hw, Store.setChildAt_eq_error hw]
      exact .nil
    | ok u s' =>
      rw [Store.after_of_ok hw]
      -- a write past the last slot succeeds without effect, and is not recorded
      obtain ⟨n, hn, ⟨hnone, hsame⟩ | ⟨slot, c, hslot, -⟩⟩ := Store.setChildAt_eq_ok hw
      · have hpast : hasSlot st.1 f.node f.slot = false := by
          simpa [hasSlot, hn] using hnone
        rw [hpast, hsame]
        exact .nil
      · have hthere : hasSlot st.1 f.node f.slot = true := by
          simpa [hasSlot, hn] using (List.getElem?_eq_some_iff.mp hslot).1
        rw [if_pos hthere]
        exact (Store.Change.assign hn hslot hw).chronicle

/-- The record of copying a node is true. -/
theorem chronicle_copy (f : Frame) (st : Store × τ) :
    Chronicle st.1 (f.copyRecord st) (after f.copy st).1 := by
  unfold after Frame.copyRecord Record.making Frame.copy
  dsimp only
  cases hget : st.1.get f.node with
  | error e => exact .nil
  | ok n =>
    have hknown : st.1.Known n.kind := .inr ⟨f.node, n, Store.get_eq_ok_iff.mp hget, rfl⟩
    dsimp only
    cases hc : Store.construct n.kind (f.values.map .value ++ f.fillings.reverse) st.1 with
    | error e s' =>
      rw [Store.construct_eq_error hc]
      exact .nil
    | ok h s' =>
      -- the notes come afterwards, and leave no event
      have hmade := (Store.Change.make hknown hc).chronicle
      have hnotes := hmade.snoc (.touch (.annotate h fun _ => n.notes))
      rw [List.append_nil] at hnotes
      exact hnotes

/-- The record of taking over a result is true. -/
theorem chronicle_receive (mode : Mode) (f : Frame) (result : Option Handle) (st : Store × τ) :
    Chronicle st.1 (f.receiveRecord mode result st) (after (f.receive mode result) st).1 := by
  unfold Frame.receive Frame.receiveRecord
  cases f.pending with
  | nil => exact chronicle_close mode f _ st
  | cons content later =>
    cases content with
    | one node => exact chronicle_close mode f _ st
    | many nodes => exact .nil

section

variable {schema : Schema} {callback : Handle → Action τ (Option Handle)}
  {record : Handle → Record (Store × τ)}
  (hcallback : ∀ h st, st.1.schema = schema →
    Chronicle st.1 (record h st) (after (callback h) st).1)
include hcallback

/-- The record of finishing a node is true if that of the callback is. -/
theorem chronicle_finish (mode : Mode) (f : Frame) {st : Store × τ} (hst : st.1.schema = schema) :
    Chronicle st.1 (f.finishRecord mode record st) (after (f.finish mode callback) st).1 := by
  cases mode with
  | inPlace => exact hcallback f.node st hst
  | copy =>
    have hcopy := chronicle_copy f st
    refine Store.chronicle_andThen Prod.fst hcopy fun h st' hh => hcallback h st' ?_
    rw [Store.after_of_ok hh] at hcopy
    exact hcopy.schema.trans hst

/-- One step of work does what it records, if each call of the callback does. -/
theorem chronicle_step (mode : Mode) (frames : List Frame) {st : Store × τ}
    (hst : st.1.schema = schema) :
    Chronicle st.1 (stepRecord mode callback record frames st)
      (after (step mode callback frames) st).1 := by
  cases frames with
  | nil => exact .nil
  | cons f outer =>
    cases hp : f.pending with
    | nil =>
      simp only [step, stepRecord, hp]
      -- the result goes to the frame around, if there is one
      refine Store.chronicle_andThen Prod.fst (chronicle_finish hcallback mode f hst) ?_
      intro result st' _
      cases outer with
      | nil => exact .nil
      | cons g outer =>
        dsimp only
        rw [Store.after_bind_pure]
        exact chronicle_receive mode g result st'
    | cons content later =>
      cases content with
      | one node =>
        cases node with
        | none =>
          simp only [step, stepRecord, hp]
          rw [Store.after_bind_pure]
          exact chronicle_close mode f _ st
        | some child =>
          simp only [step, stepRecord, hp]
          rw [Store.after_bind_pure]
          exact chronicle_enter child st
      | many nodes =>
        cases nodes with
        | nil =>
          simp only [step, stepRecord, hp]
          rw [Store.after_bind_pure]
          exact chronicle_close mode f _ st
        | cons child rest =>
          simp only [step, stepRecord, hp]
          rw [Store.after_bind_pure]
          exact chronicle_enter child st

/-- A revision that ends has a record, and does what it records. -/
theorem chronicle_loop {mode : Mode} {frames : List Frame} {st : Store × τ}
    {r : EStateM.Result NodeError (Store × τ) (Option Handle)}
    (hr : loop mode callback frames st = some r) (hst : st.1.schema = schema) :
    ∃ es, loopRecord mode callback record frames st = some es ∧
      Chronicle st.1 es (after (fun _ => r) st).1 := by
  -- by induction on the turns: the record of the loop ends where the loop does
  refine loop.partial_correctness mode callback
    (fun frames st r => st.1.schema = schema →
      ∃ es, loopRecord mode callback record frames st = some es ∧
        Chronicle st.1 es (after (fun _ => r) st).1) ?_ frames st r hr hst
  intro rec ih frames st r hr hst
  have hstep := chronicle_step hcallback mode frames hst
  rw [loopRecord]
  cases hs : step mode callback frames st with
  | error e st' =>
    rw [Store.after_of_error hs] at hstep
    rw [hs] at hr
    cases hr
    exact ⟨_, rfl, hstep⟩
  | ok progress st' =>
    rw [Store.after_of_ok hs] at hstep
    rw [hs] at hr
    cases progress with
    | done result =>
      cases hr
      exact ⟨_, rfl, hstep⟩
    | more frames' =>
      obtain ⟨es, hes, hrest⟩ := ih frames' st' r hr (hstep.schema.trans hst)
      refine ⟨_, ?_, hstep.trans hrest⟩
      simp only [hes, Option.bind_eq_bind, Option.bind_some]

end

/-- A revision without end has no record. -/
theorem loop_of_loopRecord {mode : Mode} {callback : Handle → Action τ (Option Handle)}
    {record : Handle → Record (Store × τ)} {frames : List Frame} {st : Store × τ}
    {es : List Event} (hes : loopRecord mode callback record frames st = some es) :
    (loop mode callback frames st).isSome = true := by
  refine loopRecord.partial_correctness mode callback record
    (fun frames st _ => (loop mode callback frames st).isSome = true) ?_ frames st es hes
  intro rec ih frames st es hes
  rw [loop]
  cases hs : step mode callback frames st with
  | error e st' => rfl
  | ok progress st' =>
    rw [hs] at hes
    cases progress with
    | done result => rfl
    | more frames' =>
      obtain ⟨es', hes', -⟩ := Option.bind_eq_some_iff.mp hes
      exact ih frames' st' es' hes'

end Revision

/-- What a revision records is what happens to the store, if it is so for each call of its
    callback. -/
theorem Store.chronicle_revise {τ : Type} {schema : Schema}
    {callback : Handle → Revision.Action τ (Option Handle)} {record : Handle → Record (Store × τ)}
    (hcallback : ∀ h st, st.1.schema = schema →
      Chronicle st.1 (record h st) (after (callback h) st).1)
    (mode : Revision.Mode) (root : Handle) {st : Store × τ} (hst : st.1.schema = schema) :
    Chronicle st.1 (Record.revise mode callback record root st)
      (after (Store.revise mode callback root) st).1 := by
  have henter := Revision.chronicle_enter root st
  unfold after Record.revise Store.revise Revision.outcome?
  cases he : Revision.Frame.enter root st with
  | error e st' =>
    rw [after_of_error he] at henter
    exact henter
  | ok f st' =>
    rw [after_of_ok he] at henter
    dsimp only
    cases hr : Revision.loop mode callback [f] st' with
    | none =>
      cases hes : Revision.loopRecord mode callback record [f] st' with
      | none => exact .nil
      | some es =>
        -- without an end of the loop there is none of the record
        have hends := Revision.loop_of_loopRecord hes
        rw [hr] at hends
        cases hends
    | some r =>
      obtain ⟨es, hes, hloop⟩ := Revision.chronicle_loop hcallback hr (henter.schema.trans hst)
      rw [hes]
      exact henter.trans hloop

end TypedForest
