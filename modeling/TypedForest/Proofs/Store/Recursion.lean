import Mathlib.Order.Basic
import TypedForest.Proofs.Store.Run

namespace TypedForest

/-!
# Revision as a recursion

What a revision does is said most directly as a recursion over the nodes it comes to
(`Revision.reviseNode`): read the node, revise what its slots held then, one slot after the
other, and hand the node or its copy to the callback.  The loop does the same with frames for the
nodes that it is in the middle of.

* `Revision.Attempt` : operations that may go on for ever, ordered by their outcomes;
* `Revision.bottomUp` : the recursion, as the least solution of its equation;
* `Revision.Frame.complete` : what the recursion does from a frame on;
* `Revision.outcome?_eq_bottomUp?` : loop and recursion have the same outcomes.

Each side is the least solution of its own equation.  So it is enough that the recursion solves
the equation of the loop, for all frames that are open (`Revision.meaning_eq`), and that the loop
solves that of the recursion, inside any frames (`Revision.complete_le_run`).
-/

/-- A list behind other nodes; one node alone stays what it is. -/
def Filling.prepend (front : List Handle) : Filling → Filling
  | .many nodes => .many (front ++ nodes)
  | filling => filling

theorem Filling.prepend_nil (filling : Filling) : filling.prepend [] = filling := by
  cases filling <;> rfl

namespace Revision

/-! ### Operations that may go on for ever -/

/-- An operation on a store with a state.  If it goes on for ever it has no outcome. -/
def Attempt (τ α : Type) := Store × τ → Option (EStateM.Result NodeError (Store × τ) α)

/-- An operation that ends. -/
def perform {τ α : Type} (x : Action τ α) : Attempt τ α := fun st => some (x st)

/-- How an operation goes on from an outcome: a failure stays what it is. -/
def follow {τ α β : Type} (f : α → Attempt τ β) :
    EStateM.Result NodeError (Store × τ) α → Option (EStateM.Result NodeError (Store × τ) β)
  | .error e st => some (.error e st)
  | .ok a st => f a st

instance {τ : Type} : Monad (Attempt τ) where
  pure a := fun st => some (.ok a st)
  bind x f := fun st => (x st).bind (follow f)

/-- Attempts one after the other, seen from a state. -/
theorem attempt_bind_apply {τ α β : Type} (x : Attempt τ α) (f : α → Attempt τ β)
    (st : Store × τ) : (x >>= f) st = (x st).bind (follow f) := rfl

instance {τ : Type} : LawfulMonad (Attempt τ) := by
  refine LawfulMonad.mk' (Attempt τ) (fun x => ?_) (fun a f => rfl) (fun x f g => ?_)
  · funext st
    show (x st).bind (follow pure) = x st
    cases x st with
    | none => rfl
    | some r => cases r <;> rfl
  · funext st
    simp only [attempt_bind_apply]
    cases x st with
    | none => rfl
    | some r => cases r <;> rfl

/-- An operation is below those that have its outcome wherever it has one. -/
instance {τ α : Type} : PartialOrder (Attempt τ α) where
  le x y := ∀ st r, x st = some r → y st = some r
  le_refl _ _ _ h := h
  le_trans _ _ _ hxy hyz st r h := hyz st r (hxy st r h)
  le_antisymm _ _ hxy hyx := funext fun st => Option.ext fun r => ⟨hxy st r, hyx st r⟩

section

variable {τ α β : Type}

@[simp] theorem perform_pure (a : α) : perform (pure a : Action τ α) = pure a := rfl

/-- Performing two actions one after the other is performing both. -/
@[simp] theorem perform_bind (x : Action τ α) (f : α → Action τ β) :
    perform (x >>= f) = perform x >>= fun a => perform (f a) := by
  funext st
  rw [perform, Store.bind_apply, attempt_bind_apply, perform]
  cases x st <;> rfl

/-- A first attempt and its follower say no more than another attempt, told by the outcomes of the
    first. -/
theorem bind_le_iff {x : Attempt τ α} {f : α → Attempt τ β} {y : Attempt τ β} :
    x >>= f ≤ y ↔ ∀ st q, x st = some q → ∀ r, follow f q = some r → y st = some r := by
  constructor
  · intro h st q hq r hr
    exact h st r (by rw [attempt_bind_apply, hq]; exact hr)
  · intro h st r hr
    obtain ⟨q, hq, hfollow⟩ := Option.bind_eq_some_iff.mp hr
    exact h st q hq r hfollow

/-- With more outcomes in either part there are more in both. -/
theorem bind_mono {x y : Attempt τ α} {f g : α → Attempt τ β} (hxy : x ≤ y)
    (hfg : ∀ a, f a ≤ g a) : x >>= f ≤ y >>= g := by
  refine bind_le_iff.mpr fun st q hq r hr => ?_
  rw [attempt_bind_apply, hxy st q hq]
  cases q with
  | error e st' => exact hr
  | ok a st' => exact hfg a st' r hr

theorem bind_mono_right (x : Attempt τ α) {f g : α → Attempt τ β} (hfg : ∀ a, f a ≤ g a) :
    x >>= f ≤ x >>= g := bind_mono (le_refl x) hfg

theorem bind_mono_left {x y : Attempt τ α} (hxy : x ≤ y) (f : α → Attempt τ β) :
    x >>= f ≤ y >>= f := bind_mono hxy fun a => le_refl (f a)

/-- So it is for an attempt per item. -/
theorem mapM_mono {v w : α → Attempt τ β} (h : ∀ x, v x ≤ w x) (xs : List α) :
    xs.mapM v ≤ xs.mapM w := by
  induction xs with
  | nil => exact le_refl _
  | cons x xs ih =>
    rw [List.mapM_cons, List.mapM_cons]
    exact bind_mono (h x) fun y => bind_mono_left ih _

/-- And for one that may leave out items. -/
theorem filterMapM_mono {v w : α → Attempt τ (Option β)} (h : ∀ x, v x ≤ w x) (xs : List α) :
    xs.filterMapM v ≤ xs.filterMapM w := by
  induction xs with
  | nil => exact le_refl _
  | cons x xs ih =>
    rw [List.filterMapM_cons, List.filterMapM_cons]
    refine bind_mono (h x) fun o => ?_
    cases o with
    | none => exact ih
    | some y => exact bind_mono_left ih _

end

/-! ### The recursion -/

/-- The node of a handle. -/
def readNode (h : Handle) : Edit Node := fun s =>
  match s.get h with
  | .error e => .error e s
  | .ok n => .ok n s

/-- Makes a copy of a node, with other contents and with the notes that the node has now. -/
def copyNode (h : Handle) (values : List Value) (fillings : List Filling) : Edit Handle := do
  let n ← readNode h
  let c ← Store.construct n.kind (values.map .value ++ fillings)
  modify fun s => s.modifyNode c fun m => { m with notes := n.notes }
  return c

section

variable {τ : Type} (mode : Mode) (callback : Handle → Action τ (Option Handle))
  (visit : Handle → Attempt τ (Option Handle))

/-- What takes the place of the content of a slot.  A list loses the nodes without a result. -/
def reviseContent : Content → Attempt τ Filling
  | .one none => pure (.one none)
  | .one (some child) => do return .one (← visit child)
  | .many children => do return .many (← children.filterMapM visit)

/-- Revises the content of a slot, and writes it back at once if the node itself is revised. -/
def reviseSlot (h : Handle) (content : Content) (i : Nat) : Attempt τ Filling := do
  let filling ← reviseContent visit content
  match mode with
  | .copy => return filling
  | .inPlace =>
    perform (onStore (Store.setChildAt h i filling))
    return filling

/-- **The recursion**, with `visit` for the calls: reads the node, revises the contents that its
    slots have now, one after the other, and hands the node or its copy to the callback. -/
def reviseNode (h : Handle) : Attempt τ (Option Handle) := do
  let n ← perform (onStore (readNode h))
  let fillings ← n.children.zipIdx.mapM fun (content, i) => reviseSlot mode visit h content i
  match mode with
  | .copy => perform (onStore (copyNode h n.values fillings) >>= callback)
  | .inPlace => perform (callback h)

end

section

variable {τ : Type} (mode : Mode) (callback : Handle → Action τ (Option Handle))

/-- A node has more outcomes if the visits of its children have more. -/
theorem reviseNode_mono {v w : Handle → Attempt τ (Option Handle)} (h : ∀ x, v x ≤ w x)
    (x : Handle) : reviseNode mode callback v x ≤ reviseNode mode callback w x := by
  refine bind_mono_right _ fun n => bind_mono_left (mapM_mono ?_ _) _
  rintro ⟨content, i⟩
  refine bind_mono_left ?_ _
  cases content with
  | one node =>
    cases node with
    | none => exact le_refl _
    | some child => exact bind_mono_left (h child) _
  | many children => exact bind_mono_left (filterMapM_mono h children) _

/-- The outcome of the recursion from a node on, if it ends. -/
def bottomUp? (h : Handle) (s : Store × τ) :
    Option (EStateM.Result NodeError (Store × τ) (Option Handle)) :=
  reviseNode mode callback (fun child s => (bottomUp? (s := s)) child) h s
partial_fixpoint monotonicity by
  -- when the calls have more outcomes, those that were there before are kept
  intro v w hvw h st
  have hle : ∀ x, @LE.le (Attempt τ (Option Handle)) _ (v x) (w x) := by
    intro x st r hr
    have hx := hvw x st
    rw [hr] at hx
    generalize w x st = o at hx ⊢
    cases hx
    rfl
  have hmono := reviseNode_mono mode callback hle h st
  beta_reduce
  generalize reviseNode mode callback v h st = x at hmono ⊢
  generalize reviseNode mode callback w h st = y at hmono ⊢
  cases x with
  | none => exact .bot
  | some r =>
    rw [hmono r rfl]
    exact .refl

/-- The recursion as an operation. -/
def bottomUp (h : Handle) : Attempt τ (Option Handle) := bottomUp? mode callback h

/-- A node is revised after its children, which are revised in the same way. -/
theorem bottomUp_eq (h : Handle) :
    bottomUp mode callback h = reviseNode mode callback (bottomUp mode callback) h := by
  funext st
  show bottomUp? mode callback h st = _
  rw [bottomUp?]
  rfl

/-- The recursion as far as a depth, below which it has no outcome. -/
def bottomUpTo : Nat → Handle → Attempt τ (Option Handle)
  | 0, _ => fun _ => none
  | depth + 1, h => reviseNode mode callback (bottomUpTo depth) h

/-- What ends within so many levels ends in the same way without a limit. -/
theorem bottomUpTo_le (depth : Nat) (h : Handle) :
    bottomUpTo mode callback depth h ≤ bottomUp mode callback h := by
  induction depth generalizing h with
  | zero =>
    intro st r hr
    cases hr
  | succ depth ih =>
    rw [bottomUp_eq]
    exact reviseNode_mono mode callback ih h

/-- Induction for the recursion: what holds of its parts, whatever follows them, holds of it. -/
theorem bottomUp_bind_le {ι β : Type} {k : ι → Option Handle → Attempt τ β}
    {y : ι → Handle → Attempt τ β}
    (hstep : ∀ v : Handle → Attempt τ (Option Handle), (∀ i h, v h >>= k i ≤ y i h) →
      ∀ i h, reviseNode mode callback v h >>= k i ≤ y i h) (i : ι) (h : Handle) :
    bottomUp mode callback h >>= k i ≤ y i h := by
  refine bind_le_iff.mpr fun st q hq => ?_
  refine bottomUp?.partial_correctness mode callback
    (fun h st q => ∀ i r, follow (k i) q = some r → y i h st = some r) ?_ h st q hq i
  intro v hv h st q hq i
  exact bind_le_iff.mp (hstep v (fun i h => bind_le_iff.mpr fun st q hq => hv h st q hq i) i h)
    st q hq

/-! ### The loop -/

/-- The loop as an operation. -/
def run (frames : List Frame) : Attempt τ (Option Handle) := loop mode callback frames

/-- One step, and `go` for what is left to do. -/
def advance (go : List Frame → Attempt τ (Option Handle)) (frames : List Frame) :
    Attempt τ (Option Handle) := do
  match ← perform (step mode callback frames) with
  | .done result => pure result
  | .more frames => go frames

/-- One turn of the loop, and what follows it. -/
theorem advance_apply (go : List Frame → Attempt τ (Option Handle)) (frames : List Frame)
    (st : Store × τ) :
    advance mode callback go frames st = match step mode callback frames st with
      | .error e st => some (.error e st)
      | .ok (.done result) st => some (.ok result st)
      | .ok (.more frames) st => go frames st := by
  rw [advance, attempt_bind_apply, perform, Option.bind_some]
  cases step mode callback frames st with
  | error e st => rfl
  | ok progress st => cases progress <;> rfl

/-- The loop takes a turn and goes on. -/
theorem run_eq (frames : List Frame) :
    run mode callback frames = advance mode callback (run mode callback) frames := by
  funext st
  show loop mode callback frames st = _
  rw [loop, advance_apply]
  rfl

/-- A turn has more outcomes if what follows it has more. -/
theorem advance_mono {v w : List Frame → Attempt τ (Option Handle)}
    (h : ∀ frames, v frames ≤ w frames) (frames : List Frame) :
    advance mode callback v frames ≤ advance mode callback w frames := by
  refine bind_mono_right _ fun progress => ?_
  cases progress with
  | done result => exact le_refl _
  | more frames => exact h frames

/-- The loop is the least that does one step and then itself. -/
theorem run_le {x : List Frame → Attempt τ (Option Handle)}
    (hx : ∀ frames, advance mode callback x frames ≤ x frames) (frames : List Frame) :
    run mode callback frames ≤ x frames := by
  intro st r
  refine loop.partial_correctness mode callback (fun frames st r => x frames st = some r) ?_
    frames st r
  intro v hv frames st r hr
  refine hx frames st r (advance_mono mode callback hv frames st r ?_)
  exact (advance_apply mode callback v frames st).trans hr

/-- How work goes on with the result for a node. -/
def pass (go : List Frame → Attempt τ (Option Handle)) :
    List Frame → Option Handle → Attempt τ (Option Handle)
  | [], result => pure result
  | f :: outer, result => do
    let f ← perform (f.receive mode result)
    go (f :: outer)

section

variable (go : List Frame → Attempt τ (Option Handle)) {f : Frame} (outer : List Frame)

/-- A frame with nothing to come is finished, and its result is handed on. -/
theorem advance_finish (hp : f.pending = []) :
    advance mode callback go (f :: outer)
      = perform (f.finish mode callback) >>= pass mode go outer := by
  rw [advance, step, hp]
  simp only [perform_bind, bind_assoc]
  refine bind_congr fun result => ?_
  cases outer with
  | nil => rfl
  | cons g outer =>
    simp only [perform_bind, perform_pure, bind_assoc, pure_bind, pass]

/-- An empty slot is closed at once. -/
theorem advance_vacant {later : List Content} (hp : f.pending = .one none :: later) :
    advance mode callback go (f :: outer)
      = perform (f.close mode (.one none)) >>= fun g => go (g :: outer) := by
  rw [advance, step, hp]
  simp only [perform_bind, perform_pure, bind_assoc, pure_bind]

/-- For the node in a slot a frame of its own is entered. -/
theorem advance_one {x : Handle} {later : List Content}
    (hp : f.pending = .one (some x) :: later) :
    advance mode callback go (f :: outer)
      = perform (Frame.enter x) >>= fun g => go (g :: f :: outer) := by
  rw [advance, step, hp]
  simp only [perform_bind, perform_pure, bind_assoc, pure_bind]

/-- At the end of a list its slot is closed with the results. -/
theorem advance_listEnd {later : List Content} (hp : f.pending = .many [] :: later) :
    advance mode callback go (f :: outer)
      = perform (f.close mode (.many f.results.reverse)) >>= fun g => go (g :: outer) := by
  rw [advance, step, hp]
  simp only [perform_bind, perform_pure, bind_assoc, pure_bind]

/-- For an item of a list a frame of its own is entered, and the item is not to come any more. -/
theorem advance_item {x : Handle} {rest : List Handle} {later : List Content}
    (hp : f.pending = .many (x :: rest) :: later) :
    advance mode callback go (f :: outer) = perform (Frame.enter x) >>= fun g =>
      go (g :: { f with pending := .many rest :: later } :: outer) := by
  rw [advance, step, hp]
  simp only [perform_bind, perform_pure, bind_assoc, pure_bind]

end

end

/-! ### What the recursion does from a frame on -/

/-- What is kept when the slot in hand is finished. -/
def Frame.closed (mode : Mode) (f : Frame) (filling : Filling) : Frame :=
  { f with
    slot := f.slot + 1
    pending := f.pending.tail
    results := []
    fillings := match mode with
      | .copy => filling :: f.fillings
      | .inPlace => f.fillings }

/-- What is done to the store when the slot in hand is finished. -/
def Frame.write {τ : Type} (mode : Mode) (f : Frame) (filling : Filling) : Action τ Unit :=
  match mode with
  | .copy => pure ()
  | .inPlace => onStore (Store.setChildAt f.node f.slot filling)

section

variable {τ : Type} (mode : Mode) (callback : Handle → Action τ (Option Handle))
  (visit : Handle → Attempt τ (Option Handle))

/-- To close a slot is to write it, in place, and to go on to the next one. -/
theorem perform_close (f : Frame) (filling : Filling) :
    perform (f.close mode filling : Action τ Frame)
      = perform (f.write mode filling) >>= fun _ => pure (f.closed mode filling) := by
  cases mode with
  | copy => rfl
  | inPlace => exact perform_bind _ _

/-- Finishes the slots of a frame by recursion.  A list goes on behind the results that are
    there. -/
def finishSlots : List Content → Frame → Attempt τ Frame
  | [], f => pure f
  | content :: later, f => do
    let filling ← reviseContent visit content
    let filling := filling.prepend f.results.reverse
    perform (f.write mode filling)
    finishSlots later (f.closed mode filling)

/-- Finishes the node of a frame by recursion. -/
def Frame.complete (f : Frame) : Attempt τ (Option Handle) := do
  let f ← finishSlots mode visit f.pending f
  perform (f.finish mode callback)

section

variable {f : Frame}

/-- The same for the recursion: a frame with nothing to come is finished. -/
theorem complete_finish (hp : f.pending = []) :
    f.complete mode callback visit = perform (f.finish mode callback) := by
  rw [Frame.complete, hp, finishSlots, pure_bind]

/-- A frame with a slot to come revises and closes it first. -/
theorem complete_slot {content : Content} {later : List Content}
    (hp : f.pending = content :: later) :
    f.complete mode callback visit = reviseContent visit content >>= fun filling =>
      perform (f.close mode (filling.prepend f.results.reverse))
        >>= Frame.complete mode callback visit := by
  have htail : ∀ filling, (f.closed mode filling).pending = later := by
    intro filling
    show f.pending.tail = later
    rw [hp, List.tail_cons]
  simp only [Frame.complete, hp, finishSlots, perform_close, bind_assoc, pure_bind, htail]

/-- An empty slot is closed at once. -/
theorem complete_vacant {later : List Content} (hp : f.pending = .one none :: later) :
    f.complete mode callback visit
      = perform (f.close mode (.one none)) >>= Frame.complete mode callback visit := by
  rw [complete_slot mode callback visit hp, reviseContent, pure_bind]
  rfl

/-- The node in a slot is visited, and the frame takes over the result. -/
theorem complete_one {x : Handle} {later : List Content}
    (hp : f.pending = .one (some x) :: later) :
    f.complete mode callback visit = visit x >>= fun result =>
      perform (f.receive mode result) >>= Frame.complete mode callback visit := by
  rw [complete_slot mode callback visit hp, reviseContent]
  simp only [bind_assoc, pure_bind, Filling.prepend, Frame.receive, hp]

/-- At the end of a list its slot is closed with the results. -/
theorem complete_listEnd {later : List Content} (hp : f.pending = .many [] :: later) :
    f.complete mode callback visit = perform (f.close mode (.many f.results.reverse))
      >>= Frame.complete mode callback visit := by
  rw [complete_slot mode callback visit hp, reviseContent]
  simp only [List.filterMapM_nil, pure_bind, Filling.prepend, List.append_nil]

/-- An item of a list is visited, and the frame takes over the result. -/
theorem complete_item {x : Handle} {rest : List Handle} {later : List Content}
    (hp : f.pending = .many (x :: rest) :: later) :
    f.complete mode callback visit = visit x >>= fun result =>
      perform (Frame.receive mode { f with pending := .many rest :: later } result)
        >>= Frame.complete mode callback visit := by
  -- the frame that waits for the item is closed as this one would be
  have hclose : ∀ results filling, (Frame.close mode
      { f with pending := .many rest :: later, results := results } filling : Action τ Frame)
        = f.close mode filling := by
    intro results filling
    cases mode <;> simp only [Frame.close, hp, List.tail_cons]
  rw [complete_slot mode callback visit hp, reviseContent, List.filterMapM_cons]
  simp only [bind_assoc]
  refine bind_congr fun result => ?_
  simp only [Frame.receive, perform_pure, pure_bind]
  -- its result stands in front of those to come
  have hwaits := complete_slot mode callback visit
    (f := { f with pending := .many rest :: later, results := result.toList ++ f.results }) rfl
  rw [hwaits, reviseContent]
  simp only [hclose, bind_assoc, pure_bind]
  cases result with
  | none => simp [Filling.prepend]
  | some y => simp [Filling.prepend]

end

/-! ### The recursion begins with a frame -/

/-- A frame is entered by reading its node. -/
theorem enter_eq (h : Handle) :
    (Frame.enter h : Action τ Frame)
      = onStore (readNode h) >>= fun n => pure ⟨h, n.values, 0, n.children, [], []⟩ := by
  funext st
  obtain ⟨s, c⟩ := st
  rw [Store.bind_apply]
  simp only [Frame.enter, onStore, readNode]
  cases s.get h <;> rfl

/-- A frame is copied from its values and its fillings. -/
theorem copy_eq (f : Frame) :
    (f.copy : Action τ Handle) = onStore (copyNode f.node f.values f.fillings.reverse) := by
  funext st
  obtain ⟨s, c⟩ := st
  simp only [Frame.copy, onStore, copyNode, Store.bind_apply, readNode]
  cases s.get f.node with
  | error e => rfl
  | ok n =>
    dsimp only
    cases Store.construct n.kind (f.values.map .value ++ f.fillings.reverse) s <;> rfl

/-- A slot is revised and then written. -/
theorem reviseSlot_eq (f : Frame) (content : Content) :
    reviseSlot mode visit f.node content f.slot = reviseContent visit content >>= fun filling =>
      perform (f.write mode filling) >>= fun _ => pure filling := by
  cases mode <;> rfl

/-- From the first slot on, the frame has what the recursion has. -/
theorem finishSlots_eq (h : Handle) (values : List Value) (contents : List Content) (i : Nat)
    (fillings : List Filling) :
    finishSlots mode visit contents ⟨h, values, i, contents, [], fillings⟩
      = (contents.zipIdx i).mapM (fun (content, i) => reviseSlot mode visit h content i)
        >>= fun done => pure ⟨h, values, i + contents.length, [], [], match mode with
          | .copy => done.reverse ++ fillings
          | .inPlace => fillings⟩ := by
  induction contents generalizing i fillings with
  | nil =>
    cases mode <;> rfl
  | cons content later ih =>
    have hslot := reviseSlot_eq mode visit ⟨h, values, i, content :: later, [], fillings⟩ content
    rw [finishSlots, List.zipIdx_cons, List.mapM_cons]
    simp only [hslot, bind_assoc, pure_bind]
    refine bind_congr fun filling => ?_
    rw [List.reverse_nil, Filling.prepend_nil]
    refine bind_congr fun _ => ?_
    refine (ih (i + 1) _).trans (bind_congr fun done => ?_)
    rw [List.length_cons, Nat.add_assoc, Nat.add_comm 1]
    cases mode with
    | copy => simp only [List.reverse_cons, List.append_assoc, List.singleton_append]
    | inPlace => rfl

/-- The recursion comes to a node as the loop does, and goes on from there. -/
theorem reviseNode_eq (h : Handle) :
    reviseNode mode callback visit h
      = perform (Frame.enter h) >>= Frame.complete mode callback visit := by
  rw [reviseNode, enter_eq]
  simp only [perform_bind, perform_pure, bind_assoc, pure_bind, Frame.complete, finishSlots_eq]
  refine bind_congr fun n => bind_congr fun fillings => ?_
  cases mode with
  | copy =>
    simp only [Frame.finish, copy_eq, List.append_nil, List.reverse_reverse, perform_bind]
  | inPlace => rfl

end

/-! ### Loop and recursion agree -/

section

variable {τ : Type} (mode : Mode) (callback : Handle → Action τ (Option Handle))

/-- The loop does from a frame on at least what the recursion does, whatever frames are open
    outside, when it does so for the nodes below. -/
theorem complete_le_run {v : Handle → Attempt τ (Option Handle)}
    (hv : ∀ outer x, v x >>= pass mode (run mode callback) outer
      ≤ perform (Frame.enter x) >>= fun g => run mode callback (g :: outer))
    (outer : List Frame) (f : Frame) :
    f.complete mode callback v >>= pass mode (run mode callback) outer
      ≤ run mode callback (f :: outer) := by
  -- slot by slot, and within a list item by item
  induction hp : f.pending generalizing f with
  | nil =>
    rw [run_eq, complete_finish mode callback v hp, advance_finish mode callback _ outer hp]
  | cons content later ih =>
    -- closing a slot leaves one slot less to come
    have hclose : ∀ f : Frame, f.pending.tail = later → ∀ filling,
        (perform (f.close mode filling) >>= fun g =>
          g.complete mode callback v >>= pass mode (run mode callback) outer)
          ≤ perform (f.close mode filling) >>= fun g => run mode callback (g :: outer) := by
      intro f htail filling
      rw [perform_close, bind_assoc, bind_assoc]
      refine bind_mono_right _ fun _ => ?_
      rw [pure_bind, pure_bind]
      exact ih (f.closed mode filling) htail
    have htail : f.pending.tail = later := by rw [hp, List.tail_cons]
    cases content with
    | one node =>
      cases node with
      | none =>
        rw [run_eq, complete_vacant mode callback v hp, advance_vacant mode callback _ outer hp,
          bind_assoc]
        exact hclose f htail _
      | some x =>
        -- the frame waits while the child is revised, and then takes over its result
        rw [run_eq, complete_one mode callback v hp, advance_one mode callback _ outer hp,
          bind_assoc]
        refine le_trans (bind_mono_right _ fun result => ?_) (hv (f :: outer) x)
        rw [bind_assoc, pass]
        simp only [Frame.receive, hp]
        exact hclose f htail _
    | many xs =>
      induction xs generalizing f with
      | nil =>
        rw [run_eq, complete_listEnd mode callback v hp, advance_listEnd mode callback _ outer hp,
          bind_assoc]
        exact hclose f htail _
      | cons x rest ihrest =>
        rw [run_eq, complete_item mode callback v hp, advance_item mode callback _ outer hp,
          bind_assoc]
        refine le_trans (bind_mono_right _ fun result => ?_)
          (hv ({ f with pending := .many rest :: later } :: outer) x)
        rw [bind_assoc, pass]
        simp only [Frame.receive, perform_pure, pure_bind]
        exact ihrest _ rfl rfl

/-- The loop does what the recursion does for a node, whatever frames are open outside. -/
theorem bottomUp_bind_le_run (outer : List Frame) (x : Handle) :
    bottomUp mode callback x >>= pass mode (run mode callback) outer
      ≤ perform (Frame.enter x) >>= fun g => run mode callback (g :: outer) := by
  refine bottomUp_bind_le mode callback (k := pass mode (run mode callback))
    (y := fun outer x => perform (Frame.enter x) >>= fun g => run mode callback (g :: outer))
    (fun v hv outer x => ?_) outer x
  rw [reviseNode_eq, bind_assoc]
  exact bind_mono_right _ fun g => complete_le_run mode callback hv outer g

/-- What the recursion does with the result for a node inside open frames. -/
def deliver : List Frame → Option Handle → Attempt τ (Option Handle)
  | [], result => pure result
  | f :: outer, result => do
    let f ← perform (f.receive mode result)
    let result ← f.complete mode callback (bottomUp mode callback)
    deliver outer result

/-- What the recursion does from open frames on. -/
def meaning : List Frame → Attempt τ (Option Handle)
  | [] => pure none
  | f :: outer => f.complete mode callback (bottomUp mode callback) >>= deliver mode callback outer

/-- Handing a result on to frames that mean what they should is delivering it. -/
theorem pass_meaning (outer : List Frame) :
    pass mode (meaning mode callback) outer = deliver mode callback outer := by
  funext result
  cases outer <;> rfl

/-- The recursion enters a frame and completes it. -/
theorem bottomUp_eq_enter (x : Handle) :
    bottomUp mode callback x = perform (Frame.enter x)
      >>= Frame.complete mode callback (bottomUp mode callback) := by
  rw [bottomUp_eq, reviseNode_eq]

/-- A step does not change what the recursion does from there on. -/
theorem meaning_eq (frames : List Frame) :
    advance mode callback (meaning mode callback) frames = meaning mode callback frames := by
  cases frames with
  | nil => rfl
  | cons f outer =>
    rw [meaning]
    -- a step that enters a child is where the recursion makes a call
    cases hp : f.pending with
    | nil =>
      rw [advance_finish mode callback _ outer hp, complete_finish mode callback _ hp, pass_meaning]
    | cons content later =>
      match content with
      | .one none =>
        rw [advance_vacant mode callback _ outer hp, complete_vacant mode callback _ hp,
          bind_assoc]
        rfl
      | .one (some x) =>
        rw [advance_one mode callback _ outer hp, complete_one mode callback _ hp, bind_assoc,
          bottomUp_eq_enter, bind_assoc]
        simp only [meaning, deliver, bind_assoc]
      | .many [] =>
        rw [advance_listEnd mode callback _ outer hp, complete_listEnd mode callback _ hp,
          bind_assoc]
        rfl
      | .many (x :: rest) =>
        rw [advance_item mode callback _ outer hp, complete_item mode callback _ hp, bind_assoc,
          bottomUp_eq_enter, bind_assoc]
        simp only [meaning, deliver, bind_assoc]

end

/-- The loop and the recursion have the same outcomes, and go on for ever together. -/
theorem outcome?_eq_bottomUp? {τ : Type} (mode : Mode)
    (callback : Handle → Action τ (Option Handle)) (root : Handle) (st : Store × τ) :
    outcome? mode callback root st = bottomUp? mode callback root st := by
  have houtcome : outcome? mode callback root
      = perform (Frame.enter root) >>= fun f => run mode callback [f] := by
    funext st
    rw [outcome?, attempt_bind_apply, perform, Option.bind_some]
    cases Frame.enter root st <;> rfl
  -- each of the two solves the equation of the other, and is the least that solves its own
  have hle : (perform (Frame.enter root) >>= fun f => run mode callback [f])
      ≤ bottomUp mode callback root := by
    rw [bottomUp_eq_enter]
    refine bind_mono_right _ fun f => ?_
    have hrun := run_le mode callback (fun frames => (meaning_eq mode callback frames).le) [f]
    refine le_trans hrun ?_
    rw [meaning, show deliver mode callback [] = pure from rfl, bind_pure]
  have hge := bottomUp_bind_le_run mode callback [] root
  rw [show pass mode (run mode callback) [] = pure from rfl, bind_pure] at hge
  rw [houtcome, le_antisymm hle hge]
  rfl

/-- A revision has the outcome of the recursion. -/
theorem revise_of_bottomUp? {τ : Type} {mode : Mode} {callback : Handle → Action τ (Option Handle)}
    {root : Handle} {st : Store × τ} {r : EStateM.Result NodeError (Store × τ) (Option Handle)}
    (hr : bottomUp? mode callback root st = some r) : Store.revise mode callback root st = r := by
  rw [Store.revise, outcome?_eq_bottomUp?, hr, Option.getD_some]

/-- A revision of nodes that are no deeper than some depth can be computed. -/
theorem revise_eq_bottomUpTo {τ : Type} {mode : Mode}
    {callback : Handle → Action τ (Option Handle)} {root : Handle} {st : Store × τ} (depth : Nat)
    (hends : (bottomUpTo mode callback depth root st).isSome = true) :
    Store.revise mode callback root st
      = (bottomUpTo mode callback depth root st).getD (.error (.endless root) st) := by
  obtain ⟨r, hr⟩ := Option.isSome_iff_exists.mp hends
  rw [hr, Option.getD_some]
  exact revise_of_bottomUp? (bottomUpTo_le mode callback depth root st r hr)

end Revision

/-- **Revision is the recursion from the bottom up.**  For every store, root, mode and callback,
    the loop ends exactly if the recursion does, with the same result or error, the same store
    and the same state of the callback; and that is what a revision then returns. -/
theorem Store.revise_eq_bottomUp {τ : Type} (mode : Revision.Mode)
    (callback : Handle → Revision.Action τ (Option Handle)) (root : Handle) (st : Store × τ) :
    Revision.outcome? mode callback root st = Revision.bottomUp? mode callback root st ∧
      ∀ r, Revision.bottomUp? mode callback root st = some r →
        Store.revise mode callback root st = r :=
  ⟨Revision.outcome?_eq_bottomUp? mode callback root st, fun _ => Revision.revise_of_bottomUp?⟩

/-! ### A revision to look at -/

namespace Sample

/-- A callback that counts its calls and drops all items. -/
def prune (h : Handle) : Revision.Action Nat (Option Handle) := fun (s, count) =>
  match s.kindOf h with
  | .error e => .error e (s, count)
  | .ok k => .ok (if k = ⟨0⟩ then none else some h) (s, count + 1)

/-- The group with its slots emptied one after the other. -/
def pruned : Store :=
  after (Store.set ⟨1, 0⟩ "parts" (.many [])) (after (Store.set ⟨1, 0⟩ "next" (.one none)) shared)

/-- A group with an item in three places loses all of them; the callback is called for each place
    and for the group. -/
theorem revise_shared :
    Revision.bottomUp? .inPlace prune ⟨1, 0⟩ (shared, 0)
        = some (.ok (some ⟨1, 0⟩) (pruned, 4)) ∧
      Store.revise .inPlace prune ⟨1, 0⟩ (shared, 0) = .ok (some ⟨1, 0⟩) (pruned, 4) := by
  have hrecursion : Revision.bottomUp? .inPlace prune ⟨1, 0⟩ (shared, 0)
      = some (.ok (some ⟨1, 0⟩) (pruned, 4)) :=
    Revision.bottomUpTo_le .inPlace prune 2 ⟨1, 0⟩ (shared, 0) _ (by decide +kernel)
  exact ⟨hrecursion, (Store.revise_eq_bottomUp .inPlace prune ⟨1, 0⟩ (shared, 0)).2 _ hrecursion⟩

end Sample

end TypedForest
