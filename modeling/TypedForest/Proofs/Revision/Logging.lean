import TypedForest.Proofs.Revision.Sparing

namespace TypedForest

/-!
# Revisions that are logged

To say which calls of its callback a revision makes, and in which order, the callback is run
together with a log, to which it adds each of its calls.  The log is kept in the state of the
callback, so that nothing about the revision has to be changed for it.

* `Revision.logged` : the callback that writes down its calls;
* `Revision.Agrees` : two operations that do the same but for the log;
* `Revision.loop_of_logged` : with the log or without it, a revision has the same outcome;
* `Revision.Calls.of_logged` : and it makes the same calls.
-/

namespace Revision

/-- The calls of a callback so far, each with the node and with the store that it was given. -/
abbrev Log := List (Handle × Store)

section

variable {τ α β : Type}

/-- A callback that adds each of its calls to a log. -/
def logged (callback : Handle → Action τ (Option Handle)) (h : Handle) :
    Action (τ × Log) (Option Handle) := fun (s, c, log) =>
  match callback h (s, c) with
  | .ok result (s', c') => .ok result (s', c', log ++ [(h, s)])
  | .error e (s', c') => .error e (s', c', log ++ [(h, s)])

/-- The state without the log. -/
def unlogged (st : Store × τ × Log) : Store × τ := (st.1, st.2.1)

/-- The outcome without the log. -/
def forget : EStateM.Result NodeError (Store × τ × Log) α → EStateM.Result NodeError (Store × τ) α
  | .ok a st => .ok a (unlogged st)
  | .error e st => .error e (unlogged st)

/-- The log when an operation has come to its end. -/
def logOf : EStateM.Result NodeError (Store × τ × Log) α → Log
  | .ok _ st => st.2.2
  | .error _ st => st.2.2

/-- Without the log `x` does what `y` does. -/
def Agrees (x : Action (τ × Log) α) (y : Action τ α) : Prop :=
  ∀ st, forget (x st) = y (unlogged st)

theorem agrees_pure (a : α) : Agrees (τ := τ) (pure a) (pure a) := fun _ => rfl

/-- Operations one after the other agree if both of them do. -/
theorem Agrees.bind {x : Action (τ × Log) α} {y : Action τ α} (hxy : Agrees x y)
    {f : α → Action (τ × Log) β} {g : α → Action τ β} (hfg : ∀ a, Agrees (f a) (g a)) :
    Agrees (x >>= f) (y >>= g) := by
  intro st
  rw [Store.bind_apply, Store.bind_apply, ← hxy st]
  cases x st with
  | error e st' => rfl
  | ok a st' => exact hfg a st'

/-- An edit of the store has nothing to do with the log. -/
theorem agrees_onStore (e : Edit α) : Agrees (τ := τ) (onStore e) (onStore e) := by
  rintro ⟨s, c, log⟩
  simp only [onStore, unlogged]
  cases e s <;> rfl

/-- Nor has entering a node. -/
theorem agrees_enter (h : Handle) : Agrees (τ := τ) (Frame.enter h) (Frame.enter h) := by
  rintro ⟨s, c, log⟩
  simp only [Frame.enter, unlogged]
  cases s.get h <;> rfl

/-- Nor has finishing a slot. -/
theorem agrees_close (mode : Mode) (f : Frame) (filling : Filling) :
    Agrees (τ := τ) (f.close mode filling) (f.close mode filling) := by
  cases mode with
  | copy => exact agrees_pure _
  | inPlace => exact (agrees_onStore _).bind fun _ => agrees_pure _

/-- Nor has taking over a result. -/
theorem agrees_receive (mode : Mode) (f : Frame) (result : Option Handle) :
    Agrees (τ := τ) (f.receive mode result) (f.receive mode result) := by
  unfold Frame.receive
  split
  · exact agrees_pure _
  · exact agrees_close mode f _

/-- Nor has copying a node. -/
theorem agrees_copy (f : Frame) : Agrees (τ := τ) f.copy f.copy := by
  rintro ⟨s, c, log⟩
  simp only [Frame.copy, unlogged]
  cases s.get f.node with
  | error e => rfl
  | ok n =>
    dsimp only
    cases Store.construct n.kind (f.values.map .value ++ f.fillings.reverse) s <;> rfl

/-- The callback is given the same node. -/
theorem agrees_subject (mode : Mode) (f : Frame) :
    Agrees (τ := τ) (f.subject mode) (f.subject mode) := by
  cases mode with
  | copy => exact agrees_copy f
  | inPlace => exact agrees_pure _

end

section

variable {τ : Type} (mode : Mode) (callback : Handle → Action τ (Option Handle))

/-- The callback with the log does what the callback does. -/
theorem agrees_logged (h : Handle) : Agrees (logged callback h) (callback h) := by
  rintro ⟨s, c, log⟩
  simp only [logged, unlogged]
  cases callback h (s, c) <;> rfl

/-- Step by step, a log makes no difference. -/
theorem agrees_step (frames : List Frame) :
    Agrees (step mode (logged callback) frames) (step mode callback frames) := by
  cases frames with
  | nil => exact agrees_pure _
  | cons f outer =>
    rw [step, step]
    split
    · exact (agrees_close mode f _).bind fun _ => agrees_pure _
    · exact (agrees_enter _).bind fun _ => agrees_pure _
    · exact (agrees_close mode f _).bind fun _ => agrees_pure _
    · exact (agrees_enter _).bind fun _ => agrees_pure _
    · rw [finish_eq, finish_eq]
      refine ((agrees_subject mode f).bind (agrees_logged callback)).bind fun result => ?_
      cases outer with
      | nil => exact agrees_pure _
      | cons g outer => exact (agrees_receive mode g result).bind fun _ => agrees_pure _

variable {mode callback}

/-- If the revision with the log ends, so does the one without, in the same way. -/
theorem loop_of_logged {frames : List Frame} {st : Store × τ × Log} {r : Outcome (τ × Log)}
    (hr : loop mode (logged callback) frames st = some r) :
    loop mode callback frames (unlogged st) = some (forget r) := by
  -- the loop may run for ever, so the induction is over the runs that end
  refine loop.partial_correctness mode (logged callback)
    (fun frames st r => loop mode callback frames (unlogged st) = some (forget r)) ?_ frames st r hr
  intro rec ih frames st r hr
  have hagrees := agrees_step mode callback frames st
  rw [loop, ← hagrees]
  cases hs : step mode (logged callback) frames st with
  | error e st' =>
    rw [hs] at hr
    cases hr
    rfl
  | ok progress st' =>
    rw [hs] at hr
    cases progress with
    | done result =>
      cases hr
      rfl
    | more frames' => exact ih frames' st' r hr

variable {root : Handle} {st : Store × τ × Log}

/-- A logged revision that ends does what the revision does. -/
theorem outcome?_of_logged {r : Outcome (τ × Log)}
    (hr : outcome? mode (logged callback) root st = some r) :
    outcome? mode callback root (unlogged st) = some (forget r) := by
  unfold outcome? at hr ⊢
  rw [← agrees_enter root st]
  cases henter : Frame.enter root st with
  | error e st' =>
    rw [henter] at hr
    cases hr
    rfl
  | ok f st' =>
    rw [henter] at hr
    exact loop_of_logged hr

/-- With the log the revision comes to the same frames. -/
theorem Comes.of_logged {frames : List Frame} {st' : Store × τ × Log}
    (h : Comes mode (logged callback) root st frames st') :
    Comes mode callback root (unlogged st) frames (unlogged st') := by
  induction h with
  | enter henter => exact .enter (by rw [← agrees_enter root st, henter]; rfl)
  | step _ hstep ih => exact ih.step (by rw [← agrees_step mode callback, hstep]; rfl)

/-- The calls of a logged revision are calls of the revision. -/
theorem Calls.of_logged {h : Handle} {st' : Store × τ × Log}
    (hcalls : Calls mode (logged callback) root st h st') :
    Calls mode callback root (unlogged st) h (unlogged st') := by
  obtain ⟨f, outer, st₁, hcomes, hpending, hsubject⟩ := hcalls
  refine ⟨f, outer, unlogged st₁, hcomes.of_logged, hpending, ?_⟩
  rw [← agrees_subject mode f, hsubject]
  rfl

end

end Revision

end TypedForest
