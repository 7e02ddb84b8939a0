import TypedForest.Proofs.Store.Step
import TypedForest.Store.Revision

namespace TypedForest

/-!
# Runs

A run works on any number of stores over one schema: it makes new ones, copies them, and
applies operations to the one in hand.  Operations may fail, and a revision calls a callback
that is itself free to go on with the run, on the store that is being revised and on all
others.

* `Keeps` : what an operation keeps, whether it succeeds or fails;
* `Store.keeps_revise` : a revision keeps what the basic steps and its callback keep, and one that
  makes copies writes to no child slot (`Store.keeps_revise_copy`);
* `Run`, `Reachable` : all runs over a schema, and the stores that they lead to;
* `Run.every_store_wellFormed` : the invariant holds of every store in every run.
-/

/-- An operation keeps a property of the state, whether it succeeds or fails. -/
def Keeps {ε σ α : Type} (P : σ → Prop) (x : EStateM ε σ α) : Prop := ∀ st, P st → P (after x st)

theorem keeps_pure {ε σ α : Type} (P : σ → Prop) (a : α) : Keeps P (pure a : EStateM ε σ α) :=
  fun _ h => h

/-- What two steps keep both of them keep together. -/
theorem Keeps.bind {ε σ α β : Type} {P : σ → Prop} {x : EStateM ε σ α} {f : α → EStateM ε σ β}
    (hx : Keeps P x) (hf : ∀ a, Keeps P (f a)) : Keeps P (x >>= f) := by
  intro st hst
  have hfirst := hx st hst
  cases h : x st with
  | error e st' =>
    have hbind : (x >>= f) st = .error e st' := by rw [Store.bind_apply, h]
    rw [Store.after_of_error h] at hfirst
    rw [Store.after_of_error hbind]
    exact hfirst
  | ok a st' =>
    have hbind : (x >>= f) st = f a st' := by rw [Store.bind_apply, h]
    rw [Store.after_of_ok h] at hfirst
    have hrest := hf a st' hfirst
    unfold after at hrest ⊢
    rw [hbind]
    exact hrest

/-! ### Revisions -/

namespace Revision

section

variable {τ : Type} {P : Store × τ → Prop}

/-- What the steps of an operation keep, the operation keeps. -/
theorem keeps_onStore {R : Store → Store → Prop}
    (hP : ∀ s s' t, Relation.ReflTransGen R s s' → P (s, t) → P (s', t)) {α : Type} {e : Edit α}
    (he : ∀ s, Relation.ReflTransGen R s (after e s)) : Keeps P (onStore e) := by
  rintro ⟨s, t⟩ hst
  have hsteps := he s
  unfold after onStore at *
  dsimp only
  cases h : e s with
  | error err s' =>
    rw [h] at hsteps
    exact hP s s' t hsteps hst
  | ok a s' =>
    rw [h] at hsteps
    exact hP s s' t hsteps hst

/-- Entering a frame only reads. -/
theorem keeps_enter (h : Handle) : Keeps P (Frame.enter h) := by
  rintro ⟨s, t⟩ hst
  unfold after Frame.enter
  dsimp only
  cases s.get h with
  | error e => exact hst
  | ok n => exact hst

/-- A copy is made by constructing a node of a kind that a node has, and giving it notes. -/
theorem keeps_copy (hgrow : ∀ s s' t, Store.Growths s s' → P (s, t) → P (s', t)) (f : Frame) :
    Keeps P f.copy := by
  rintro ⟨s, t⟩ hst
  unfold after Frame.copy
  dsimp only
  cases hget : s.get f.node with
  | error e => exact hst
  | ok n =>
    -- the kind of a live node is known
    have hknown : s.Known n.kind := .inr ⟨f.node, n, Store.get_eq_ok_iff.mp hget, rfl⟩
    dsimp only
    cases hc : Store.construct n.kind (f.values.map .value ++ f.fillings.reverse) s with
    | error e s' =>
      rw [Store.construct_eq_error hc]
      exact hst
    | ok h s' =>
      refine hgrow s _ t ?_ hst
      exact (Relation.ReflTransGen.single (.construct hknown hc)).tail
        (.tend (.touch (.annotate h fun _ => n.notes)))

variable {mode : Mode}
  (hwrite : mode = .inPlace → ∀ h i filling, Keeps P (onStore (Store.setChildAt h i filling)))

include hwrite in
/-- Closing a slot writes it at most. -/
theorem keeps_close (f : Frame) (filling : Filling) : Keeps P (f.close mode filling) := by
  cases mode with
  | copy => exact keeps_pure P _
  | inPlace => exact (hwrite rfl f.node f.slot filling).bind fun _ => keeps_pure P _

include hwrite in
/-- Taking over a result closes a slot at most. -/
theorem keeps_receive (f : Frame) (result : Option Handle) :
    Keeps P (f.receive mode result) := by
  unfold Frame.receive
  split
  · exact keeps_pure P _
  · exact keeps_close hwrite f _

variable (hgrow : ∀ s s' t, Store.Growths s s' → P (s, t) → P (s', t))
  {callback : Handle → Action τ (Option Handle)} (hcallback : ∀ h, Keeps P (callback h))

include hgrow hcallback in
/-- Finishing a frame copies its node at most, and calls back. -/
theorem keeps_finish (mode : Mode) (f : Frame) : Keeps P (f.finish mode callback) := by
  cases mode with
  | copy => exact (keeps_copy hgrow f).bind hcallback
  | inPlace => exact hcallback f.node

include hwrite hgrow hcallback

/-- One step of a revision keeps what new nodes, the callback and, in place, writes to child
    slots keep. -/
theorem keeps_step (frames : List Frame) : Keeps P (step mode callback frames) := by
  cases frames with
  | nil => exact keeps_pure P _
  | cons f outer =>
    rw [step]
    split
    · exact (keeps_close hwrite f _).bind fun _ => keeps_pure P _
    · exact (keeps_enter _).bind fun _ => keeps_pure P _
    · exact (keeps_close hwrite f _).bind fun _ => keeps_pure P _
    · exact (keeps_enter _).bind fun _ => keeps_pure P _
    · refine (keeps_finish hgrow hcallback mode f).bind fun result => ?_
      cases outer with
      | nil => exact keeps_pure P _
      | cons g outer => exact (keeps_receive hwrite g result).bind fun _ => keeps_pure P _

/-- A revision that ends has kept it, since each of its steps did. -/
theorem keeps_loop {frames : List Frame} {st : Store × τ}
    {r : EStateM.Result NodeError (Store × τ) (Option Handle)}
    (hr : loop mode callback frames st = some r) (hst : P st) : P (after (fun _ => r) st) := by
  -- one turn, with the statement for the rest as the hypothesis
  refine loop.partial_correctness mode callback
    (fun _ st r => P st → P (after (fun _ => r) st)) ?_ frames st r hr hst
  intro rec ih frames st r hr hst
  have hstep := keeps_step hwrite hgrow hcallback frames st hst
  cases hs : step mode callback frames st with
  | error e st' =>
    rw [Store.after_of_error hs] at hstep
    rw [hs] at hr
    cases hr
    exact hstep
  | ok progress st' =>
    rw [Store.after_of_ok hs] at hstep
    rw [hs] at hr
    cases progress with
    | done result =>
      cases hr
      exact hstep
    | more frames' => exact ih frames' st' r hr hstep

/-- So a revision keeps what its parts keep. -/
theorem keeps_revise (root : Handle) : Keeps P (Store.revise mode callback root) := by
  intro st hst
  unfold after Store.revise
  cases hr : outcome? mode callback root st with
  | none => exact hst
  | some r =>
    have henter := keeps_enter root st hst
    unfold outcome? at hr
    cases he : Frame.enter root st with
    | error e st' =>
      rw [Store.after_of_error he] at henter
      rw [he] at hr
      cases hr
      exact henter
    | ok f st' =>
      rw [Store.after_of_ok he] at henter
      rw [he] at hr
      exact keeps_loop hwrite hgrow hcallback hr henter

end

end Revision

/-- A revision keeps what the basic steps and its callback keep. -/
theorem Store.keeps_revise {τ : Type} {P : Store × τ → Prop}
    (hP : ∀ s s' t, Store.Steps s s' → P (s, t) → P (s', t))
    {callback : Handle → Revision.Action τ (Option Handle)}
    (hcallback : ∀ h, Keeps P (callback h)) (mode : Revision.Mode) (root : Handle) :
    Keeps P (Store.revise mode callback root) := by
  refine Revision.keeps_revise (fun _ h i filling => ?_) ?_ hcallback root
  · exact Revision.keeps_onStore hP fun s => Store.Steps.setChildAt s h i filling
  · exact fun s s' t hgrowths => hP s s' t hgrowths.steps

/-- A revision that makes copies keeps what new nodes and its callback keep. -/
theorem Store.keeps_revise_copy {τ : Type} {P : Store × τ → Prop}
    (hgrow : ∀ s s' t, Store.Growths s s' → P (s, t) → P (s', t))
    {callback : Handle → Revision.Action τ (Option Handle)}
    (hcallback : ∀ h, Keeps P (callback h)) (root : Handle) :
    Keeps P (Store.revise .copy callback root) := by
  refine Revision.keeps_revise ?_ hgrow hcallback root
  intro hmode
  cases hmode

/-! ### Runs over a schema -/

/-- The operations on one store.  A kind that is given by a handle is one of the schema. -/
inductive Operation (schema : Schema) : {ε α : Type} → EStateM ε Store α → Prop
  | construct {k : KindId} (hk : k.index < schema.size) (args : List Filling) :
      Operation schema (Store.construct k args)
  | constructNamed (kind : String) (args : List Filling) :
      Operation schema (Store.constructNamed kind args)
  | set (h : Handle) (name : String) (arg : Filling) : Operation schema (Store.set h name arg)
  | setValues (h : Handle) (bulk : Bulk Value) : Operation schema (Store.setValues h bulk)
  | setChildren (h : Handle) (bulk : Bulk Filling) : Operation schema (Store.setChildren h bulk)
  | setNote (h : Handle) (key : String) (v : Value) : Operation schema (Store.setNote h key v)
  | deleteNote (h : Handle) (key : String) (recursive : Bool) :
      Operation schema (Store.deleteNote h key recursive)
  | sweep (roots : List Handle) : Operation schema (Store.sweep roots)
  | restore (t : Snapshot) : Operation schema (Store.restore t)
  | decode (data : List UInt8) : Operation schema (Store.decode data)

/-- Each operation is made up of steps. -/
theorem Operation.steps {schema : Schema} {ε α : Type} {x : EStateM ε Store α}
    (hx : Operation schema x) {s : Store} (hs : s.schema = schema) :
    Store.Steps s (after x s) := by
  cases hx with
  | construct hk args => exact (Store.Growths.construct (.inl (by rw [hs]; exact hk)) args).steps
  | constructNamed kind args => exact (Store.Growths.constructNamed s kind args).steps
  | set h name arg => exact Store.Steps.set s h name arg
  | setValues h bulk => exact (Store.Touches.setValues s h bulk).steps
  | setChildren h bulk => exact Store.Steps.setChildren s h bulk
  | setNote h key v => exact (Store.Touches.setNote s h key v).steps
  | deleteNote h key recursive => exact (Store.Touches.deleteNote s h key recursive).steps
  | sweep roots => exact (Store.Tendings.sweep s roots).steps
  | restore t => exact (Store.Growths.restore t s).steps
  | decode data => exact (Store.Growths.decode data s).steps

/-- The stores of a run: the one in hand, and those put aside. -/
abbrev Bench := Store × List Store

/-- The stores in the state of a callback that also has a state of its own. -/
def bench {τ : Type} (st : Store × List Store × τ) : Bench := (st.1, st.2.1)

/-- Runs over a schema: from which stores to which stores they lead.  Operations and revisions
    count whether they succeed or fail; each call of the callback of a revision is a run. -/
inductive Run (schema : Schema) : Bench → Bench → Prop
  | refl (b : Bench) : Run schema b b
  | trans {a b c : Bench} (hab : Run schema a b) (hbc : Run schema b c) : Run schema a c
  /-- A store without nodes is put aside. -/
  | new (s : Store) (aside : List Store) :
      Run schema (s, aside) (s, Store.empty schema :: aside)
  /-- A copy of the store in hand is put aside. -/
  | clone (s : Store) (aside : List Store) : Run schema (s, aside) (s, s :: aside)
  /-- The store in hand is put aside and another one taken up. -/
  | exchange (s t : Store) (before later : List Store) :
      Run schema (s, before ++ t :: later) (t, before ++ s :: later)
  | operation {ε α : Type} {x : EStateM ε Store α} (hx : Operation schema x) (s : Store)
      (aside : List Store) : Run schema (s, aside) (after x s, aside)
  | revise {τ : Type} (mode : Revision.Mode)
      {callback : Handle → Revision.Action (List Store × τ) (Option Handle)}
      (hcallback : ∀ h st, Run schema (bench st) (bench (after (callback h) st)))
      (root : Handle) (st : Store × List Store × τ) :
      Run schema (bench st) (bench (after (Store.revise mode callback root) st))

/-- Every store of a bench has the schema and satisfies the invariant. -/
def Bench.WellFormed (schema : Schema) (b : Bench) : Prop :=
  ∀ s ∈ b.1 :: b.2, s.schema = schema ∧ s.WellFormed

/-- Steps of one store leave the stores that are aside alone. -/
theorem Bench.WellFormed.steps {schema : Schema} {s s' : Store} {aside : List Store}
    (hb : Bench.WellFormed schema (s, aside)) (hsteps : Store.Steps s s') :
    Bench.WellFormed schema (s', aside) := by
  obtain ⟨hs, haside⟩ := List.forall_mem_cons.mp hb
  refine List.forall_mem_cons.mpr ⟨⟨hsteps.schema.trans hs.1, hs.2.steps hsteps⟩, haside⟩

/-- A run keeps the invariant of all its stores. -/
theorem Run.keeps_wellFormed {schema : Schema} {a b : Bench} (h : Run schema a b)
    (ha : a.WellFormed schema) : b.WellFormed schema := by
  induction h with
  | refl b => exact ha
  | trans _ _ ih₁ ih₂ => exact ih₂ (ih₁ ha)
  | new s aside =>
    obtain ⟨hs, haside⟩ := List.forall_mem_cons.mp ha
    refine List.forall_mem_cons.mpr ⟨hs, List.forall_mem_cons.mpr ⟨?_, haside⟩⟩
    exact ⟨rfl, Store.wellFormed_empty schema⟩
  | clone s aside =>
    obtain ⟨hs, haside⟩ := List.forall_mem_cons.mp ha
    exact List.forall_mem_cons.mpr ⟨hs, List.forall_mem_cons.mpr ⟨hs, haside⟩⟩
  | exchange s t before later =>
    intro x hx
    refine ha x ?_
    simp only [List.mem_cons, List.mem_append] at hx ⊢
    tauto
  | operation hx s aside =>
    have hs := (List.forall_mem_cons.mp ha).1
    exact ha.steps (hx.steps hs.1)
  | revise mode hcallback root st ih =>
    -- the callback is a run of its own, to which the hypothesis applies
    refine Store.keeps_revise (P := fun st => (bench st).WellFormed schema) ?_ ?_ mode root st ha
    · intro s s' t hsteps hst
      exact Bench.WellFormed.steps hst hsteps
    · exact fun h st hst => ih h st hst

theorem Bench.wellFormed_empty (schema : Schema) :
    Bench.WellFormed schema (Store.empty schema, []) := by
  refine List.forall_mem_cons.mpr ⟨⟨rfl, Store.wellFormed_empty schema⟩, ?_⟩
  exact List.forall_mem_nil _

/-- A run that starts from a store without nodes leads to the store, among others. -/
def Reachable (schema : Schema) (s : Store) : Prop :=
  ∃ aside, Run schema (Store.empty schema, []) (s, aside)

/-- Stores of a run all have its schema. -/
theorem Reachable.schema_eq {schema : Schema} {s : Store} (hs : Reachable schema s) :
    s.schema = schema := by
  obtain ⟨aside, h⟩ := hs
  exact (h.keeps_wellFormed (Bench.wellFormed_empty schema) s List.mem_cons_self).1

/-- A store that a run reaches is well formed. -/
theorem Reachable.wellFormed_store {schema : Schema} {s : Store} (hs : Reachable schema s) :
    s.WellFormed := by
  obtain ⟨aside, h⟩ := hs
  exact (h.keeps_wellFormed (Bench.wellFormed_empty schema) s List.mem_cons_self).2

/-- Its schema obeys the laws of those that were built. -/
theorem Reachable.lawful {schema : Schema} {s : Store} (hs : Reachable schema s)
    (hbuilt : schema.Built) : s.schema.Lawful := by
  rw [hs.schema_eq]
  exact hbuilt.lawful

/-- **The invariant.**  In every run over a schema that starts from a store without nodes,
    every store satisfies the invariant at the end, and so at every time, since each part of a
    run is a run: the nodes are counted, the free places listed, and all nodes fit their
    kinds.  A callback may put copies aside and may fail, so this includes the stores that a
    revision meets on its way. -/
theorem Run.every_store_wellFormed {schema : Schema} {s : Store} {aside : List Store}
    (h : Run schema (Store.empty schema, []) (s, aside)) :
    ∀ t ∈ s :: aside, t.WellFormed :=
  fun t ht => (h.keeps_wellFormed (Bench.wellFormed_empty schema) t ht).2

/-! ### A run to look at -/

/-- Outcomes can be compared, so that an operation on a fixed store can be computed. -/
instance decidableEqOutcome {ε σ α : Type} [DecidableEq ε] [DecidableEq σ] [DecidableEq α] :
    DecidableEq (EStateM.Result ε σ α)
  | .ok a s, .ok b t => decidable_of_iff (a = b ∧ s = t) (by rw [EStateM.Result.ok.injEq])
  | .error e s, .error f t => decidable_of_iff (e = f ∧ s = t) (by rw [EStateM.Result.error.injEq])
  | .ok _ _, .error _ _ => isFalse fun h => by cases h
  | .error _ _, .ok _ _ => isFalse fun h => by cases h

namespace Sample

/-- Items with a label, a next item and parts; groups are items. -/
def draft : Draft :=
  after (Draft.declareChild ⟨0⟩ "parts" (.many ["item"])) <|
  after (Draft.declareChild ⟨0⟩ "next" (.one "item")) <|
  after (Draft.declareValue ⟨0⟩ "label" .str) <|
  after (Draft.declareKind "group" (some "item")) <|
  after (Draft.declareKind "item" none) Draft.empty

def schema : Schema := ⟨Draft.flatten draft.kinds⟩

theorem built : schema.Built := by
  refine ⟨draft, ?_, by decide +kernel⟩
  exact ((((Draft.Declared.empty.kind _ _).kind _ _).value _ _ _).child _ _ _).child _ _ _

/-- An item, and a group that has it as its next item and as both of its parts. -/
def shared : Store :=
  after (Store.constructNamed "group"
    [.value (.str "all"), .one (some ⟨0, 0⟩), .many [⟨0, 0⟩, ⟨0, 0⟩]]) <|
  after (Store.constructNamed "item" [.value (.str "part")]) (Store.empty schema)

theorem run_shared : Run schema (Store.empty schema, []) (shared, []) :=
  (Run.operation (.constructNamed _ _) _ _).trans (.operation (.constructNamed _ _) _ _)

/-- A callback that sweeps the whole store away while it is being revised. -/
def clear (_ : Handle) : Revision.Action (List Store × Unit) (Option Handle) := do
  let _ ← Revision.onStore (Store.sweep [])
  return none

/-- The revision of a group loses the group while it visits the next item. -/
theorem wellFormed_cleared :
    shared.live = 2 ∧
      (after (Store.revise .inPlace clear ⟨1, 0⟩) (shared, [], ())).1.WellFormed := by
  refine ⟨by decide +kernel, ?_⟩
  have hclear : ∀ h st, Run schema (bench st) (bench (after (clear h) st)) :=
    fun h st => .operation (.sweep []) st.1 st.2.1
  exact Run.every_store_wellFormed
    (run_shared.trans (.revise .inPlace hclear ⟨1, 0⟩ (shared, [], ()))) _ List.mem_cons_self

end Sample

end TypedForest
