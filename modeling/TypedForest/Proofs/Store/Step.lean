import Mathlib.Logic.Relation
import TypedForest.Proofs.Schema.Built
import TypedForest.Proofs.Store.Marking
import TypedForest.Snapshot.Capture
import TypedForest.Wire.Reader

namespace TypedForest

/-!
# Operations as steps

Whatever an operation does to a store, and wherever it stops, it does by basic steps: making a
node, writing one slot, changing notes, sweeping.  `Store.Step` lists the basic steps, and each
operation is shown to leave a store that basic steps lead to, whether it succeeds or fails.  Some
kinds of basic steps are told apart, since most operations need no others:

* `Store.Touches` : values and notes.  This is all that `Store.setValues`, `Store.setNote` and
  `Store.deleteNote` change;
* `Store.Tendings` : sweeps as well, which leave the children of nodes alone too;
* `Store.Growths` : new nodes as well.  This is all that making a node, restoring a snapshot
  (`Store.Growths.restore`) and reading a tree from bytes (`Store.Growths.decode`) do;
* `Store.Steps` : writes to child slots as well.

So what every basic step keeps, every operation keeps: the schema (`Store.Steps.schema`) and
the invariant (`Store.WellFormed.steps`).
-/

namespace Store

/-- A kind that the schema has, or that some node has. -/
def Known (s : Store) (k : KindId) : Prop :=
  k.index < s.schema.size ∨ ∃ h n, s.node? h = some n ∧ n.kind = k

/-- A basic change of a store. -/
inductive Step (s : Store) : Store → Prop
  | construct {k : KindId} {args : List Filling} {h : Handle} {s' : Store} (hk : s.Known k)
      (hc : construct k args s = .ok h s') : Step s s'
  | setValueAt {h : Handle} {i : Nat} {arg : Filling} {s' : Store}
      (hw : setValueAt h i arg s = .ok () s') : Step s s'
  | setChildAt {h : Handle} {i : Nat} {arg : Filling} {s' : Store}
      (hw : setChildAt h i arg s = .ok () s') : Step s s'
  | annotate (h : Handle) (f : Notes → Notes) :
      Step s (s.modifyNode h fun n => { n with notes := f n.notes })
  | dropNotes (key : String) (marks : Array Bool) : Step s (s.dropNotes key marks)
  | sweep {roots : List Handle} {n : Nat} {s' : Store} (hr : sweep roots s = .ok n s') : Step s s'

/-- Basic changes one after the other. -/
abbrev Steps : Store → Store → Prop := Relation.ReflTransGen Step

/-- A basic change to a value or to notes. -/
inductive Touch (s : Store) : Store → Prop
  | setValueAt {h : Handle} {i : Nat} {arg : Filling} {s' : Store}
      (hw : setValueAt h i arg s = .ok () s') : Touch s s'
  | annotate (h : Handle) (f : Notes → Notes) :
      Touch s (s.modifyNode h fun n => { n with notes := f n.notes })
  | dropNotes (key : String) (marks : Array Bool) : Touch s (s.dropNotes key marks)

/-- A basic change that leaves the children of all nodes alone: to a value or to notes, or a
    sweep. -/
inductive Tending (s : Store) : Store → Prop
  | touch {s' : Store} (h : Touch s s') : Tending s s'
  | sweep {roots : List Handle} {n : Nat} {s' : Store} (hr : sweep roots s = .ok n s') :
      Tending s s'

/-- A basic change that writes to no child slot: a new node, or one that leaves children alone. -/
inductive Growth (s : Store) : Store → Prop
  | construct {k : KindId} {args : List Filling} {h : Handle} {s' : Store} (hk : s.Known k)
      (hc : construct k args s = .ok h s') : Growth s s'
  | tend {s' : Store} (h : Tending s s') : Growth s s'

/-- Changes to values and notes, one after the other. -/
abbrev Touches : Store → Store → Prop := Relation.ReflTransGen Touch

/-- Changes that leave children alone, one after the other. -/
abbrev Tendings : Store → Store → Prop := Relation.ReflTransGen Tending

/-- Changes that write to no child slot, one after the other. -/
abbrev Growths : Store → Store → Prop := Relation.ReflTransGen Growth

/-- Writing a value or a note is a basic step. -/
theorem Touch.step {s s' : Store} (h : Touch s s') : Step s s' := by
  cases h with
  | setValueAt hw => exact .setValueAt hw
  | annotate h f => exact .annotate h f
  | dropNotes key marks => exact .dropNotes key marks

/-- So is a sweep. -/
theorem Tending.step {s s' : Store} (h : Tending s s') : Step s s' := by
  cases h with
  | touch h => exact h.step
  | sweep hr => exact .sweep hr

/-- A growth is a basic step other than a write to a child slot. -/
theorem Growth.step {s s' : Store} (h : Growth s s') : Step s s' := by
  cases h with
  | construct hk hc => exact .construct hk hc
  | tend h => exact h.step

/-- Touching values and notes over and over is tending the store. -/
theorem Touches.tendings {s s' : Store} (h : Touches s s') : Tendings s s' :=
  Relation.ReflTransGen.mono (fun _ _ => .touch) _ _ h

/-- Tending the store over and over is a growth without new nodes. -/
theorem Tendings.growths {s s' : Store} (h : Tendings s s') : Growths s s' :=
  Relation.ReflTransGen.mono (fun _ _ => .tend) _ _ h

/-- What holds along all basic steps holds along growths. -/
theorem Growths.steps {s s' : Store} (h : Growths s s') : Steps s s' :=
  Relation.ReflTransGen.mono (fun _ _ => Growth.step) _ _ h

theorem Tendings.steps {s s' : Store} (h : Tendings s s') : Steps s s' := h.growths.steps

theorem Touches.steps {s s' : Store} (h : Touches s s') : Steps s s' := h.tendings.steps

/-! ### What a step keeps -/

/-- No basic step replaces the schema. -/
theorem Step.schema {s s' : Store} (h : Step s s') : s'.schema = s.schema := by
  cases h with
  -- only a new node and an adoption go through functions of their own
  | construct hk hc =>
    obtain ⟨n, -, -, rfl, rfl⟩ := construct_eq_ok_iff.mp hc
    rw [schema_adopt, schema_insert]
  | setValueAt hw =>
    rcases setValueAt_eq_ok hw with rfl | ⟨n, slot, v, -, -, -, rfl⟩
    · rfl
    · rfl
  | setChildAt hw =>
    obtain ⟨n, -, ⟨-, rfl⟩ | ⟨slot, c, -, -, -, rfl⟩⟩ := setChildAt_eq_ok hw
    · rfl
    · rw [schema_adopt, schema_modifyNode]
  | annotate h f => rfl
  | dropNotes key marks => rfl
  | sweep hr =>
    obtain ⟨-, -, rfl⟩ := sweep_eq_ok_iff.mp hr
    rfl

/-- In a well-formed store the kinds of the nodes are among those of the schema, so a kind is known
    only if the schema has it. -/
theorem WellFormed.index_lt_of_known {s : Store} (hs : s.WellFormed) {k : KindId}
    (hk : s.Known k) : k.index < s.schema.size := by
  rcases hk with hk | ⟨h, n, hn, rfl⟩
  · exact hk
  · exact (hs.nodes h n hn).kind

/-- Every basic step keeps the invariant. -/
theorem WellFormed.step {s s' : Store} (hs : s.WellFormed) (h : Step s s') : s'.WellFormed := by
  cases h with
  | construct hk hc => exact hs.construct (hs.index_lt_of_known hk) hc
  | setValueAt hw => exact hs.setValueAt hw
  | setChildAt hw => exact hs.setChildAt hw
  | annotate h f => exact hs.annotate h f
  | dropNotes key marks => exact hs.dropNotes key marks
  | sweep hr => exact hs.sweep hr

/-- A store keeps its schema. -/
theorem Steps.schema {s s' : Store} (h : Steps s s') : s'.schema = s.schema := by
  induction h with
  | refl => rfl
  | tail _ hstep ih => exact hstep.schema.trans ih

theorem Growths.schema {s s' : Store} (h : Growths s s') : s'.schema = s.schema := h.steps.schema

/-- The invariant holds along every sequence of basic steps. -/
theorem WellFormed.steps {s s' : Store} (hs : s.WellFormed) (h : Steps s s') :
    s'.WellFormed := by
  induction h with
  | refl => exact hs
  | tail _ hstep ih => exact ih.step hstep

/-! ### One node -/

/-- Making a node is a growth, also if it is refused. -/
theorem Growths.construct {s : Store} {k : KindId} (hk : s.Known k) (args : List Filling) :
    Growths s (after (Store.construct k args) s) := by
  unfold after
  split
  · next h s' hc => exact .single (.construct hk hc)
  · next e s' hc => rw [construct_eq_error hc]

/-- So is making a node of a kind that is given by its name, which need not be there. -/
theorem Growths.constructNamed (s : Store) (kind : String) (args : List Filling) :
    Growths s (after (Store.constructNamed kind args) s) := by
  unfold after Store.constructNamed
  cases hk : s.schema.kindByName? kind with
  | none => exact .refl
  | some k => exact Growths.construct (.inl (Schema.kindByName?_eq_some hk).1) args

/-- A value that is refused leaves the store as it was. -/
theorem setValueAt_eq_error {s s' : Store} {h : Handle} {i : Nat} {arg : Filling}
    {e : NodeError} (hw : Store.setValueAt h i arg s = .error e s') : s' = s := by
  unfold Store.setValueAt at hw
  repeat' split at hw
  all_goals cases hw
  all_goals rfl

/-- So does a content that is refused. -/
theorem setChildAt_eq_error {s s' : Store} {h : Handle} {i : Nat} {arg : Filling}
    {e : NodeError} (hw : Store.setChildAt h i arg s = .error e s') : s' = s := by
  unfold Store.setChildAt at hw
  repeat' split at hw
  all_goals cases hw
  all_goals rfl

/-- And so does a write by name, whatever it is refused for. -/
theorem set_eq_error {s s' : Store} {h : Handle} {name : String} {arg : Filling} {e : NodeError}
    (hset : set h name arg s = .error e s') : s' = s := by
  unfold set at hset
  split at hset
  · cases hset
    rfl
  · split at hset
    · exact setValueAt_eq_error hset
    · split at hset
      · exact setChildAt_eq_error hset
      · cases hset
        rfl

/-- A write to a value slot touches the store at most once. -/
theorem Touches.setValueAt (s : Store) (h : Handle) (i : Nat) (arg : Filling) :
    Touches s (after (Store.setValueAt h i arg) s) := by
  unfold after
  split
  · next s' hw => exact .single (.setValueAt hw)
  · next e s' hw => rw [setValueAt_eq_error hw]

/-- A write to a child slot is a basic step, or nothing if it is refused. -/
theorem Steps.setChildAt (s : Store) (h : Handle) (i : Nat) (arg : Filling) :
    Steps s (after (Store.setChildAt h i arg) s) := by
  unfold after
  split
  · next s' hw => exact .single (.setChildAt hw)
  · next e s' hw => rw [setChildAt_eq_error hw]

/-- Writing by name changes a value at most, or writes to the child slot of that name. -/
theorem set_cases (s : Store) (h : Handle) (name : String) (arg : Filling) :
    Touches s (after (Store.set h name arg) s) ∨ ∃ n i, s.node? h = some n ∧
      s.slot h name = .ok (n.children[i]?.getD default).toFilling ∧
      Store.set h name arg s = Store.setChildAt h i arg s := by
  unfold after Store.set
  cases hkind : s.kindOf h with
  | error e => exact .inl .refl
  | ok k =>
    dsimp only
    cases hvalue : (s.schema.kind k).valueIndex? name with
    | some i => exact .inl (Touches.setValueAt s h i arg)
    | none =>
      dsimp only
      cases hchild : (s.schema.kind k).childIndex? name with
      | none => exact .inl .refl
      | some i =>
        obtain ⟨n, hn, rfl⟩ := kindOf_eq_ok_iff.mp hkind
        exact .inr ⟨n, i, hn, by simp only [slot, get_eq_ok_iff.mpr hn, hvalue, hchild], rfl⟩

/-- A write by name goes to a slot of one sort or the other. -/
theorem Steps.set (s : Store) (h : Handle) (name : String) (arg : Filling) :
    Steps s (after (Store.set h name arg) s) := by
  rcases set_cases s h name arg with htouch | ⟨n, i, -, -, hset⟩
  · exact htouch.steps
  · unfold after
    rw [hset]
    exact Steps.setChildAt s h i arg

/-- Writing to a value slot leaves children alone. -/
theorem Tendings.set {s : Store} {h : Handle} {name : String}
    (hslot : ∀ f, s.slot h name = .ok f → f.shape = .value) (arg : Filling) :
    Tendings s (after (Store.set h name arg) s) := by
  rcases set_cases s h name arg with htouch | ⟨n, i, -, hheld, -⟩
  · exact htouch.tendings
  · -- what a child slot holds is no value
    have hvalue := hslot _ hheld
    cases hc : n.children[i]?.getD default <;> rw [hc] at hvalue <;> cases hvalue

/-! ### Sequences -/

/-- An operation after another one starts from where that one succeeded. -/
theorem bind_apply {ε σ α β : Type} (x : EStateM ε σ α) (f : α → EStateM ε σ β) (st : σ) :
    (x >>= f) st = match x st with
      | .error e st => .error e st
      | .ok a st => f a st := by
  show EStateM.bind x f st = _
  unfold EStateM.bind
  cases x st <;> rfl

/-- Two steps succeed if the first one does and the second one after it. -/
theorem bind_eq_ok_iff {ε σ α β : Type} {x : EStateM ε σ α} {f : α → EStateM ε σ β}
    {st st' : σ} {b : β} :
    (x >>= f) st = .ok b st' ↔ ∃ a mid, x st = .ok a mid ∧ f a mid = .ok b st' := by
  rw [bind_apply]
  cases x st with
  | error e mid => simp
  | ok a mid => simp

/-- Operations with the same outcome leave the same state. -/
theorem after_congr {ε σ α : Type} {x y : EStateM ε σ α} {st st' : σ} (h : x st = y st') :
    after x st = after y st' := by
  unfold after
  rw [h]

/-- The state after an operation that succeeds. -/
theorem after_of_ok {ε σ α : Type} {x : EStateM ε σ α} {st st' : σ} {a : α}
    (h : x st = .ok a st') : after x st = st' := by
  unfold after
  rw [h]

/-- The state after an operation that fails. -/
theorem after_of_error {ε σ α : Type} {x : EStateM ε σ α} {st st' : σ} {e : ε}
    (h : x st = .error e st') : after x st = st' := by
  unfold after
  rw [h]

section

variable {R : Store → Store → Prop}

/-- Two operations in a row lead to a store by the steps of one and then of the other. -/
theorem along_bind {ε α β : Type} {x : EStateM ε Store α} {f : α → EStateM ε Store β} {s : Store}
    (hx : Relation.ReflTransGen R s (after x s))
    (hf : ∀ a s', Relation.ReflTransGen R s s' → Relation.ReflTransGen R s' (after (f a) s')) :
    Relation.ReflTransGen R s (after (x >>= f) s) := by
  cases h : x s with
  -- the second operation is not started
  | error e s' =>
    have hbind : (x >>= f) s = .error e s' := by rw [bind_apply, h]
    rw [after_of_error h] at hx
    rw [after_of_error hbind]
    exact hx
  -- it starts from the store to which the first one led
  | ok a s' =>
    have hbind : (x >>= f) s = f a s' := by rw [bind_apply, h]
    rw [after_of_ok h] at hx
    refine hx.trans ?_
    have hrest := hf a s' hx
    unfold after at hrest ⊢
    rw [hbind]
    exact hrest

/-- Several writes are the first one and then the others. -/
theorem writeAll_cons {α : Type} (write : Nat → α → Edit Unit) (i : Nat) (a : α)
    (rest : List (Nat × α)) (s : Store) :
    writeAll write ((i, a) :: rest) s = (write i a >>= fun _ => writeAll write rest) s := by
  rw [bind_apply, writeAll]
  cases write i a s <;> rfl

/-- Writing entries one after the other does what writing each of them can do. -/
theorem along_writeAll {α : Type} {write : Nat → α → Edit Unit}
    (hwrite : ∀ s i a, Relation.ReflTransGen R s (after (write i a) s))
    (entries : List (Nat × α)) (s : Store) :
    Relation.ReflTransGen R s (after (writeAll write entries) s) := by
  induction entries generalizing s with
  | nil => exact .refl
  | cons entry rest ih =>
    obtain ⟨i, a⟩ := entry
    rw [after_congr (writeAll_cons write i a rest s)]
    exact along_bind (hwrite s i a) fun _ s' _ => ih s'

end

/-- Several notes are the first one and then the others. -/
theorem setNotes_cons (h : Handle) (key : String) (v : Value) (rest : List (String × Value))
    (s : Store) :
    setNotes h ((key, v) :: rest) s = (setNote h key v >>= fun _ => setNotes h rest) s := by
  rw [bind_apply, setNotes]
  cases setNote h key v s <;> rfl

/-- Writing several values touches the store, up to the first that is refused. -/
theorem Touches.setValues (s : Store) (h : Handle) (bulk : Bulk Value) :
    Touches s (after (Store.setValues h bulk) s) := by
  unfold after Store.setValues
  cases s.kindOf h with
  | error e => exact .refl
  | ok k =>
    dsimp only
    cases bulk.order (s.schema.kind k).name ((s.schema.kind k).values.map ValueSlot.name)
        .value with
    | error e => exact .refl
    | ok entries =>
      exact along_writeAll (fun s i v => Touches.setValueAt s h i (.value v)) entries s

/-- Writing several child slots takes basic steps, up to the first that is refused. -/
theorem Steps.setChildren (s : Store) (h : Handle) (bulk : Bulk Filling) :
    Steps s (after (Store.setChildren h bulk) s) := by
  unfold after Store.setChildren
  cases s.kindOf h with
  | error e => exact .refl
  | ok k =>
    dsimp only
    cases bulk.order (s.schema.kind k).name ((s.schema.kind k).children.map ChildSlot.name)
        .child with
    | error e => exact .refl
    | ok entries => exact along_writeAll (fun s i f => Steps.setChildAt s h i f) entries s

/-! ### Notes and sweeping -/

/-- Setting a note of a node touches the store. -/
theorem Touches.setNote (s : Store) (h : Handle) (key : String) (v : Value) :
    Touches s (after (Store.setNote h key v) s) := by
  unfold after Store.setNote
  cases s.get h with
  | error e => exact .refl
  | ok n => exact .single (.annotate h (·.insert key v))

theorem Touches.setNotes (h : Handle) (entries : List (String × Value)) (s : Store) :
    Touches s (after (Store.setNotes h entries) s) := by
  induction entries generalizing s with
  | nil => exact .refl
  | cons entry rest ih =>
    obtain ⟨key, v⟩ := entry
    rw [after_congr (setNotes_cons h key v rest s)]
    exact along_bind (Touches.setNote s h key v) fun _ s' _ => ih s'

/-- Deleting a note touches one node, or all that are marked below it. -/
theorem Touches.deleteNote (s : Store) (h : Handle) (key : String) (recursive : Bool) :
    Touches s (after (Store.deleteNote h key recursive) s) := by
  unfold after Store.deleteNote
  cases s.get h with
  | error e => exact .refl
  | ok n =>
    cases recursive with
    | true => exact .single (.dropNotes key _)
    | false => exact .single (.annotate h (·.erase key))

/-- A sweep tends the store, unless a root is refused. -/
theorem Tendings.sweep (s : Store) (roots : List Handle) :
    Tendings s (after (Store.sweep roots) s) := by
  unfold after
  split
  · next n s' hr => exact .single (.sweep hr)
  · next e s' hr => rw [sweep_eq_error hr]

/-- Makes a node and puts notes on it. -/
def constructAnnotated (k : KindId) (args : List Filling) (notes : List (String × Value)) :
    Edit Handle := do
  let h ← construct k args
  setNotes h notes
  return h

/-- A new node and its notes are growths. -/
theorem Growths.constructAnnotated {s : Store} {k : KindId} (hk : s.Known k)
    (args : List Filling) (notes : List (String × Value)) :
    Growths s (after (Store.constructAnnotated k args notes) s) :=
  along_bind (Growths.construct hk args) fun h s' _ =>
    along_bind (Touches.setNotes h notes s').tendings.growths fun _ _ _ => .refl

/-! ### Restoring a snapshot -/

section

variable (restore : Snapshot → Edit Handle)

/-- Several snapshots are restored one after the other. -/
theorem restoreAll_cons (t : Snapshot) (ts : List Snapshot) (s : Store) :
    restoreAll restore (t :: ts) s
      = (restore t >>= fun h => restoreAll restore ts >>= fun hs => pure (h :: hs)) s := by
  rw [restoreAll, bind_apply]
  cases restore t s with
  | error e s => rfl
  | ok h s =>
    dsimp only
    rw [bind_apply]
    cases restoreAll restore ts s <;> rfl

/-- A slot for one node holds the node that is restored for it. -/
theorem restoreChild_node (t : Snapshot) (s : Store) :
    restoreChild restore (.node t) s = (restore t >>= fun h => pure (.one (some h))) s := by
  rw [restoreChild, bind_apply]
  cases restore t s <;> rfl

/-- A list slot holds the nodes that are restored for it, in their order. -/
theorem restoreChild_list (ts : List Snapshot) (s : Store) :
    restoreChild restore (.list ts) s
      = (restoreAll restore ts >>= fun hs => pure (.many hs)) s := by
  rw [restoreChild, bind_apply]
  cases restoreAll restore ts s <;> rfl

/-- The first entry fills its slot, and then the others do. -/
theorem placeChildren_cons {kind : Kind} {name : String} {i : Nat}
    (hi : kind.childIndex? name = some i) (c : Snapshot.Child)
    (rest : List (String × Snapshot.Child)) (fs : List Filling) (s : Store) :
    placeChildren restore kind ((name, c) :: rest) fs s
      = (restoreChild restore c >>= fun f => placeChildren restore kind rest (fs.set i f)) s := by
  rw [placeChildren, hi, bind_apply]
  cases restoreChild restore c s <;> rfl

end

/-- A snapshot of a known kind with values for its slots: its children are restored first, and then
    the node is made over them. -/
theorem rebuild_succ {n : Nat} {name : String} {values : List (String × Value)}
    {children : List (String × Snapshot.Child)} {notes : Notes} {s : Store} {k : KindId}
    {vs : List Filling} (hk : s.schema.kindByName? name = some k)
    (hvs : placeValues (s.schema.kind k) values
      (List.replicate (s.schema.kind k).values.length (.value .null)) = .ok vs) :
    rebuild (n + 1) (.mk name values children notes) s
      = (placeChildren (rebuild n) (s.schema.kind k) children
          (List.replicate (s.schema.kind k).children.length (.one none)) >>= fun cs =>
        constructAnnotated k (vs ++ List.zipWith settle (s.schema.kind k).children cs)
          notes.entries) s := by
  rw [rebuild, bind_apply]
  simp only [hk, hvs]
  cases placeChildren (rebuild n) (s.schema.kind k) children
      (List.replicate (s.schema.kind k).children.length (Filling.one none)) s with
  | error e s => rfl
  | ok cs s =>
    dsimp only [constructAnnotated]
    rw [bind_apply]
    cases construct k (vs ++ List.zipWith settle _ cs) s with
    | error e s => rfl
    | ok h s =>
      dsimp only
      rw [bind_apply]
      cases setNotes h notes.entries s <;> rfl

/-- The steps of restoring a node. -/
theorem rebuild_succ_eq_ok {n : Nat} {name : String} {values : List (String × Value)}
    {children : List (String × Snapshot.Child)} {notes : Notes} {s s' : Store} {r : Handle}
    (h : rebuild (n + 1) (.mk name values children notes) s = .ok r s') :
    ∃ k vs cs s₁, s.schema.kindByName? name = some k ∧
      placeValues (s.schema.kind k) values
        (List.replicate (s.schema.kind k).values.length (.value .null)) = .ok vs ∧
      placeChildren (rebuild n) (s.schema.kind k) children
        (List.replicate (s.schema.kind k).children.length (.one none)) s = .ok cs s₁ ∧
      constructAnnotated k (vs ++ List.zipWith settle (s.schema.kind k).children cs)
        notes.entries s₁ = .ok r s' := by
  cases hk : s.schema.kindByName? name with
  | none =>
    rw [rebuild, hk] at h
    cases h
  | some k =>
    cases hvs : placeValues (s.schema.kind k) values
        (List.replicate (s.schema.kind k).values.length (.value .null)) with
    | error e =>
      simp only [rebuild, hk, hvs] at h
      cases h
    | ok vs =>
      rw [rebuild_succ hk hvs] at h
      obtain ⟨cs, s₁, hcs, hmake⟩ := bind_eq_ok_iff.mp h
      exact ⟨k, vs, cs, s₁, rfl, hvs, hcs, hmake⟩

section

variable {restore : Snapshot → Edit Handle}
  (hrestore : ∀ t s, Growths s (after (restore t) s))
include hrestore

/-- Restoring several snapshots is a growth if restoring one is. -/
theorem Growths.restoreAll (ts : List Snapshot) (s : Store) :
    Growths s (after (Store.restoreAll restore ts) s) := by
  induction ts generalizing s with
  | nil => exact .refl
  | cons t ts ih =>
    rw [after_congr (restoreAll_cons restore t ts s)]
    exact along_bind (hrestore t s) fun _ s' _ => along_bind (ih s') fun _ _ _ => .refl

/-- So is restoring the content of a slot. -/
theorem Growths.restoreChild (c : Snapshot.Child) (s : Store) :
    Growths s (after (Store.restoreChild restore c) s) := by
  cases c with
  | absent => exact .refl
  | node t =>
    rw [after_congr (restoreChild_node restore t s)]
    exact along_bind (hrestore t s) fun _ _ _ => .refl
  | list ts =>
    rw [after_congr (restoreChild_list restore ts s)]
    exact along_bind (Growths.restoreAll hrestore ts s) fun _ _ _ => .refl

/-- And so is restoring the contents of all slots of a node. -/
theorem Growths.placeChildren (kind : Kind) (children : List (String × Snapshot.Child))
    (fs : List Filling) (s : Store) :
    Growths s (after (Store.placeChildren restore kind children fs) s) := by
  induction children generalizing fs s with
  | nil => exact .refl
  | cons entry rest ih =>
    obtain ⟨name, c⟩ := entry
    cases hi : kind.childIndex? name with
    | none =>
      unfold after
      rw [Store.placeChildren, hi]
    | some i =>
      rw [after_congr (placeChildren_cons restore hi c rest fs s)]
      exact along_bind (Growths.restoreChild hrestore c s) fun f s' _ => ih (fs.set i f) s'

end

/-- Restoring a snapshot only makes nodes and gives them notes, also if it fails on the way. -/
theorem Growths.rebuild (n : Nat) (t : Snapshot) (s : Store) :
    Growths s (after (Store.rebuild n t) s) := by
  induction n generalizing t s with
  | zero => exact .refl
  | succ n ih =>
    obtain ⟨name, values, children, notes⟩ := t
    cases hk : s.schema.kindByName? name with
    -- without a kind, or with values that no slot takes, there is nothing to do
    | none =>
      unfold after
      rw [Store.rebuild, hk]
    | some k =>
      cases hvs : placeValues (s.schema.kind k) values
          (List.replicate (s.schema.kind k).values.length (.value .null)) with
      | error e =>
        unfold after
        simp only [Store.rebuild, hk, hvs]
        exact .refl
      | ok vs =>
        -- the children are restored by the induction hypothesis, in a store with the same schema
        rw [after_congr (rebuild_succ hk hvs)]
        refine along_bind (Growths.placeChildren ih _ children _ s) fun cs s' hs' => ?_
        refine Growths.constructAnnotated (.inl ?_) _ _
        rw [Growths.schema hs']
        exact (Schema.kindByName?_eq_some hk).1

theorem Growths.restore (t : Snapshot) (s : Store) : Growths s (after (Store.restore t) s) :=
  Growths.rebuild Snapshot.maxDepth t s

/-! ### Reading from bytes -/

/-- The node of a frame is made like any other, with the notes that were read; a refusal is passed
    on as one of the reader. -/
theorem make_eq (f : Wire.Frame) (s : Store) :
    f.make s =
      match constructAnnotated f.kind (f.values.map .value ++ f.fillings.reverse) f.notes s with
      | .error e s => .error (.rejected e) s
      | .ok h s => .ok h s := by
  unfold Wire.Frame.make constructAnnotated
  rw [bind_apply]
  cases construct f.kind (f.values.map .value ++ f.fillings.reverse) s with
  | error e s => rfl
  | ok h s =>
    dsimp only
    rw [bind_apply]
    cases setNotes h f.notes s <;> rfl

/-- For the store it makes no difference how an error is worded. -/
theorem after_make (f : Wire.Frame) (s : Store) :
    after f.make s
      = after (constructAnnotated f.kind (f.values.map .value ++ f.fillings.reverse) f.notes)
        s := by
  unfold after
  rw [make_eq]
  cases constructAnnotated f.kind (f.values.map .value ++ f.fillings.reverse) f.notes s <;> rfl

/-- The node of a frame is a growth. -/
theorem Growths.make {f : Wire.Frame} {s : Store} (hk : s.Known f.kind) :
    Growths s (after f.make s) := by
  rw [after_make]
  exact Growths.constructAnnotated hk _ _

/-- A node that is begun is of a kind of the schema, and none of its slots is read. -/
theorem readHeader_eq_ok {schema : Schema} {data rest : List UInt8} {f : Wire.Frame}
    (h : Wire.readHeader schema data = .ok (f, rest)) :
    f.kind.index < schema.size ∧ f.fillings = [] ∧ f.list = none := by
  obtain ⟨name, data₁, -, h⟩ := Wire.bind_eq_ok h
  cases hk : schema.kindByName? name with
  | none =>
    rw [hk] at h
    cases h
  | some k =>
    rw [hk] at h
    obtain ⟨valueCount, data₂, -, h⟩ := Wire.bind_eq_ok h
    split at h
    · cases h
    obtain ⟨values, data₃, -, h⟩ := Wire.bind_eq_ok h
    obtain ⟨noteCount, data₄, -, h⟩ := Wire.bind_eq_ok h
    obtain ⟨notes, data₅, -, h⟩ := Wire.bind_eq_ok h
    obtain ⟨slotCount, data₆, -, h⟩ := Wire.bind_eq_ok h
    split at h
    · cases h
    cases h
    -- only the name matters here, the parts after it are read without looking at them
    exact ⟨(Schema.kindByName?_eq_some hk).1, rfl, rfl⟩

theorem kind_receive (f : Wire.Frame) (h : Handle) : (f.receive h).kind = f.kind := by
  unfold Wire.Frame.receive
  split <;> rfl

/-- Reading nodes makes them one after the other; the kinds of the open frames stay kinds of
    the schema. -/
theorem Growths.readFrames (frames : List Wire.Frame) (data : List UInt8) (s : Store)
    (hkinds : ∀ f ∈ frames, f.kind.index < s.schema.size) :
    Growths s (after (Wire.readFrames frames data) s) := by
  unfold after
  fun_induction Wire.readFrames frames data s with
  | case1 | case2 | case5 | case7 | case9 | case11 => exact .refl
  -- a header was read: its kind is one of the schema
  | case3 data s f outer left nodes hlist g rest hg ih =>
    simp only [List.forall_mem_cons] at hkinds ih
    exact ih ⟨(readHeader_eq_ok hg).1, hkinds⟩
  | case4 data s f outer nodes hlist ih =>
    simp only [List.forall_mem_cons, List.unattach_reverse, List.unattach_attach] at hkinds ih
    exact ih hkinds
  | case6 s f outer hlist n hn data ih =>
    simp only [List.forall_mem_cons] at hkinds ih
    exact ih hkinds
  | case8 s f outer hlist n hn data g rest hg htag ih =>
    simp only [List.forall_mem_cons] at hkinds ih
    exact ih ⟨(readHeader_eq_ok hg).1, hkinds⟩
  | case10 s f outer hlist n hn data m rest hm hvacant hone ih =>
    simp only [List.forall_mem_cons] at hkinds ih
    exact ih hkinds
  -- all slots are there: the node is made, or refused
  | case12 data s f outer hlist hslots e s' hmake =>
    rw [← after_of_error hmake]
    exact Growths.make (.inl (hkinds f List.mem_cons_self))
  | case13 data s f hlist hslots h s' hmake =>
    rw [← after_of_ok hmake]
    exact Growths.make (.inl (hkinds f List.mem_cons_self))
  | case14 data s f hlist hslots h s' hmake g outer ih =>
    have hgrowths := Growths.make (.inl (hkinds f List.mem_cons_self))
    rw [after_of_ok hmake] at hgrowths
    refine hgrowths.trans (ih ?_)
    simp only [List.forall_mem_cons, kind_receive, hgrowths.schema] at hkinds ⊢
    exact hkinds.2

/-- Reading fails before it makes anything, or it reads the nodes from the root on.  Bytes that
    are left over then make it fail with all nodes made. -/
theorem decode_cases (data : List UInt8) (s : Store) :
    (∃ e, decode data s = .error e s) ∨
      ∃ f start rest, Wire.readHeader s.schema start = .ok (f, rest) ∧
        ((∃ e s', Wire.readFrames [f] rest s = .error e s' ∧ decode data s = .error e s') ∨
          ∃ p s', Wire.readFrames [f] rest s = .ok p s' ∧
            (decode data s = .ok p.1 s' ∨ ∃ e, decode data s = .error e s')) := by
  unfold decode
  cases Wire.readPreamble data with
  | error e => exact .inl ⟨e, rfl⟩
  | ok p =>
    dsimp only
    cases hheader : Wire.readHeader s.schema p.2 with
    | error e => exact .inl ⟨e, rfl⟩
    | ok q =>
      refine .inr ⟨q.1, p.2, q.2, hheader, ?_⟩
      dsimp only
      cases hframes : Wire.readFrames [q.1] q.2 s with
      | error e s' => exact .inl ⟨e, s', rfl, rfl⟩
      | ok r s' =>
        refine .inr ⟨r, s', rfl, ?_⟩
        by_cases hrest : r.2.isEmpty = true
        · exact .inl (if_pos hrest)
        · exact .inr ⟨_, if_neg hrest⟩

/-- Decoding only makes nodes and gives them notes, also if the bytes are no good or go on after the
    root. -/
theorem Growths.decode (data : List UInt8) (s : Store) :
    Growths s (after (Store.decode data) s) := by
  rcases decode_cases data s with ⟨e, hdecode⟩ | ⟨f, start, rest, hheader, hframes⟩
  · rw [after_of_error hdecode]
  · have hkinds : ∀ g ∈ [f], g.kind.index < s.schema.size := by
      simpa using (readHeader_eq_ok hheader).1
    have hread := Growths.readFrames [f] rest s hkinds
    rcases hframes with ⟨e, s', hframes, hdecode⟩ | ⟨p, s', hframes, hdecode | ⟨e, hdecode⟩⟩
    · rw [after_of_error hdecode, ← after_of_error hframes]
      exact hread
    · rw [after_of_ok hdecode, ← after_of_ok hframes]
      exact hread
    · rw [after_of_error hdecode, ← after_of_ok hframes]
      exact hread

end Store

end TypedForest
