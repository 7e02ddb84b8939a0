import TypedForest.Proofs.Store.History
import TypedForest.Proofs.Wire.Turns

namespace TypedForest

/-!
# What operations record

Each operation makes a history of its own, which its arguments and the store that it starts from
determine: a node that it makes is recorded under the handle that making it returned, a write that
it makes as soon as the write was accepted, and a sweep with the nodes that it took away.  An
operation that fails has made its history too, up to the place where it stopped.

* `Record` : what is recorded, as a function of the state before;
* `Record.construct`, `Record.set`, `Record.setChildren`, `Record.sweep` : one node, one slot,
  several slots, and what is not needed;
* `Record.restore`, `Record.decode` : a tree, node by node;
* `Store.chronicle_construct` and so on : what is recorded is what happens to the store;
* `Record.mem_made_decode` and so on : the handle that is returned is that of a recorded node;
* `Record.ReclaimsNothing` : what only makes nodes takes none away.
-/

/-- What an operation records, depending on the state that it starts from. -/
abbrev Record (σ : Type) := σ → List Event

namespace Record

/-- The record of an operation that makes one node, which it returns. -/
def making {ε σ : Type} (x : EStateM ε σ Handle) (args : List Filling) : Record σ := fun st =>
  match x st with
  | .ok h _ => [.make h (args.flatMap Filling.nodes)]
  | .error _ _ => []

/-- The record of an operation and of another one that goes on with its result. -/
def andThen {ε σ α : Type} (x : EStateM ε σ α) (first : Record σ) (next : α → Record σ) :
    Record σ := fun st =>
  first st ++ match x st with
    | .ok a st' => next a st'
    | .error _ _ => []

/-- What records nothing afterwards is left out. -/
theorem andThen_nil {ε σ α : Type} (x : EStateM ε σ α) (first : Record σ) :
    (andThen x first fun _ _ => []) = first := by
  funext st
  rw [andThen]
  cases x st <;> exact List.append_nil _

/-! ### One node, slots and sweeps -/

def construct (k : KindId) (args : List Filling) : Record Store :=
  making (Store.construct k args) args

def constructNamed (kind : String) (args : List Filling) : Record Store :=
  making (Store.constructNamed kind args) args

/-- Nodes that are put into a slot are recorded, a value is not. -/
def write (h : Handle) : Filling → List Event
  | .value _ => []
  | .one node => [.assign h node.toList]
  | .many nodes => [.assign h nodes]

/-- A write to a slot is recorded if it is accepted. -/
def set (h : Handle) (name : String) (arg : Filling) : Record Store := fun s =>
  match Store.set h name arg s with
  | .ok () _ => write h arg
  | .error _ _ => []

/-- Writes to child slots are recorded up to the first that is refused. -/
def writeAll (h : Handle) : List (Nat × Filling) → Record Store
  | [], _ => []
  | (i, arg) :: rest, s =>
    match Store.setChildAt h i arg s with
    | .ok () s' => .assign h arg.nodes :: writeAll h rest s'
    | .error _ _ => []

def setChildren (h : Handle) (bulk : Bulk Filling) : Record Store := fun s =>
  match s.kindOf h with
  | .error _ => []
  | .ok k =>
    match bulk.order (s.schema.kind k).name ((s.schema.kind k).children.map ChildSlot.name)
        .child with
    | .error _ => []
    | .ok entries => writeAll h entries s

/-- A sweep is recorded with the nodes that it took away. -/
def sweep (roots : List Handle) : Record Store := fun s =>
  match Store.sweep roots s with
  | .ok _ s' => [.reclaim (s.lost s')]
  | .error _ _ => []

/-! ### Trees -/

section

variable (restore : Snapshot → Edit Handle) (record : Snapshot → Record Store)

def restoreAll : List Snapshot → Record Store
  | [] => fun _ => []
  | t :: ts => andThen (restore t) (record t) fun _ => restoreAll ts

def restoreChild : Snapshot.Child → Record Store
  | .absent => fun _ => []
  | .node t => record t
  | .list ts => restoreAll restore record ts

def placeChildren (kind : Kind) : List (String × Snapshot.Child) → Record Store
  | [] => fun _ => []
  | (name, c) :: rest =>
    if (kind.childIndex? name).isSome then
      andThen (Store.restoreChild restore c) (restoreChild restore record c) fun _ =>
        placeChildren kind rest
    else fun _ => []

end

/-- The nodes below a node of a snapshot are recorded slot by slot, and the node after them. -/
def rebuild : Nat → Snapshot → Record Store
  | 0, _, _ => []
  | n + 1, .mk name values children _, s =>
    match s.schema.kindByName? name with
    | none => []
    | some k =>
      let kind := s.schema.kind k
      match Store.placeValues kind values (List.replicate kind.values.length (.value .null)) with
      | .error _ => []
      | .ok vs =>
        andThen
          (Store.placeChildren (Store.rebuild n) kind children
            (List.replicate kind.children.length (.one none)))
          (placeChildren (Store.rebuild n) (rebuild n) kind children)
          (fun cs => construct k (vs ++ List.zipWith Store.settle kind.children cs)) s

def restore (t : Snapshot) : Record Store := rebuild Snapshot.maxDepth t

/-- The node of a complete frame is recorded when it is made. -/
def turn : List Wire.Frame → Record Store
  | [], _ => []
  | f :: _, s =>
    if f.isComplete then construct f.kind (f.values.map .value ++ f.fillings.reverse) s else []

/-- Reading is recorded turn by turn. -/
def readFrames (frames : List Wire.Frame) (data : List UInt8) (s : Store) : List Event :=
  turn frames s ++
    match _h : Wire.step frames data s with
    | .ok (.more frames' data') s' => readFrames frames' data' s'
    | .ok (.done _ _) _ => []
    | .error _ _ => []
termination_by Wire.remaining frames data
decreasing_by exact Wire.step_lt _h

/-- How reading is recorded from there on. -/
def proceed : Wire.Progress → Record Store
  | .more frames data => readFrames frames data
  | .done _ _ => fun _ => []

/-- The record of reading, one turn and what follows it. -/
theorem readFrames_eq (frames : List Wire.Frame) (data : List UInt8) (s : Store) :
    readFrames frames data s = andThen (Wire.step frames data) (turn frames) proceed s := by
  rw [readFrames, andThen]
  split
  · next h => simp only [h, proceed]
  · next h => simp only [h, proceed]
  · next h => simp only [h]

def decode (data : List UInt8) : Record Store := fun s =>
  match Wire.readPreamble data with
  | .error _ => []
  | .ok (_, start) =>
    match Wire.readHeader s.schema start with
    | .error _ => []
    | .ok (f, rest) => readFrames [f] rest s

end Record

/-! ### Places of slots -/

/-- Entries by name are for places that there are. -/
theorem Bulk.lt_of_mem_resolve {α : Type} {slots : List String} {unknown : String → NodeError}
    {named : List (String × α)} {entries : List (Nat × α)}
    (h : resolve slots unknown named = .ok entries) :
    ∀ entry ∈ entries, entry.1 < slots.length := by
  induction named generalizing entries with
  | nil =>
    cases h
    exact List.forall_mem_nil _
  | cons entry rest ih =>
    obtain ⟨name, a⟩ := entry
    rw [resolve] at h
    split at h
    · cases h
    · next i hi =>
      split at h
      · cases h
      · next es hes =>
        cases h
        obtain ⟨hlt, -⟩ := List.findIdx?_eq_some_iff_getElem.mp hi
        exact List.forall_mem_cons.mpr ⟨hlt, ih hes⟩

/-- Entries in order are for slots that the kind has. -/
theorem Bulk.lt_of_mem_order {α : Type} {bulk : Bulk α} {kind : String} {slots : List String}
    {sort : SlotSort} {entries : List (Nat × α)} (h : bulk.order kind slots sort = .ok entries) :
    ∀ entry ∈ entries, entry.1 < slots.length := by
  cases bulk with
  | all as =>
    rw [order] at h
    split at h
    · next hlength =>
      cases h
      intro entry hentry
      obtain ⟨p, hp, rfl⟩ := List.mem_map.mp hentry
      exact hlength ▸ List.snd_lt_of_mem_zipIdx hp
    · cases h
  | named as =>
    rw [order] at h
    cases hresolve : resolve slots (.unknownSlot kind · sort) as with
    | error e =>
      rw [hresolve] at h
      cases h
    | ok es =>
      rw [hresolve] at h
      cases h
      intro entry hentry
      -- sorting adds no entries
      exact lt_of_mem_resolve hresolve entry (List.mem_mergeSort.mp hentry)

namespace Store

/-! ### Sequences -/

theorem after_bind_pure {ε σ α β : Type} (x : EStateM ε σ α) (g : α → β) (st : σ) :
    after (x >>= fun a => pure (g a)) st = after x st := by
  unfold after
  rw [bind_apply]
  cases x st <;> rfl

/-- What two operations record is what happens, if it is so for each of them. -/
theorem chronicle_andThen {ε σ α β : Type} (store : σ → Store) {x : EStateM ε σ α}
    {f : α → EStateM ε σ β} {first : Record σ} {next : α → Record σ} {st : σ}
    (hx : Chronicle (store st) (first st) (store (after x st)))
    (hf : ∀ a st', x st = .ok a st' →
      Chronicle (store st') (next a st') (store (after (f a) st'))) :
    Chronicle (store st) (Record.andThen x first next st) (store (after (x >>= f) st)) := by
  rw [Record.andThen]
  cases h : x st with
  | error e st' =>
    have hbind : (x >>= f) st = .error e st' := by rw [bind_apply, h]
    rw [after_of_error h] at hx
    rw [after_of_error hbind, List.append_nil]
    exact hx
  | ok a st' =>
    have hbind : (x >>= f) st = f a st' := by rw [bind_apply, h]
    rw [after_of_ok h] at hx
    rw [after_congr hbind]
    exact hx.trans (hf a st' h)

/-! ### One node, slots and sweeps -/

/-- The record of making a node is true. -/
theorem chronicle_construct {s : Store} {k : KindId} (hk : s.Known k) (args : List Filling) :
    Chronicle s (Record.construct k args s) (after (construct k args) s) := by
  rw [Record.construct, Record.making]
  cases hc : construct k args s with
  | ok h s' =>
    rw [after_of_ok hc]
    exact (Change.make hk hc).chronicle
  | error e s' =>
    rw [after_of_error hc, construct_eq_error hc]
    exact .nil

/-- So it is if the kind is found by its name. -/
theorem chronicle_constructNamed (s : Store) (kind : String) (args : List Filling) :
    Chronicle s (Record.constructNamed kind args s) (after (constructNamed kind args) s) := by
  cases hk : s.schema.kindByName? kind with
  | none =>
    have hunknown : constructNamed kind args s = .error (.unknownKind kind) s := by
      rw [constructNamed, hk]
    rw [Record.constructNamed, Record.making, after_of_error hunknown, hunknown]
    exact .nil
  | some k =>
    have hnamed : constructNamed kind args s = construct k args s := by rw [constructNamed, hk]
    have hrecord : Record.constructNamed kind args s = Record.construct k args s := by
      rw [Record.constructNamed, Record.construct, Record.making, Record.making, hnamed]
    rw [hrecord, after_congr hnamed]
    exact chronicle_construct (.inl (Schema.kindByName?_eq_some hk).1) args

/-- A write to a child slot that there is. -/
theorem chronicle_setChildAt {s s' : Store} {h : Handle} {n : Node} (hn : s.node? h = some n)
    {i : Nat} (hi : i < (s.schema.kind n.kind).children.length) {arg : Filling}
    (hw : setChildAt h i arg s = .ok () s') : Chronicle s [.assign h arg.nodes] s' :=
  (Change.assign hn (List.getElem?_eq_getElem hi) hw).chronicle

/-- The record of a write to one slot is true: it names nodes only if the slot is for nodes. -/
theorem chronicle_set (s : Store) (h : Handle) (name : String) (arg : Filling) :
    Chronicle s (Record.set h name arg s) (after (set h name arg) s) := by
  rw [Record.set]
  cases hset : Store.set h name arg s with
  | error e s' =>
    rw [after_of_error hset, set_eq_error hset]
    exact .nil
  | ok u s' =>
    rw [after_of_ok hset]
    unfold Store.set at hset
    split at hset
    · cases hset
    · next k hk =>
      obtain ⟨n, hn, rfl⟩ := kindOf_eq_ok_iff.mp hk
      split at hset
      · -- a value slot takes values only
        next i hi =>
        obtain ⟨hlt, -⟩ := List.findIdx?_eq_some_iff_getElem.mp hi
        have htouch := (Touch.setValueAt hset)
        simp only [setValueAt, hk, List.getElem?_eq_getElem hlt] at hset
        split at hset
        · cases hset
        · next v hv =>
          obtain ⟨rfl, -⟩ := checkValue_eq_ok_iff.mp hv
          exact (Change.touch htouch).chronicle
      · split at hset
        · -- and a child slot nodes only
          next i hi =>
          obtain ⟨hlt, -⟩ := List.findIdx?_eq_some_iff_getElem.mp hi
          have hchronicle := chronicle_setChildAt hn hlt hset
          obtain ⟨m, hm, ⟨hnone, -⟩ | ⟨slot, c, -, rfl, -⟩⟩ := setChildAt_eq_ok hset
          · obtain rfl : n = m := Option.some.inj (hn.symm.trans hm)
            rw [List.getElem?_eq_getElem hlt] at hnone
            cases hnone
          · cases c <;> exact hchronicle
        · cases hset

/-- The record of writes to several slots is true, also if one of them fails after others. -/
theorem chronicle_writeAll {h : Handle} {k : KindId} {entries : List (Nat × Filling)} {s : Store}
    (hh : ∃ n, s.node? h = some n ∧ n.kind = k)
    (hentries : ∀ entry ∈ entries, entry.1 < (s.schema.kind k).children.length) :
    Chronicle s (Record.writeAll h entries s) (after (writeAll (setChildAt h) entries) s) := by
  induction entries generalizing s with
  | nil => exact .nil
  | cons entry rest ih =>
    obtain ⟨i, arg⟩ := entry
    obtain ⟨n, hn, rfl⟩ := hh
    obtain ⟨hi, hrest⟩ := List.forall_mem_cons.mp hentries
    rw [Record.writeAll]
    cases hw : setChildAt h i arg s with
    | error e s' =>
      have hrefused : writeAll (setChildAt h) ((i, arg) :: rest) s = .error e s' := by
        rw [writeAll, hw]
      -- the writes before this one are in the record already
      rw [after_of_error hrefused, setChildAt_eq_error hw]
      exact .nil
    | ok u s' =>
      have hgoes : writeAll (setChildAt h) ((i, arg) :: rest) s
          = writeAll (setChildAt h) rest s' := by rw [writeAll, hw]
      -- the node has its kind still, and so the other entries have their slots
      have hr := retains_setChildAt hw
      rw [after_congr hgoes]
      refine (chronicle_setChildAt hn hi hw).trans (ih (hr.nodes h n hn) ?_)
      rwa [hr.schema]

/-- The record of a bulk write is true. -/
theorem chronicle_setChildren (s : Store) (h : Handle) (bulk : Bulk Filling) :
    Chronicle s (Record.setChildren h bulk s) (after (setChildren h bulk) s) := by
  unfold Record.setChildren after setChildren
  cases hk : s.kindOf h with
  | error e => exact .nil
  | ok k =>
    dsimp only
    cases horder : bulk.order (s.schema.kind k).name ((s.schema.kind k).children.map ChildSlot.name)
        .child with
    | error e => exact .nil
    | ok entries =>
      have hlt := Bulk.lt_of_mem_order horder
      simp only [List.length_map] at hlt
      exact chronicle_writeAll (kindOf_eq_ok_iff.mp hk) hlt

/-- The record of a sweep is true. -/
theorem chronicle_sweep (s : Store) (roots : List Handle) :
    Chronicle s (Record.sweep roots s) (after (sweep roots) s) := by
  rw [Record.sweep]
  cases hr : sweep roots s with
  | ok n s' =>
    rw [after_of_ok hr]
    exact (Change.sweep hr).chronicle
  | error e s' =>
    rw [after_of_error hr, sweep_eq_error hr]
    exact .nil

/-! ### Trees -/

/-- Notes are not in the record. -/
theorem chronicle_constructAnnotated {s : Store} {k : KindId} (hk : s.Known k)
    (args : List Filling) (notes : List (String × Value)) :
    Chronicle s (Record.construct k args s) (after (constructAnnotated k args notes) s) := by
  have hnotes : ∀ h s', Chronicle s' []
      (after (setNotes h notes >>= fun _ => (pure h : Edit Handle)) s') := by
    intro h s'
    rw [after_bind_pure]
    exact (Touches.setNotes h notes s').chronicle
  have hboth := chronicle_andThen id (chronicle_construct hk args) fun h s' _ => hnotes h s'
  rw [Record.andThen_nil] at hboth
  exact hboth

section

variable {restore : Snapshot → Edit Handle} {record : Snapshot → Record Store}
  (hrestore : ∀ t s, Chronicle s (record t s) (after (restore t) s))
include hrestore

/-- The record of restoring several snapshots is true if that of each of them is. -/
theorem chronicle_restoreAll (ts : List Snapshot) (s : Store) :
    Chronicle s (Record.restoreAll restore record ts s) (after (restoreAll restore ts) s) := by
  induction ts generalizing s with
  | nil => exact .nil
  | cons t ts ih =>
    rw [after_congr (restoreAll_cons restore t ts s), Record.restoreAll]
    refine chronicle_andThen id (hrestore t s) fun h s' _ => ?_
    rw [after_bind_pure]
    exact ih s'

/-- So it is for the content of a slot. -/
theorem chronicle_restoreChild (c : Snapshot.Child) (s : Store) :
    Chronicle s (Record.restoreChild restore record c s) (after (restoreChild restore c) s) := by
  cases c with
  | absent => exact .nil
  | node t =>
    rw [after_congr (restoreChild_node restore t s), after_bind_pure]
    exact hrestore t s
  | list ts =>
    rw [after_congr (restoreChild_list restore ts s), after_bind_pure]
    exact chronicle_restoreAll hrestore ts s

/-- And for the contents of all slots. -/
theorem chronicle_placeChildren (kind : Kind) (children : List (String × Snapshot.Child))
    (fs : List Filling) (s : Store) :
    Chronicle s (Record.placeChildren restore record kind children s)
      (after (placeChildren restore kind children fs) s) := by
  induction children generalizing fs s with
  | nil => exact .nil
  | cons entry rest ih =>
    obtain ⟨name, c⟩ := entry
    rw [Record.placeChildren]
    cases hi : kind.childIndex? name with
    | none =>
      have hunknown : placeChildren restore kind ((name, c) :: rest) fs s
          = .error (.unknownSlot kind.name name .child) s := by rw [placeChildren, hi]
      rw [after_of_error hunknown]
      exact .nil
    | some i =>
      rw [after_congr (placeChildren_cons restore hi c rest fs s)]
      exact chronicle_andThen id (chronicle_restoreChild hrestore c s) fun f s' _ =>
        ih (fs.set i f) s'

end

/-- The record of restoring a snapshot is true, by induction on the levels that are left. -/
theorem chronicle_rebuild (n : Nat) (t : Snapshot) (s : Store) :
    Chronicle s (Record.rebuild n t s) (after (rebuild n t) s) := by
  induction n generalizing t s with
  | zero => exact .nil
  | succ n ih =>
    obtain ⟨name, values, children, notes⟩ := t
    rw [Record.rebuild]
    cases hk : s.schema.kindByName? name with
    -- a name that no kind has, or a value without a slot: nothing was made
    | none =>
      have hunknown : rebuild (n + 1) (.mk name values children notes) s
          = .error (.unknownKind name) s := by rw [rebuild, hk]
      rw [after_of_error hunknown]
      exact .nil
    | some k =>
      dsimp only
      cases hvs : placeValues (s.schema.kind k) values
          (List.replicate (s.schema.kind k).values.length (.value .null)) with
      | error e =>
        have hrefused : rebuild (n + 1) (.mk name values children notes) s = .error e s := by
          simp only [rebuild, hk, hvs]
        rw [after_of_error hrefused]
        exact .nil
      | ok vs =>
        rw [after_congr (rebuild_succ hk hvs)]
        have hplace := chronicle_placeChildren ih (s.schema.kind k) children
          (List.replicate (s.schema.kind k).children.length (.one none)) s
        refine chronicle_andThen id hplace fun cs s' hcs => ?_
        rw [after_of_ok hcs] at hplace
        -- the kind is known still when the children are there
        have hknown : k.index < s'.schema.size := by
          rw [hplace.schema]
          exact (Schema.kindByName?_eq_some hk).1
        exact chronicle_constructAnnotated (.inl hknown) _ _

/-- Open frames are for nodes of kinds of the schema, before a turn and after it. -/
theorem known_of_step {frames frames' : List Wire.Frame} {data data' : List UInt8} {s s' : Store}
    (h : Wire.step frames data s = .ok (.more frames' data') s')
    (hkinds : ∀ f ∈ frames, f.kind.index < s.schema.size) :
    ∀ f ∈ frames', f.kind.index < s'.schema.size := by
  have hmoves := Wire.moves_step frames data s
  generalize Wire.step frames data s = r at h hmoves
  cases hmoves with
  | stops => cases h
  | enters _ kind header =>
    cases h
    simp only [List.forall_mem_cons, kind] at hkinds ⊢
    exact ⟨(readHeader_eq_ok header).1, hkinds⟩
  | fills _ kind =>
    cases h
    simp only [List.forall_mem_cons, kind] at hkinds ⊢
    exact hkinds
  | @makes f outer =>
    rw [bind_apply] at h
    cases hmake : f.make s with
    | error e s₁ =>
      rw [hmake] at h
      cases h
    | ok x s₁ =>
      -- making the node keeps the schema, and the frames around are those of before
      have hschema := (Growths.make (.inl (hkinds f List.mem_cons_self))).schema
      rw [after_of_ok hmake] at hschema
      rw [hmake] at h
      cases outer with
      | nil => cases h
      | cons g outer =>
        cases h
        simp only [List.forall_mem_cons, kind_receive, hschema] at hkinds ⊢
        exact hkinds.2

/-- The record of one turn of reading is true. -/
theorem chronicle_turn {frames : List Wire.Frame} {s : Store}
    (hkinds : ∀ f ∈ frames, f.kind.index < s.schema.size) (data : List UInt8) :
    Chronicle s (Record.turn frames s) (after (Wire.step frames data) s) := by
  have hmoves := Wire.moves_step frames data s
  unfold after
  generalize Wire.step frames data s = r at hmoves
  cases hmoves with
  | stops unfinished =>
    cases frames with
    | nil => exact .nil
    | cons f outer =>
      rw [Record.turn, unfinished f rfl]
      exact .nil
  | enters unfinished =>
    rw [Record.turn, unfinished]
    exact .nil
  | fills unfinished =>
    rw [Record.turn, unfinished]
    exact .nil
  | @makes f outer _ complete =>
    -- only a turn that finishes a node changes the store
    rw [Record.turn, if_pos complete]
    have hmake := chronicle_constructAnnotated (.inl (hkinds f List.mem_cons_self))
      (f.values.map .value ++ f.fillings.reverse) f.notes
    rw [← after_make, ← after_bind_pure f.make fun h => Wire.deliver h data outer] at hmake
    exact hmake

/-- So is that of all turns. -/
theorem chronicle_readFrames (frames : List Wire.Frame) (data : List UInt8) (s : Store)
    (hkinds : ∀ f ∈ frames, f.kind.index < s.schema.size) :
    Chronicle s (Record.readFrames frames data s) (after (Wire.readFrames frames data) s) := by
  induction frames, data, s using Wire.readFrames_induction with
  | turn frames data s ih =>
    rw [after_congr (Wire.readFrames_eq_step frames data s), Record.readFrames_eq]
    refine chronicle_andThen id (chronicle_turn hkinds data) fun progress s' hstep => ?_
    cases progress with
    | more frames' data' => exact ih frames' data' s' hstep (known_of_step hstep hkinds)
    | done root rest => exact .nil

/-- The record of reading a tree is true. -/
theorem chronicle_decode (s : Store) (data : List UInt8) :
    Chronicle s (Record.decode data s) (after (decode data) s) := by
  unfold Record.decode after decode
  cases Wire.readPreamble data with
  | error e => exact .nil
  | ok p =>
    dsimp only
    cases hheader : Wire.readHeader s.schema p.2 with
    | error e => exact .nil
    | ok q =>
      dsimp only
      have hread := chronicle_readFrames [q.1] q.2 s (by simpa using (readHeader_eq_ok hheader).1)
      unfold after at hread
      cases hframes : Wire.readFrames [q.1] q.2 s with
      | error e s' =>
        rw [hframes] at hread
        exact hread
      | ok r s' =>
        rw [hframes] at hread
        dsimp only
        -- bytes that are left over do not undo anything
        by_cases hrest : r.2.isEmpty = true
        · rw [if_pos hrest]
          exact hread
        · rw [if_neg hrest]
          exact hread

end Store

/-! ### What is returned -/

namespace Record

/-- A node that is returned by what makes it was made. -/
theorem mem_made_making {ε σ : Type} {x : EStateM ε σ Handle} {args : List Filling} {st st' : σ}
    {h : Handle} (hx : x st = .ok h st') : h ∈ (making x args st).flatMap Event.made := by
  rw [making, hx]
  exact List.mem_singleton_self h

/-- What is made afterwards is made. -/
theorem mem_made_andThen {ε σ α : Type} {x : EStateM ε σ α} {first : Record σ}
    {next : α → Record σ} {st st' : σ} {a : α} (hx : x st = .ok a st') {h : Handle}
    (hh : h ∈ (next a st').flatMap Event.made) :
    h ∈ (andThen x first next st).flatMap Event.made := by
  rw [andThen, hx, List.flatMap_append]
  exact List.mem_append_right _ hh

/-- The root of a snapshot is recorded with the nodes below it. -/
theorem mem_made_rebuild {n : Nat} {t : Snapshot} {s s' : Store} {h : Handle}
    (ht : Store.rebuild n t s = .ok h s') : h ∈ (rebuild n t s).flatMap Event.made := by
  cases n with
  | zero => cases ht
  | succ n =>
    obtain ⟨name, values, children, notes⟩ := t
    obtain ⟨k, vs, cs, s₁, hk, hvs, hcs, hmake⟩ := Store.rebuild_succ_eq_ok ht
    -- the node that is returned is made over the children, and gets its notes after that
    obtain ⟨r, s₂, hr, hnotes⟩ := Store.bind_eq_ok_iff.mp hmake
    obtain ⟨u, s₃, -, hpure⟩ := Store.bind_eq_ok_iff.mp hnotes
    cases hpure
    simp only [rebuild, hk, hvs]
    exact mem_made_andThen hcs (mem_made_making hr)

/-- The node that reading returns is made in its last turn. -/
theorem mem_made_turn {frames : List Wire.Frame} {data rest : List UInt8} {s s' : Store}
    {h : Handle} (hstep : Wire.step frames data s = .ok (.done h rest) s') :
    h ∈ (turn frames s).flatMap Event.made := by
  have hmoves := Wire.moves_step frames data s
  generalize Wire.step frames data s = r at hstep hmoves
  cases hmoves with
  | stops => cases hstep
  | enters => cases hstep
  | fills => cases hstep
  | @makes f outer _ complete =>
    obtain ⟨x, s₁, hx, hdeliver⟩ := Store.bind_eq_ok_iff.mp hstep
    cases outer with
    | cons g outer => cases hdeliver
    | nil =>
      -- with no frame around, the node that was made is the result
      cases hdeliver
      rw [turn, if_pos complete]
      unfold Wire.Frame.make at hx
      split at hx
      · cases hx
      · next y s₂ hy =>
        split at hx
        · cases hx
        · cases hx
          exact mem_made_making hy

/-- The root that reading returns was made in one of its turns. -/
theorem mem_made_readFrames {frames : List Wire.Frame} {data rest : List UInt8} {s s' : Store}
    {h : Handle} (hread : Wire.readFrames frames data s = .ok (h, rest) s') :
    h ∈ (readFrames frames data s).flatMap Event.made := by
  induction frames, data, s using Wire.readFrames_induction with
  | turn frames data s ih =>
    rw [Wire.readFrames_eq_step] at hread
    obtain ⟨progress, s₁, hstep, hproceed⟩ := Store.bind_eq_ok_iff.mp hread
    rw [readFrames_eq]
    cases progress with
    | more frames' data' => exact mem_made_andThen hstep (ih frames' data' s₁ hstep hproceed)
    | done root rest =>
      cases hproceed
      rw [andThen, List.flatMap_append]
      exact List.mem_append_left _ (mem_made_turn hstep)

/-- So the root of a decoded tree was made on the way. -/
theorem mem_made_decode {data : List UInt8} {s s' : Store} {h : Handle}
    (hdecode : Store.decode data s = .ok h s') : h ∈ (decode data s).flatMap Event.made := by
  unfold Store.decode at hdecode
  unfold decode
  cases hpreamble : Wire.readPreamble data with
  | error e =>
    rw [hpreamble] at hdecode
    cases hdecode
  | ok p =>
    rw [hpreamble] at hdecode
    dsimp only at hdecode ⊢
    cases hheader : Wire.readHeader s.schema p.2 with
    | error e =>
      rw [hheader] at hdecode
      cases hdecode
    | ok q =>
      rw [hheader] at hdecode
      dsimp only at hdecode ⊢
      cases hread : Wire.readFrames [q.1] q.2 s with
      | error e s₁ =>
        rw [hread] at hdecode
        cases hdecode
      | ok r s₁ =>
        rw [hread] at hdecode
        dsimp only at hdecode
        by_cases hrest : r.2.isEmpty = true
        · rw [if_pos hrest] at hdecode
          cases hdecode
          exact mem_made_readFrames hread
        · rw [if_neg hrest] at hdecode
          cases hdecode

/-! ### What is not reclaimed -/

/-- Nothing is taken away by what is recorded. -/
def ReclaimsNothing {σ : Type} (record : Record σ) : Prop :=
  ∀ st, (record st).flatMap Event.reclaimed = []

theorem reclaimsNothing_nil {σ : Type} : ReclaimsNothing fun _ : σ => [] := fun _ => rfl

/-- What makes a node reclaims none. -/
theorem reclaimsNothing_making {ε σ : Type} (x : EStateM ε σ Handle) (args : List Filling) :
    ReclaimsNothing (making x args) := by
  intro st
  rw [making]
  cases x st <;> rfl

/-- Two steps reclaim nothing if neither of them does. -/
theorem ReclaimsNothing.andThen {ε σ α : Type} {x : EStateM ε σ α} {first : Record σ}
    {next : α → Record σ} (hfirst : ReclaimsNothing first)
    (hnext : ∀ a, ReclaimsNothing (next a)) : ReclaimsNothing (andThen x first next) := by
  intro st
  rw [Record.andThen, List.flatMap_append, hfirst st, List.nil_append]
  cases x st with
  | ok a st' => exact hnext a st'
  | error e st' => rfl

section

variable {restore : Snapshot → Edit Handle} {record : Snapshot → Record Store}
  (hrecord : ∀ t, ReclaimsNothing (record t))
include hrecord

/-- Restoring several snapshots reclaims nothing if restoring each of them does not. -/
theorem reclaimsNothing_restoreAll (ts : List Snapshot) :
    ReclaimsNothing (restoreAll restore record ts) := by
  induction ts with
  | nil => exact reclaimsNothing_nil
  | cons t ts ih => exact (hrecord t).andThen fun _ => ih

/-- So it is for the content of a slot. -/
theorem reclaimsNothing_restoreChild (c : Snapshot.Child) :
    ReclaimsNothing (restoreChild restore record c) := by
  cases c with
  | absent => exact reclaimsNothing_nil
  | node t => exact hrecord t
  | list ts => exact reclaimsNothing_restoreAll hrecord ts

/-- And for the contents of all slots. -/
theorem reclaimsNothing_placeChildren (kind : Kind) (children : List (String × Snapshot.Child)) :
    ReclaimsNothing (placeChildren restore record kind children) := by
  induction children with
  | nil => exact reclaimsNothing_nil
  | cons entry rest ih =>
    rw [placeChildren]
    split
    · exact (reclaimsNothing_restoreChild hrecord entry.2).andThen fun _ => ih
    · exact reclaimsNothing_nil

end

/-- Restoring a snapshot takes no node away, wherever it stops. -/
theorem reclaimsNothing_rebuild (n : Nat) (t : Snapshot) : ReclaimsNothing (rebuild n t) := by
  induction n generalizing t with
  | zero => exact reclaimsNothing_nil
  | succ n ih =>
    obtain ⟨name, values, children, notes⟩ := t
    intro s
    rw [rebuild]
    cases s.schema.kindByName? name with
    | none => rfl
    | some k =>
      dsimp only
      cases Store.placeValues (s.schema.kind k) values
          (List.replicate (s.schema.kind k).values.length (.value .null)) with
      | error e => rfl
      | ok vs =>
        exact (reclaimsNothing_placeChildren ih _ children).andThen
          (fun _ => reclaimsNothing_making _ _) s

/-- No turn of reading reclaims a node. -/
theorem reclaimsNothing_turn (frames : List Wire.Frame) : ReclaimsNothing (turn frames) := by
  intro s
  cases frames with
  | nil => rfl
  | cons f outer =>
    rw [turn]
    split
    · exact reclaimsNothing_making _ _ s
    · rfl

/-- Nor do all of them. -/
theorem reclaimed_readFrames (frames : List Wire.Frame) (data : List UInt8) (s : Store) :
    (readFrames frames data s).flatMap Event.reclaimed = [] := by
  induction frames, data, s using Wire.readFrames_induction with
  | turn frames data s ih =>
    rw [readFrames_eq, andThen, List.flatMap_append, reclaimsNothing_turn frames s,
      List.nil_append]
    cases hstep : Wire.step frames data s with
    | error e s' => rfl
    | ok progress s' =>
      cases progress with
      | more frames' data' => exact ih frames' data' s' hstep
      | done root rest => rfl

/-- Nor does decoding. -/
theorem reclaimsNothing_decode (data : List UInt8) : ReclaimsNothing (decode data) := by
  intro s
  rw [decode]
  cases Wire.readPreamble data with
  | error e => rfl
  | ok p =>
    dsimp only
    cases Wire.readHeader s.schema p.2 with
    | error e => rfl
    | ok q => exact reclaimed_readFrames [q.1] q.2 s

end Record

end TypedForest
