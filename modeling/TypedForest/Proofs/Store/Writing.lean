import TypedForest.Proofs.Revision.Relinking
import TypedForest.Proofs.Store.Slots

namespace TypedForest

/-!
# What making a node and writing to a slot do

Both are all or nothing.  Whether they succeed can be told from the arguments, the schema and the
nodes that are there; what they do is to put the arguments into slots and to make the node the
parent of the nodes among them.

* `Store.put` : the store with something else in a slot;
* `Store.set_of_node?`, `Store.WellFormed.set_eq_ok_iff` : writing by name is putting something at
  a place, if it suits the slot;
* `Store.Made`, `Store.Written` : all that is different after a node was made, and after a slot was
  written to;
* `Store.WritesExactly` : the laws of both operations in a store;
* `Store.Reachable.writesExactly` : they hold in every store.
-/

namespace Node

/-- The node with something else in the slot at a place. -/
def write (n : Node) (i : Nat) : Filling → Node
  | .value v => { n with values := n.values.set i v }
  | .one node => { n with children := n.children.set (i - n.values.length) (.one node) }
  | .many nodes => { n with children := n.children.set (i - n.values.length) (.many nodes) }

variable (n : Node) (i : Nat)

/-- Nodes go into the children, whose slots come after those for values. -/
theorem write_toFilling (c : Content) :
    n.write i c.toFilling = { n with children := n.children.set (i - n.values.length) c } := by
  cases c <;> rfl

/-- Writing does not touch anything but slots. -/
@[simp] theorem kind_write (f : Filling) : (n.write i f).kind = n.kind := by
  cases f <;> rfl

@[simp] theorem notes_write (f : Filling) : (n.write i f).notes = n.notes := by
  cases f <;> rfl

@[simp] theorem parent_write (f : Filling) : (n.write i f).parent = n.parent := by
  cases f <;> rfl

/-- The sort of slot at a place of a node is the one that a filling is for. -/
def Takes (n : Node) (i : Nat) : Filling → Prop
  | .value _ => i < n.values.length
  | .one _ => n.values.length ≤ i
  | .many _ => n.values.length ≤ i

variable {n i}

/-- A write to a slot is seen in that place of the row. -/
theorem fillings_write {f : Filling} (hf : n.Takes i f) :
    (n.write i f).fillings = n.fillings.set i f := by
  have hchild : ∀ c : Content, n.values.length ≤ i →
      (n.write i c.toFilling).fillings = n.fillings.set i c.toFilling := by
    intro c hi
    rw [write_toFilling, fillings, fillings, List.set_append_right _ _ (by rwa [List.length_map]),
      List.length_map, List.map_set]
  cases f with
  | value v =>
    rw [write, fillings, fillings, List.set_append_left _ _ (by rw [List.length_map]; exact hf),
      List.map_set]
  | one node => exact hchild (.one node) hf
  | many nodes => exact hchild (.many nodes) hf

/-- What is in a node has the sort of its slot. -/
theorem takes_of_getElem? {f : Filling} (hf : n.fillings[i]? = some f) : n.Takes i f := by
  rw [fillings] at hf
  by_cases hi : i < n.values.length
  · rw [getElem?_row_left hi] at hf
    obtain ⟨v, -, rfl⟩ := Option.map_eq_some_iff.mp hf
    exact hi
  · have hle := Nat.le_of_not_lt hi
    rw [getElem?_row_right hle] at hf
    obtain ⟨c, -, rfl⟩ := Option.map_eq_some_iff.mp hf
    cases c <;> exact hle

/-- A node is known from its slots and the rest of it. -/
theorem eq_of_fillings {m : Node} (hvalues : m.values.length = n.values.length)
    (hfillings : m.fillings = n.fillings) (hkind : m.kind = n.kind) (hnotes : m.notes = n.notes)
    (hparent : m.parent = n.parent) : m = n := by
  obtain ⟨hvs, hcs⟩ := List.append_inj hfillings (by simpa using hvalues)
  have hvs' : m.values = n.values := by
    refine List.map_injective_iff.mpr (fun v w hvw => ?_) hvs
    cases hvw
    rfl
  have hcs' := Content.toFilling_injective.list_map hcs
  cases m
  cases n
  simp_all

/-- A write does not change how many values there are. -/
theorem length_values_write (f : Filling) : (n.write i f).values.length = n.values.length := by
  cases f <;> simp [write]

/-- Writing what is there changes nothing. -/
theorem write_self {f : Filling} (hf : n.fillings[i]? = some f) : n.write i f = n := by
  refine eq_of_fillings (length_values_write f) ?_ (kind_write _ _ _) (notes_write _ _ _)
    (parent_write _ _ _)
  rw [fillings_write (takes_of_getElem? hf)]
  obtain ⟨hi, rfl⟩ := List.getElem?_eq_some_iff.mp hf
  rw [List.set_getElem_self]

/-- What was written first is gone. -/
theorem write_write {f g : Filling} (hf : n.Takes i f) (hg : n.Takes i g) :
    (n.write i f).write i g = n.write i g := by
  have hg' : (n.write i f).Takes i g := by
    cases g <;> simpa [Takes, length_values_write] using hg
  refine eq_of_fillings ?_ ?_ (by simp) (by simp) (by simp)
  · simp only [length_values_write]
  · rw [fillings_write hg', fillings_write hf, fillings_write hg, List.set_set]

end Node

namespace Store

/-! ### Writing to a slot -/

/-- The store with something else in the slot at a place, and the node as the parent of the nodes
    that were put there. -/
def put (s : Store) (h : Handle) (i : Nat) (arg : Filling) : Store :=
  (s.modifyNode h fun n => n.write i arg).adopt h arg.nodes

/-- Writing to a slot by its name puts what suits the slot at its place, and else does nothing. -/
theorem set_of_node? {s : Store} {h : Handle} {n : Node} (hn : s.node? h = some n)
    (hall : s.HasAll n) (name : String) (arg : Filling) :
    match (s.schema.kind n.kind).slotIndex? name with
    | some i => ∃ slot, (s.schema.kind n.kind).slots[i]? = some slot ∧
      (s.Suits slot arg ∧ set h name arg s = .ok () (s.put h i arg) ∨
        ¬ s.Suits slot arg ∧ ∃ e, set h name arg s = .error e s)
    | none => set h name arg s = .error (s.unknownSlot n.kind name .either) s := by
  have hkind : s.kindOf h = .ok n.kind := kindOf_eq_ok_iff.mpr ⟨n, hn, rfl⟩
  rw [Kind.slotIndex?_eq]
  simp only [set, hkind]
  cases hv : (s.schema.kind n.kind).valueIndex? name with
  | some i =>
    obtain ⟨hi, -⟩ := List.findIdx?_eq_some_iff_getElem.mp hv
    have hslot := List.getElem?_eq_getElem hi
    refine ⟨.value (s.schema.kind n.kind).values[i], ?_, ?_⟩
    · rw [Kind.slots, getElem?_row_left hi, hslot, Option.map_some]
    · simp only [setValueAt, hkind, hslot, suits_value_iff]
      -- the check decides, and lets just the suitable values through
      cases hcheck : s.checkValue (s.schema.kind n.kind).values[i] arg with
      | error e => exact .inr ⟨by simp, e, rfl⟩
      | ok v =>
        obtain ⟨rfl, -⟩ := checkValue_eq_ok_iff.mp hcheck
        exact .inl ⟨⟨v, rfl⟩, rfl⟩
  | none =>
    cases hc : (s.schema.kind n.kind).childIndex? name with
    | some j =>
      obtain ⟨hj, -⟩ := List.findIdx?_eq_some_iff_getElem.mp hc
      have hslot := List.getElem?_eq_getElem hj
      refine ⟨.child (s.schema.kind n.kind).children[j], ?_, ?_⟩
      · rw [Kind.slots, getElem?_row_right (Nat.le_add_left _ _), Nat.add_sub_cancel, hslot,
          Option.map_some]
      · simp only [setChildAt, hkind, hslot, suits_child_iff]
        cases hcheck : s.checkChild (s.schema.kind n.kind).children[j] arg with
        | error e => exact .inr ⟨by simp, e, rfl⟩
        | ok c =>
          refine .inl ⟨⟨c, rfl⟩, ?_⟩
          obtain ⟨rfl, -⟩ := checkChild_eq_ok_iff.mp hcheck
          -- the place among the child slots, and the place in the whole row
          have hwrite : (s.modifyNode h fun n => { n with children := n.children.set j c })
              = s.modifyNode h fun m =>
                m.write (j + (s.schema.kind n.kind).values.length) c.toFilling := by
            refine modifyNode_congr fun m hm => ?_
            obtain rfl : n = m := Option.some.inj (hn.symm.trans hm)
            rw [Node.write_toFilling, hall.values, Nat.add_sub_cancel]
          rw [put, ← hwrite, Content.nodes_toFilling]
    | none => rfl

/-- What suits a slot of a node has its sort. -/
theorem Suits.takes {s : Store} {n : Node} (hall : s.HasAll n) {i : Nat} {slot : Slot}
    (hslot : (s.schema.kind n.kind).slots[i]? = some slot) {f : Filling} (hf : s.Suits slot f) :
    n.Takes i f := by
  rw [Kind.slots] at hslot
  by_cases hi : i < n.values.length
  · rw [getElem?_row_left (by rwa [hall.values])] at hslot
    obtain ⟨t, -, rfl⟩ := Option.map_eq_some_iff.mp hslot
    obtain ⟨v, hv⟩ := suits_value_iff.mp hf
    obtain ⟨rfl, -⟩ := checkValue_eq_ok_iff.mp hv
    exact hi
  · have hle := Nat.le_of_not_lt hi
    rw [getElem?_row_right (by rwa [hall.values])] at hslot
    obtain ⟨t, -, rfl⟩ := Option.map_eq_some_iff.mp hslot
    obtain ⟨c, hc⟩ := suits_child_iff.mp hf
    obtain ⟨rfl, -⟩ := checkChild_eq_ok_iff.mp hc
    cases c <;> exact hle

/-- After a write the node has the new filling, and the nodes in it have a new parent. -/
theorem node?_put (s : Store) (h : Handle) (i : Nat) (arg : Filling) (x : Handle) :
    (s.put h i arg).node? x = ((s.node? x).map fun n => if x = h then n.write i arg else n).map
      fun n => if x ∈ arg.nodes then { n with parent := some h } else n := by
  rw [put, node?_adopt, node?_modifyNode]
  by_cases hx : x = h
  · simp only [if_pos hx]
  · simp only [if_neg hx, Option.map_id']

@[simp] theorem schema_put (s : Store) (h : Handle) (i : Nat) (arg : Filling) :
    (s.put h i arg).schema = s.schema := by
  rw [put, schema_adopt, schema_modifyNode]

/-- Writing succeeds for what suits the slot of that name of a live node. -/
theorem WellFormed.set_eq_ok_iff {s s' : Store} (hs : s.WellFormed) {h : Handle} {name : String}
    {arg : Filling} : Store.set h name arg s = .ok () s' ↔
      ∃ n i slot, s.node? h = some n ∧ (s.schema.kind n.kind).slotIndex? name = some i ∧
        (s.schema.kind n.kind).slots[i]? = some slot ∧ s.Suits slot arg ∧ s' = s.put h i arg := by
  constructor
  · intro hset
    -- only a live handle is written to
    obtain ⟨n, hn⟩ : ∃ n, s.node? h = some n := by
      cases hkind : s.kindOf h with
      | error e =>
        simp only [Store.set, hkind] at hset
        cases hset
      | ok k =>
        obtain ⟨n, hn, -⟩ := kindOf_eq_ok_iff.mp hkind
        exact ⟨n, hn⟩
    have hcases := set_of_node? hn (hs.nodes h n hn).hasAll name arg
    cases hi : (s.schema.kind n.kind).slotIndex? name with
    | none =>
      rw [hi] at hcases
      rw [hset] at hcases
      cases hcases
    | some i =>
      rw [hi] at hcases
      obtain ⟨slot, hslot, ⟨hsuits, hok⟩ | ⟨-, e, herror⟩⟩ := hcases
      · rw [hset] at hok
        cases hok
        exact ⟨n, i, slot, hn, hi, hslot, hsuits, rfl⟩
      · rw [hset] at herror
        cases herror
  · rintro ⟨n, i, slot, hn, hi, hslot, hsuits, rfl⟩
    have hcases := set_of_node? hn (hs.nodes h n hn).hasAll name arg
    rw [hi] at hcases
    obtain ⟨slot', hslot', ⟨-, hok⟩ | ⟨hnot, -⟩⟩ := hcases
    · exact hok
    · exact absurd (Option.some.inj (hslot.symm.trans hslot') ▸ hsuits) hnot

/-! ### The laws -/

/-- All that is different after a node was made. -/
structure Made (s : Store) (k : KindId) (args : List Filling) (h : Handle) (s' : Store) : Prop where
  fresh : s.isAlive h = false
  node : ∃ n, s'.node? h = some n ∧ n.kind = k ∧ n.notes = Notes.empty ∧ n.parent = none
  slots : ∀ (i : Nat) (slot : Slot), (s.schema.kind k).slots[i]? = some slot →
    s'.slot h slot.name = .ok (args[i]?.getD slot.vacant)
  others : ∀ x, x ≠ h → s'.node? x = (s.node? x).map fun n =>
    if x ∈ args.flatMap Filling.nodes then { n with parent := some h } else n
  live : s'.live = s.live + 1
  schema : s'.schema = s.schema

/-- All that is different after a slot of `h` was written to. -/
structure Written (s : Store) (h : Handle) (name : String) (arg : Filling) (s' : Store) :
    Prop where
  slot : s'.slot h name = .ok arg
  slots : ∀ other, other ≠ name → s'.slot h other = s.slot h other
  node : ∃ n n', s.node? h = some n ∧ s'.node? h = some n' ∧ n'.kind = n.kind ∧
    n'.notes = n.notes ∧ n'.parent = if h ∈ arg.nodes then some h else n.parent
  others : ∀ x, x ≠ h → s'.node? x = (s.node? x).map fun n =>
    if x ∈ arg.nodes then { n with parent := some h } else n
  live : s'.live = s.live
  schema : s'.schema = s.schema

/-- What making nodes and writing to slots do in a store.

    A node is made exactly if there is room and all fillings suit their slots; a slot is written to
    exactly if it is one of a live node and the filling suits it.  Otherwise nothing changes.
    Writing back what is read sets parents at most, and of two writes to a slot only the second
    counts, but for the parents of nodes that were in the first. -/
structure WritesExactly (s : Store) : Prop where
  construct_iff : ∀ k args, (∃ h s', construct k args s = .ok h s') ↔
    s.live < maxNodes ∧ s.SuitsAll k args
  construct_full : ∀ k args, s.SuitsAll k args → maxNodes ≤ s.live →
    construct k args s = .error .storeFull s
  construct_error : ∀ k args e s', construct k args s = .error e s' → s' = s
  construct_ok : ∀ k args h s', construct k args s = .ok h s' → s.Made k args h s'
  set_iff : ∀ h name arg, (∃ s', set h name arg s = .ok () s') ↔
    ∃ n, ∃ slot ∈ (s.schema.kind n.kind).slots, s.node? h = some n ∧ slot.name = name ∧
      s.Suits slot arg
  set_error : ∀ h name arg e s', set h name arg s = .error e s' → s' = s
  set_ok : ∀ h name arg s', set h name arg s = .ok () s' → s.Written h name arg s'
  set_back : ∀ h name f, s.slot h name = .ok f → ∃ s', set h name f s = .ok () s' ∧
    s'.unlinked = s.unlinked ∧ ∀ x, s'.node? x = (s.node? x).map fun n =>
      if x ∈ f.nodes then { n with parent := some h } else n
  set_set : ∀ h name f g s₁ s₂, set h name f s = .ok () s₁ → set h name g s₁ = .ok () s₂ →
    ∃ t, set h name g s = .ok () t ∧ s₂.unlinked = t.unlinked ∧
      ∀ x, x ∉ f.nodes → s₂.node? x = t.node? x

section

variable {s : Store} (hs : s.WellFormed)
include hs

/-- A node is made if there is room and its arguments suit its slots. -/
theorem WellFormed.exists_construct_iff (k : KindId) (args : List Filling) :
    (∃ h s', Store.construct k args s = .ok h s') ↔ s.live < maxNodes ∧ s.SuitsAll k args := by
  simp only [construct_eq_ok_iff, ← exists_fill_iff, ← hs.booked.hasRoom_iff]
  constructor
  · rintro ⟨h, s', n, hfill, hroom, -, -⟩
    exact ⟨hroom, n, hfill⟩
  · rintro ⟨hroom, n, hfill⟩
    exact ⟨_, _, n, hfill, hroom, rfl, rfl⟩

/-- Without room a node with suitable arguments is refused for that reason. -/
theorem WellFormed.construct_eq_storeFull {k : KindId} {args : List Filling}
    (hargs : s.SuitsAll k args) (hfull : maxNodes ≤ s.live) :
    Store.construct k args s = .error .storeFull s := by
  obtain ⟨n, hfill⟩ := exists_fill_iff.mpr hargs
  have hroom : ¬ s.hasRoom = true := by
    rw [hs.booked.hasRoom_iff]
    omega
  simp only [Store.construct, hfill, if_neg hroom]

omit hs in
/-- Arguments that do not suit are refused before notes are looked at. -/
theorem constructAnnotated_of_fill_error {k : KindId} {args : List Filling} {e : NodeError}
    (hfill : s.fill k args = .error e) (notes : List (String × Value)) :
    constructAnnotated k args notes s = .error e s := by
  unfold constructAnnotated
  rw [bind_apply]
  simp only [Store.construct, hfill]

/-- Without room nothing is made, with notes or without. -/
theorem WellFormed.constructAnnotated_eq_storeFull {k : KindId} {args : List Filling} {n : Node}
    (hfill : s.fill k args = .ok n) (hfull : maxNodes ≤ s.live) (notes : List (String × Value)) :
    constructAnnotated k args notes s = .error .storeFull s := by
  unfold constructAnnotated
  rw [bind_apply, hs.construct_eq_storeFull (exists_fill_iff.mp ⟨n, hfill⟩) hfull]

/-- With room a node with suitable arguments is made, with any notes. -/
theorem WellFormed.exists_constructAnnotated {k : KindId} {args : List Filling} {n : Node}
    (hfill : s.fill k args = .ok n) (hroom : s.live < maxNodes) (notes : List (String × Value)) :
    ∃ h s', constructAnnotated k args notes s = .ok h s' := by
  obtain ⟨h, s₁, hc⟩ := (hs.exists_construct_iff k args).mpr
    ⟨hroom, exists_fill_iff.mp ⟨n, hfill⟩⟩
  exact ⟨h, _, constructAnnotated_eq hs.booked.freePlaces hc notes⟩

/-- A node that was made has its arguments in its slots, and nothing else has changed but the
    parents of its children. -/
theorem WellFormed.made (hlawful : s.schema.Lawful) {k : KindId} {args : List Filling} {h : Handle}
    {s' : Store} (hc : Store.construct k args s = .ok h s') : s.Made k args h s' := by
  obtain ⟨n, hfill, -⟩ := construct_eq_ok_iff.mp hc
  obtain ⟨hfresh, hlive, hview⟩ := node?_construct hs.booked.freePlaces hfill hc
  obtain ⟨hkind, hparent, hnotes, hvalues, hchildren⟩ := fill_eq_ok hfill
  have hschema : s'.schema = s.schema := by
    obtain ⟨m, -, -, rfl, rfl⟩ := construct_eq_ok_iff.mp hc
    rw [schema_adopt, schema_insert]
  have hnew : s'.node? h = some n := by rw [hview, if_pos rfl]
  have hall : s'.HasAll n := by
    refine ⟨?_, ?_⟩
    · rw [hschema, hkind, hvalues.length_eq]
    · rw [hschema, hkind, hchildren.length_eq]
  refine ⟨node?_eq_none_iff.mp hfresh, ⟨n, hnew, hkind, hnotes, hparent⟩, fun i slot hslot => ?_,
    fun x hx => ?_, hlive, hschema⟩
  · refine slot_of_index hnew hall (i := i) ?_ ?_
    · rw [hschema, hkind]
      exact Kind.slotIndex?_name (hlawful.slots k) hslot
    · rw [fillings_of_fill hfill, hslot, Option.map_some]
  · rw [hview, if_neg hx, childNodes_of_fill hfill]

/-- After writing the name reads as what was written, and all other names as before. -/
theorem WellFormed.written {h : Handle} {name : String} {arg : Filling} {s' : Store}
    (hset : Store.set h name arg s = .ok () s') : s.Written h name arg s' := by
  obtain ⟨n, i, slot, hn, hi, hslot, hsuits, rfl⟩ := hs.set_eq_ok_iff.mp hset
  have hall := (hs.nodes h n hn).hasAll
  have hwritten := Node.fillings_write (hsuits.takes hall hslot)
  -- the node afterwards, which may be its own child
  obtain ⟨n', hn', hkind, hnotes, hparent, hfillings⟩ : ∃ n', (s.put h i arg).node? h = some n' ∧
      n'.kind = n.kind ∧ n'.notes = n.notes ∧
      n'.parent = (if h ∈ arg.nodes then some h else n.parent) ∧
      n'.fillings = n.fillings.set i arg := by
    rw [node?_put, hn]
    refine ⟨_, rfl, ?_⟩
    simp only [if_true, ← hwritten]
    split <;> simp [Node.fillings]
  have hall' : (s.put h i arg).HasAll n' := by
    have hwf := hs.steps (Steps.set s h name arg)
    rw [after_of_ok hset] at hwf
    exact (hwf.nodes h n' hn').hasAll
  have hindex : ((s.put h i arg).schema.kind n'.kind).slotIndex? name = some i := by
    rw [schema_put, hkind, hi]
  refine ⟨?_, fun other hother => ?_, ⟨n, n', hn, hn', hkind, hnotes, hparent⟩, fun x hx => ?_, ?_,
    schema_put s h i arg⟩
  · refine slot_of_index hn' hall' hindex ?_
    have hlt : i < n.fillings.length := by
      have hslots := (List.getElem?_eq_some_iff.mp hslot).1
      rw [Kind.length_slots, Kind.slotCount, hall.values, hall.children] at hslots
      simpa [Node.fillings] using hslots
    rw [hfillings, List.getElem?_set_self hlt]
  · refine slot_congr (schema_put s h i arg) hn hn' hkind hall hall' fun j hj => ?_
    -- another name has another place
    have hij : i ≠ j := by
      rintro rfl
      obtain ⟨_, hslot₁, hname₁⟩ := Kind.slotIndex?_eq_some hi
      obtain ⟨_, hslot₂, hname₂⟩ := Kind.slotIndex?_eq_some hj
      rw [hslot₁, Option.some.injEq] at hslot₂
      exact hother (by rw [← hname₁, ← hname₂, hslot₂])
    rw [hfillings, List.getElem?_set_ne hij]
  · simp only [node?_put, if_neg hx, Option.map_id']
  · rw [put, live_adopt, live_modifyNode]

/-- What is in a slot can be written back. -/
theorem WellFormed.set_slot {h : Handle} {name : String} {f : Filling}
    (hf : s.slot h name = .ok f) : Store.set h name f s = .ok () (s.adopt h f.nodes) := by
  obtain ⟨n, hn⟩ := exists_node?_of_slot hf
  have hfit := hs.nodes h n hn
  obtain ⟨i, hi, hheld⟩ := index_of_slot hn hfit.hasAll hf
  obtain ⟨slot, hslot, -⟩ := Kind.slotIndex?_eq_some hi
  refine hs.set_eq_ok_iff.mpr ⟨n, i, slot, hn, hi, hslot, hfit.suits hslot hheld, ?_⟩
  rw [put, modifyNode_eq_self fun m hm => ?_]
  obtain rfl : n = m := Option.some.inj (hn.symm.trans hm)
  exact Node.write_self hheld

end

/-- Nothing comes to life by writing, and nothing changes its kind. -/
theorem retains_of_put (s : Store) (h : Handle) (i : Nat) (arg : Filling) :
    Retains (s.put h i arg) s := by
  refine ⟨(schema_put s h i arg).symm, fun x m hm => ?_⟩
  rw [node?_put, Option.map_map] at hm
  obtain ⟨n, hn, rfl⟩ := Option.map_eq_some_iff.mp hm
  refine ⟨n, hn, ?_⟩
  simp only [Function.comp_apply]
  split <;> split <;> simp

/-- Up to parents a write changes one node. -/
theorem unlinked_put (s : Store) (h : Handle) (i : Nat) (arg : Filling) :
    (s.put h i arg).unlinked = s.unlinked.modifyNode h fun n => n.write i arg := by
  rw [put, unlinked_adopt]
  refine unlinked_modifyNode s h fun n => ?_
  cases arg <;> rfl

section

variable {s : Store} {h : Handle} {n : Node} (hn : s.node? h = some n) {i : Nat} {f g : Filling}
  (hf : n.Takes i f) (hg : n.Takes i g)
include hn hf hg

/-- What was put into a slot first is gone. -/
theorem unlinked_put_put : ((s.put h i f).put h i g).unlinked = (s.put h i g).unlinked := by
  rw [unlinked_put, unlinked_put, unlinked_put, modifyNode_modifyNode]
  refine modifyNode_congr fun m hm => ?_
  rw [unlinked_of_node? hn] at hm
  cases hm
  refine Node.write_write ?_ ?_
  · cases f <;> exact hf
  · cases g <;> exact hg

/-- Of two writes to a slot the second one counts, but for the parents of what the first one put
    there. -/
theorem node?_put_put {x : Handle} (hx : x ∉ f.nodes) :
    ((s.put h i f).put h i g).node? x = (s.put h i g).node? x := by
  rw [node?_put, node?_put, node?_put]
  by_cases hxh : x = h
  · subst hxh
    simp [hn, hx, Node.write_write hf hg]
  · simp [hxh, hx]

end

/-- Of two writes to a slot only the second counts. -/
theorem WellFormed.set_twice {s s₁ s₂ : Store} (hs : s.WellFormed) {h : Handle} {name : String}
    {f g : Filling} (hfirst : Store.set h name f s = .ok () s₁)
    (hsecond : Store.set h name g s₁ = .ok () s₂) :
    ∃ t, Store.set h name g s = .ok () t ∧ s₂.unlinked = t.unlinked ∧
      ∀ x, x ∉ f.nodes → s₂.node? x = t.node? x := by
  have hs₁ : s₁.WellFormed := by
    have hwf := hs.steps (Steps.set s h name f)
    rwa [after_of_ok hfirst] at hwf
  obtain ⟨n, i, slot, hn, hi, hslot, hf, rfl⟩ := hs.set_eq_ok_iff.mp hfirst
  obtain ⟨n₁, j, slot₁, hn₁, hj, hslot₁, hg, rfl⟩ := hs₁.set_eq_ok_iff.mp hsecond
  -- the node has its kind still, so the name stands for the same slot both times
  obtain ⟨n₀, hn₀, hkind⟩ := (retains_of_put s h i f).nodes h n₁ hn₁
  obtain rfl : n = n₀ := Option.some.inj (hn.symm.trans hn₀)
  rw [schema_put, ← hkind] at hj hslot₁
  obtain rfl : i = j := Option.some.inj (hi.symm.trans hj)
  obtain rfl : slot = slot₁ := Option.some.inj (hslot.symm.trans hslot₁)
  have hg' := hg.retain (retains_of_put s h i f)
  have hall := (hs.nodes h n hn).hasAll
  have htakes := hf.takes hall hslot
  have htakes' := hg'.takes hall hslot
  exact ⟨_, hs.set_eq_ok_iff.mpr ⟨n, i, slot, hn, hi, hslot, hg', rfl⟩,
    unlinked_put_put hn htakes htakes', fun x hx => node?_put_put hn htakes htakes' hx⟩

/-- **Making nodes and writing to slots.**  In every store both operations are all or nothing, and
    what they do is known exactly. -/
theorem Reachable.writesExactly {schema : Schema} {s : Store} (hbuilt : schema.Built)
    (hs : Reachable schema s) : s.WritesExactly where
  construct_iff := hs.wellFormed_store.exists_construct_iff
  construct_full := fun _ _ => hs.wellFormed_store.construct_eq_storeFull
  construct_error := fun _ _ _ _ => construct_eq_error
  construct_ok := fun _ _ _ _ => hs.wellFormed_store.made (hs.lawful hbuilt)
  set_iff := fun h name arg => by
    have hwf := hs.wellFormed_store
    simp only [hwf.set_eq_ok_iff]
    constructor
    · rintro ⟨-, n, i, slot, hn, hi, hslot, hsuits, -⟩
      obtain ⟨slot', hslot', hname⟩ := Kind.slotIndex?_eq_some hi
      obtain rfl : slot = slot' := Option.some.inj (hslot.symm.trans hslot')
      exact ⟨n, slot, List.mem_of_getElem? hslot, hn, hname, hsuits⟩
    · rintro ⟨n, slot, hmem, hn, rfl, hsuits⟩
      obtain ⟨i, hslot⟩ := List.getElem?_of_mem hmem
      have hi := Kind.slotIndex?_name ((hs.lawful hbuilt).slots n.kind) hslot
      exact ⟨_, n, i, slot, hn, hi, hslot, hsuits, rfl⟩
  set_error := fun _ _ _ _ _ => set_eq_error
  set_ok := fun _ _ _ _ => hs.wellFormed_store.written
  set_back := fun h _ f hf => ⟨_, hs.wellFormed_store.set_slot hf, unlinked_adopt s h f.nodes,
    node?_adopt s h f.nodes⟩
  set_set := fun _ _ _ _ _ _ => hs.wellFormed_store.set_twice

end Store

namespace Sample

/-- The group of `shared` becomes its own next item. -/
def looped : Store := after (Store.set ⟨1, 0⟩ "next" (.one (some ⟨1, 0⟩))) shared

/-- It may, and is its own parent then; the item that it had there before keeps the group as its
    parent.  A group without nodes cannot be made of a vacant slot in the place of its label. -/
theorem writesExactly_shared :
    Store.set ⟨1, 0⟩ "next" (.one (some ⟨1, 0⟩)) shared = .ok () looped ∧
      shared.Written ⟨1, 0⟩ "next" (.one (some ⟨1, 0⟩)) looped ∧
      looped.parent ⟨1, 0⟩ = .ok (some ⟨1, 0⟩) ∧ ¬ shared.SuitsAll ⟨1⟩ [.one none] := by
  have hwrites := Store.Reachable.writesExactly built ⟨[], run_shared⟩
  have hset : Store.set ⟨1, 0⟩ "next" (.one (some ⟨1, 0⟩)) shared = .ok () looped := by
    decide +kernel
  refine ⟨hset, hwrites.set_ok _ _ _ _ hset, by decide +kernel, fun hsuits => ?_⟩
  obtain ⟨h, t, hmade⟩ := (hwrites.construct_iff _ _).mpr ⟨by decide +kernel, hsuits⟩
  have hrefused : Store.construct ⟨1⟩ [.one none] shared
      = .error (.typeMismatch "label" (.value .str) .noNode) shared := by decide +kernel
  rw [hrefused] at hmade
  cases hmade

end Sample

end TypedForest
