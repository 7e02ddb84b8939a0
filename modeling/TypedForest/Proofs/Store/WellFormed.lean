import Mathlib.Data.Bool.Count
import Mathlib.Data.List.Forall2
import Mathlib.Data.List.Induction
import Mathlib.Data.List.Nodup
import TypedForest.Proofs.Store.View

namespace TypedForest

/-!
# Well-formed stores

`Store.WellFormed` is the invariant of the store.  Its bookkeeping half counts the nodes and
lists the free places; its typing half says that every node fits its kind: the values are of
the types of the value slots, the contents of the child slots have their shape and consist of
live nodes of the right kind, and the parent, if there is one, is alive.

The checks of `Store.checkValue`, `Store.checkChild` and `Store.fill` are shown to establish
the typing half, and the basic writes are shown to keep both.  A write that takes no node away
and changes no kind leaves all other nodes fitting (`Store.Conforms.retain`).
-/

/-- Replacing an item by one that fits the slot at its place keeps a row fitting. -/
theorem forall₂_set {α β : Type} {R : α → β → Prop} {as : List α} {bs : List β}
    (h : List.Forall₂ R as bs) {i : Nat} {a : α} {b : β} (ha : as[i]? = some a) (hab : R a b) :
    List.Forall₂ R as (bs.set i b) := by
  induction h generalizing i with
  | nil => exact .nil
  | cons hhead htail ih =>
    cases i with
    | zero =>
      rw [List.getElem?_cons_zero, Option.some.injEq] at ha
      exact .cons (ha ▸ hab) htail
    | succ i => exact .cons hhead (ih (by simpa using ha))

/-- Whether contents are a list of nodes. -/
def Content.isMany : Content → Bool
  | one _ => false
  | many _ => true

/-- The nodes of a filling. -/
def Filling.nodes : Filling → List Handle
  | .value _ => []
  | .one node => node.toList
  | .many nodes => nodes

@[simp] theorem Content.nodes_toFilling (c : Content) : c.toFilling.nodes = c.nodes := by
  cases c <;> rfl

/-- A content is told by its filling. -/
theorem Content.toFilling_injective : Function.Injective Content.toFilling := by
  intro c d h
  cases c <;> cases d <;> cases h <;> rfl

namespace Store

/-! ### Fitting a kind -/

/-- A child slot may hold contents of its shape whose nodes are alive and of the kind of the
    slot or one that derives from it. -/
structure Admits (s : Store) (slot : ChildSlot) (c : Content) : Prop where
  shape : c.isMany = slot.type.isMany
  nodes : ∀ h ∈ c.nodes,
    ∃ n, s.node? h = some n ∧ s.schema.isSubkind n.kind slot.type.kind = true

/-- A node fits its kind: one value for each value slot, of its type, one content for each
    child slot, and no parent that is gone. -/
structure Conforms (s : Store) (n : Node) : Prop where
  kind : n.kind.index < s.schema.size
  values : List.Forall₂ (fun slot v => slot.type.accepts v = true)
    (s.schema.kind n.kind).values n.values
  children : List.Forall₂ s.Admits (s.schema.kind n.kind).children n.children
  parent : ∀ p, n.parent = some p → s.isAlive p = true

/-- The invariant of the store: `live` counts the places that hold a node, the free list has
    no duplicates and lists exactly the places without a node, no more places are in use than
    there can be, and every node fits its kind. -/
structure WellFormed (s : Store) : Prop where
  size : s.entries.size ≤ maxNodes
  live : s.live = s.entries.countP fun e => e.node.isSome
  nodup : s.free.Nodup
  free : ∀ i, i ∈ s.free ↔ ∃ e, s.entries[i]? = some e ∧ e.node = none
  nodes : ∀ h n, s.node? h = some n → s.Conforms n

/-- Everything alive in `s` is alive in `s'`, with the same kind. -/
structure Retains (s s' : Store) : Prop where
  schema : s'.schema = s.schema
  nodes : ∀ h n, s.node? h = some n → ∃ n', s'.node? h = some n' ∧ n'.kind = n.kind

/-- What is retained twice is retained. -/
theorem Retains.trans {s t u : Store} (hst : Retains s t) (htu : Retains t u) : Retains s u := by
  refine ⟨htu.schema.trans hst.schema, fun h n hn => ?_⟩
  obtain ⟨m, hm, hmn⟩ := hst.nodes h n hn
  obtain ⟨o, ho, hom⟩ := htu.nodes h m hm
  exact ⟨o, ho, hom.trans hmn⟩

/-- What is retained stays alive. -/
theorem Retains.isAlive {s s' : Store} (hr : Retains s s') {h : Handle}
    (hh : s.isAlive h = true) : s'.isAlive h = true := by
  obtain ⟨n, hn⟩ := isAlive_iff.mp hh
  obtain ⟨n', hn', -⟩ := hr.nodes h n hn
  exact isAlive_of_node? hn'

/-- A content that is admitted stays so while nodes keep their kinds. -/
theorem Admits.retain {s s' : Store} (hr : Retains s s') {slot : ChildSlot} {c : Content}
    (hc : s.Admits slot c) : s'.Admits slot c := by
  refine ⟨hc.shape, fun h hh => ?_⟩
  obtain ⟨n, hn, hsub⟩ := hc.nodes h hh
  obtain ⟨n', hn', hk⟩ := hr.nodes h n hn
  exact ⟨n', hn', by rw [hr.schema, hk]; exact hsub⟩

/-- A node goes on fitting when nothing goes away. -/
theorem Conforms.retain {s s' : Store} (hr : Retains s s') {n : Node} (hn : s.Conforms n) :
    s'.Conforms n where
  kind := by rw [hr.schema]; exact hn.kind
  values := by rw [hr.schema]; exact hn.values
  children := by
    rw [hr.schema]
    exact hn.children.imp fun _ _ hc => hc.retain hr
  parent := fun p hp => hr.isAlive (hn.parent p hp)

/-- What is in a slot of a node fits the slot. -/
theorem Conforms.exists_admits {s : Store} {n : Node} (hn : s.Conforms n) {i : Nat} {d : Content}
    (hd : n.children[i]? = some d) :
    ∃ slot, (s.schema.kind n.kind).children[i]? = some slot ∧ s.Admits slot d := by
  obtain ⟨hi, rfl⟩ := List.getElem?_eq_some_iff.mp hd
  have hi' : i < (s.schema.kind n.kind).children.length := by
    rw [hn.children.length_eq]
    exact hi
  exact ⟨_, List.getElem?_eq_getElem hi', (List.forall₂_iff_get.mp hn.children).2 i hi' hi⟩

/-- Every child of a node that fits is alive. -/
theorem Conforms.childNodes {s : Store} {n : Node} (hn : s.Conforms n) {h : Handle}
    (hh : h ∈ n.childNodes) : ∃ m, s.node? h = some m := by
  obtain ⟨c, hc, hhc⟩ := List.mem_flatMap.mp hh
  obtain ⟨i, hi⟩ := List.getElem?_of_mem hc
  obtain ⟨slot, -, hadm⟩ := hn.exists_admits hi
  obtain ⟨m, hm, -⟩ := hadm.nodes h hhc
  exact ⟨m, hm⟩

/-! ### Bookkeeping -/

/-- The bookkeeping half of the invariant, through the occupancy of the places. -/
structure Booked (s : Store) : Prop where
  size : s.entries.size ≤ maxNodes
  live : s.live = s.occupancy.count true
  nodup : s.free.Nodup
  free : ∀ i, i ∈ s.free ↔ s.occupancy[i]? = some false

/-- A place without a node is one that is not taken. -/
theorem mem_free_iff_occupancy {s : Store} {i : Nat} :
    (∃ e, s.entries[i]? = some e ∧ e.node = none) ↔ s.occupancy[i]? = some false := by
  rw [occupancy, Array.getElem?_map, Option.map_eq_some_iff]
  simp

/-- Live nodes are places that are taken. -/
theorem countP_eq_count_occupancy (s : Store) :
    (s.entries.countP fun e => e.node.isSome) = s.occupancy.count true := by
  rw [occupancy, Array.count_eq_countP, Array.countP_map]
  congr 1
  funext e
  simp

/-- A well-formed store keeps its books. -/
theorem WellFormed.booked {s : Store} (hs : s.WellFormed) : s.Booked where
  size := hs.size
  live := hs.live.trans (countP_eq_count_occupancy s)
  nodup := hs.nodup
  free := fun i => (hs.free i).trans mem_free_iff_occupancy

/-- A store with books in order and with proper nodes is well formed. -/
theorem Booked.wellFormed {s : Store} (hs : s.Booked)
    (hn : ∀ h n, s.node? h = some n → s.Conforms n) : s.WellFormed where
  size := hs.size
  live := hs.live.trans (countP_eq_count_occupancy s).symm
  nodup := hs.nodup
  free := fun i => (hs.free i).trans mem_free_iff_occupancy.symm
  nodes := hn

theorem Booked.freePlaces {s : Store} (hs : s.Booked) : s.FreePlaces :=
  fun i hi => (hs.free i).mp hi

/-- The books stay right when no place is filled or emptied. -/
theorem Booked.of_occupancy_eq {s s' : Store} (hs : s.Booked) (hocc : s'.occupancy = s.occupancy)
    (hfree : s'.free = s.free) (hlive : s'.live = s.live) : s'.Booked where
  size := by rw [← size_occupancy, hocc, size_occupancy]; exact hs.size
  live := by rw [hlive, hocc]; exact hs.live
  nodup := by rw [hfree]; exact hs.nodup
  free := by rw [hfree, hocc]; exact hs.free

/-- The places of an array that hold `b` are as many as `b` occurs in it. -/
theorem length_filter_range_eq_count (xs : Array Bool) (b : Bool) :
    ((List.range xs.size).filter fun i => xs[i]? == some b).length = xs.count b := by
  obtain ⟨l⟩ := xs
  simp only [List.size_toArray, List.getElem?_toArray, List.count_toArray]
  induction l using List.reverseRecOn with
  | nil => rfl
  | append_singleton l a ih =>
    have hold : (List.range l.length).filter (fun i => (l ++ [a])[i]? == some b)
        = (List.range l.length).filter fun i => l[i]? == some b := by
      refine List.filter_congr fun i hi => ?_
      rw [List.getElem?_append_left (List.mem_range.mp hi)]
    rw [List.length_append, List.length_singleton, List.range_succ, List.filter_append, hold,
      List.length_append, ih, List.count_append]
    by_cases hab : a = b <;> simp [hab]

/-- The free list is as long as there are places without a node. -/
theorem Booked.length_free {s : Store} (hs : s.Booked) :
    s.free.length = s.occupancy.count false := by
  rw [← length_filter_range_eq_count]
  refine List.Perm.length_eq ?_
  refine (List.perm_ext_iff_of_nodup hs.nodup (List.nodup_range.filter _)).mpr fun i => ?_
  rw [hs.free i, List.mem_filter, List.mem_range, beq_iff_eq]
  exact ⟨fun h => ⟨(Array.getElem?_eq_some_iff.mp h).1, h⟩, fun h => h.2⟩

/-- Places that are full and places that are free add up to all places. -/
theorem Booked.live_add_length_free {s : Store} (hs : s.Booked) :
    s.live + s.free.length = s.entries.size := by
  rw [hs.live, hs.length_free, ← size_occupancy]
  obtain ⟨l, hl⟩ : ∃ l, s.occupancy = ⟨l⟩ := ⟨_, rfl⟩
  rw [hl, List.count_toArray, List.count_toArray, List.size_toArray]
  exact List.count_true_add_count_false l

/-- One more node fits as long as the nodes do not fill the store. -/
theorem Booked.hasRoom_iff {s : Store} (hs : s.Booked) :
    s.hasRoom = true ↔ s.live < maxNodes := by
  have hsum := hs.live_add_length_free
  have hsize := hs.size
  unfold hasRoom
  cases hfree : s.free with
  | nil =>
    rw [hfree, List.length_nil] at hsum
    simp only [List.isEmpty_nil, Bool.not_true, Bool.false_or, decide_eq_true_eq]
    omega
  | cons i rest =>
    rw [hfree, List.length_cons] at hsum
    simp only [List.isEmpty_cons, Bool.not_false, Bool.true_or, true_iff]
    omega

/-- A new node is entered in the books. -/
theorem Booked.insert {s : Store} (hs : s.Booked) (hroom : s.hasRoom = true) (n : Node) :
    (s.insert n).2.Booked := by
  unfold Store.insert
  split
  · next i rest hfree =>
    have hi : s.occupancy[i]? = some false := (hs.free i).mp (hfree ▸ List.mem_cons_self)
    obtain ⟨hlt, hget⟩ := Array.getElem?_eq_some_iff.mp hi
    -- a free place is taken
    have hocc : (s.entries.modify i fun e => { e with node := some n }).map
        (fun e => e.node.isSome) = s.occupancy.set i true hlt := by
      apply Array.ext_getElem?
      intro j
      rw [Array.getElem?_map, Array.getElem?_modify, Array.getElem?_set, occupancy,
        Array.getElem?_map]
      by_cases hij : i = j
      · have hj : j < s.entries.size := by rw [← size_occupancy, ← hij]; exact hlt
        simp [hij, hj]
      · simp [hij]
    have hnodup : (i :: rest).Nodup := hfree ▸ hs.nodup
    refine ⟨?_, ?_, (List.nodup_cons.mp hnodup).2, fun j => ?_⟩
    · simpa using hs.size
    · show s.live + 1 = Array.count true (Array.map _ _)
      rw [hocc, Array.count_set, hget, hs.live]
      rfl
    · show j ∈ rest ↔ (Array.map _ _)[j]? = some false
      rw [hocc, Array.getElem?_set]
      by_cases hij : i = j
      · subst hij
        simp [(List.nodup_cons.mp hnodup).1]
      · rw [if_neg hij, ← hs.free j, hfree, List.mem_cons]
        simp [Ne.symm hij]
  · next hfree =>
    have hocc : (s.entries.push ⟨0, some n⟩).map (fun e => e.node.isSome)
        = s.occupancy.push true := by
      rw [Array.map_push]
      rfl
    have hlt : s.entries.size < maxNodes := by simpa [hasRoom, hfree] using hroom
    refine ⟨?_, ?_, hfree ▸ List.nodup_nil, fun j => ?_⟩
    · rw [Array.size_push]
      exact hlt
    · show s.live + 1 = Array.count true (Array.map _ _)
      rw [hocc, Array.count_push_self, hs.live]
    · show j ∈ s.free ↔ (Array.map _ _)[j]? = some false
      rw [hocc, Array.getElem?_push, hs.free j]
      by_cases hj : j = s.occupancy.size
      · simp [hj]
      · rw [if_neg hj]

/-! ### What the checks establish -/

/-- A value slot lets the values of its type through. -/
theorem checkValue_eq_ok_iff {s : Store} {slot : ValueSlot} {arg : Filling} {v : Value} :
    s.checkValue slot arg = .ok v ↔ arg = .value v ∧ slot.type.accepts v = true := by
  unfold checkValue
  cases arg with
  | value w =>
    by_cases hw : slot.type.accepts w = true
    · simp only [if_pos hw, Except.ok.injEq, Filling.value.injEq]
      exact ⟨fun h => ⟨h, h ▸ hw⟩, fun h => h.1⟩
    · simp only [if_neg hw, Filling.value.injEq, reduceCtorEq, false_iff]
      rintro ⟨rfl, h⟩
      exact hw h
  | one node => simp
  | many nodes => simp

/-- Nodes get through if all of them are alive and of the right kind. -/
theorem checkNodes_eq_ok_iff {s : Store} {slot : ChildSlot} {found : String → Found}
    {hs : List Handle} {u : Unit} :
    s.checkNodes slot found hs = .ok u ↔
      ∀ h ∈ hs, ∃ n, s.node? h = some n ∧ s.schema.isSubkind n.kind slot.type.kind = true := by
  induction hs with
  | nil => simp [checkNodes]
  | cons h hs ih =>
    rw [checkNodes, List.forall_mem_cons]
    cases hn : s.node? h with
    | none => simp
    | some n =>
      by_cases hsub : s.schema.isSubkind n.kind slot.type.kind = true
      · simp [hsub, ih]
      · simp [hsub]

theorem map_checkNodes_eq_ok_iff {s : Store} {slot : ChildSlot} {found : String → Found}
    {hs : List Handle} {c d : Content} :
    (s.checkNodes slot found hs).map (fun _ => c) = .ok d ↔
      c = d ∧ ∀ h ∈ hs, ∃ n, s.node? h = some n ∧
        s.schema.isSubkind n.kind slot.type.kind = true := by
  rw [← @checkNodes_eq_ok_iff s slot found hs ()]
  cases s.checkNodes slot found hs with
  | error e => simp [Except.map]
  | ok u => simp [Except.map]

/-- A child slot lets through what it admits. -/
theorem checkChild_eq_ok_iff {s : Store} {slot : ChildSlot} {arg : Filling} {c : Content} :
    s.checkChild slot arg = .ok c ↔ arg = c.toFilling ∧ s.Admits slot c := by
  unfold checkChild
  split
  · next k node ht =>
    rw [map_checkNodes_eq_ok_iff]
    constructor
    · rintro ⟨rfl, hnodes⟩
      exact ⟨rfl, by rw [ht]; rfl, hnodes⟩
    · rintro ⟨harg, hadm⟩
      cases c with
      | one o => cases harg; exact ⟨rfl, hadm.nodes⟩
      | many nodes => cases harg
  · next k nodes ht =>
    rw [map_checkNodes_eq_ok_iff]
    constructor
    · rintro ⟨rfl, hnodes⟩
      exact ⟨rfl, by rw [ht]; rfl, hnodes⟩
    · rintro ⟨harg, hadm⟩
      cases c with
      | one o => cases harg
      | many nodes => cases harg; exact ⟨rfl, hadm.nodes⟩
  · next hone hmany =>
    -- the filling and the slot differ in shape
    refine ⟨fun h => (nomatch h), ?_⟩
    rintro ⟨rfl, hadm⟩
    have hshape := hadm.shape
    cases c with
    | one o =>
      cases ht : slot.type with
      | one k => exact absurd rfl (hone k o ht)
      | many k => rw [ht] at hshape; cases hshape
    | many nodes =>
      cases ht : slot.type with
      | one k => rw [ht] at hshape; cases hshape
      | many k => exact absurd rfl (hmany k nodes ht)

/-- A vacant slot of either shape is filled as it should be. -/
theorem admits_vacant (s : Store) (slot : ChildSlot) :
    s.Admits slot (Content.vacant slot.type) := by
  cases ht : slot.type with
  | one k => exact ⟨by rw [ht]; rfl, fun h hh => by cases hh⟩
  | many k => exact ⟨by rw [ht]; rfl, fun h hh => by cases hh⟩

/-- Values that filled their slots are of the right types. -/
theorem fillValues_eq_ok {s : Store} {slots : List ValueSlot} {args rest : List Filling}
    {vs : List Value} (h : s.fillValues slots args = .ok (vs, rest)) :
    List.Forall₂ (fun slot v => slot.type.accepts v = true) slots vs := by
  induction slots generalizing args vs rest with
  | nil =>
    cases h
    exact .nil
  | cons slot slots ih =>
    cases args with
    | nil =>
      rw [fillValues] at h
      split at h
      · cases h
      · next ws r hrec =>
        cases h
        refine .cons ?_ (ih hrec)
        -- null is of every type
        cases slot.type <;> rfl
    | cons arg args =>
      rw [fillValues] at h
      split at h
      · cases h
      · next v hv =>
        split at h
        · cases h
        · next ws r hrec =>
          cases h
          exact .cons (checkValue_eq_ok_iff.mp hv).2 (ih hrec)

/-- Contents that filled their slots are admitted by them. -/
theorem fillChildren_eq_ok {s : Store} {slots : List ChildSlot} {args : List Filling}
    {cs : List Content} (h : s.fillChildren slots args = .ok cs) :
    List.Forall₂ s.Admits slots cs := by
  induction slots generalizing args cs with
  | nil =>
    cases h
    exact .nil
  | cons slot slots ih =>
    cases args with
    | nil =>
      rw [fillChildren] at h
      split at h
      · cases h
      · next ds hrec =>
        cases h
        exact .cons (admits_vacant s slot) (ih hrec)
    | cons arg args =>
      rw [fillChildren] at h
      split at h
      · cases h
      · next c hc =>
        split at h
        · cases h
        · next ds hrec =>
          cases h
          exact .cons (checkChild_eq_ok_iff.mp hc).2 (ih hrec)

/-- What passes all checks for a kind fits the kind. -/
theorem fill_eq_ok {s : Store} {k : KindId} {args : List Filling} {n : Node}
    (h : s.fill k args = .ok n) :
    n.kind = k ∧ n.parent = none ∧ n.notes = Notes.empty ∧
      List.Forall₂ (fun slot v => slot.type.accepts v = true) (s.schema.kind k).values n.values ∧
      List.Forall₂ s.Admits (s.schema.kind k).children n.children := by
  unfold fill at h
  simp only at h
  split at h
  · cases h
  · split at h
    · cases h
    · next values rest hvalues =>
      split at h
      · cases h
      · next children hchildren =>
        cases h
        exact ⟨rfl, rfl, rfl, fillValues_eq_ok hvalues, fillChildren_eq_ok hchildren⟩

/-! ### The children of a new node -/

/-- Filling value slots uses up one argument per slot, and no nodes. -/
theorem flatMap_nodes_fillValues {s : Store} {slots : List ValueSlot} {args rest : List Filling}
    {vs : List Value} (h : s.fillValues slots args = .ok (vs, rest)) :
    rest.flatMap Filling.nodes = args.flatMap Filling.nodes ∧
      rest.length = args.length - slots.length := by
  induction slots generalizing args vs with
  | nil =>
    cases h
    exact ⟨rfl, by simp⟩
  | cons slot slots ih =>
    cases args with
    | nil =>
      rw [fillValues] at h
      split at h
      · cases h
      · next ws r hrec =>
        cases h
        exact ⟨(ih hrec).1, by simpa using (ih hrec).2⟩
    | cons arg args =>
      rw [fillValues] at h
      split at h
      · cases h
      · next v hv =>
        split at h
        · cases h
        · next ws r hrec =>
          cases h
          obtain ⟨rfl, -⟩ := checkValue_eq_ok_iff.mp hv
          obtain ⟨hnodes, hlength⟩ := ih hrec
          exact ⟨hnodes, by simpa using hlength⟩

/-- The nodes in the filled slots are those in the arguments, one by one. -/
theorem flatMap_nodes_fillChildren {s : Store} {slots : List ChildSlot} {args : List Filling}
    {cs : List Content} (h : s.fillChildren slots args = .ok cs)
    (hlength : args.length ≤ slots.length) :
    cs.flatMap Content.nodes = args.flatMap Filling.nodes := by
  induction slots generalizing args cs with
  | nil =>
    cases h
    rw [List.eq_nil_of_length_eq_zero (Nat.le_zero.mp hlength)]
    rfl
  | cons slot slots ih =>
    cases args with
    | nil =>
      rw [fillChildren] at h
      split at h
      · cases h
      · next ds hrec =>
        cases h
        -- a default holds no nodes
        have hvacant : (Content.vacant slot.type).nodes = [] := by cases slot.type <;> rfl
        rw [List.flatMap_cons, hvacant, ih hrec (Nat.zero_le _)]
        rfl
    | cons arg args =>
      rw [fillChildren] at h
      split at h
      · cases h
      · next c hc =>
        split at h
        · cases h
        · next ds hrec =>
          cases h
          obtain ⟨rfl, -⟩ := checkChild_eq_ok_iff.mp hc
          rw [List.flatMap_cons, List.flatMap_cons, Content.nodes_toFilling,
            ih hrec (by simpa using hlength)]

/-- A new node has all nodes it was given as its children. -/
theorem childNodes_of_fill {s : Store} {k : KindId} {args : List Filling} {n : Node}
    (h : s.fill k args = .ok n) : n.childNodes = args.flatMap Filling.nodes := by
  unfold fill at h
  simp only at h
  split at h
  · cases h
  · next hcount =>
    split at h
    · cases h
    · next values rest hvalues =>
      split at h
      · cases h
      · next children hchildren =>
        cases h
        obtain ⟨hnodes, hlength⟩ := flatMap_nodes_fillValues hvalues
        -- the count was checked, so no argument is left over
        have hfits : rest.length ≤ (s.schema.kind k).children.length := by
          rw [Kind.slotCount] at hcount
          omega
        show children.flatMap Content.nodes = args.flatMap Filling.nodes
        rw [flatMap_nodes_fillChildren hchildren hfits, hnodes]

/-! ### What the writes keep -/

/-- A store without nodes is well formed. -/
theorem wellFormed_empty (schema : Schema) : (Store.empty schema).WellFormed where
  size := Nat.zero_le _
  live := rfl
  nodup := List.nodup_nil
  free := fun i => by simp [Store.empty]
  nodes := fun h n hn => by simp [Store.empty, node?] at hn

/-- A change to a node that keeps its kind retains all nodes. -/
theorem retains_modifyNode (s : Store) (h : Handle) {f : Node → Node}
    (hkind : ∀ n, (f n).kind = n.kind) : Retains s (s.modifyNode h f) := by
  refine ⟨rfl, fun x n hn => ?_⟩
  rw [node?_modifyNode, hn]
  by_cases hx : x = h
  · exact ⟨f n, by rw [if_pos hx, Option.map_some], hkind n⟩
  · exact ⟨n, by rw [if_neg hx], rfl⟩

/-- A node may be changed into any other that fits and has the same kind. -/
theorem WellFormed.modifyNode {s : Store} (hs : s.WellFormed) {h : Handle} {f : Node → Node}
    (hkind : ∀ n, (f n).kind = n.kind)
    (hf : ∀ n, s.node? h = some n → s.Conforms (f n)) : (s.modifyNode h f).WellFormed := by
  have hr := retains_modifyNode s h hkind
  refine (hs.booked.of_occupancy_eq (occupancy_modifyNode s h f) rfl rfl).wellFormed ?_
  intro x n hn
  rw [node?_modifyNode] at hn
  by_cases hx : x = h
  · rw [if_pos hx, hx, Option.map_eq_some_iff] at hn
    obtain ⟨m, hm, rfl⟩ := hn
    exact (hf m hm).retain hr
  · rw [if_neg hx] at hn
    exact (hs.nodes x n hn).retain hr

/-- Notes play no part in whether a node fits. -/
theorem Conforms.withNotes {s : Store} {n : Node} (hn : s.Conforms n) (notes : Notes) :
    s.Conforms { n with notes := notes } :=
  ⟨hn.kind, hn.values, hn.children, hn.parent⟩

/-- A proper node may get any live parent. -/
theorem Conforms.withParent {s : Store} {n : Node} (hn : s.Conforms n) {p : Handle}
    (hp : s.isAlive p = true) : s.Conforms { n with parent := some p } := by
  refine ⟨hn.kind, hn.values, hn.children, fun q hq => ?_⟩
  cases hq
  exact hp

/-- Adopting retains all nodes. -/
theorem retains_adopt (s : Store) (p : Handle) (cs : List Handle) : Retains s (s.adopt p cs) := by
  refine ⟨schema_adopt s p cs, fun x n hn => ?_⟩
  rw [node?_adopt, hn]
  refine ⟨_, rfl, ?_⟩
  split <;> rfl

/-- A live node may adopt others. -/
theorem WellFormed.adopt {s : Store} (hs : s.WellFormed) {p : Handle} (hp : s.isAlive p = true)
    (cs : List Handle) : (s.adopt p cs).WellFormed := by
  have hr := retains_adopt s p cs
  refine (hs.booked.of_occupancy_eq (occupancy_adopt s p cs) (free_adopt s p cs)
    (live_adopt s p cs)).wellFormed fun x n hn => ?_
  rw [node?_adopt, Option.map_eq_some_iff] at hn
  obtain ⟨m, hm, rfl⟩ := hn
  split
  · exact ((hs.nodes x m hm).withParent hp).retain hr
  · exact (hs.nodes x m hm).retain hr

/-- A new node takes the place of no other one. -/
theorem retains_insert {s : Store} (hs : s.FreePlaces) (n : Node) :
    Retains s (s.insert n).2 := by
  refine ⟨schema_insert s n, fun x m hm => ⟨m, ?_, rfl⟩⟩
  have hx : x ≠ (s.insert n).1 := by
    intro hx
    rw [hx, node?_insert_fst hs n] at hm
    cases hm
  rw [node?_insert hs, if_neg hx, hm]

/-- A proper node may be put in while there is room. -/
theorem WellFormed.insert {s : Store} (hs : s.WellFormed) (hroom : s.hasRoom = true) {n : Node}
    (hn : s.Conforms n) : (s.insert n).2.WellFormed := by
  have hfree := hs.booked.freePlaces
  have hr := retains_insert hfree n
  refine (hs.booked.insert hroom n).wellFormed fun x m hm => ?_
  rw [node?_insert hfree] at hm
  by_cases hx : x = (s.insert n).1
  · rw [if_pos hx] at hm
    cases hm
    exact hn.retain hr
  · rw [if_neg hx] at hm
    exact (hs.nodes x m hm).retain hr

/-- Making a node succeeds when the fillings pass the checks and there is room, and then puts
    the node into the store and takes over its children. -/
theorem construct_eq_ok_iff {s s' : Store} {k : KindId} {args : List Filling} {h : Handle} :
    construct k args s = .ok h s' ↔
      ∃ n, s.fill k args = .ok n ∧ s.hasRoom = true ∧ h = (s.insert n).1 ∧
        s' = (s.insert n).2.adopt h n.childNodes := by
  unfold construct
  cases hfill : s.fill k args with
  | error e => simp
  | ok n =>
    by_cases hroom : s.hasRoom = true
    · simp only [if_pos hroom, Except.ok.injEq, exists_eq_left']
      constructor
      · intro h
        cases h
        exact ⟨hroom, rfl, rfl⟩
      · rintro ⟨-, rfl, rfl⟩
        rfl
    · simp only [if_neg hroom, Except.ok.injEq, exists_eq_left']
      simp [hroom]

/-- A node that cannot be made changes nothing. -/
theorem construct_eq_error {s s' : Store} {k : KindId} {args : List Filling} {e : NodeError}
    (h : construct k args s = .error e s') : s' = s := by
  unfold construct at h
  split at h
  · cases h; rfl
  · split at h
    · cases h
    · cases h; rfl

/-- Making a node keeps a store well formed. -/
theorem WellFormed.construct {s s' : Store} (hs : s.WellFormed) {k : KindId}
    (hk : k.index < s.schema.size) {args : List Filling} {h : Handle}
    (hc : Store.construct k args s = .ok h s') : s'.WellFormed := by
  obtain ⟨n, hfill, hroom, rfl, rfl⟩ := construct_eq_ok_iff.mp hc
  obtain ⟨hkind, hparent, -, hvalues, hchildren⟩ := fill_eq_ok hfill
  have hn : s.Conforms n := by
    refine ⟨by rw [hkind]; exact hk, by rw [hkind]; exact hvalues,
      by rw [hkind]; exact hchildren, fun p hp => ?_⟩
    rw [hparent] at hp
    cases hp
  refine (hs.insert hroom hn).adopt ?_ n.childNodes
  refine isAlive_of_node? (n := n) ?_
  rw [node?_insert hs.booked.freePlaces, if_pos rfl]

/-- Writing to a value slot changes nothing past the last slot, and puts an accepted value into
    any other. -/
theorem setValueAt_eq_ok {s s' : Store} {h : Handle} {i : Nat} {arg : Filling}
    (hw : setValueAt h i arg s = .ok () s') :
    s' = s ∨ ∃ n slot v, s.node? h = some n ∧ (s.schema.kind n.kind).values[i]? = some slot ∧
      slot.type.accepts v = true ∧
      s' = s.modifyNode h fun n => { n with values := n.values.set i v } := by
  unfold setValueAt at hw
  split at hw
  · cases hw
  · next k hk =>
    obtain ⟨n, hn, rfl⟩ := kindOf_eq_ok_iff.mp hk
    split at hw
    · cases hw
      -- an index that the kind does not have is passed over
      exact .inl rfl
    · next slot hslot =>
      split at hw
      · cases hw
      · next v hv =>
        cases hw
        exact .inr ⟨n, slot, v, hn, hslot, (checkValue_eq_ok_iff.mp hv).2, rfl⟩

/-- Writing to a child slot changes nothing past the last slot.  Into any other it puts contents
    that fit, and the node becomes their parent. -/
theorem setChildAt_eq_ok {s s' : Store} {h : Handle} {i : Nat} {arg : Filling}
    (hw : setChildAt h i arg s = .ok () s') :
    ∃ n, s.node? h = some n ∧ (((s.schema.kind n.kind).children[i]? = none ∧ s' = s) ∨
      ∃ slot c, (s.schema.kind n.kind).children[i]? = some slot ∧ arg = c.toFilling ∧
        s.Admits slot c ∧
        s' = (s.modifyNode h fun n => { n with children := n.children.set i c }).adopt h
          c.nodes) := by
  unfold setChildAt at hw
  split at hw
  · cases hw
  · next k hk =>
    obtain ⟨n, hn, rfl⟩ := kindOf_eq_ok_iff.mp hk
    refine ⟨n, hn, ?_⟩
    split at hw
    · next hslot =>
      cases hw
      exact .inl ⟨hslot, rfl⟩
    · next slot hslot =>
      split at hw
      · cases hw
      · next c hc =>
        cases hw
        obtain ⟨harg, hadm⟩ := checkChild_eq_ok_iff.mp hc
        exact .inr ⟨slot, c, hslot, harg, hadm, rfl⟩

/-- A value that the slot accepts may be written to it. -/
theorem WellFormed.setValueAt {s s' : Store} (hs : s.WellFormed) {h : Handle} {i : Nat}
    {arg : Filling} (hw : Store.setValueAt h i arg s = .ok () s') : s'.WellFormed := by
  rcases setValueAt_eq_ok hw with rfl | ⟨n, slot, v, hn, hslot, hv, rfl⟩
  · exact hs
  · refine hs.modifyNode (fun _ => rfl) fun m hm => ?_
    rw [hn, Option.some.injEq] at hm
    subst hm
    have hfit := hs.nodes h n hn
    exact ⟨hfit.kind, forall₂_set hfit.values hslot hv, hfit.children, hfit.parent⟩

/-- Contents that pass the check of a slot may be written to it. -/
theorem retains_setChildAt {s s' : Store} {h : Handle} {i : Nat} {arg : Filling}
    (hw : Store.setChildAt h i arg s = .ok () s') : Retains s s' := by
  obtain ⟨n, hn, ⟨-, rfl⟩ | ⟨slot, c, -, -, -, rfl⟩⟩ := setChildAt_eq_ok hw
  · exact ⟨rfl, fun _ n hn => ⟨n, hn, rfl⟩⟩
  · refine (retains_modifyNode s h ?_).trans (retains_adopt _ h c.nodes)
    exact fun _ => rfl

/-- So does putting nodes into a slot. -/
theorem WellFormed.setChildAt {s s' : Store} (hs : s.WellFormed) {h : Handle} {i : Nat}
    {arg : Filling} (hw : Store.setChildAt h i arg s = .ok () s') : s'.WellFormed := by
  obtain ⟨n, hn, ⟨-, rfl⟩ | ⟨slot, c, hslot, -, hadm, rfl⟩⟩ := setChildAt_eq_ok hw
  · exact hs
  · refine WellFormed.adopt ?_ (isAlive_of_node? (node?_modifyNode_self hn _)) _
    refine hs.modifyNode (fun _ => rfl) fun m hm => ?_
    rw [hn, Option.some.injEq] at hm
    subst hm
    have hfit := hs.nodes h n hn
    exact ⟨hfit.kind, hfit.values, forall₂_set hfit.children hslot hadm, hfit.parent⟩

/-- The notes of a node may be replaced by any others. -/
theorem WellFormed.annotate {s : Store} (hs : s.WellFormed) (h : Handle) (f : Notes → Notes) :
    (s.modifyNode h fun n => { n with notes := f n.notes }).WellFormed :=
  hs.modifyNode (fun _ => rfl) fun n hn => (hs.nodes h n hn).withNotes _

/-- So does deleting notes. -/
theorem WellFormed.dropNotes {s : Store} (hs : s.WellFormed) (key : String)
    (marks : Array Bool) : (s.dropNotes key marks).WellFormed := by
  have hr : Retains s (s.dropNotes key marks) := by
    refine ⟨rfl, fun x n hn => ?_⟩
    rw [node?_dropNotes, hn]
    refine ⟨_, rfl, ?_⟩
    split <;> rfl
  refine (hs.booked.of_occupancy_eq (occupancy_dropNotes s key marks) rfl rfl).wellFormed
    fun x n hn => ?_
  rw [node?_dropNotes, Option.map_eq_some_iff] at hn
  obtain ⟨m, hm, rfl⟩ := hn
  split
  · exact ((hs.nodes x m hm).withNotes _).retain hr
  · exact (hs.nodes x m hm).retain hr

end Store

end TypedForest
