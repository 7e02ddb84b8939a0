import TypedForest.Proofs.Schema.Built
import TypedForest.Proofs.Store.WellFormed

namespace TypedForest

/-!
# The slots of a node in one row

A kind has a row of value slots and a row of child slots, and slots are addressed in two ways: by
their place, value slots first, when a node is made, and by their name, searched among the value
slots first, when a node is read or written to.  Here both rows are seen as one (`Kind.slots`), and
so is what the slots of a node hold (`Node.fillings`).

* `Store.Suits` : what may be put into a slot;
* `Store.exists_fill_iff` : the checks for a kind succeed exactly if all fillings suit;
* `Store.fillings_of_fill` : each slot of a new node holds what it was given;
* `Store.slot_of_node?` : reading a slot by its name gives what is at its place.
-/

/-! ### Slots in one row -/

section

variable {α β γ : Type} {f : α → γ} {g : β → γ} {xs : List α} {ys : List β}

theorem getElem?_row_left {i : Nat} (hi : i < xs.length) :
    (xs.map f ++ ys.map g)[i]? = xs[i]?.map f := by
  rw [List.getElem?_append_left (by rwa [List.length_map]), List.getElem?_map]

theorem getElem?_row_right {i : Nat} (hi : xs.length ≤ i) :
    (xs.map f ++ ys.map g)[i]? = ys[i - xs.length]?.map g := by
  rw [List.getElem?_append_right (by rwa [List.length_map]), List.length_map, List.getElem?_map]

end

/-- A slot of either sort. -/
inductive Slot
  | value (slot : ValueSlot)
  | child (slot : ChildSlot)
deriving DecidableEq, Repr

namespace Slot

/-- The name of a slot. -/
def name : Slot → String
  | value slot => slot.name
  | child slot => slot.name

/-- What a slot holds that is given nothing. -/
def vacant : Slot → Filling
  | value _ => .value .null
  | child slot => (Content.vacant slot.type).toFilling

end Slot

namespace Kind

/-- The slots of a kind in the order in which they are filled. -/
def slots (k : Kind) : List Slot := k.values.map .value ++ k.children.map .child

/-- The place of the slot of a name. -/
def slotIndex? (k : Kind) (name : String) : Option Nat := k.slots.findIdx? (·.name == name)

/-- The slots in a row have the names of the kind. -/
theorem map_name_slots (k : Kind) : k.slots.map Slot.name = k.slotNames := by
  rw [slots, List.map_append, List.map_map, List.map_map]
  rfl

theorem length_slots (k : Kind) : k.slots.length = k.slotCount := by
  rw [slots, List.length_append, List.length_map, List.length_map, slotCount]

/-- Value slots are searched first. -/
theorem slotIndex?_eq (k : Kind) (name : String) :
    k.slotIndex? name
      = (k.valueIndex? name).or ((k.childIndex? name).map (· + k.values.length)) := by
  rw [slotIndex?, slots, List.findIdx?_append, List.findIdx?_map, List.findIdx?_map,
    List.length_map]
  rfl

/-- A name that is found is that of the slot in its place. -/
theorem slotIndex?_eq_some {k : Kind} {name : String} {i : Nat} (h : k.slotIndex? name = some i) :
    ∃ slot, k.slots[i]? = some slot ∧ slot.name = name := by
  obtain ⟨hi, hname, -⟩ := List.findIdx?_eq_some_iff_getElem.mp h
  exact ⟨_, List.getElem?_eq_getElem hi, by simpa using hname⟩

/-- A slot is found under its name when no other has it. -/
theorem slotIndex?_name {k : Kind} (hk : k.slotNames.Nodup) {i : Nat} {slot : Slot}
    (h : k.slots[i]? = some slot) : k.slotIndex? slot.name = some i :=
  findIdx?_key_eq (by rw [map_name_slots]; exact hk) h

end Kind

namespace Node

/-- What the slots of a node hold, in the order of the slots. -/
def fillings (n : Node) : List Filling := n.values.map .value ++ n.children.map Content.toFilling

end Node

namespace Store

/-! ### What may be put into a slot -/

/-- `h` is a live node of the kind `k` or of one that derives from it. -/
def IsOf (s : Store) (k : KindId) (h : Handle) : Prop :=
  ∃ n, s.node? h = some n ∧ s.schema.isSubkind n.kind k = true

/-- A value slot takes the values that its type accepts, a slot for one node takes none or a live
    node of its kind, and a slot for a list takes lists of such nodes. -/
def Suits (s : Store) : Slot → Filling → Prop
  | .value slot, .value v => slot.type.accepts v = true
  | .child ⟨_, .one k⟩, .one node => ∀ h ∈ node.toList, s.IsOf k h
  | .child ⟨_, .many k⟩, .many nodes => ∀ h ∈ nodes, s.IsOf k h
  | _, _ => False

/-- There is a slot for each filling, and each suits its slot. -/
structure SuitsAll (s : Store) (k : KindId) (args : List Filling) : Prop where
  count : args.length ≤ (s.schema.kind k).slotCount
  each : ∀ p ∈ (s.schema.kind k).slots.zip args, s.Suits p.1 p.2

/-- A filling suits a value slot if the check lets it through. -/
theorem suits_value_iff {s : Store} {slot : ValueSlot} {arg : Filling} :
    s.Suits (.value slot) arg ↔ ∃ v, s.checkValue slot arg = .ok v := by
  simp only [checkValue_eq_ok_iff]
  cases arg <;> simp [Suits]

/-- So it is for child slots. -/
theorem suits_child_iff {s : Store} {slot : ChildSlot} {arg : Filling} :
    s.Suits (.child slot) arg ↔ ∃ c, s.checkChild slot arg = .ok c := by
  simp only [checkChild_eq_ok_iff]
  obtain ⟨name, type⟩ := slot
  constructor
  · intro h
    cases type with
    | one k =>
      cases arg with
      | one node => exact ⟨.one node, rfl, rfl, h⟩
      | value v => cases h
      | many nodes => cases h
    | many k =>
      cases arg with
      | many nodes => exact ⟨.many nodes, rfl, rfl, h⟩
      | value v => cases h
      | one node => cases h
  · rintro ⟨c, rfl, hshape, hnodes⟩
    cases c <;> cases type <;> cases hshape <;> exact hnodes

/-- What suits a slot goes on doing so when nothing goes away. -/
theorem Suits.retain {s s' : Store} (hr : Retains s s') {slot : Slot} {arg : Filling}
    (h : s.Suits slot arg) : s'.Suits slot arg := by
  cases slot with
  | value slot =>
    rw [suits_value_iff] at h ⊢
    simpa only [checkValue_eq_ok_iff] using h
  | child slot =>
    rw [suits_child_iff] at h ⊢
    simp only [checkChild_eq_ok_iff] at h ⊢
    obtain ⟨c, hc, hadmits⟩ := h
    exact ⟨c, hc, hadmits.retain hr⟩

/-! ### Filling the slots of a kind -/

/-- Value slots are filled if all arguments suit them. -/
theorem exists_fillValues_iff {s : Store} {slots : List ValueSlot} {args : List Filling} :
    (∃ r, s.fillValues slots args = .ok r) ↔ ∀ p ∈ slots.zip args, s.Suits (.value p.1) p.2 := by
  induction slots generalizing args with
  | nil => simp [fillValues]
  | cons slot slots ih =>
    cases args with
    | nil =>
      obtain ⟨r, hr⟩ : ∃ r, s.fillValues slots [] = .ok r := ih.mpr (by simp)
      simp [fillValues, hr]
    | cons arg args =>
      rw [List.zip_cons_cons, List.forall_mem_cons, ← ih, suits_value_iff, fillValues]
      cases s.checkValue slot arg with
      | error e => simp
      | ok v => cases s.fillValues slots args <;> simp

/-- So are child slots. -/
theorem exists_fillChildren_iff {s : Store} {slots : List ChildSlot} {args : List Filling} :
    (∃ cs, s.fillChildren slots args = .ok cs) ↔
      ∀ p ∈ slots.zip args, s.Suits (.child p.1) p.2 := by
  induction slots generalizing args with
  | nil => simp [fillChildren]
  | cons slot slots ih =>
    cases args with
    | nil =>
      obtain ⟨cs, hcs⟩ : ∃ cs, s.fillChildren slots [] = .ok cs := ih.mpr (by simp)
      simp [fillChildren, hcs]
    | cons arg args =>
      rw [List.zip_cons_cons, List.forall_mem_cons, ← ih, suits_child_iff, fillChildren]
      cases s.checkChild slot arg with
      | error e => simp
      | ok c => cases s.fillChildren slots args <;> simp

/-- The values that are put into value slots, and what is left over for the child slots. -/
theorem getElem?_fillValues {s : Store} {slots : List ValueSlot} {args rest : List Filling}
    {vs : List Value} (h : s.fillValues slots args = .ok (vs, rest)) :
    rest = args.drop slots.length ∧
      ∀ i : Nat, vs[i]?.map Filling.value
        = slots[i]?.map fun slot => args[i]?.getD (Slot.value slot).vacant := by
  induction slots generalizing args vs with
  | nil =>
    cases h
    exact ⟨rfl, fun i => rfl⟩
  | cons slot slots ih =>
    -- without arguments the slots that are left are null
    cases args with
    | nil =>
      rw [fillValues] at h
      split at h
      · cases h
      · next ws r hrec =>
        cases h
        obtain ⟨hrest, hws⟩ := ih hrec
        refine ⟨by simpa using hrest, fun i => ?_⟩
        cases i with
        | zero => rfl
        | succ i => simpa using hws i
    | cons arg args =>
      rw [fillValues] at h
      split at h
      · cases h
      · next v hv =>
        split at h
        · cases h
        · next ws r hrec =>
          cases h
          obtain ⟨hrest, hws⟩ := ih hrec
          refine ⟨by simpa using hrest, fun i => ?_⟩
          cases i with
          | zero => simp [(checkValue_eq_ok_iff.mp hv).1]
          | succ i => simpa using hws i

/-- A child slot gets its argument, or its default if there is none. -/
theorem getElem?_fillChildren {s : Store} {slots : List ChildSlot} {args : List Filling}
    {cs : List Content} (h : s.fillChildren slots args = .ok cs) (i : Nat) :
    cs[i]?.map Content.toFilling
      = slots[i]?.map fun slot => args[i]?.getD (Slot.child slot).vacant := by
  induction slots generalizing args cs i with
  | nil =>
    cases h
    rfl
  | cons slot slots ih =>
    cases args with
    | nil =>
      rw [fillChildren] at h
      split at h
      · cases h
      · next ds hrec =>
        cases h
        cases i with
        | zero => rfl
        | succ i => simpa using ih hrec i
    | cons arg args =>
      rw [fillChildren] at h
      split at h
      · cases h
      · next c hc =>
        split at h
        · cases h
        · next ds hrec =>
          cases h
          cases i with
          | zero => simp [(checkChild_eq_ok_iff.mp hc).1]
          | succ i => simpa using ih hrec i

/-- Pairs with a row in two parts are pairs with the one or with the other. -/
theorem mem_zip_append_iff {α β : Type} {xs ys : List α} {zs : List β} {p : α × β} :
    p ∈ (xs ++ ys).zip zs ↔ p ∈ xs.zip zs ∨ p ∈ ys.zip (zs.drop xs.length) := by
  induction xs generalizing zs with
  | nil => simp
  | cons x xs ih =>
    cases zs with
    | nil => simp
    | cons z zs => simp [ih, or_assoc]

/-- The checks for a kind succeed exactly if all fillings suit. -/
theorem exists_fill_iff {s : Store} {k : KindId} {args : List Filling} :
    (∃ n, s.fill k args = .ok n) ↔ s.SuitsAll k args := by
  -- the row of slots falls into those for values and those for children
  have hzip : (∀ p ∈ (s.schema.kind k).slots.zip args, s.Suits p.1 p.2) ↔
      (∀ p ∈ (s.schema.kind k).values.zip args, s.Suits (.value p.1) p.2) ∧
      ∀ p ∈ (s.schema.kind k).children.zip (args.drop (s.schema.kind k).values.length),
        s.Suits (.child p.1) p.2 := by
    simp only [Kind.slots, mem_zip_append_iff, or_imp, forall_and, List.zip_map_left,
      List.forall_mem_map, List.length_map, Prod.map_fst, Prod.map_snd, id_eq]
  constructor
  · rintro ⟨n, hfill⟩
    unfold fill at hfill
    dsimp only at hfill
    split at hfill
    · cases hfill
    · next hcount =>
      split at hfill
      · cases hfill
      · next values rest hvalues =>
        split at hfill
        · cases hfill
        · next children hchildren =>
          refine ⟨by omega, hzip.mpr ⟨exists_fillValues_iff.mp ⟨_, hvalues⟩, ?_⟩⟩
          -- the child slots get the arguments that the value slots have left
          rw [← (getElem?_fillValues hvalues).1]
          exact exists_fillChildren_iff.mp ⟨_, hchildren⟩
  · rintro ⟨hcount, heach⟩
    obtain ⟨hvalues, hchildren⟩ := hzip.mp heach
    obtain ⟨⟨values, rest⟩, hvs⟩ := exists_fillValues_iff.mpr hvalues
    rw [← (getElem?_fillValues hvs).1] at hchildren
    obtain ⟨children, hcs⟩ := exists_fillChildren_iff.mpr hchildren
    refine ⟨⟨k, values, children, none, Notes.empty⟩, ?_⟩
    simp only [fill, if_neg (Nat.not_lt.mpr hcount), hvs, hcs]

section

variable {s : Store}

theorem checkValue_ne_storeFull {slot : ValueSlot} {arg : Filling} :
    s.checkValue slot arg ≠ .error .storeFull := by
  unfold checkValue
  cases arg with
  | value v => cases h : slot.type.accepts v <;> simp [h]
  | one node => simp
  | many nodes => simp

/-- No check of nodes says that the store is full. -/
theorem checkNodes_ne_storeFull {slot : ChildSlot} {found : String → Found} {hs : List Handle} :
    s.checkNodes slot found hs ≠ .error .storeFull := by
  induction hs with
  | nil => simp [checkNodes]
  | cons x hs ih =>
    rw [checkNodes]
    split
    · simp
    · split
      · exact ih
      · simp

/-- Nor does the check of a child slot. -/
theorem checkChild_ne_storeFull {slot : ChildSlot} {arg : Filling} :
    s.checkChild slot arg ≠ .error .storeFull := by
  have hmap {x : Except NodeError Unit} {c : Unit → Content} (hx : x ≠ .error .storeFull) :
      x.map c ≠ .error .storeFull := by
    cases x with
    | ok u => simp [Except.map]
    | error e => simpa [Except.map] using hx
  unfold checkChild
  split
  · exact hmap checkNodes_ne_storeFull
  · exact hmap checkNodes_ne_storeFull
  · simp

/-- Nor does filling value slots. -/
theorem fillValues_ne_storeFull {slots : List ValueSlot} {args : List Filling} :
    s.fillValues slots args ≠ .error .storeFull := by
  fun_induction fillValues s slots args with
  | case1 | case3 | case6 => simp
  | case2 slot slots e h ih =>
    rintro ⟨⟩
    exact ih h
  | case4 slot slots arg args e h =>
    rintro ⟨⟩
    exact checkValue_ne_storeFull h
  | case5 slot slots arg args v h e hrest ih =>
    rintro ⟨⟩
    exact ih hrest

/-- Nor does filling child slots. -/
theorem fillChildren_ne_storeFull {slots : List ChildSlot} {args : List Filling} :
    s.fillChildren slots args ≠ .error .storeFull := by
  fun_induction fillChildren s slots args with
  | case1 | case3 | case6 => simp
  | case2 slot slots e h ih =>
    rintro ⟨⟩
    exact ih h
  | case4 slot slots arg args e h =>
    rintro ⟨⟩
    exact checkChild_ne_storeFull h
  | case5 slot slots arg args c h e hrest ih =>
    rintro ⟨⟩
    exact ih hrest

/-- Checking what is put into a node does not ask for room. -/
theorem fill_ne_storeFull {k : KindId} {args : List Filling} :
    s.fill k args ≠ .error .storeFull := by
  unfold fill
  dsimp only
  split
  · simp
  · split
    · next e hvalues =>
      rintro ⟨⟩
      exact fillValues_ne_storeFull hvalues
    · split
      · next e hchildren =>
        rintro ⟨⟩
        exact fillChildren_ne_storeFull hchildren
      · simp

end

/-- Each slot holds what it was given, if it was given anything. -/
theorem fillings_of_fill {s : Store} {k : KindId} {args : List Filling} {n : Node}
    (hfill : s.fill k args = .ok n) (i : Nat) :
    n.fillings[i]? = (s.schema.kind k).slots[i]?.map fun slot => args[i]?.getD slot.vacant := by
  have hlength := (fill_eq_ok hfill).2.2.2.1.length_eq
  unfold fill at hfill
  dsimp only at hfill
  split at hfill
  · cases hfill
  · split at hfill
    · cases hfill
    · next values rest hvalues =>
      split at hfill
      · cases hfill
      · next children hchildren =>
        cases hfill
        -- the child slots are filled with what the value slots left over
        obtain ⟨rfl, hvs⟩ := getElem?_fillValues hvalues
        have hcs := getElem?_fillChildren hchildren (i - values.length)
        rw [Node.fillings, Kind.slots]
        by_cases hi : i < values.length
        · rw [getElem?_row_left hi, getElem?_row_left (by rwa [hlength]), hvs i, Option.map_map]
          rfl
        · have hle := Nat.le_of_not_lt hi
          have hplace : values.length + (i - values.length) = i := by omega
          rw [getElem?_row_right hle, getElem?_row_right (by rwa [hlength]), hlength, hcs,
            Option.map_map, List.getElem?_drop, hlength, hplace]
          rfl

/-! ### Reading a slot -/

/-- A node has something for each slot of its kind. -/
structure HasAll (s : Store) (n : Node) : Prop where
  values : (s.schema.kind n.kind).values.length = n.values.length
  children : (s.schema.kind n.kind).children.length = n.children.length

/-- A proper node has something in all of its slots. -/
theorem Conforms.hasAll {s : Store} {n : Node} (hn : s.Conforms n) : s.HasAll n :=
  ⟨hn.values.length_eq, hn.children.length_eq⟩

section

variable {s : Store} {h : Handle} {n : Node} (hn : s.node? h = some n) (hall : s.HasAll n)
include hn hall

/-- Reading a slot by its name gives what is at its place. -/
theorem slot_of_node? (name : String) :
    match (s.schema.kind n.kind).slotIndex? name with
    | some i => ∃ f, n.fillings[i]? = some f ∧ s.slot h name = .ok f
    | none => s.slot h name = .error (s.unknownSlot n.kind name .either) := by
  rw [Kind.slotIndex?_eq]
  simp only [slot, get_eq_ok_iff.mpr hn]
  cases hv : (s.schema.kind n.kind).valueIndex? name with
  | some i =>
    obtain ⟨hi, -⟩ := List.findIdx?_eq_some_iff_getElem.mp hv
    rw [hall.values] at hi
    refine ⟨.value n.values[i], ?_, ?_⟩
    · rw [Node.fillings, getElem?_row_left hi, List.getElem?_eq_getElem hi, Option.map_some]
    · simp [List.getElem?_eq_getElem hi]
  | none =>
    cases hc : (s.schema.kind n.kind).childIndex? name with
    | some j =>
      obtain ⟨hj, -⟩ := List.findIdx?_eq_some_iff_getElem.mp hc
      rw [hall.children] at hj
      refine ⟨n.children[j].toFilling, ?_, ?_⟩
      · -- in the row the child slots come after the values
        rw [hall.values, Node.fillings, getElem?_row_right (Nat.le_add_left _ _),
          Nat.add_sub_cancel, List.getElem?_eq_getElem hj, Option.map_some]
      · simp [List.getElem?_eq_getElem hj]
    | none => rfl

/-- A slot is read by the place of its name. -/
theorem slot_of_index {name : String} {i : Nat} {f : Filling}
    (hi : (s.schema.kind n.kind).slotIndex? name = some i) (hf : n.fillings[i]? = some f) :
    s.slot h name = .ok f := by
  have hslot := slot_of_node? hn hall name
  rw [hi] at hslot
  obtain ⟨g, hg, hread⟩ := hslot
  rw [hread, Option.some.inj (hg.symm.trans hf)]

/-- What was read from a slot stands in the place of its name. -/
theorem index_of_slot {name : String} {f : Filling} (hf : s.slot h name = .ok f) :
    ∃ i, (s.schema.kind n.kind).slotIndex? name = some i ∧ n.fillings[i]? = some f := by
  have hslot := slot_of_node? hn hall name
  cases hi : (s.schema.kind n.kind).slotIndex? name with
  | none =>
    rw [hi] at hslot
    rw [hslot] at hf
    cases hf
  | some i =>
    rw [hi] at hslot
    obtain ⟨g, hg, hread⟩ := hslot
    rw [hread, Except.ok.injEq] at hf
    exact ⟨i, rfl, hf ▸ hg⟩

end

/-- A slot that can be read belongs to a live node. -/
theorem exists_node?_of_slot {s : Store} {h : Handle} {name : String} {f : Filling}
    (hf : s.slot h name = .ok f) : ∃ n, s.node? h = some n := by
  cases hget : s.get h with
  | error e =>
    simp only [slot, hget] at hf
    cases hf
  | ok n => exact ⟨n, get_eq_ok_iff.mp hget⟩

/-- The same names read the same in nodes that differ at one place, but for the name of that
    place. -/
theorem slot_congr {s s' : Store} (hschema : s'.schema = s.schema) {h : Handle} {n n' : Node}
    (hn : s.node? h = some n) (hn' : s'.node? h = some n') (hkind : n'.kind = n.kind)
    (hall : s.HasAll n) (hall' : s'.HasAll n') {name : String}
    (hsame : ∀ i, (s.schema.kind n.kind).slotIndex? name = some i →
      n'.fillings[i]? = n.fillings[i]?) : s'.slot h name = s.slot h name := by
  have hslot := slot_of_node? hn hall name
  have hslot' := slot_of_node? hn' hall' name
  rw [hschema, hkind] at hslot'
  cases hi : (s.schema.kind n.kind).slotIndex? name with
  | none =>
    rw [hi] at hslot hslot'
    rw [hslot, hslot', unknownSlot, unknownSlot, hschema]
  | some i =>
    rw [hi] at hslot
    obtain ⟨f, hf, hread⟩ := hslot
    rw [hread]
    refine slot_of_index hn' hall' (by rw [hschema, hkind, hi]) ?_
    rw [hsame i hi, hf]

/-- What is in a slot suits it. -/
theorem Conforms.suits {s : Store} {n : Node} (hn : s.Conforms n) {i : Nat} {slot : Slot}
    (hslot : (s.schema.kind n.kind).slots[i]? = some slot) {f : Filling}
    (hf : n.fillings[i]? = some f) : s.Suits slot f := by
  have hvalues := hn.values.length_eq
  rw [Kind.slots] at hslot
  rw [Node.fillings] at hf
  -- the place is among the values or after them
  by_cases hi : i < n.values.length
  · rw [getElem?_row_left (by rwa [hvalues])] at hslot
    rw [getElem?_row_left hi] at hf
    obtain ⟨t, ht, rfl⟩ := Option.map_eq_some_iff.mp hslot
    obtain ⟨v, hv, rfl⟩ := Option.map_eq_some_iff.mp hf
    obtain ⟨hi₁, rfl⟩ := List.getElem?_eq_some_iff.mp ht
    obtain ⟨hi₂, rfl⟩ := List.getElem?_eq_some_iff.mp hv
    exact (List.forall₂_iff_get.mp hn.values).2 i hi₁ hi₂
  · have hle := Nat.le_of_not_lt hi
    rw [getElem?_row_right (by rwa [hvalues]), hvalues] at hslot
    rw [getElem?_row_right hle] at hf
    obtain ⟨t, ht, rfl⟩ := Option.map_eq_some_iff.mp hslot
    obtain ⟨c, hc, rfl⟩ := Option.map_eq_some_iff.mp hf
    obtain ⟨t', ht', hadmits⟩ := hn.exists_admits hc
    obtain rfl : t = t' := Option.some.inj (ht.symm.trans ht')
    exact suits_child_iff.mpr ⟨c, checkChild_eq_ok_iff.mpr ⟨rfl, hadmits⟩⟩

end Store

end TypedForest
