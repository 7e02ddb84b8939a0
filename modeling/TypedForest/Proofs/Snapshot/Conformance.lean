import TypedForest.Proofs.Snapshot.Normal
import TypedForest.Proofs.Store.Writing
import TypedForest.Proofs.Wire.Recovery

namespace TypedForest

/-!
# Which snapshots can be restored

A snapshot that comes from a text need not fit the schema.  Restoring makes nodes before it has
seen all of it, and may stop anywhere.  What it asks for can be said without a store.

* `Snapshot.Conforms` : no level is too deep, all kinds are known, all entries name slots, and
  the last entry of each slot suits it;
* `Store.decides_rebuild` : restoring succeeds exactly on these, and needs room for `size` nodes;
* `Store.restore_exact` : so it does in every store, and what was there is left alone.

The operations that restoring is made of are each described by the condition under which they
succeed and the number of nodes they may add (`Store.Decides`), and these are put together with
the operations (`Store.Decides.bind`).
-/

namespace Snapshot

/-! ### What is asked of a snapshot -/

/-- The snapshots in a slot. -/
def Child.snapshots : Child → List Snapshot
  | .absent => []
  | .node t => [t]
  | .list ts => ts

/-- The snapshots one level below, those under entries that do not count included. -/
def nested : Snapshot → List Snapshot
  | .mk _ _ children _ => children.flatMap fun entry => entry.2.snapshots

/-- `t.Below d u`: the snapshot `u` stands `d` levels below `t`. -/
inductive Below : Snapshot → Nat → Snapshot → Prop
  | refl (t : Snapshot) : Below t 0 t
  | step {t u v : Snapshot} {d : Nat} (hu : u ∈ t.nested) (hv : Below u d v) : Below t (d + 1) v

/-- A snapshot of the kind `k` or of one that derives from it. -/
def IsOf (schema : Schema) (k : KindId) : Snapshot → Prop
  | .mk name _ _ _ => ∃ l, schema.kindByName? name = some l ∧ schema.isSubkind l k = true

/-- Every child slot may be vacant, a slot for one node takes a node of its kind, and a slot for a
    list takes lists of such nodes. -/
def Child.Suits (schema : Schema) : ChildType → Child → Prop
  | _, .absent => True
  | .one k, .node t => t.IsOf schema k
  | .many k, .list ts => ∀ t ∈ ts, t.IsOf schema k
  | _, _ => False

/-- The last entry of each slot of a kind suits the slot. -/
structure LastSuits (schema : Schema) (kind : Kind) (values : List (String × Value))
    (children : List (String × Child)) : Prop where
  values : ∀ slot ∈ kind.values, ∀ v, lastOf? slot.name values = some v →
    slot.type.accepts v = true
  children : ∀ slot ∈ kind.children, ∀ c, lastOf? slot.name children = some c →
    c.Suits schema slot.type

/-- The kind of a snapshot is known, its entries name slots of the kind, and the last entry of
    each slot suits it. -/
def Proper (schema : Schema) : Snapshot → Prop
  | .mk name values children _ => ∃ k, schema.kindByName? name = some k ∧
      (∀ entry ∈ values, ∃ slot ∈ (schema.kind k).values, slot.name = entry.1) ∧
      (∀ entry ∈ children, ∃ slot ∈ (schema.kind k).children, slot.name = entry.1) ∧
      LastSuits schema (schema.kind k) values children

/-- A snapshot has at most `n` levels, and all of it is proper. -/
def ConformsWithin (schema : Schema) (n : Nat) (t : Snapshot) : Prop :=
  ∀ d u, t.Below d u → d < n ∧ u.Proper schema

/-- A snapshot has at most 256 levels, and all of it is proper. -/
def Conforms (schema : Schema) (t : Snapshot) : Prop := t.ConformsWithin schema 256

/-- Without levels there is no room even for the root. -/
theorem not_conformsWithin_zero (schema : Schema) (t : Snapshot) : ¬ t.ConformsWithin schema 0 :=
  fun h => Nat.not_lt_zero 0 (h 0 t (.refl t)).1

/-- A snapshot conforms if its root is proper and what is nested in it conforms within one level
    less. -/
theorem conformsWithin_succ_iff {schema : Schema} {n : Nat} {t : Snapshot} :
    t.ConformsWithin schema (n + 1) ↔
      t.Proper schema ∧ ∀ u ∈ t.nested, u.ConformsWithin schema n := by
  constructor
  · intro h
    refine ⟨(h 0 t (.refl t)).2, fun u hu d v hv => ?_⟩
    obtain ⟨hd, hproper⟩ := h (d + 1) v (.step hu hv)
    exact ⟨Nat.lt_of_succ_lt_succ hd, hproper⟩
  · rintro ⟨hproper, hnested⟩ d v hv
    cases hv with
    | refl => exact ⟨Nat.succ_pos n, hproper⟩
    | step hu hv =>
      obtain ⟨hd, hproper'⟩ := hnested _ hu _ _ hv
      exact ⟨Nat.succ_lt_succ hd, hproper'⟩

mutual

/-- The number of nodes in a snapshot, those under entries that do not count included. -/
def size : Snapshot → Nat
  | .mk _ _ children _ => sizeEntries children + 1

/-- The number of nodes in named slots. -/
def sizeEntries : List (String × Child) → Nat
  | [] => 0
  | (_, child) :: rest => sizeChild child + sizeEntries rest

/-- The number of nodes in a slot. -/
def sizeChild : Child → Nat
  | .absent => 0
  | .node t => size t
  | .list ts => sizeAll ts

/-- The number of nodes in several snapshots. -/
def sizeAll : List Snapshot → Nat
  | [] => 0
  | t :: ts => size t + sizeAll ts

end

/-! ### Kinds and normal forms -/

/-- Normalizing keeps the kind. -/
theorem isOf_normalize_iff {schema : Schema} {k : KindId} {t : Snapshot} :
    (t.normalize schema).IsOf schema k ↔ t.IsOf schema k := by
  obtain ⟨name, values, children, notes⟩ := t
  rw [normalize]
  rfl

theorem normalizeAll_eq_map (schema : Schema) (ts : List Snapshot) :
    normalizeAll schema ts = ts.map (normalize schema) := by
  induction ts with
  | nil => rw [normalizeAll, List.map_nil]
  | cons t ts ih => rw [normalizeAll, ih, List.map_cons]

/-- What suits a slot suits it when it is normalized. -/
theorem Child.suits_normalizeChild_iff {schema : Schema} {type : ChildType} {c : Child} :
    (normalizeChild schema c).Suits schema type ↔ c.Suits schema type := by
  cases c with
  | absent => rw [normalizeChild]
  | node t =>
    rw [normalizeChild]
    cases type with
    | one k => exact isOf_normalize_iff
    | many k => exact Iff.rfl
  | list ts =>
    rw [normalizeChild, normalizeAll_eq_map]
    cases type with
    | one k => exact Iff.rfl
    | many k => simp only [Suits, List.forall_mem_map, isOf_normalize_iff]

/-- The last entry of a name stays the last. -/
theorem lastOf?_normalizeEntries (schema : Schema) (name : String)
    (entries : List (String × Child)) :
    lastOf? name (normalizeEntries schema entries)
      = (lastOf? name entries).map (normalizeChild schema) := by
  induction entries with
  | nil => rfl
  | cons entry rest ih =>
    obtain ⟨key, c⟩ := entry
    rw [normalizeEntries, lastOf?_cons, lastOf?_cons, ih]
    cases lastOf? name rest with
    | some d => rfl
    | none => by_cases hname : name = key <;> simp [hname]

/-- Without an entry a slot is vacant, and that suits every slot. -/
theorem lastSuits_iff {schema : Schema} {kind : Kind} {values : List (String × Value)}
    {children : List (String × Child)} :
    LastSuits schema kind values children ↔
      (∀ slot ∈ kind.values, slot.type.accepts ((lastOf? slot.name values).getD .null) = true) ∧
      ∀ slot ∈ kind.children, ((lastOf? slot.name (normalizeEntries schema children)).getD
        .absent).Suits schema slot.type := by
  -- what is missing has its default, which suits every slot
  have hnull (type : ValueType) : type.accepts .null = true := by
    cases type <;> rfl
  constructor
  · rintro ⟨hvalues, hchildren⟩
    refine ⟨fun slot hslot => ?_, fun slot hslot => ?_⟩
    · cases hv : lastOf? slot.name values with
      | none => exact hnull slot.type
      | some v => exact hvalues slot hslot v hv
    · rw [lastOf?_normalizeEntries]
      cases hc : lastOf? slot.name children with
      | none => cases slot.type <;> exact True.intro
      | some c => exact Child.suits_normalizeChild_iff.mpr (hchildren slot hslot c hc)
  · rintro ⟨hvalues, hchildren⟩
    refine ⟨fun slot hslot v hv => ?_, fun slot hslot c hc => ?_⟩
    · have hlast := hvalues slot hslot
      rw [hv] at hlast
      exact hlast
    · have hlast := hchildren slot hslot
      rw [lastOf?_normalizeEntries, hc] at hlast
      exact Child.suits_normalizeChild_iff.mp hlast

end Snapshot

namespace Store

/-! ### Fillings that stand for snapshots -/

/-- A node is of the kind that its snapshot says. -/
theorem isOf_iff_of_capture {s : Store} (hs : s.WellFormed) (hlawful : s.schema.Lawful) {n : Nat}
    {h : Handle} {t : Snapshot} (ht : s.capture n h = .ok t) {k : KindId} :
    s.IsOf k h ↔ t.IsOf s.schema k := by
  cases n with
  | zero => cases ht
  | succ n =>
    obtain ⟨m, ds, hm, -, rfl⟩ := (capture_succ_eq_ok_iff hs).mp ht
    simp [IsOf, Snapshot.IsOf, hm, hlawful.kindByName?_kindName (hs.nodes h m hm).kind]

/-- A filling suits a slot if what it was restored from does; nothing at all becomes an empty list
    where the slot is for lists. -/
theorem suits_settle_iff_of_holds {s : Store} (hs : s.WellFormed) (hlawful : s.schema.Lawful)
    {n : Nat} {f : Filling} {d : Snapshot.Child} (h : s.Holds n f d) (slot : ChildSlot) :
    s.Suits (.child slot) (settle slot f) ↔ d.Suits s.schema slot.type := by
  obtain ⟨name, type⟩ := slot
  obtain ⟨c, rfl, hc⟩ := h
  cases hc with
  -- what is absent suits every slot
  | absent => cases type <;> simp [settle, Content.toFilling, ChildType.isMany, Suits,
      Snapshot.Child.Suits]
  | @node x t ht =>
    have hsettle : settle ⟨name, type⟩ (Content.one (some x)).toFilling = .one (some x) := by
      simp [settle, Content.toFilling]
    rw [hsettle]
    cases type with
    | one k => simp [Suits, Snapshot.Child.Suits, isOf_iff_of_capture hs hlawful ht]
    | many k => exact Iff.rfl
  | @list xs ts hts =>
    have hsettle : settle ⟨name, type⟩ (Content.many xs).toFilling = .many xs := by
      simp [settle, Content.toFilling]
    rw [hsettle]
    cases type with
    | one k => exact Iff.rfl
    | many k =>
      clear hsettle
      simp only [Suits, Snapshot.Child.Suits]
      induction hts with
      | nil => simp
      | cons hx _ ih =>
        rw [List.forall_mem_cons, List.forall_mem_cons]
        exact and_congr (isOf_iff_of_capture hs hlawful hx) ih

/-- Fillings suit their slots if what they were restored from does. -/
theorem forall_mem_zip_settle_iff {s : Store} (hs : s.WellFormed) (hlawful : s.schema.Lawful)
    {n : Nat} {slots : List ChildSlot} {d : ChildSlot → Snapshot.Child} {fs : List Filling}
    (hfs : List.Forall₂ (s.Holds n) fs (slots.map d)) :
    (∀ p ∈ (slots.map Slot.child).zip (List.zipWith settle slots fs), s.Suits p.1 p.2) ↔
      ∀ slot ∈ slots, (d slot).Suits s.schema slot.type := by
  induction slots generalizing fs with
  | nil => simp
  | cons slot slots ih =>
    obtain ⟨f, fs, hf, hrest, rfl⟩ := List.forall₂_cons_right_iff.mp hfs
    rw [List.map_cons, List.zipWith_cons_cons, List.zip_cons_cons, List.forall_mem_cons,
      List.forall_mem_cons, ih hrest, suits_settle_iff_of_holds hs hlawful hf]

/-- Values and fillings that stand for snapshots can be put into the slots of a kind exactly if
    each suits its slot. -/
theorem suitsAll_iff_of_holds {s : Store} (hs : s.WellFormed) (hlawful : s.schema.Lawful) {n : Nat}
    {k : KindId} {g : ValueSlot → Value} {d : ChildSlot → Snapshot.Child} {fs : List Filling}
    (hfs : List.Forall₂ (s.Holds n) fs ((s.schema.kind k).children.map d)) :
    s.SuitsAll k ((s.schema.kind k).values.map (fun slot => .value (g slot))
        ++ List.zipWith settle (s.schema.kind k).children fs) ↔
      (∀ slot ∈ (s.schema.kind k).values, slot.type.accepts (g slot) = true) ∧
      ∀ slot ∈ (s.schema.kind k).children, (d slot).Suits s.schema slot.type := by
  have hlength : fs.length = (s.schema.kind k).children.length := by
    rw [hfs.length_eq, List.length_map]
  have heach : (∀ p ∈ (s.schema.kind k).slots.zip
        ((s.schema.kind k).values.map (fun slot => Filling.value (g slot))
          ++ List.zipWith settle (s.schema.kind k).children fs), s.Suits p.1 p.2) ↔
      (∀ slot ∈ (s.schema.kind k).values, slot.type.accepts (g slot) = true) ∧
      ∀ slot ∈ (s.schema.kind k).children, (d slot).Suits s.schema slot.type := by
    rw [Kind.slots, List.zip_append (by rw [List.length_map, List.length_map]),
      List.forall_mem_append, forall_mem_zip_settle_iff hs hlawful hfs, List.zip_map',
      List.forall_mem_map]
    exact Iff.rfl
  rw [← heach]
  refine ⟨SuitsAll.each, fun h => ⟨?_, h⟩⟩
  rw [List.length_append, List.length_map, List.length_zipWith, hlength, Nat.min_self,
    Kind.slotCount]

/-! ### When an operation succeeds -/

/-- In `s` the operation succeeds exactly under the condition `P`, unless the store is full, and
    room for `k` more nodes is enough for it. -/
def Decides {α : Type} (P : Prop) (k : Nat) (x : Edit α) (s : Store) : Prop :=
  match x s with
  | .ok _ s' => P ∧ s'.live ≤ s.live + k
  | .error e _ => (e = .storeFull → maxNodes < s.live + k) ∧ (e ≠ .storeFull → ¬ P)

section

variable {α β : Type} {P Q : Prop} {k l : Nat} {s : Store}

/-- Only the outcome matters. -/
theorem Decides.congr {x y : Edit α} (h : Decides P k y s) (hxy : x s = y s) : Decides P k x s := by
  unfold Decides at h ⊢
  rwa [hxy]

/-- Conditions that say the same decide the same. -/
theorem Decides.iff {x : Edit α} (h : Decides P k x s) (hPQ : P ↔ Q) : Decides Q k x s :=
  propext hPQ ▸ h

theorem decides_pure (a : α) : Decides True 0 (pure a) s := ⟨True.intro, Nat.le_refl _⟩

/-- Of two operations one after the other both must succeed. -/
theorem Decides.bind {x : Edit α} {f : α → Edit β} (hx : Decides P k x s)
    (hf : ∀ a s', x s = .ok a s' → Decides Q l (f a) s') :
    Decides (P ∧ Q) (k + l) (x >>= f) s := by
  unfold Decides at hx ⊢
  rw [bind_apply]
  cases hxs : x s with
  | error e s' =>
    rw [hxs] at hx
    obtain ⟨hfull, hnot⟩ := hx
    -- the first step fails, for want of room or because its condition does not hold
    exact ⟨fun he => Nat.lt_of_lt_of_le (hfull he) (by omega), fun he h => hnot he h.1⟩
  | ok a s' =>
    rw [hxs] at hx
    obtain ⟨hP, hlive⟩ := hx
    have hfa := hf a s' hxs
    unfold Decides at hfa
    dsimp only
    cases hfs : f a s' with
    | error e s'' =>
      rw [hfs] at hfa
      obtain ⟨hfull, hnot⟩ := hfa
      exact ⟨fun he => Nat.lt_of_lt_of_le (hfull he) (by omega), fun he h => hnot he h.2⟩
    | ok b s'' =>
      rw [hfs] at hfa
      obtain ⟨hQ, hlive'⟩ := hfa
      exact ⟨⟨hP, hQ⟩, by omega⟩

/-- If the store is not full, an operation that decides something succeeds just if it is so. -/
theorem Decides.exists_iff {x : Edit α} (h : Decides P k x s)
    (hroom : ∀ s', x s ≠ .error .storeFull s') : (∃ a s', x s = .ok a s') ↔ P := by
  unfold Decides at h
  cases hx : x s with
  | ok a s' =>
    rw [hx] at h
    exact ⟨fun _ => h.1, fun _ => ⟨a, s', rfl⟩⟩
  | error e s' =>
    rw [hx] at h
    have he : e ≠ .storeFull := fun he => hroom s' (he ▸ hx)
    exact ⟨by simp, fun hP => absurd hP (h.2 he)⟩

/-- With room for all nodes that may be made the store is not full. -/
theorem Decides.hasRoom {x : Edit α} (h : Decides P k x s) (hroom : s.live + k ≤ maxNodes)
    (s' : Store) : x s ≠ .error .storeFull s' := by
  intro hx
  unfold Decides at h
  rw [hx] at h
  exact absurd (h.1 rfl) (Nat.not_lt.mpr hroom)

end

/-- A node is made if its arguments suit its slots, and takes one place. -/
theorem WellFormed.decides_constructAnnotated {s : Store} (hs : s.WellFormed) (k : KindId)
    (args : List Filling) (notes : List (String × Value)) :
    Decides (s.SuitsAll k args) 1 (constructAnnotated k args notes) s := by
  unfold Decides
  rw [← exists_fill_iff]
  cases hfill : s.fill k args with
  | error e =>
    rw [constructAnnotated_of_fill_error hfill]
    exact ⟨fun he => absurd (he ▸ hfill) fill_ne_storeFull, by simp⟩
  | ok n =>
    by_cases hroom : s.live < maxNodes
    · obtain ⟨h, s', hmake⟩ := hs.exists_constructAnnotated hfill hroom notes
      obtain ⟨-, -, -, hlive, -⟩ := exists_of_constructAnnotated hs.booked.freePlaces hmake
      rw [hmake]
      exact ⟨⟨n, rfl⟩, hlive.le⟩
    · rw [hs.constructAnnotated_eq_storeFull hfill (Nat.le_of_not_lt hroom)]
      exact ⟨fun _ => by omega, fun he => absurd rfl he⟩

/-! ### Restoring -/

/-- A kind has a value slot of a name if one is found. -/
theorem exists_valueSlot_iff {kind : Kind} {name : String} :
    (∃ slot ∈ kind.values, slot.name = name) ↔ kind.valueIndex? name ≠ none := by
  simp [Kind.valueIndex?, List.findIdx?_eq_none_iff]

/-- So it is for child slots. -/
theorem exists_childSlot_iff {kind : Kind} {name : String} :
    (∃ slot ∈ kind.children, slot.name = name) ↔ kind.childIndex? name ≠ none := by
  simp [Kind.childIndex?, List.findIdx?_eq_none_iff]

/-- Values are placed if there is a slot for each of them. -/
theorem exists_placeValues_iff {kind : Kind} {entries : List (String × Value)}
    {fs : List Filling} :
    (∃ vs, placeValues kind entries fs = .ok vs) ↔
      ∀ entry ∈ entries, ∃ slot ∈ kind.values, slot.name = entry.1 := by
  induction entries generalizing fs with
  | nil => simp [placeValues]
  | cons entry rest ih =>
    obtain ⟨name, v⟩ := entry
    rw [List.forall_mem_cons, exists_valueSlot_iff, placeValues]
    cases kind.valueIndex? name with
    | none => simp
    | some i => simpa using ih

section

variable {schema : Schema} {n : Nat}
  (hrebuild : ∀ (t : Snapshot) (s : Store), s.WellFormed → s.schema = schema →
    Decides (t.ConformsWithin schema n) t.size (rebuild n t) s)
include hrebuild

/-- Several snapshots are restored if all of them conform. -/
theorem decides_restoreAll (ts : List Snapshot) {s : Store} (hs : s.WellFormed)
    (hschema : s.schema = schema) :
    Decides (∀ t ∈ ts, t.ConformsWithin schema n) (Snapshot.sizeAll ts)
      (restoreAll (rebuild n) ts) s := by
  induction ts generalizing s with
  | nil => exact ⟨by simp, Nat.le_refl _⟩
  | cons t ts ih =>
    have hall : Decides (t.ConformsWithin schema n ∧ (∀ u ∈ ts, u.ConformsWithin schema n) ∧ True)
        (t.size + (Snapshot.sizeAll ts + 0))
        (rebuild n t >>= fun h => restoreAll (rebuild n) ts >>= fun hs => pure (h :: hs)) s := by
      refine (hrebuild t s hs hschema).bind fun h s₁ hh => ?_
      obtain ⟨hs₁, hp⟩ := (carries_rebuild s n t []).of_ok hs hh
      exact (ih hs₁ (hp.schema.trans hschema)).bind fun xs s₂ _ => decides_pure _
    rw [Snapshot.sizeAll]
    exact (hall.congr (restoreAll_cons _ t ts s)).iff (by rw [and_true, List.forall_mem_cons])

/-- So is the content of a slot. -/
theorem decides_restoreChild (c : Snapshot.Child) {s : Store} (hs : s.WellFormed)
    (hschema : s.schema = schema) :
    Decides (∀ t ∈ c.snapshots, t.ConformsWithin schema n) (Snapshot.sizeChild c)
      (restoreChild (rebuild n) c) s := by
  cases c with
  | absent => exact ⟨by simp [Snapshot.Child.snapshots], Nat.le_refl _⟩
  | node t =>
    have hnode := (hrebuild t s hs hschema).bind fun h s₁ _ =>
      decides_pure (Filling.one (some h))
    rw [Snapshot.sizeChild]
    exact (hnode.congr (restoreChild_node _ t s)).iff (by simp [Snapshot.Child.snapshots])
  | list ts =>
    have hlist := (decides_restoreAll hrebuild ts hs hschema).bind fun xs s₁ _ =>
      decides_pure (Filling.many xs)
    rw [Snapshot.sizeChild]
    exact (hlist.congr (restoreChild_list _ ts s)).iff (by simp [Snapshot.Child.snapshots])

/-- The contents of slots are restored if there is a slot for each of them and all that is in them
    conforms. -/
theorem decides_placeChildren (kind : Kind) (entries : List (String × Snapshot.Child))
    (fs : List Filling) {s : Store} (hs : s.WellFormed) (hschema : s.schema = schema) :
    Decides ((∀ entry ∈ entries, ∃ slot ∈ kind.children, slot.name = entry.1) ∧
        ∀ entry ∈ entries, ∀ t ∈ entry.2.snapshots, t.ConformsWithin schema n)
      (Snapshot.sizeEntries entries) (placeChildren (rebuild n) kind entries fs) s := by
  induction entries generalizing fs s with
  | nil => exact ⟨by simp, Nat.le_refl _⟩
  | cons entry rest ih =>
    obtain ⟨name, c⟩ := entry
    rw [List.forall_mem_cons, List.forall_mem_cons, exists_childSlot_iff]
    cases hi : kind.childIndex? name with
    | none =>
      unfold Decides
      rw [placeChildren, hi]
      exact ⟨by simp, fun _ h => h.1.1 rfl⟩
    | some i =>
      -- restoring the entry leaves a well-formed store of the same schema for the rest
      have hentry := (decides_restoreChild hrebuild c hs hschema).bind fun f s₁ hf => by
        obtain ⟨hs₁, hp⟩ := (carries_restoreChild (carries_rebuild s n) c []).of_ok hs hf
        exact ih (fs.set i f) hs₁ (hp.schema.trans hschema)
      rw [Snapshot.sizeEntries]
      refine (hentry.congr (placeChildren_cons _ hi c rest fs s)).iff ?_
      simp only [ne_eq, reduceCtorEq, not_false_eq_true, true_and]
      exact and_left_comm

end

/-- A node can be made from what its slots were restored to exactly if the last entry of each slot
    suits the slot. -/
theorem decides_make {n : Nat} {s s₁ : Store} (hlawful : s.schema.Lawful) (hs : s.WellFormed)
    {k : KindId} {values : List (String × Value)} {children : List (String × Snapshot.Child)}
    {vs cs : List Filling}
    (hvs : placeValues (s.schema.kind k) values
      (List.replicate (s.schema.kind k).values.length (.value .null)) = .ok vs)
    (hcs : placeChildren (rebuild n) (s.schema.kind k) children
      (List.replicate (s.schema.kind k).children.length (.one none)) s = .ok cs s₁)
    (notes : List (String × Value)) :
    Decides (Snapshot.LastSuits s.schema (s.schema.kind k) values children) 1
      (constructAnnotated k (vs ++ List.zipWith settle (s.schema.kind k).children cs) notes)
      s₁ := by
  obtain ⟨hs₁, hp⟩ := preserves_of_placeChildren hs hcs
  have hholds := holds_placeChildren hlawful (fun t s r s' => capture_rebuild hlawful) hs rfl
    (forall₂_holds_vacant s n (s.schema.kind k).children) hcs
  rw [fillings_placeValues_null (List.nodup_append.mp (hlawful.slots k)).1 hvs,
    Snapshot.lastSuits_iff]
  rw [← hp.schema] at hlawful hholds ⊢
  exact (hs₁.decides_constructAnnotated k _ notes).iff (suitsAll_iff_of_holds hs₁ hlawful hholds)

/-- **Restoring succeeds exactly on what conforms**, as long as there is room. -/
theorem decides_rebuild {schema : Schema} (hlawful : schema.Lawful) (n : Nat) (t : Snapshot)
    {s : Store} (hs : s.WellFormed) (hschema : s.schema = schema) :
    Decides (t.ConformsWithin schema n) t.size (rebuild n t) s := by
  induction n generalizing t s with
  | zero => exact ⟨by simp, fun _ => Snapshot.not_conformsWithin_zero schema t⟩
  | succ n ih =>
    obtain ⟨name, values, children, notes⟩ := t
    subst hschema
    rw [Snapshot.conformsWithin_succ_iff]
    cases hk : s.schema.kindByName? name with
    -- a name that no kind has
    | none =>
      unfold Decides
      rw [rebuild, hk]
      refine ⟨by simp, ?_⟩
      rintro - ⟨⟨k, hknown, -⟩, -⟩
      rw [hk] at hknown
      cases hknown
    | some k =>
      cases hvs : placeValues (s.schema.kind k) values
          (List.replicate (s.schema.kind k).values.length (.value .null)) with
      -- a value without a slot for it
      | error e =>
        unfold Decides
        simp only [rebuild, hk, hvs]
        refine ⟨fun he => absurd (he ▸ hvs) placeValues_ne_storeFull, ?_⟩
        rintro - ⟨⟨l, hl, hnames, -⟩, -⟩
        rw [hk, Option.some.injEq] at hl
        subst hl
        obtain ⟨vs, hok⟩ := exists_placeValues_iff.mpr hnames
        rw [hvs] at hok
        cases hok
      | ok vs =>
        -- the children below first, and then whether the node takes them
        have hnode := (decides_placeChildren (fun t s hs hschema => ih t hs hschema)
          (s.schema.kind k) children
          (List.replicate (s.schema.kind k).children.length (.one none)) hs rfl).bind
          fun cs s₁ hcs => decides_make hlawful hs hvs hcs notes.entries
        rw [Snapshot.size]
        refine (hnode.congr (rebuild_succ hk hvs)).iff ?_
        have hnames := exists_placeValues_iff.mp ⟨vs, hvs⟩
        simp only [Snapshot.Proper, hk, Option.some.injEq, exists_eq_left', Snapshot.nested,
          List.forall_mem_flatMap, and_iff_right hnames]
        exact and_right_comm

/-- **Which snapshots can be restored.**  Unless the store gets full, a snapshot can be restored
    exactly if it conforms to the schema, and the store does not get full if there is room for
    all nodes of the snapshot.  Whether restoring succeeds or fails, all nodes that were there are
    as they were and refer to none that were added; so a sweep from all nodes that were there
    takes back those that were added, and nothing else. -/
theorem restore_exact {schema : Schema} (hbuilt : schema.Built) {s : Store}
    (hs : Reachable schema s) (snap : Snapshot) :
    ((∀ s', restore snap s ≠ .error .storeFull s') →
      ((∃ r s', restore snap s = .ok r s') ↔ snap.Conforms schema)) ∧
    (s.live + snap.size ≤ maxNodes → ∀ s', restore snap s ≠ .error .storeFull s') ∧
    Untouched s (after (restore snap) s) ∧
    ∀ old, (∀ h, h ∈ old ↔ s.isAlive h = true) →
      ∃ s'', sweep old (after (restore snap) s)
          = .ok (added s (after (restore snap) s)).length s'' ∧ SameNodes s s'' := by
  have hwf := hs.wellFormed_store
  have hdecides := decides_rebuild hbuilt.lawful Snapshot.maxDepth snap hwf hs.schema_eq
  obtain ⟨roots, hsprouts⟩ := exists_sprouts_restore hwf snap
  have huntouched := hsprouts.untouched hwf
  have hwf' := hwf.steps (Growths.restore snap s).steps
  exact ⟨hdecides.exists_iff, hdecides.hasRoom, huntouched, fun old => huntouched.sweep hwf hwf'⟩

end Store

/-! ### A snapshot that does not conform -/

namespace Sample

/-- A group whose next item is taken back for a list of items, which the slot does not take. -/
def unfit : Snapshot :=
  .mk "group" [] [("next", .node bare), ("next", .list [bare])] Notes.empty

/-- The group in disorder conforms.  This one does not; restoring it leaves two items behind, and
    a sweep takes them back. -/
theorem restore_unfit_tangle :
    untidy.Conforms schema ∧ ¬ unfit.Conforms schema ∧
      ∃ s'', Store.sweep tangle.handles (after (Store.restore unfit) tangle) = .ok 2 s'' ∧
        Store.SameNodes tangle s'' := by
  have htidied : Store.restore untidy tangle
      = .ok ⟨6, 0⟩ (after (Store.restore untidy) tangle) := by decide +kernel
  have hunfit : Store.restore unfit tangle
      = .error (.typeMismatch "next" (.one "item") .nodeList)
        (after (Store.restore unfit) tangle) := by decide +kernel
  have hadded : (Store.added tangle (after (Store.restore unfit) tangle)).length = 2 := by
    decide +kernel
  obtain ⟨hiff, -, -, -⟩ := Store.restore_exact built reachable_tangle untidy
  obtain ⟨hiff', -, -, hsweep⟩ := Store.restore_exact built reachable_tangle unfit
  obtain ⟨s'', htaken, hsame⟩ := hsweep tangle.handles fun _ => Store.mem_handles_iff
  rw [hadded] at htaken
  refine ⟨(hiff ?_).mp ⟨_, _, htidied⟩, fun hconforms => ?_, s'', htaken, hsame⟩
  · intro s' hfull
    rw [htidied] at hfull
    cases hfull
  · obtain ⟨r, s', hok⟩ := (hiff' (by rw [hunfit]; simp)).mpr hconforms
    rw [hunfit] at hok
    cases hok

end Sample

end TypedForest
