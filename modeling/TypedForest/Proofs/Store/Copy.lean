import TypedForest.Proofs.Snapshot.Capture
import TypedForest.Proofs.Store.Recursion
import TypedForest.Proofs.Wire.RoundTrip

namespace TypedForest

/-!
# Copies of a tree

There are three ways to copy a tree within its store: through bytes, through a snapshot, and by
a revision that makes copies and whose callback keeps what it is given.  All three do what
planting the tree does, so they make the same nodes in the same places (`Store.copies_agree`).

* `Revision.copies_of_unfolds` : the revision plants the tree.

The revision is followed as a recursion, slot by slot as planting goes (`Revision.bottomUp`).  It
reads the nodes that it copies from the store that it changes; `Ready` is what makes sure that it
finds them as they were.
-/

namespace Revision

/-- The callback that keeps what it is given. -/
def keep {τ : Type} (h : Handle) : Action τ (Option Handle) := pure (some h)

/-! ### Operations that succeed -/

/-- An operation succeeds and takes the store from `s` to `s'`, whatever the other state. -/
def Yields {τ α : Type} (x : Attempt τ α) (s : Store) (r : α) (s' : Store) : Prop :=
  ∀ c, x (s, c) = some (.ok r (s', c))

/-- Steps that yield something one after the other. -/
theorem Yields.bind {τ α β : Type} {x : Attempt τ α} {f : α → Attempt τ β} {s s₁ s₂ : Store}
    {r : α} {q : β} (hx : Yields x s r s₁) (hf : Yields (f r) s₁ q s₂) :
    Yields (x >>= f) s q s₂ := by
  intro c
  rw [attempt_bind_apply, hx c]
  exact hf c

/-- A result may be changed without a look at the store. -/
theorem Yields.bind_pure {τ α β : Type} {x : Attempt τ α} {s s₁ : Store} {r : α}
    (hx : Yields x s r s₁) (f : α → β) : Yields (x >>= fun a => pure (f a)) s (f r) s₁ :=
  hx.bind fun _ => rfl

/-- An operation on the store that succeeds. -/
theorem yields_onStore {τ α : Type} {x : Edit α} {s s' : Store} {r : α} (hx : x s = .ok r s') :
    Yields (perform (onStore x) : Attempt τ α) s r s' := by
  intro c
  rw [perform, onStore, hx]

/-- A node that is there can be read. -/
theorem yields_readNode {τ : Type} {s : Store} {x : Handle} {n : Node}
    (hn : s.node? x = some n) : Yields (perform (onStore (readNode x)) : Attempt τ Node) s n s := by
  refine yields_onStore ?_
  simp only [readNode, Store.get, hn]

/-- A copy of a node has its notes. -/
theorem yields_copyNode {τ : Type} {s s' : Store} {x h : Handle} {n : Node}
    (hn : s.node? x = some n) {values : List Value} {fillings : List Filling}
    (hc : Store.construct n.kind (values.map .value ++ fillings) s = .ok h s') :
    Yields (perform (onStore (copyNode x values fillings)) : Attempt τ Handle) s h
      (s'.modifyNode h fun m => { m with notes := n.notes }) := by
  intro c
  simp only [perform, onStore, copyNode, Store.bind_apply, readNode, Store.get, hn, hc]
  rfl

/-! ### The store during the revision -/

/-- In `s`, all nodes of `a` are as they were, and there is room for `k` more nodes. -/
structure Ready (a s : Store) (k : Nat) : Prop where
  wellFormed : s.WellFormed
  schema : s.schema = a.schema
  keeps : ∀ x n, a.node? x = some n → s.node? x = some n
  room : s.live + k ≤ Store.maxNodes

/-- A store that is ready for many nodes is ready for fewer. -/
theorem Ready.mono {a s : Store} {k l : Nat} (hs : Ready a s l) (hkl : k ≤ l) : Ready a s k :=
  ⟨hs.wellFormed, hs.schema, hs.keeps, by have := hs.room; omega⟩

/-- The recursion that comes to the node plants the tree. -/
def Copies (τ : Type) (a : Store) (x : Handle) (t : Tree) : Prop :=
  ∀ s h s', Ready a s t.size → t.plant s = .ok h s' →
    Yields (bottomUp .copy keep x : Attempt τ (Option Handle)) s (some h) s'

section

variable {a : Store} (ha : a.WellFormed) (hlawful : a.schema.Lawful)
include ha hlawful

/-- Planting a tree of `a` takes up the room for it and leaves all else as it was. -/
theorem Ready.plant {x : Handle} {t : Tree} (hx : a.Unfolds x t) {s s' : Store} {k : Nat}
    (hs : Ready a s (t.size + k)) {h : Handle} (hplant : t.plant s = .ok h s') :
    Ready a s' k := by
  have hroom := hs.room
  obtain ⟨h', s'', hplant', hplanted⟩ :=
    t.plant_spec ha hlawful hx hs.wellFormed hs.schema (by omega)
  rw [hplant, EStateM.Result.ok.injEq] at hplant'
  obtain ⟨-, rfl⟩ := hplant'
  refine ⟨hs.wellFormed.steps hplanted.steps, hplanted.steps.schema.trans hs.schema,
    fun y n hn => hplanted.sprouts.keeps y n (hs.keeps y n hn), ?_⟩
  rw [hplanted.live, Tree.sizeAll, Tree.sizeAll]
  omega

/-- Planting several trees uses up as much room as they have nodes. -/
theorem Ready.plantAll {xs : List Handle} {ts : List Tree} (hxs : List.Forall₂ a.Unfolds xs ts)
    {s s' : Store} {k : Nat} (hs : Ready a s (Tree.sizeAll ts + k)) {hs' : List Handle}
    (hplant : Tree.plantAll ts s = .ok hs' s') : Ready a s' k := by
  induction hxs generalizing s hs' with
  | nil =>
    cases hplant
    exact hs.mono (by omega)
  | @cons x t xs ts hx _ ih =>
    obtain ⟨h, s₁, ks, hfirst, hks, rfl⟩ := Tree.plantAll_cons_eq_ok_iff.mp hplant
    rw [Tree.sizeAll, Nat.add_assoc] at hs
    exact ih (hs.plant ha hlawful hx hfirst) hks

/-! ### Whole trees -/

variable {τ : Type}

/-- The items of a list, one after the other. -/
theorem yields_items {xs : List Handle} {ts : List Tree} (hxs : List.Forall₂ a.Unfolds xs ts)
    (hcopies : List.Forall₂ (Copies τ a) xs ts) {s s' : Store} (hs : Ready a s (Tree.sizeAll ts))
    {hs' : List Handle} (hplant : Tree.plantAll ts s = .ok hs' s') :
    Yields (xs.filterMapM (bottomUp .copy keep) : Attempt τ (List Handle)) s hs' s' := by
  induction hxs generalizing s hs' with
  | nil =>
    cases hplant
    exact fun c => rfl
  | @cons x t xs ts hx _ ih =>
    obtain ⟨hfirst, hrest⟩ := List.forall₂_cons.mp hcopies
    obtain ⟨h, s₁, ks, hplant₁, hks, rfl⟩ := Tree.plantAll_cons_eq_ok_iff.mp hplant
    rw [Tree.sizeAll] at hs
    rw [List.filterMapM_cons]
    refine (hfirst s h s₁ (hs.mono (by omega)) hplant₁).bind ?_
    exact (ih hrest (hs.plant ha hlawful hx hplant₁) hks).bind_pure (h :: ·)

/-- One slot of any shape. -/
theorem yields_slot {d : Content} {ts : List Tree} (hd : List.Forall₂ a.Unfolds d.nodes ts)
    (hcopies : List.Forall₂ (Copies τ a) d.nodes ts) (x : Handle) (i : Nat) {s s' : Store}
    (hs : Ready a s (Tree.sizeAll ts)) {hs' : List Handle}
    (hplant : Tree.plantAll ts s = .ok hs' s') :
    Yields (reviseSlot .copy (bottomUp .copy keep) x d i : Attempt τ Filling) s
      (d.shape.content hs').toFilling s' := by
  rw [reviseSlot, bind_pure]
  cases d with
  | one node =>
    cases node with
    | none =>
      obtain rfl : ts = [] := List.forall₂_nil_left_iff.mp hd
      cases hplant
      exact fun c => rfl
    | some y =>
      obtain ⟨t, ts, hy, hnil, rfl⟩ := List.forall₂_cons_left_iff.mp hcopies
      obtain rfl : ts = [] := List.forall₂_nil_left_iff.mp hnil
      obtain ⟨h, s₁, ks, hfirst, hks, rfl⟩ := Tree.plantAll_cons_eq_ok_iff.mp hplant
      cases hks
      rw [Tree.sizeAll, Tree.sizeAll] at hs
      exact (hy s h s' hs hfirst).bind_pure Filling.one
  | many ys => exact (yields_items ha hlawful hd hcopies hs hplant).bind_pure Filling.many

/-- A row of slots. -/
theorem yields_slots {ds : List Content} {ts : List Tree}
    (hds : List.Forall₂ a.Unfolds (ds.flatMap Content.nodes) ts)
    (hcopies : List.Forall₂ (Copies τ a) (ds.flatMap Content.nodes) ts) (x : Handle) (i : Nat)
    {s s' : Store} (hs : Ready a s (Tree.sizeAll ts)) {hs' : List Handle}
    (hplant : Tree.plantAll ts s = .ok hs' s') :
    Yields ((ds.zipIdx i).mapM fun (d, i) => reviseSlot .copy (bottomUp .copy keep) x d i :
        Attempt τ (List Filling)) s
      ((Shape.regroup (ds.map Content.shape) hs').map Content.toFilling) s' := by
  induction ds generalizing ts s hs' i with
  | nil =>
    cases hds
    cases hplant
    exact fun c => rfl
  | cons d ds ih =>
    rw [List.flatMap_cons] at hds hcopies
    -- the trees of the first slot, and all others
    obtain ⟨ts₁, ts₂, hds₁, hds₂, rfl⟩ := forall₂_append_left hds
    obtain ⟨us₁, us₂, hcopies₁, hcopies₂, husplit⟩ := forall₂_append_left hcopies
    -- both rows are cut at the same place
    have hlength : ts₁.length = us₁.length := hds₁.length_eq.symm.trans hcopies₁.length_eq
    obtain ⟨rfl, rfl⟩ := List.append_inj husplit hlength
    obtain ⟨hs₁, s₁, hs₂, h₁, h₂, rfl⟩ := Tree.plantAll_append_eq_ok hplant
    have hhs₁ : hs₁.length = d.shape.arity := by
      rw [Tree.length_of_plantAll h₁, ← hds₁.length_eq, d.length_nodes]
    rw [Tree.sizeAll_append] at hs
    have hfirst := yields_slot ha hlawful hds₁ hcopies₁ x i
      (hs.mono (Nat.le_add_right _ _)) h₁
    have hrest := ih hds₂ hcopies₂ (i + 1) (hs.plantAll ha hlawful hds₁ h₁) h₂
    rw [List.zipIdx_cons, List.mapM_cons, List.map_cons, Shape.regroup, List.take_left' hhs₁,
      List.drop_left' hhs₁, List.map_cons]
    exact hfirst.bind (hrest.bind_pure ((d.shape.content hs₁).toFilling :: ·))

/-- **Copying by revision.**  A revision that keeps what it is given plants the tree. -/
theorem copies_of_unfolds {x : Handle} {t : Tree} (hx : a.Unfolds x t) : Copies τ a x t := by
  induction t generalizing x with
  | node l ts ih =>
    obtain ⟨m, hm, rfl, hts⟩ := Store.unfolds_node_iff.mp hx
    have hcopies : List.Forall₂ (Copies τ a) m.childNodes ts :=
      forall₂_imp_of_mem hts fun c u hu hcu => ih u hu hcu
    intro s h s' hs hplant
    obtain ⟨hs', s₁, hall, -, hroot⟩ :=
      Tree.plant_node_eq_ok hlawful (ha.nodes x m hm).kind hs.schema hplant
    have hsize : (Tree.node (a.label m) ts).size = Tree.sizeAll ts + 1 := by
      rw [Tree.size, Nat.add_comm]
    rw [hsize] at hs
    have hs₁ : Ready a s₁ 1 := hs.plantAll ha hlawful hts hall
    rw [bottomUp_eq, reviseNode]
    refine (yields_readNode (hs.keeps x m hm)).bind ?_
    refine (yields_slots ha hlawful hts hcopies x 0 (hs.mono (Nat.le_add_right _ _)) hall).bind ?_
    -- the node is still there, and its copy is made as planting makes it
    obtain ⟨s₂, hconstruct, hs'⟩ :=
      Store.construct_of_constructAnnotated hs₁.wellFormed.booked.freePlaces hroot
    rw [Notes.ofList_entries] at hs'
    subst hs'
    rw [perform_bind]
    exact (yields_copyNode (hs₁.keeps x m hm) hconstruct).bind fun c => rfl

end

/-- A revision that keeps every node copies the tree below its root. -/
theorem revise_of_copies {τ : Type} {a : Store} {x : Handle} {t : Tree} (hx : Copies τ a x t)
    {s s' : Store} (hs : Ready a s t.size) {h : Handle} (hplant : t.plant s = .ok h s') (c : τ) :
    Store.revise .copy keep x (s, c) = .ok (some h) (s', c) :=
  revise_of_bottomUp? (hx s h s' hs hplant c)

end Revision

/-- **Three copies.**  A tree without cycles, with at most 256 nodes below each other and at most
    128 lists inside each other in its values, can be copied within its store through bytes,
    through a snapshot, and by a revision that keeps what it is given.  If there is room, all
    three succeed, return the same handle and leave the same store. -/
theorem Store.copies_agree {schema : Schema} (hbuilt : schema.Built) {s : Store}
    (hs : Reachable schema s) (hwords : s.Addressable) {root : Handle}
    (halive : s.isAlive root = true) (hacyclic : s.Acyclic root)
    (hshallow : s.ShallowBelow root) :
    ∃ t, s.Unfolds root t ∧
      (t.height ≤ Snapshot.maxDepth → s.live + t.size ≤ maxNodes →
        ∃ b snap r s', s.encode root = .ok b ∧ decode b s = .ok r s' ∧
          s.snapshot root = .ok snap ∧ restore snap s = .ok r s' ∧
          ∀ (τ : Type) (c : τ),
            revise .copy Revision.keep root (s, c) = .ok (some r) (s', c)) := by
  have hwf := hs.wellFormed_store
  have hlawful := hs.lawful hbuilt
  obtain ⟨t, ht⟩ := exists_unfolds hwf halive hacyclic
  refine ⟨t, ht, fun hheight hroom => ?_⟩
  have hall : t.All Label.Shallow := ht.all_shallow_iff.mpr hshallow
  have hwritable : Wire.Writable s t := ⟨⟨root, ht⟩, ht.all_fits hwords, hall⟩
  obtain ⟨r, s', hplant, -⟩ := t.plant_spec hwf hlawful ht hwf rfl hroom
  obtain ⟨snap, hsnap, hrestores⟩ := capture_of_unfolds hwf hlawful ht hheight
  have hready : Revision.Ready s s t.size := ⟨hwf, rfl, fun _ _ hn => hn, hroom⟩
  refine ⟨_, snap, r, s', (Wire.encode_of_unfolds ht).1 hall, ?_, hsnap, ?_, fun τ c => ?_⟩
  · exact Wire.decode_treeBytes hwf hlawful hwritable rfl hplant
  · exact hrestores s s' r rfl hplant
  · exact Revision.revise_of_copies (Revision.copies_of_unfolds hwf hlawful ht) hready hplant c

/-- The group that holds its item three times is copied in three ways. -/
theorem Sample.copies_agree_noted :
    ∃ b snap r s', noted.encode ⟨1, 0⟩ = .ok b ∧ Store.decode b noted = .ok r s' ∧
      noted.snapshot ⟨1, 0⟩ = .ok snap ∧ Store.restore snap noted = .ok r s' ∧
      Store.revise .copy Revision.keep ⟨1, 0⟩ (noted, ()) = .ok (some r) (s', ()) := by
  obtain ⟨t, ht, hcopies⟩ := Store.copies_agree built reachable_noted addressable_noted
    unfolds_noted.isAlive unfolds_noted.acyclic (shallowBelow_noted ⟨1, 0⟩)
  rw [ht.unique unfolds_noted] at hcopies
  obtain ⟨b, snap, r, s', hencode, hdecode, hsnap, hrestore, hrevise⟩ :=
    hcopies (by decide) (by decide +kernel)
  exact ⟨b, snap, r, s', hencode, hdecode, hsnap, hrestore, hrevise Unit ()⟩

end TypedForest
