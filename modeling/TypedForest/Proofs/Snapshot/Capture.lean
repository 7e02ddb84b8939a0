import TypedForest.Proofs.Tree.Planting
import TypedForest.Snapshot.Capture

namespace TypedForest.Store

/-!
# Snapshots of trees

A tree that is not too high can be captured, and restoring the snapshot does what planting the
tree does (`capture_of_unfolds`).

Restoring starts from fillings that stand for vacant slots and puts what it makes into the slot
of its name.  The lemmas about rows of slots therefore speak of the slots that are left after
those in front, whose fillings are done.
-/

theorem set_append_replicate {α : Type} (done : List α) (n : Nat) (x y : α) :
    (done ++ List.replicate (n + 1) x).set done.length y = (done ++ [y]) ++ List.replicate n x := by
  simp [List.replicate_succ]

/-! ### Values -/

/-- Values under the names of the slots go to the slots. -/
theorem placeValues_zip {schema : Schema} (hlawful : schema.Lawful) {k : KindId}
    (front : List ValueSlot) {slots : List ValueSlot}
    (hkind : (schema.kind k).values = front ++ slots) {vs : List Value}
    (hlength : slots.length = vs.length) (done : List Filling)
    (hdone : done.length = front.length) :
    placeValues (schema.kind k) ((slots.zip vs).map fun (slot, v) => (slot.name, v))
      (done ++ List.replicate slots.length (.value .null)) = .ok (done ++ vs.map .value) := by
  induction slots generalizing front vs done with
  | nil =>
    obtain rfl := List.length_eq_zero_iff.mp hlength.symm
    simp [placeValues]
  | cons slot slots ih =>
    obtain ⟨v, vs, rfl⟩ := List.exists_cons_of_length_eq_add_one hlength.symm
    -- the name finds the first slot that is left, right after those in front
    have hindex : (schema.kind k).valueIndex? slot.name = some done.length := by
      refine hlawful.valueIndex?_name ?_
      rw [hkind, hdone]
      simp
    have hrest := ih (front ++ [slot]) (by rw [hkind]; simp) (Nat.succ.inj hlength)
      (done ++ [.value v]) (by simp [hdone])
    rw [List.zip_cons_cons, List.map_cons, placeValues, hindex]
    dsimp only
    rw [List.length_cons, set_append_replicate, hrest]
    simp

/-! ### Children -/

/-- Restoring the snapshot does what planting the tree does. -/
def Restores (schema : Schema) (n : Nat) (snap : Snapshot) (t : Tree) : Prop :=
  ∀ s s' h, s.schema = schema → t.plant s = .ok h s' → rebuild n snap s = .ok h s'

/-- The tree can be captured from the node, so that it can be restored. -/
def Captures (s : Store) (n : Nat) (h : Handle) (t : Tree) : Prop :=
  ∃ snap, s.capture n h = .ok snap ∧ Restores s.schema n snap t

/-- Snapshots that stand for trees are restored one after the other as the trees are planted. -/
theorem restoreAll_of_restores {schema : Schema} {n : Nat} {snaps : List Snapshot}
    {ts : List Tree} (h : List.Forall₂ (Restores schema n) snaps ts) {s s' : Store}
    (hs : s.schema = schema) {hs' : List Handle} (hplant : Tree.plantAll ts s = .ok hs' s') :
    restoreAll (rebuild n) snaps s = .ok hs' s' := by
  induction h generalizing s hs' with
  | nil =>
    cases hplant
    rfl
  | cons hhead _ ih =>
    obtain ⟨x, s₁, ks, hfirst, hks, rfl⟩ := Tree.plantAll_cons_eq_ok_iff.mp hplant
    have hrest := ih ((Tree.schema_of_plant hfirst).trans hs) hks
    rw [restoreAll_cons]
    exact bind_eq_ok_iff.mpr ⟨x, s₁, hhead s s₁ x hs hfirst,
      bind_eq_ok_iff.mpr ⟨ks, s', hrest, rfl⟩⟩

/-- Nodes that are captured stand for trees, one by one. -/
theorem mapM_capture {s : Store} {n : Nat} {hs : List Handle} {ts : List Tree}
    (h : List.Forall₂ (s.Captures n) hs ts) :
    ∃ snaps, hs.mapM (s.capture n) = .ok snaps ∧
      List.Forall₂ (Restores s.schema n) snaps ts := by
  induction h with
  | nil => exact ⟨[], rfl, .nil⟩
  | cons hhead _ ih =>
    obtain ⟨snap, hsnap, hrestores⟩ := hhead
    obtain ⟨snaps, hsnaps, hall⟩ := ih
    refine ⟨snap :: snaps, ?_, .cons hrestores hall⟩
    rw [List.mapM_cons, hsnap, hsnaps]
    rfl

/-- A slot is captured, and restoring it fills it with the new nodes. -/
theorem captureSlot_of_captures {a : Store} {n : Nat} {c : Content} {ts : List Tree}
    (h : List.Forall₂ (a.Captures n) c.nodes ts) :
    ∃ child, captureSlot (a.capture n) c = .ok child ∧
      ∀ s s' hs, s.schema = a.schema → Tree.plantAll ts s = .ok hs s' →
        restoreChild (rebuild n) child s = .ok (c.shape.content hs).toFilling s' := by
  match c, h with
  | .one none, .nil =>
    refine ⟨.absent, rfl, fun s s' hs _ hplant => ?_⟩
    cases hplant
    rfl
  | .one (some x), .cons hx .nil =>
    obtain ⟨snap, hsnap, hrestores⟩ := hx
    refine ⟨.node snap, by rw [captureSlot, hsnap]; rfl, fun s s' hs hschema hplant => ?_⟩
    obtain ⟨y, s₁, ks, hfirst, hks, rfl⟩ := Tree.plantAll_cons_eq_ok_iff.mp hplant
    cases hks
    rw [restoreChild_node]
    exact bind_eq_ok_iff.mpr ⟨y, s', hrestores s s' y hschema hfirst, rfl⟩
  | .many xs, hxs =>
    obtain ⟨snaps, hsnaps, hall⟩ := mapM_capture (show List.Forall₂ (a.Captures n) xs ts from hxs)
    refine ⟨.list snaps, by rw [captureSlot, hsnaps]; rfl, fun s s' hs hschema hplant => ?_⟩
    rw [restoreChild_list]
    exact bind_eq_ok_iff.mpr ⟨hs, s', restoreAll_of_restores hall hschema hplant, rfl⟩

/-- A row of slots is captured, and restoring it fills the slots with the new nodes. -/
theorem captureSlots_of_captures {a : Store} (hlawful : a.schema.Lawful) {n : Nat} {k : KindId}
    (front : List ChildSlot) {slots : List ChildSlot}
    (hkind : (a.schema.kind k).children = front ++ slots) {cs : List Content}
    (hlength : slots.length = cs.length) {ts : List Tree}
    (hts : List.Forall₂ (a.Captures n) (cs.flatMap Content.nodes) ts) :
    ∃ entries, ((slots.zip cs).mapM fun (slot, c) =>
        (captureSlot (a.capture n) c).map (slot.name, ·)) = .ok entries ∧
      ∀ s s' hs done, s.schema = a.schema → done.length = front.length →
        Tree.plantAll ts s = .ok hs s' →
        placeChildren (rebuild n) (a.schema.kind k) entries
            (done ++ List.replicate slots.length (.one none)) s
          = .ok (done ++ (Shape.regroup (cs.map Content.shape) hs).map Content.toFilling) s' := by
  induction slots generalizing front cs ts with
  | nil =>
    obtain rfl := List.length_eq_zero_iff.mp hlength.symm
    cases hts
    refine ⟨[], rfl, fun s s' hs done _ _ hplant => ?_⟩
    cases hplant
    rfl
  | cons slot slots ih =>
    obtain ⟨c, cs, rfl⟩ := List.exists_cons_of_length_eq_add_one hlength.symm
    rw [List.flatMap_cons] at hts
    -- the trees of the first slot, and all others
    obtain ⟨ts₁, ts₂, hts₁, hts₂, rfl⟩ := forall₂_append_left hts
    obtain ⟨child, hchild, hplace⟩ := captureSlot_of_captures hts₁
    obtain ⟨entries, hentries, hrest⟩ :=
      ih (front ++ [slot]) (by rw [hkind]; simp) (Nat.succ.inj hlength) hts₂
    refine ⟨(slot.name, child) :: entries, ?_, fun s s' hs done hschema hdone hplant => ?_⟩
    · rw [List.zip_cons_cons, List.mapM_cons, hentries]
      dsimp only
      rw [hchild]
      rfl
    · obtain ⟨hs₁, s₁, hs₂, h₁, h₂, rfl⟩ := Tree.plantAll_append_eq_ok hplant
      have hindex : (a.schema.kind k).childIndex? slot.name = some done.length := by
        refine hlawful.childIndex?_name ?_
        rw [hkind, hdone]
        simp
      have hhs₁ : hs₁.length = c.shape.arity := by
        rw [Tree.length_of_plantAll h₁, ← hts₁.length_eq, c.length_nodes]
      have hschema₁ : s₁.schema = a.schema := (Tree.schema_of_plantAll h₁).trans hschema
      have hlater := hrest s₁ s' hs₂ (done ++ [(c.shape.content hs₁).toFilling]) hschema₁
        (by simp [hdone]) h₂
      rw [placeChildren_cons (rebuild n) hindex, List.map_cons, Shape.regroup,
        List.take_left' hhs₁, List.drop_left' hhs₁]
      refine bind_eq_ok_iff.mpr ⟨_, s₁, hplace s s₁ hs₁ hschema h₁, ?_⟩
      rw [List.length_cons, set_append_replicate, hlater]
      simp

/-! ### Trees -/

/-- Fillings from the contents of a node are settled: a list slot is given a list. -/
theorem zipWith_settle {s : Store} {slots : List ChildSlot} {cs : List Content}
    (hcs : List.Forall₂ s.Admits slots cs) (hs : List Handle) :
    List.zipWith settle slots ((Shape.regroup (cs.map Content.shape) hs).map Content.toFilling)
      = (Shape.regroup (cs.map Content.shape) hs).map Content.toFilling := by
  induction hcs generalizing hs with
  | nil => rfl
  | @cons slot c slots cs hadm _ ih =>
    have hfirst : settle slot (c.shape.content (hs.take c.shape.arity)).toFilling
        = (c.shape.content (hs.take c.shape.arity)).toFilling := by
      -- only a list slot is settled, and what the node has in it is a list
      refine if_neg ?_
      rintro ⟨hmany, hone⟩
      rw [← hadm.shape] at hmany
      match c, hmany with
      | .many xs, _ => cases hone
    rw [List.map_cons, Shape.regroup, List.map_cons, List.zipWith_cons_cons, hfirst, ih]

/-- **Capturing and restoring.**  A tree of a well-formed store that is not too high can be
    captured, and restoring it does what planting it does. -/
theorem capture_of_unfolds {a : Store} (ha : a.WellFormed) (hlawful : a.schema.Lawful)
    {x : Handle} {t : Tree} (hx : a.Unfolds x t) {n : Nat} (hn : t.height ≤ n) :
    a.Captures n x t := by
  induction t generalizing x n with
  | node l ts ih =>
    cases n with
    | zero => exact absurd hn (Nat.not_le.mpr (Tree.height_pos _))
    | succ n =>
      obtain ⟨m, hm, rfl, hts⟩ := unfolds_node_iff.mp hx
      have hconf := ha.nodes x m hm
      -- capturing and restoring go down together, so one bound serves for both
      have hheights := Tree.height_le_succ_iff.mp hn
      have hcaptures : List.Forall₂ (a.Captures n) m.childNodes ts :=
        forall₂_imp_of_mem hts fun c u hu hcu => ih u hu hcu (hheights u hu)
      obtain ⟨entries, hentries, hplace⟩ := captureSlots_of_captures hlawful [] rfl
        hconf.children.length_eq hcaptures
      refine ⟨.mk (a.schema.kindName m.kind) (((a.schema.kind m.kind).values.zip m.values).map
        fun (slot, v) => (slot.name, v)) entries m.notes, ?_, ?_⟩
      · rw [capture, get, hm]
        simp only [hentries]
        rfl
      · -- the kind is found by its name, the values by theirs, and the children are restored first
        intro s s' h hschema hplant
        obtain ⟨hs', s₁, hall, -, hroot⟩ :=
          Tree.plant_node_eq_ok hlawful hconf.kind hschema hplant
        have hkind : s.schema.kindByName? (a.schema.kindName m.kind) = some m.kind := by
          rw [hschema]
          exact hlawful.kindByName?_kindName hconf.kind
        have hvalues := placeValues_zip hlawful [] rfl hconf.values.length_eq [] rfl
        have hchildren := hplace s s₁ hs' [] hschema rfl hall
        rw [← hschema] at hchildren
        refine (rebuild_succ hkind (by rw [hschema]; exact hvalues)).trans ?_
        refine bind_eq_ok_iff.mpr ⟨_, s₁, hchildren, ?_⟩
        rw [List.nil_append, List.nil_append, hschema, zipWith_settle hconf.children]
        exact hroot

end TypedForest.Store
