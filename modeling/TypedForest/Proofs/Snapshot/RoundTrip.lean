import TypedForest.Proofs.Snapshot.Capture
import TypedForest.Proofs.Tree.Equality
import TypedForest.Proofs.Wire.RoundTrip

namespace TypedForest

/-!
# Taking and restoring a snapshot

Which trees have a snapshot, and what restoring it gives (`Store.snapshot_round_trip`).

A snapshot is taken by following slots down, and given up at a depth.  So a cycle does no harm: it
is a way down that is too long.

* `Content.Shows`, `Store.capture_succ_eq_ok_iff` : what a snapshot says of a node;
* `Store.heightLe_iff_paths` : a tree is as high as its longest way down;
* `Store.exists_capture_iff`, `Store.capture_eq_error` : when there is a snapshot, and why else
  there is none;
* `Store.Alike.capture`, `Store.alike_of_capture` : a snapshot says all of a tree, and no more.
-/

section

variable {ε α β : Type} {f : α → Except ε β} {xs : List α}

/-- Going through a list succeeds exactly if each item does. -/
theorem mapM_eq_ok_iff {ys : List β} :
    xs.mapM f = .ok ys ↔ List.Forall₂ (fun x y => f x = .ok y) xs ys := by
  induction xs generalizing ys with
  | nil => simp [pure, Except.pure, eq_comm]
  | cons x xs ih =>
    rw [List.mapM_cons, List.forall₂_cons_left_iff]
    simp only [← ih]
    cases hx : f x with
    | error e => simp [bind, Except.bind]
    | ok y =>
      cases hxs : xs.mapM f with
      | error e => simp [bind, Except.bind]
      | ok ys' => simp [bind, Except.bind, pure, Except.pure, eq_comm]

/-- It fails as an item does. -/
theorem exists_of_mapM_eq_error {e : ε} (h : xs.mapM f = .error e) : ∃ x ∈ xs, f x = .error e := by
  induction xs with
  | nil => cases h
  | cons x xs ih =>
    rw [List.mapM_cons] at h
    cases hx : f x with
    | error e' =>
      rw [hx] at h
      cases h
      exact ⟨x, List.mem_cons_self, hx⟩
    | ok y =>
      cases hxs : xs.mapM f with
      | error e' =>
        rw [hx, hxs] at h
        cases h
        obtain ⟨z, hz, hfz⟩ := ih hxs
        exact ⟨z, List.mem_cons_of_mem x hz, hfz⟩
      | ok ys =>
        rw [hx, hxs] at h
        cases h

theorem map_eq_ok_iff {x : Except ε α} {g : α → β} {b : β} :
    x.map g = .ok b ↔ ∃ a, x = .ok a ∧ g a = b := by
  cases x <;> simp [Except.map]

theorem map_eq_error_iff {x : Except ε α} {g : α → β} {e : ε} :
    x.map g = .error e ↔ x = .error e := by
  cases x <;> simp [Except.map]

end

/-! ### What a snapshot says of a slot -/

/-- A slot, and a child of a snapshot that has the same form, with related nodes and snapshots in
    the same places. -/
inductive Content.Shows (R : Handle → Snapshot → Prop) : Content → Snapshot.Child → Prop
  | absent : Shows R (.one none) .absent
  | node {h : Handle} {t : Snapshot} (ht : R h t) : Shows R (.one (some h)) (.node t)
  | list {hs : List Handle} {ts : List Snapshot} (hts : List.Forall₂ R hs ts) :
      Shows R (.many hs) (.list ts)

namespace Content

variable {R R' : Handle → Snapshot → Prop} {c c' : Content} {d : Snapshot.Child}

/-- Slots with the same child of a snapshot have the same shape, and nodes in the same places
    have a snapshot in common. -/
theorem Shows.rel {Q : Handle → Handle → Prop} (hc : c.Shows R d) (hc' : c'.Shows R' d)
    (hQ : ∀ a b t, R a t → R' b t → Q a b) : c.Rel Q c' := by
  cases hc with
  | absent =>
    cases hc'
    exact .vacant
  | node ht =>
    cases hc' with
    | node ht' => exact .one (hQ _ _ _ ht ht')
  | list hts =>
    cases hc' with
    | list hts' => exact .many ((forall₂_join hts hts').imp fun a b ⟨t, hat, hbt⟩ =>
        hQ a b t hat hbt)

/-- A related slot has the child of the snapshot too. -/
theorem Shows.of_rel {Q : Handle → Handle → Prop} (hc : c.Shows R d) (hcc' : c.Rel Q c')
    (hR : ∀ a b t, Q a b → R a t → R' b t) : c'.Shows R' d := by
  cases hc with
  | absent =>
    cases hcc'
    exact .absent
  | node ht =>
    cases hcc' with
    | one hab => exact .node (hR _ _ _ hab ht)
  | list hts =>
    cases hcc' with
    | many hab => exact .list ((forall₂_join hab.flip hts.flip).imp fun b t ⟨a, hab, hat⟩ =>
        hR a b t hab hat)

/-- For each node of a content there is something that it shows. -/
theorem Shows.exists_of_mem (hc : c.Shows R d) {h : Handle} (hh : h ∈ c.nodes) : ∃ t, R h t := by
  cases hc with
  | absent => cases hh
  | node ht =>
    obtain rfl := List.mem_singleton.mp hh
    exact ⟨_, ht⟩
  | list hts =>
    obtain ⟨t, -, ht⟩ := forall₂_exists_right hts hh
    exact ⟨t, ht⟩

end Content

namespace Store

section

variable {capture : Handle → Except NodeError Snapshot}

/-- A slot is captured as what its content shows. -/
theorem captureSlot_eq_ok_iff {c : Content} {d : Snapshot.Child} :
    captureSlot capture c = .ok d ↔ c.Shows (fun h t => capture h = .ok t) d := by
  constructor
  · intro h
    match c, h with
    | .one none, h =>
      cases h
      exact .absent
    | .one (some x), h =>
      obtain ⟨t, ht, rfl⟩ := map_eq_ok_iff.mp h
      exact .node ht
    | .many xs, h =>
      obtain ⟨ts, hts, rfl⟩ := map_eq_ok_iff.mp h
      exact .list (mapM_eq_ok_iff.mp hts)
  · rintro (_ | ht | hts)
    · rfl
    · exact map_eq_ok_iff.mpr ⟨_, ht, rfl⟩
    · exact map_eq_ok_iff.mpr ⟨_, mapM_eq_ok_iff.mpr hts, rfl⟩

/-- If a slot cannot be captured, one of its nodes cannot. -/
theorem exists_of_captureSlot_eq_error {c : Content} {e : NodeError}
    (h : captureSlot capture c = .error e) : ∃ x ∈ c.nodes, capture x = .error e := by
  match c, h with
  | .one (some x), h => exact ⟨x, List.mem_cons_self, map_eq_error_iff.mp h⟩
  | .many xs, h => exact exists_of_mapM_eq_error (map_eq_error_iff.mp h)

/-- What the slots of a row hold, under their names. -/
theorem mapM_captureSlot_eq_ok_iff {slots : List ChildSlot} {cs : List Content}
    (hlength : slots.length = cs.length) {entries : List (String × Snapshot.Child)} :
    ((slots.zip cs).mapM fun (slot, c) => (captureSlot capture c).map (slot.name, ·))
        = .ok entries ↔
      ∃ ds, List.Forall₂ (Content.Shows fun h t => capture h = .ok t) cs ds ∧
        entries = (slots.zip ds).map fun (slot, d) => (slot.name, d) := by
  simp only [mapM_eq_ok_iff, map_eq_ok_iff, captureSlot_eq_ok_iff]
  induction cs generalizing slots entries with
  | nil => simp [List.zip_nil_right]
  | cons c cs ih =>
    obtain ⟨slot, slots, rfl⟩ := List.exists_cons_of_length_eq_add_one hlength
    rw [List.zip_cons_cons, List.forall₂_cons_left_iff]
    simp only [ih (Nat.succ.inj hlength)]
    constructor
    · rintro ⟨_, _, ⟨d, hd, rfl⟩, ⟨ds, hds, rfl⟩, rfl⟩
      exact ⟨d :: ds, .cons hd hds, rfl⟩
    · rintro ⟨_, hds, rfl⟩
      obtain ⟨d, ds, hd, hrest, rfl⟩ := List.forall₂_cons_left_iff.mp hds
      exact ⟨_, _, ⟨d, hd, rfl⟩, ⟨ds, hrest, rfl⟩, rfl⟩

end

/-! ### What a snapshot says of a node -/

/-- A node has a snapshot if all nodes in its slots have one. -/
theorem capture_succ_eq_ok_iff {s : Store} (hs : s.WellFormed) {n : Nat} {h : Handle}
    {snap : Snapshot} :
    s.capture (n + 1) h = .ok snap ↔ ∃ m ds, s.node? h = some m ∧
      List.Forall₂ (Content.Shows fun x t => s.capture n x = .ok t) m.children ds ∧
      snap = .mk (s.schema.kindName m.kind)
        (((s.schema.kind m.kind).values.zip m.values).map fun (slot, v) => (slot.name, v))
        (((s.schema.kind m.kind).children.zip ds).map fun (slot, d) => (slot.name, d)) m.notes := by
  constructor
  · intro hsnap
    rw [Store.capture] at hsnap
    split at hsnap
    · cases hsnap
    · next m hget =>
      have hm := get_eq_ok_iff.mp hget
      dsimp only at hsnap
      split at hsnap
      · cases hsnap
      · next entries hentries =>
        cases hsnap
        obtain ⟨ds, hds, rfl⟩ :=
          (mapM_captureSlot_eq_ok_iff (hs.nodes h m hm).children.length_eq).mp hentries
        exact ⟨m, ds, hm, hds, rfl⟩
  · rintro ⟨m, ds, hm, hds, rfl⟩
    have hentries :=
      (mapM_captureSlot_eq_ok_iff (hs.nodes h m hm).children.length_eq).mpr ⟨ds, hds, rfl⟩
    rw [Store.capture, get_eq_ok_iff.mpr hm]
    dsimp only
    rw [hentries]
    rfl

/-- A snapshot of a live node is given up for one reason only. -/
theorem capture_eq_error {s : Store} (hs : s.WellFormed) {n : Nat} {h : Handle}
    (halive : s.isAlive h = true) {e : NodeError} (he : s.capture n h = .error e) :
    e = .tooDeep Snapshot.maxDepth := by
  induction n generalizing h with
  | zero =>
    cases he
    rfl
  | succ n ih =>
    obtain ⟨m, hm⟩ := isAlive_iff.mp halive
    rw [Store.capture, get, hm] at he
    dsimp only at he
    split at he
    · next e' hslots =>
      cases he
      -- the error is that of a child, which has one level less
      obtain ⟨⟨slot, c⟩, hmem, hslot⟩ := exists_of_mapM_eq_error hslots
      obtain ⟨x, hx, hcapture⟩ := exists_of_captureSlot_eq_error (map_eq_error_iff.mp hslot)
      have hchild : s.Child h x :=
        ⟨m, hm, List.mem_flatMap.mpr ⟨c, (List.of_mem_zip hmem).2, hx⟩⟩
      exact ih (hs.isAlive_of_child hchild) hcapture
    · cases he

/-! ### When there is a snapshot -/

/-- A tree is as high as the longest way down is long. -/
theorem heightLe_iff_paths {s : Store} (hs : s.WellFormed) {n : Nat} {h : Handle}
    (halive : s.isAlive h = true) :
    s.HeightLe n h ↔ ∀ path, List.IsChain s.Child (h :: path) → (h :: path).length ≤ n := by
  induction n generalizing h with
  | zero =>
    refine iff_of_false (s.not_heightLe_zero h) fun hpaths => ?_
    exact absurd (hpaths [] (.singleton h)) (by simp)
  | succ n ih =>
    obtain ⟨m, hm⟩ := isAlive_iff.mp halive
    rw [heightLe_succ_iff]
    constructor
    · -- a path that leads on goes through one of the children
      rintro ⟨m', hm', hchildren⟩ path hpath
      cases path with
      | nil => simp
      | cons c path =>
        obtain ⟨hc, hrest⟩ := List.isChain_cons_cons.mp hpath
        obtain ⟨k, hk, hmem⟩ := id hc
        rw [hm', Option.some.injEq] at hk
        subst hk
        have hle := (ih (hs.isAlive_of_child hc)).mp (hchildren c hmem) path hrest
        rw [List.length_cons]
        omega
    · intro hpaths
      -- a path from a child is one from the node without its first step
      refine ⟨m, hm, fun c hmem => ?_⟩
      have hc : s.Child h c := ⟨m, hm, hmem⟩
      refine (ih (hs.isAlive_of_child hc)).mpr fun path hpath => ?_
      have hle := hpaths (c :: path) (List.isChain_cons_cons.mpr ⟨hc, hpath⟩)
      rw [List.length_cons] at hle
      omega

/-- What was captured with so many levels has no more of them. -/
theorem heightLe_of_capture {s : Store} (hs : s.WellFormed) {n : Nat} {h : Handle}
    {snap : Snapshot} (hsnap : s.capture n h = .ok snap) : s.HeightLe n h := by
  induction n generalizing h snap with
  | zero => cases hsnap
  | succ n ih =>
    obtain ⟨m, ds, hm, hds, -⟩ := (capture_succ_eq_ok_iff hs).mp hsnap
    refine heightLe_succ_iff.mpr ⟨m, hm, fun c hc => ?_⟩
    obtain ⟨content, hcontent, hmem⟩ := List.mem_flatMap.mp hc
    obtain ⟨d, -, hd⟩ := forall₂_exists_right hds hcontent
    obtain ⟨t, ht⟩ := hd.exists_of_mem hmem
    exact ih ht

/-- There is a snapshot exactly if the tree is not too high. -/
theorem exists_capture_iff {s : Store} (hs : s.WellFormed) (hlawful : s.schema.Lawful) {n : Nat}
    {h : Handle} : (∃ snap, s.capture n h = .ok snap) ↔ s.HeightLe n h := by
  constructor
  · rintro ⟨snap, hsnap⟩
    exact heightLe_of_capture hs hsnap
  · rintro ⟨t, ht, hheight⟩
    obtain ⟨snap, hsnap, -⟩ := capture_of_unfolds hs hlawful ht hheight
    exact ⟨snap, hsnap⟩

/-! ### Snapshots and trees -/

/-- Nodes have the same tree exactly if they say the same and so do the nodes in their slots. -/
theorem alike_iff_of_node? {s s' : Store} {a b : Handle} {m n : Node} (hm : s.node? a = some m)
    (hn : s'.node? b = some n) :
    Alike s s' a b ↔ s.label m = s'.label n ∧
      List.Forall₂ (Content.Rel (Alike s s')) m.children n.children := by
  constructor
  · rintro ⟨⟨l, ts⟩, ha, hb⟩
    obtain ⟨rfl, hts⟩ := (unfolds_iff_of_node? hm).mp ha
    obtain ⟨hlabel, hts'⟩ := (unfolds_iff_of_node? hn).mp hb
    have hshapes := congrArg Label.shapes hlabel.symm
    exact ⟨hlabel.symm, forall₂_rel_iff.mpr ⟨hshapes, forall₂_join hts hts'⟩⟩
  · rintro ⟨hlabel, hchildren⟩
    obtain ⟨ts, hts, hts'⟩ := exists_of_forall₂_join (forall₂_rel_iff.mp hchildren).2
    exact ⟨.node (s.label m) ts, (unfolds_iff_of_node? hm).mpr ⟨rfl, hts⟩,
      (unfolds_iff_of_node? hn).mpr ⟨hlabel.symm, hts'⟩⟩

/-- Rows that are the same under the same names are the same. -/
theorem eq_of_map_zip_eq {α β : Type} {name : α → String} {slots : List α} {bs bs' : List β}
    (hbs : slots.length = bs.length) (hbs' : slots.length = bs'.length)
    (h : ((slots.zip bs).map fun (slot, b) => (name slot, b))
      = (slots.zip bs').map fun (slot, b) => (name slot, b)) : bs = bs' := by
  have hsnd : ∀ {cs : List β}, slots.length = cs.length →
      ((slots.zip cs).map fun (slot, b) => (name slot, b)).map Prod.snd = cs := by
    intro cs hcs
    rw [List.map_map]
    exact List.map_snd_zip hcs.ge
  rw [← hsnd hbs, h, hsnd hbs']

section

variable {s s' : Store} (hs : s.WellFormed) (hs' : s'.WellFormed) (hlawful : s.schema.Lawful)
  (hschema : s'.schema = s.schema)
include hs hs' hlawful hschema

/-- Nodes with the same tree have the same snapshots. -/
theorem Alike.capture {n : Nat} {a b : Handle} (hab : Alike s s' a b) {snap : Snapshot}
    (hsnap : s.capture n a = .ok snap) : s'.capture n b = .ok snap := by
  induction n generalizing a b snap with
  | zero => cases hsnap
  | succ n ih =>
    obtain ⟨m, ds, hm, hds, rfl⟩ := (capture_succ_eq_ok_iff hs).mp hsnap
    obtain ⟨t, -, hb⟩ := id hab
    obtain ⟨m', hm'⟩ := isAlive_iff.mp hb.isAlive
    have hkind := hab.kind_eq hs hs' hlawful hschema hm hm'
    obtain ⟨hlabel, hchildren⟩ := (alike_iff_of_node? hm hm').mp hab
    have hds' : List.Forall₂ (Content.Shows fun x t => s'.capture n x = .ok t) m'.children ds := by
      refine (forall₂_join hchildren.flip hds.flip).imp ?_
      rintro c' d ⟨c, hcc', hcd⟩
      exact hcd.of_rel hcc' fun x y t hxy hx => ih hxy hx
    refine (capture_succ_eq_ok_iff hs').mpr ⟨m', ds, hm', hds', ?_⟩
    have hvalues : m.values = m'.values := congrArg Label.values hlabel
    have hnotes : m.notes = m'.notes := congrArg Label.notes hlabel
    rw [hschema, hkind, hvalues, hnotes]

/-- Nodes with the same snapshot have the same tree. -/
theorem alike_of_capture {n : Nat} {a b : Handle} {snap : Snapshot}
    (ha : s.capture n a = .ok snap) (hb : s'.capture n b = .ok snap) : Alike s s' a b := by
  induction n generalizing a b snap with
  | zero => cases ha
  | succ n ih =>
    obtain ⟨m, ds, hm, hds, rfl⟩ := (capture_succ_eq_ok_iff hs).mp ha
    obtain ⟨m', ds', hm', hds', hsnap⟩ := (capture_succ_eq_ok_iff hs').mp hb
    rw [hschema, Snapshot.mk.injEq] at hsnap
    obtain ⟨hname, hvalues, hentries, hnotes⟩ := hsnap
    have hfit := hs.nodes a m hm
    have hfit' := hs'.nodes b m' hm'
    have hkind : m.kind = m'.kind := hlawful.kindName_inj hfit.kind (hschema ▸ hfit'.kind) hname
    -- under the names of the same slots stand the same values and children
    have hvlength := hfit'.values.length_eq
    have hclength := hfit'.children.length_eq
    rw [hschema] at hvlength hclength
    rw [← hkind] at hvalues hentries hvlength hclength
    have hvs : m.values = m'.values := eq_of_map_zip_eq hfit.values.length_eq hvlength hvalues
    obtain rfl : ds = ds' := eq_of_map_zip_eq (hfit.children.length_eq.trans hds.length_eq)
      (hclength.trans hds'.length_eq) hentries
    have hchildren : List.Forall₂ (Content.Rel (Alike s s')) m.children m'.children := by
      refine (forall₂_join hds hds').imp ?_
      rintro c c' ⟨d, hc, hc'⟩
      exact hc.rel hc' fun x y t hx hy => ih hx hy
    refine (alike_iff_of_node? hm hm').mpr ⟨?_, hchildren⟩
    simp only [label, hschema, hkind, hvs, hnotes, (forall₂_rel_iff.mp hchildren).1]

/-- Nodes with the same tree are equal however they are compared, and walks from them meet the
    same notes. -/
theorem Alike.same {a b : Handle} (hab : Alike s s' a b) :
    (∀ how, equalTrees how s a s' b = some true) ∧
      ∀ limit, List.Forall₂ (SameNotes s s') (s.traverse .pre a limit)
        (s'.traverse .pre b limit) := by
  obtain ⟨t, ha, hb⟩ := hab
  exact ⟨fun how => equalTrees_of_unfolds hs hs' hlawful hschema how ha hb,
    sameNotes_traverse ha hb⟩

end

/-! ### The round trip -/

/-- **Snapshot round trip.**  A live node has a snapshot exactly if no way down from it has more
    than 256 nodes; otherwise the snapshot is given up as too deep.  The snapshot can be restored
    in every store over the same schema that has room.  It gives a new tree that is equal to the
    old one, has the same notes, and has the same snapshot.  The store can also be the one that
    the snapshot was taken in; then the comparison is made there. -/
theorem snapshot_round_trip {schema : Schema} (hbuilt : schema.Built) {s : Store}
    (hs : Reachable schema s) {root : Handle} (halive : s.isAlive root = true) :
    ((∃ snap, s.snapshot root = .ok snap) ↔
      ∀ path, List.IsChain s.Child (root :: path) → (root :: path).length ≤ 256) ∧
    ((∃ path, List.IsChain s.Child (root :: path) ∧ 256 < (root :: path).length) →
      s.snapshot root = .error (.tooDeep 256)) ∧
    ∀ snap, s.snapshot root = .ok snap → ∃ t, s.Unfolds root t ∧
      ∀ u, Reachable schema u → u.live + t.size ≤ maxNodes →
        ∃ r u', restore snap u = .ok r u' ∧ Grafted u u' r ∧ u'.snapshot r = .ok snap ∧
          ∀ s', s' = s ∨ u = s ∧ s' = u' →
            (∀ how, equalTrees how s' root u' r = some true) ∧
              ∀ limit, List.Forall₂ (SameNotes s' u') (s'.traverse .pre root limit)
                (u'.traverse .pre r limit) := by
  have hwf := hs.wellFormed_store
  have hlawful := hs.lawful hbuilt
  have hexists : (∃ snap, s.snapshot root = .ok snap) ↔
      ∀ path, List.IsChain s.Child (root :: path) → (root :: path).length ≤ 256 :=
    (exists_capture_iff hwf hlawful).trans (heightLe_iff_paths hwf halive)
  refine ⟨hexists, fun hdeep => ?_, fun snap hsnap => ?_⟩
  · obtain ⟨path, hpath, hlong⟩ := hdeep
    cases hsnap : s.snapshot root with
    | error e => rw [capture_eq_error hwf halive hsnap, Snapshot.maxDepth]
    | ok snap =>
      have hshort := hexists.mp ⟨snap, hsnap⟩ path hpath
      omega
  · obtain ⟨t, ht, hheight⟩ := heightLe_of_capture hwf hsnap
    refine ⟨t, ht, fun u hu hroom => ?_⟩
    have hschema : u.schema = s.schema := hu.schema_eq.trans hs.schema_eq.symm
    -- restoring the snapshot plants the tree
    obtain ⟨snap', hsnap', hrestores⟩ := capture_of_unfolds hwf hlawful ht hheight
    obtain rfl : snap' = snap := Except.ok.inj (hsnap'.symm.trans hsnap)
    obtain ⟨r, u', hplant, hplanted⟩ :=
      Tree.plant_spec hwf hlawful ht hu.wellFormed_store hschema hroom
    have hr : u'.Unfolds r t := (List.forall₂_cons.mp hplanted.unfolds).1
    have hwf' := hu.wellFormed_store.steps hplanted.steps
    have hschema' : u'.schema = s.schema := hplanted.steps.schema.trans hschema
    have halike : Alike s u' root r := ⟨t, ht, hr⟩
    refine ⟨r, u', hrestores u u' r hschema hplant, hplanted.sprouts.grafted hu.wellFormed_store,
      halike.capture hwf hwf' hlawful hschema' hsnap, ?_⟩
    -- the old tree is still there, also in the store with the new one
    rintro s' (rfl | ⟨rfl, rfl⟩)
    · exact halike.same hwf hwf' hlawful hschema'
    · have hkept : Alike s' s' root r := ⟨t, ht.mono hplanted.sprouts.preserves, hr⟩
      exact hkept.same hwf' hwf' (hschema'.symm ▸ hlawful) rfl

end Store

/-! ### A group and a ring -/

namespace Sample

theorem child_ring : ring.Child ⟨0, 0⟩ ⟨0, 0⟩ := by
  have hnode : ring.node? ⟨0, 0⟩
      = some ⟨⟨0⟩, [.str "x"], [.one (some ⟨0, 0⟩), .many []], some ⟨0, 0⟩, Notes.empty⟩ := by
    decide +kernel
  exact ⟨_, hnode, List.mem_cons_self⟩

/-- The group has a snapshot, which can be restored in its own store.  Of the item that comes
    after itself there is none. -/
theorem snapshot_round_trip_noted :
    (∃ snap r s', noted.snapshot ⟨1, 0⟩ = .ok snap ∧ Store.restore snap noted = .ok r s' ∧
      Store.Grafted noted s' r ∧ s'.snapshot r = .ok snap ∧
      Store.equalTrees .byName s' ⟨1, 0⟩ s' r = some true) ∧
    ring.snapshot ⟨0, 0⟩ = .error (.tooDeep 256) := by
  constructor
  · obtain ⟨-, -, hrestore⟩ :=
      Store.snapshot_round_trip built reachable_noted unfolds_noted.isAlive
    obtain ⟨snap, hsnap, -⟩ := Store.capture_of_unfolds reachable_noted.wellFormed_store
      (reachable_noted.lawful built) unfolds_noted (show tree.height ≤ Snapshot.maxDepth by decide)
    obtain ⟨t, ht, hread⟩ := hrestore snap hsnap
    have hroom : noted.live + t.size ≤ Store.maxNodes := by
      rw [ht.unique unfolds_noted]
      decide +kernel
    obtain ⟨r, s', hr, hgrafted, hagain, hsame⟩ := hread noted reachable_noted hroom
    exact ⟨snap, r, s', hsnap, hr, hgrafted, hagain, (hsame s' (.inr ⟨rfl, rfl⟩)).1 .byName⟩
  · obtain ⟨-, hdeep, -⟩ := Store.snapshot_round_trip built reachable_ring child_ring.isAlive
    refine hdeep ⟨List.replicate 256 ⟨0, 0⟩, List.isChain_replicate_of_rel 257 child_ring, ?_⟩
    rw [List.length_cons, List.length_replicate]
    omega

end Sample

end TypedForest
