import TypedForest.Proofs.Notes
import TypedForest.Proofs.Store.Step
import TypedForest.Proofs.Tree.Unfolding

namespace TypedForest

/-!
# Planting a tree

`Tree.plant` makes the nodes of a tree in a store, each after all nodes below it.  It is the
common form of all ways of copying a tree into a store.

A tree that was found in a well-formed store over the same schema can be planted as long as
there is room (`Tree.plant_spec`), and then

* the new root unfolds to the tree,
* nothing else in the store is different (`Store.Sprouts.keeps`),
* the new nodes are linked to each other both ways (`Store.Sprouts.inner`).
-/

/-- Makes a node with a label over the given children. -/
def Label.plant (l : Label) (hs : List Handle) : Edit Handle := fun s =>
  match s.schema.kindByName? l.kind with
  | none => .error (.unknownKind l.kind) s
  | some k =>
    Store.constructAnnotated k
      (l.values.map .value ++ (Shape.regroup l.shapes hs).map Content.toFilling) l.notes.entries s

mutual

/-- Makes the nodes of a tree and returns its root. -/
def Tree.plant : Tree → Edit Handle
  | .node l ts => Tree.plantAll ts >>= l.plant

/-- Makes the nodes of trees one after the other and returns their roots. -/
def Tree.plantAll : List Tree → Edit (List Handle)
  | [] => pure []
  | t :: ts => t.plant >>= fun h => Tree.plantAll ts >>= fun hs => pure (h :: hs)

end

namespace Tree

/-- Trees are planted one after the other. -/
theorem plantAll_cons_eq_ok_iff {t : Tree} {ts : List Tree} {s s' : Store} {hs : List Handle} :
    plantAll (t :: ts) s = .ok hs s' ↔
      ∃ h s₁ ks, t.plant s = .ok h s₁ ∧ plantAll ts s₁ = .ok ks s' ∧ hs = h :: ks := by
  rw [plantAll, Store.bind_eq_ok_iff]
  constructor
  · rintro ⟨h, s₁, hplant, hrest⟩
    obtain ⟨ks, s₂, hks, hpure⟩ := Store.bind_eq_ok_iff.mp hrest
    cases hpure
    exact ⟨h, s₁, ks, hplant, hks, rfl⟩
  · rintro ⟨h, s₁, ks, hplant, hks, rfl⟩
    exact ⟨h, s₁, hplant, Store.bind_eq_ok_iff.mpr ⟨ks, s', hks, rfl⟩⟩

/-- Each tree gets one root. -/
theorem length_of_plantAll {ts : List Tree} {s s' : Store} {hs : List Handle}
    (h : plantAll ts s = .ok hs s') : hs.length = ts.length := by
  induction ts generalizing s hs with
  | nil =>
    cases h
    rfl
  | cons t ts ih =>
    obtain ⟨x, s₁, ks, -, hks, rfl⟩ := plantAll_cons_eq_ok_iff.mp h
    rw [List.length_cons, List.length_cons, ih hks]

/-- Trees are planted in two parts as in one. -/
theorem plantAll_append_eq_ok {ts us : List Tree} {s s' : Store} {hs : List Handle}
    (h : plantAll (ts ++ us) s = .ok hs s') :
    ∃ hs₁ s₁ hs₂, plantAll ts s = .ok hs₁ s₁ ∧ plantAll us s₁ = .ok hs₂ s' ∧ hs = hs₁ ++ hs₂ := by
  induction ts generalizing s hs with
  | nil => exact ⟨[], s, hs, rfl, h, rfl⟩
  | cons t ts ih =>
    obtain ⟨x, s₁, ks, hplant, hks, rfl⟩ := plantAll_cons_eq_ok_iff.mp h
    obtain ⟨hs₁, s₂, hs₂, hts, hus, rfl⟩ := ih hks
    exact ⟨x :: hs₁, s₂, hs₂, plantAll_cons_eq_ok_iff.mpr ⟨x, s₁, hs₁, hplant, hts, rfl⟩, hus, rfl⟩

/-- Two lists of trees may be planted one after the other. -/
theorem plantAll_append {ts us : List Tree} {s s₁ s₂ : Store} {hs ks : List Handle}
    (h₁ : plantAll ts s = .ok hs s₁) (h₂ : plantAll us s₁ = .ok ks s₂) :
    plantAll (ts ++ us) s = .ok (hs ++ ks) s₂ := by
  induction ts generalizing s hs with
  | nil =>
    cases h₁
    exact h₂
  | cons t ts ih =>
    obtain ⟨x, s', ls, hplant, hts, rfl⟩ := plantAll_cons_eq_ok_iff.mp h₁
    exact plantAll_cons_eq_ok_iff.mpr ⟨x, s', ls ++ ks, hplant, ih hts, rfl⟩

end Tree

/-- Planting takes basic steps only. -/
theorem Store.Steps.plantLabel (l : Label) (hs : List Handle) (s : Store) :
    Steps s (after (l.plant hs) s) := by
  unfold after Label.plant
  cases hk : s.schema.kindByName? l.kind with
  | none => exact .refl
  | some k => exact (Growths.constructAnnotated (.inl (Schema.kindByName?_eq_some hk).1) _ _).steps

mutual

/-- Planting a tree is made up of steps of the store. -/
theorem Store.Steps.plant : ∀ (t : Tree) (s : Store), Steps s (after t.plant s)
  | .node l ts, s => by
    rw [Tree.plant]
    exact Store.along_bind (Store.Steps.plantAll ts s) fun hs s' _ =>
      Store.Steps.plantLabel l hs s'

/-- So is planting several. -/
theorem Store.Steps.plantAll : ∀ (ts : List Tree) (s : Store),
    Steps s (after (Tree.plantAll ts) s)
  | [], s => .refl
  | t :: ts, s => by
    rw [Tree.plantAll]
    exact Store.along_bind (Store.Steps.plant t s) fun _ s' _ =>
      Store.along_bind (Store.Steps.plantAll ts s') fun _ _ _ => .refl

end

namespace Tree

/-- Planting a tree keeps the schema. -/
theorem schema_of_plant {t : Tree} {s s' : Store} {h : Handle} (hplant : t.plant s = .ok h s') :
    s'.schema = s.schema := by
  rw [← Store.after_of_ok hplant]
  exact (Store.Steps.plant t s).schema

/-- So does planting several. -/
theorem schema_of_plantAll {ts : List Tree} {s s' : Store} {hs : List Handle}
    (hplant : plantAll ts s = .ok hs s') : s'.schema = s.schema := by
  rw [← Store.after_of_ok hplant]
  exact (Store.Steps.plantAll ts s).schema

/-- Planting what stands under a node makes a node of the same kind over the new children. -/
theorem plant_node_eq_ok {a : Store} (hlawful : a.schema.Lawful) {n : Node}
    (hk : n.kind.index < a.schema.size) {ts : List Tree} {s s' : Store}
    (hs : s.schema = a.schema) {h : Handle}
    (hplant : (Tree.node (a.label n) ts).plant s = .ok h s') :
    ∃ hs' s₁, plantAll ts s = .ok hs' s₁ ∧ s₁.schema = a.schema ∧
      Store.constructAnnotated n.kind (n.values.map .value
        ++ (Shape.regroup (n.children.map Content.shape) hs').map Content.toFilling)
        n.notes.entries s₁ = .ok h s' := by
  rw [plant] at hplant
  obtain ⟨hs', s₁, hall, hroot⟩ := Store.bind_eq_ok_iff.mp hplant
  have hschema : s₁.schema = a.schema := (schema_of_plantAll hall).trans hs
  refine ⟨hs', s₁, hall, hschema, ?_⟩
  unfold Label.plant at hroot
  simpa only [Store.label, hschema, hlawful.kindByName?_kindName hk] using hroot

end Tree

namespace Store

/-! ### Filling in what fits -/

/-- Values of the right types fill their slots. -/
theorem fillValues_of_forall₂ {s : Store} {slots : List ValueSlot} {vs : List Value}
    (h : List.Forall₂ (fun slot v => slot.type.accepts v = true) slots vs)
    (rest : List Filling) : s.fillValues slots (vs.map .value ++ rest) = .ok (vs, rest) := by
  induction h with
  | nil => rfl
  | cons hv _ ih =>
    rw [List.map_cons, List.cons_append, fillValues, checkValue_eq_ok_iff.mpr ⟨rfl, hv⟩]
    simp only [ih]

/-- Contents that are admitted fill their slots. -/
theorem fillChildren_of_forall₂ {s : Store} {slots : List ChildSlot} {cs : List Content}
    (h : List.Forall₂ s.Admits slots cs) :
    s.fillChildren slots (cs.map Content.toFilling) = .ok cs := by
  induction h with
  | nil => rfl
  | cons hc _ ih =>
    rw [List.map_cons, fillChildren, checkChild_eq_ok_iff.mpr ⟨rfl, hc⟩]
    simp only [ih]

/-- What fits a kind passes the checks. -/
theorem fill_of_forall₂ {s : Store} {k : KindId} {vs : List Value} {cs : List Content}
    (hvs : List.Forall₂ (fun slot v => slot.type.accepts v = true) (s.schema.kind k).values vs)
    (hcs : List.Forall₂ s.Admits (s.schema.kind k).children cs) :
    s.fill k (vs.map .value ++ cs.map Content.toFilling)
      = .ok ⟨k, vs, cs, none, Notes.empty⟩ := by
  have hcount : (vs.map Filling.value ++ cs.map Content.toFilling).length
      = (s.schema.kind k).slotCount := by
    rw [List.length_append, List.length_map, List.length_map, ← hvs.length_eq,
      ← hcs.length_eq, Kind.slotCount]
  unfold fill
  simp only [hcount, Nat.lt_irrefl, if_false, fillValues_of_forall₂ hvs,
    fillChildren_of_forall₂ hcs]

/-- When all value slots are given values, they hold these. -/
theorem fillValues_eq_ok_of_length {s : Store} {slots : List ValueSlot} {vs ws : List Value}
    {rest left : List Filling} (hlength : slots.length = vs.length)
    (h : s.fillValues slots (vs.map .value ++ rest) = .ok (ws, left)) : ws = vs ∧ left = rest := by
  induction slots generalizing vs ws with
  | nil =>
    obtain rfl := List.length_eq_zero_iff.mp hlength.symm
    cases h
    exact ⟨rfl, rfl⟩
  | cons slot slots ih =>
    obtain ⟨v, vs, rfl⟩ := List.exists_cons_of_length_eq_add_one hlength.symm
    rw [List.map_cons, List.cons_append, fillValues] at h
    split at h
    · cases h
    · next w hw =>
      obtain ⟨hv, -⟩ := checkValue_eq_ok_iff.mp hw
      cases hv
      split at h
      · cases h
      · next us left' hus =>
        cases h
        obtain ⟨rfl, rfl⟩ := ih (Nat.succ.inj hlength) hus
        exact ⟨rfl, rfl⟩

/-- When all child slots are given something, they hold it. -/
theorem fillChildren_eq_ok_of_length {s : Store} {slots : List ChildSlot} {fs : List Filling}
    {cs : List Content} (hlength : slots.length = fs.length)
    (h : s.fillChildren slots fs = .ok cs) : fs = cs.map Content.toFilling := by
  induction slots generalizing fs cs with
  | nil =>
    obtain rfl := List.length_eq_zero_iff.mp hlength.symm
    cases h
    rfl
  | cons slot slots ih =>
    obtain ⟨f, fs, rfl⟩ := List.exists_cons_of_length_eq_add_one hlength.symm
    rw [fillChildren] at h
    split at h
    · cases h
    · next c hc =>
      split at h
      · cases h
      · next ds hds =>
        cases h
        rw [List.map_cons, ← ih (Nat.succ.inj hlength) hds, ← (checkChild_eq_ok_iff.mp hc).1]

/-- Arguments for all slots are what the node is made of. -/
theorem fill_eq_ok_of_length {s : Store} {k : KindId} {vs : List Value} {fs : List Filling}
    {n : Node} (hvs : (s.schema.kind k).values.length = vs.length)
    (hfs : (s.schema.kind k).children.length = fs.length)
    (h : s.fill k (vs.map .value ++ fs) = .ok n) :
    n.values = vs ∧ fs = n.children.map Content.toFilling := by
  unfold fill at h
  dsimp only at h
  split at h
  · cases h
  · split at h
    · cases h
    · next ws left hvalues =>
      obtain ⟨rfl, rfl⟩ := fillValues_eq_ok_of_length hvs hvalues
      split at h
      · cases h
      · next cs hchildren =>
        cases h
        exact ⟨rfl, fillChildren_eq_ok_of_length hfs hchildren⟩

/-- A node that is given something for every slot holds what it is given. -/
theorem eq_of_fill {s : Store} {k : KindId} {vs : List Value} {cs : List Content} {n : Node}
    (hvs : vs.length = (s.schema.kind k).values.length)
    (hcs : cs.length = (s.schema.kind k).children.length)
    (h : s.fill k (vs.map .value ++ cs.map Content.toFilling) = .ok n) :
    n = ⟨k, vs, cs, none, Notes.empty⟩ := by
  obtain ⟨hkind, hparent, hnotes, -⟩ := fill_eq_ok h
  obtain ⟨hvalues, hchildren⟩ :=
    fill_eq_ok_of_length hvs.symm (by rw [List.length_map, hcs]) h
  rw [← hkind, ← hvalues, ← hparent, ← hnotes, Content.toFilling_injective.list_map hchildren]

/-- Notes that are set one after the other on a node. -/
theorem setNotes_eq {s : Store} {h : Handle} (hh : s.isAlive h = true)
    (es : List (String × Value)) :
    setNotes h es s = .ok () (s.modifyNode h fun n =>
      { n with notes := es.foldl (fun notes e => notes.insert e.1 e.2) n.notes }) := by
  induction es generalizing s with
  | nil =>
    rw [setNotes]
    congr 1
    exact (modifyNode_eq_self fun n _ => rfl).symm
  | cons e es ih =>
    obtain ⟨n, hn⟩ := isAlive_iff.mp hh
    -- the node is alive, and stays so for the other notes
    have hset : setNote h e.1 e.2 s
        = .ok () (s.modifyNode h fun n => { n with notes := n.notes.insert e.1 e.2 }) := by
      unfold setNote
      rw [get_eq_ok_iff.mpr hn]
    have halive := isAlive_of_node?
      (node?_modifyNode_self hn fun n => { n with notes := n.notes.insert e.1 e.2 })
    rw [setNotes_cons, bind_apply, hset]
    simp only
    rw [ih halive, modifyNode_modifyNode]
    rfl

/-- The children of a node that passes the checks are alive. -/
theorem isAlive_of_fill {s : Store} {k : KindId} {args : List Filling} {n : Node}
    (hfill : s.fill k args = .ok n) {x : Handle} (hx : x ∈ n.childNodes) :
    s.isAlive x = true := by
  obtain ⟨c, hc, hxc⟩ := List.mem_flatMap.mp hx
  obtain ⟨slot, -, hadm⟩ := forall₂_exists_left (fill_eq_ok hfill).2.2.2.2 hc
  obtain ⟨m, hm, -⟩ := hadm.nodes x hxc
  exact isAlive_of_node? hm

/-- What a store looks like after a node was made: the new node is there, and its children have
    it as their parent. -/
theorem node?_construct {s s' : Store} (hs : s.FreePlaces) {k : KindId} {args : List Filling}
    {n : Node} (hfill : s.fill k args = .ok n) {h : Handle}
    (hc : construct k args s = .ok h s') :
    s.node? h = none ∧ s'.live = s.live + 1 ∧
      ∀ x, s'.node? x = if x = h then some n else
        (s.node? x).map fun m => if x ∈ n.childNodes then { m with parent := some h } else m := by
  obtain ⟨n', hfill', -, rfl, rfl⟩ := construct_eq_ok_iff.mp hc
  rw [hfill, Except.ok.injEq] at hfill'
  subst hfill'
  have hfresh : s.node? (s.insert n).1 = none := node?_insert_fst hs n
  refine ⟨hfresh, by rw [live_adopt, live_insert], fun x => ?_⟩
  rw [node?_adopt, node?_insert hs]
  by_cases hx : x = (s.insert n).1
  · -- the new node is not among its own children, which were alive before
    have hnot : x ∉ n.childNodes := by
      intro hmem
      obtain ⟨m, hm⟩ := isAlive_iff.mp (isAlive_of_fill hfill hmem)
      rw [hx, hfresh] at hm
      cases hm
    rw [if_pos hx, if_pos hx, Option.map_some, if_neg hnot]
  · rw [if_neg hx, if_neg hx]

/-- What it looks like when the new node has got notes. -/
theorem node?_construct_notes {s s' : Store} (hs : s.FreePlaces) {k : KindId}
    {args : List Filling} {n : Node} (hfill : s.fill k args = .ok n) {h : Handle}
    (hc : construct k args s = .ok h s') (notes : Notes) (x : Handle) :
    (s'.modifyNode h fun m => { m with notes := notes }).node? x
      = if x = h then some { n with notes := notes } else
        (s.node? x).map fun m => if x ∈ n.childNodes then { m with parent := some h } else m := by
  rw [node?_modifyNode, (node?_construct hs hfill hc).2.2]
  by_cases hx : x = h
  · simp [hx]
  · simp [hx]

/-- A new node has no notes, so it gets those that are set one after the other. -/
theorem constructAnnotated_eq {s s' : Store} (hs : s.FreePlaces) {k : KindId}
    {args : List Filling} {h : Handle} (hc : construct k args s = .ok h s')
    (es : List (String × Value)) :
    constructAnnotated k args es s
      = .ok h (s'.modifyNode h fun m => { m with notes := Notes.ofList es }) := by
  obtain ⟨n, hfill, -⟩ := construct_eq_ok_iff.mp hc
  have hnew : s'.node? h = some n := by rw [(node?_construct hs hfill hc).2.2, if_pos rfl]
  have hset : setNotes h es s'
      = .ok () (s'.modifyNode h fun m => { m with notes := Notes.ofList es }) := by
    rw [setNotes_eq (isAlive_of_node? hnew)]
    congr 1
    refine modifyNode_congr fun m hm => ?_
    rw [hnew, Option.some.injEq] at hm
    rw [← hm, (fill_eq_ok hfill).2.2.1]
    rfl
  unfold constructAnnotated
  rw [bind_apply, hc]
  simp only
  rw [bind_apply, hset]
  rfl

/-- A node that is made with notes is the node that is made without, and then gets them. -/
theorem constructAnnotated_of_construct {s s' : Store} (hs : s.FreePlaces) {k : KindId}
    {args : List Filling} {h : Handle} (hc : construct k args s = .ok h s') (notes : Notes) :
    constructAnnotated k args notes.entries s
      = .ok h (s'.modifyNode h fun m => { m with notes := notes }) := by
  rw [constructAnnotated_eq hs hc, Notes.ofList_entries]

/-- A node that was made with notes could have been made without. -/
theorem construct_of_constructAnnotated {s s' : Store} (hs : s.FreePlaces) {k : KindId}
    {args : List Filling} {es : List (String × Value)} {h : Handle}
    (hmake : constructAnnotated k args es s = .ok h s') :
    ∃ s₁, construct k args s = .ok h s₁ ∧
      s' = s₁.modifyNode h fun m => { m with notes := Notes.ofList es } := by
  obtain ⟨h₁, s₁, hconstruct, -⟩ := Store.bind_eq_ok_iff.mp (id hmake)
  rw [constructAnnotated_eq hs hconstruct, EStateM.Result.ok.injEq] at hmake
  obtain ⟨rfl, rfl⟩ := hmake
  exact ⟨s₁, hconstruct, rfl⟩

/-- A new node with notes, as seen through the nodes of the store. -/
theorem node?_constructAnnotated {s s' : Store} (hs : s.FreePlaces) {k : KindId}
    {args : List Filling} {notes : List (String × Value)} {h : Handle}
    (hmake : constructAnnotated k args notes s = .ok h s') :
    ∃ n : Node, n.parent = none ∧ n.childNodes = args.flatMap Filling.nodes ∧
      s.node? h = none ∧
      ∀ x, s'.node? x = if x = h then some n else
        (s.node? x).map fun m => if x ∈ n.childNodes then { m with parent := some h } else m := by
  obtain ⟨s₁, hconstruct, rfl⟩ := construct_of_constructAnnotated hs hmake
  obtain ⟨n, hfill, -⟩ := construct_eq_ok_iff.mp hconstruct
  have hsame : Node.childNodes { n with notes := Notes.ofList notes } = n.childNodes := rfl
  exact ⟨{ n with notes := Notes.ofList notes }, (fill_eq_ok hfill).2.1,
    hsame.trans (childNodes_of_fill hfill), (node?_construct hs hfill hconstruct).1,
    node?_construct_notes hs hfill hconstruct (Notes.ofList notes)⟩

/-- A node that cannot be made with its notes cannot be made without them. -/
theorem construct_of_constructAnnotated_error {s s' : Store} (hs : s.FreePlaces) {k : KindId}
    {args : List Filling} {notes : List (String × Value)} {e : NodeError}
    (hmake : constructAnnotated k args notes s = .error e s') :
    construct k args s = .error e s' := by
  cases hconstruct : construct k args s with
  | error e₁ s₁ =>
    unfold constructAnnotated at hmake
    rw [bind_apply, hconstruct] at hmake
    cases hmake
    rfl
  | ok h s₁ =>
    -- the new node is alive, so that its notes can be set
    rw [constructAnnotated_eq hs hconstruct] at hmake
    cases hmake

/-- A node that is refused leaves the store as it was. -/
theorem constructAnnotated_eq_error {s s' : Store} (hs : s.FreePlaces) {k : KindId}
    {args : List Filling} {notes : List (String × Value)} {e : NodeError}
    (hmake : constructAnnotated k args notes s = .error e s') : s' = s :=
  construct_eq_error (construct_of_constructAnnotated_error hs hmake)

/-! ### What grows in a store -/

/-- From `s` to `s'` trees with the roots `hs` have grown: what was there is as it was, the
    roots are new and have no parent, the new nodes hold new nodes only, which have them as
    their parents, and all of them are below the roots. -/
structure Sprouts (s s' : Store) (hs : List Handle) : Prop where
  schema : s'.schema = s.schema
  keeps : ∀ x n, s.node? x = some n → s'.node? x = some n
  nodup : hs.Nodup
  roots : ∀ h ∈ hs, s.node? h = none ∧ ∃ n, s'.node? h = some n ∧ n.parent = none
  inner : ∀ y m, s.node? y = none → s'.node? y = some m → m.childNodes.Nodup ∧
    ∀ x ∈ m.childNodes, s.node? x = none ∧ x ∉ hs ∧ ∃ n, s'.node? x = some n ∧ n.parent = some y
  reached : ∀ y m, s.node? y = none → s'.node? y = some m → ∃ h ∈ hs, s'.Reaches h y

/-- Nothing has sprouted yet. -/
theorem Sprouts.refl (s : Store) : Sprouts s s [] where
  schema := rfl
  keeps := fun _ _ hn => hn
  nodup := List.nodup_nil
  roots := fun _ hh => by cases hh
  inner := fun y m hnone hsome => by
    rw [hnone] at hsome
    cases hsome
  reached := fun y m hnone hsome => by
    rw [hnone] at hsome
    cases hsome

/-- What sprouts leaves the old nodes alone. -/
theorem Sprouts.preserves {s s' : Store} {hs : List Handle} (h : Sprouts s s' hs) :
    Preserves s s' := ⟨h.schema, fun x n hn => ⟨n.parent, h.keeps x n hn⟩⟩

/-- A place that is free afterwards was free before. -/
theorem Sprouts.node?_eq_none {s s' : Store} {hs : List Handle} (h : Sprouts s s' hs)
    {x : Handle} (hx : s'.node? x = none) : s.node? x = none := by
  cases hn : s.node? x with
  | none => rfl
  | some n =>
    rw [h.keeps x n hn] at hx
    cases hx

/-- The order of the roots does not matter. -/
theorem Sprouts.perm {s s' : Store} {hs ks : List Handle} (h : Sprouts s s' hs)
    (hp : hs.Perm ks) : Sprouts s s' ks where
  schema := h.schema
  keeps := h.keeps
  nodup := hp.nodup_iff.mp h.nodup
  roots := fun x hx => h.roots x (hp.mem_iff.mpr hx)
  inner := fun y m hnone hsome => by
    simpa only [hp.mem_iff] using h.inner y m hnone hsome
  reached := fun y m hnone hsome => by
    simpa only [hp.mem_iff] using h.reached y m hnone hsome

/-- What grows later grows beside what has grown. -/
theorem Sprouts.append {s s₁ s₂ : Store} {hs ks : List Handle} (h₁ : Sprouts s s₁ hs)
    (h₂ : Sprouts s₁ s₂ ks) : Sprouts s s₂ (hs ++ ks) := by
  -- the new roots are none of the nodes that were there before
  have hapart : ∀ x n, s₁.node? x = some n → x ∉ ks := by
    intro x n hn hx
    rw [(h₂.roots x hx).1] at hn
    cases hn
  have halive : ∀ x ∈ hs, ∃ n, s₁.node? x = some n := fun x hx =>
    let ⟨n, hn, _⟩ := (h₁.roots x hx).2
    ⟨n, hn⟩
  refine ⟨h₂.schema.trans h₁.schema, fun x n hn => h₂.keeps x n (h₁.keeps x n hn), ?_, ?_, ?_, ?_⟩
  · refine h₁.nodup.append h₂.nodup fun x hx hx' => ?_
    obtain ⟨n, hn⟩ := halive x hx
    exact hapart x n hn hx'
  · intro x hx
    rcases List.mem_append.mp hx with hx | hx
    · obtain ⟨hnone, n, hn, hp⟩ := h₁.roots x hx
      exact ⟨hnone, n, h₂.keeps x n hn, hp⟩
    · obtain ⟨hnone, n, hn, hp⟩ := h₂.roots x hx
      exact ⟨h₁.node?_eq_none hnone, n, hn, hp⟩
  · intro y m hnone hsome
    cases hy : s₁.node? y with
    | none =>
      -- a node of the second growth
      obtain ⟨hnodup, hchildren⟩ := h₂.inner y m hy hsome
      refine ⟨hnodup, fun x hx => ?_⟩
      obtain ⟨hx₁, hxks, hn⟩ := hchildren x hx
      have hxhs : x ∉ hs := by
        intro hmem
        obtain ⟨n, hn⟩ := halive x hmem
        rw [hx₁] at hn
        cases hn
      exact ⟨h₁.node?_eq_none hx₁, by simp [hxhs, hxks], hn⟩
    | some m' =>
      -- a node of the first growth, which the second one leaves alone
      rw [h₂.keeps y m' hy, Option.some.injEq] at hsome
      subst hsome
      obtain ⟨hnodup, hchildren⟩ := h₁.inner y m' hnone hy
      refine ⟨hnodup, fun x hx => ?_⟩
      obtain ⟨hx₀, hxhs, n, hn, hp⟩ := hchildren x hx
      exact ⟨hx₀, by simp [hxhs, hapart x n hn], n, h₂.keeps x n hn, hp⟩
  · intro y m hnone hsome
    cases hy : s₁.node? y with
    | none =>
      obtain ⟨h, hh, hreach⟩ := h₂.reached y m hy hsome
      exact ⟨h, List.mem_append_right hs hh, hreach⟩
    | some m' =>
      obtain ⟨h, hh, hreach⟩ := h₁.reached y m' hnone hy
      exact ⟨h, List.mem_append_left ks hh, h₂.preserves.reaches hreach⟩

/-- Above some nodes a new one was put as their parent, and nothing else is different. -/
theorem preserves_of_view {s s' : Store} (hschema : s'.schema = s.schema) {h : Handle} {n : Node}
    {hs : List Handle} (hfresh : s.node? h = none)
    (hview : ∀ x, s'.node? x = if x = h then some n else
      (s.node? x).map fun m => if x ∈ hs then { m with parent := some h } else m) :
    Preserves s s' := by
  refine ⟨hschema, fun x m hm => ?_⟩
  have hx : x ≠ h := by
    rintro rfl
    rw [hfresh] at hm
    cases hm
  rw [hview, if_neg hx, hm, Option.map_some]
  by_cases hmem : x ∈ hs
  · exact ⟨some h, by rw [if_pos hmem]⟩
  · exact ⟨m.parent, by rw [if_neg hmem]⟩

/-- What has happened when a node was made with notes. -/
theorem exists_of_constructAnnotated {s s' : Store} (hs : s.FreePlaces) {k : KindId}
    {args : List Filling} {es : List (String × Value)} {h : Handle}
    (hmake : constructAnnotated k args es s = .ok h s') :
    ∃ n, s.fill k args = .ok n ∧ Preserves s s' ∧ s'.live = s.live + 1 ∧
      s'.node? h = some { n with notes := Notes.ofList es } := by
  obtain ⟨s₁, hc, rfl⟩ := construct_of_constructAnnotated hs hmake
  obtain ⟨n, hfill, -, -, hs₁⟩ := construct_eq_ok_iff.mp hc
  obtain ⟨hfresh, hlive, -⟩ := node?_construct hs hfill hc
  have hview := node?_construct_notes hs hfill hc (Notes.ofList es)
  have hschema : s₁.schema = s.schema := by rw [hs₁, schema_adopt, schema_insert]
  refine ⟨n, hfill, preserves_of_view ?_ hfresh hview, ?_, by rw [hview, if_pos rfl]⟩
  · rw [schema_modifyNode, hschema]
  · rw [live_modifyNode, hlive]

/-- A new node over some of the roots takes their place. -/
theorem Sprouts.over {s s₁ s₂ : Store} {hs : List Handle} {n : Node}
    (h₁ : Sprouts s s₁ (n.childNodes ++ hs)) (hschema : s₂.schema = s₁.schema) {h : Handle}
    (hfresh : s₁.node? h = none) (hparent : n.parent = none)
    (hview : ∀ x, s₂.node? x = if x = h then some n else
      (s₁.node? x).map fun m => if x ∈ n.childNodes then { m with parent := some h } else m) :
    Sprouts s s₂ (h :: hs) := by
  obtain ⟨hnodup, hnodup', hdisjoint⟩ := List.nodup_append'.mp h₁.nodup
  have hroots := List.forall_mem_append.mp h₁.roots
  have hne : ∀ x m, s₁.node? x = some m → x ≠ h := by
    rintro x m hm rfl
    rw [hfresh] at hm
    cases hm
  -- all nodes but the new one and its children are as they were
  have hother : ∀ x m, s₁.node? x = some m → x ∉ n.childNodes → s₂.node? x = some m := by
    intro x m hm hx
    rw [hview, if_neg (hne x m hm), hm, Option.map_some, if_neg hx]
  refine ⟨hschema.trans h₁.schema, ?_, ?_, ?_, ?_, ?_⟩
  · intro x m hm
    refine hother x m (h₁.keeps x m hm) fun hx => ?_
    rw [(hroots.1 x hx).1] at hm
    cases hm
  · refine List.nodup_cons.mpr ⟨fun hmem => ?_, hnodup'⟩
    obtain ⟨-, k, hk, -⟩ := hroots.2 h hmem
    exact hne h k hk rfl
  · refine List.forall_mem_cons.mpr ⟨?_, fun x hx => ?_⟩
    · exact ⟨h₁.node?_eq_none hfresh, n, by rw [hview, if_pos rfl], hparent⟩
    · obtain ⟨hx₀, k, hk, hp⟩ := hroots.2 x hx
      exact ⟨hx₀, k, hother x k hk fun hmem => hdisjoint hmem hx, hp⟩
  · intro y m hnone hsome
    by_cases hy : y = h
    · -- the new node holds the roots whose place it takes
      rw [hview, if_pos hy, Option.some.injEq] at hsome
      subst hsome
      refine ⟨hnodup, fun x hx => ?_⟩
      obtain ⟨hx₀, k, hk, -⟩ := hroots.1 x hx
      have hnot : x ∉ h :: hs := by
        simpa [hne x k hk] using fun hmem => hdisjoint hx hmem
      refine ⟨hx₀, hnot, { k with parent := some h }, ?_, by rw [hy]⟩
      rw [hview, if_neg (hne x k hk), hk, Option.map_some, if_pos hx]
    · -- the others hold what they held
      rw [hview, if_neg hy, Option.map_eq_some_iff] at hsome
      obtain ⟨m', hm', rfl⟩ := hsome
      obtain ⟨hkids, hinner⟩ := h₁.inner y m' hnone hm'
      have hsame : (if y ∈ n.childNodes then { m' with parent := some h } else m').childNodes
          = m'.childNodes := by split <;> rfl
      rw [hsame]
      refine ⟨hkids, fun x hx => ?_⟩
      obtain ⟨hx₀, hxhs, k, hk, hp⟩ := hinner x hx
      rw [List.mem_append, not_or] at hxhs
      exact ⟨hx₀, by simpa [hne x k hk] using hxhs.2, k, hother x k hk hxhs.1, hp⟩
  · intro y m hnone hsome
    by_cases hy : y = h
    · exact ⟨h, List.mem_cons_self, by rw [hy]⟩
    · rw [hview, if_neg hy, Option.map_eq_some_iff] at hsome
      obtain ⟨m', hm', -⟩ := hsome
      obtain ⟨k, hk, hreach⟩ := h₁.reached y m' hnone hm'
      have hreach' := (preserves_of_view hschema hfresh hview).reaches hreach
      rcases List.mem_append.mp hk with hk | hk
      · have hchild : s₂.Child h k := ⟨n, by rw [hview, if_pos rfl], hk⟩
        exact ⟨h, List.mem_cons_self, .head hchild hreach'⟩
      · exact ⟨k, List.mem_cons_of_mem h hk, hreach'⟩

/-- A new node over the roots of what has grown is the root of all of it. -/
theorem Sprouts.root {s s₁ s₂ : Store} {hs : List Handle} (h₁ : Sprouts s s₁ hs)
    (hschema : s₂.schema = s₁.schema) {h : Handle} {n : Node} (hfresh : s₁.node? h = none)
    (hparent : n.parent = none) (hchildren : n.childNodes = hs)
    (hview : ∀ x, s₂.node? x = if x = h then some n else
      (s₁.node? x).map fun m => if x ∈ hs then { m with parent := some h } else m) :
    Sprouts s s₂ [h] := by
  subst hchildren
  refine Sprouts.over ?_ hschema hfresh hparent hview
  rw [List.append_nil]
  exact h₁

/-! ### Nodes with the same tree -/

/-- Two nodes, in one store or two, unfold to the same tree. -/
def Alike (s s' : Store) (a b : Handle) : Prop := ∃ t, s.Unfolds a t ∧ s'.Unfolds b t

/-- Nodes in stores over one schema have the same kind if their kinds have the same name. -/
theorem kind_eq_of_kindName {s s' : Store} (hs : s.WellFormed) (hs' : s'.WellFormed)
    (hlawful : s.schema.Lawful) (hschema : s'.schema = s.schema) {a b : Handle} {m n : Node}
    (hm : s.node? a = some m) (hn : s'.node? b = some n)
    (hname : s'.schema.kindName n.kind = s.schema.kindName m.kind) : n.kind = m.kind := by
  rw [hschema] at hname
  refine hlawful.kindName_inj ?_ (hs.nodes a m hm).kind hname
  rw [← hschema]
  exact (hs'.nodes b n hn).kind

/-- Nodes with the same tree in stores over one schema have the same kind. -/
theorem Alike.kind_eq {s s' : Store} (hs : s.WellFormed) (hs' : s'.WellFormed)
    (hlawful : s.schema.Lawful) (hschema : s'.schema = s.schema) {a b : Handle} {m n : Node}
    (hab : Alike s s' a b) (hm : s.node? a = some m) (hn : s'.node? b = some n) :
    n.kind = m.kind := by
  obtain ⟨⟨l, ts⟩, ha, hb⟩ := hab
  obtain ⟨rfl, -⟩ := (unfolds_iff_of_node? hm).mp ha
  obtain ⟨hlabel, -⟩ := (unfolds_iff_of_node? hn).mp hb
  exact kind_eq_of_kindName hs hs' hlawful hschema hm hn (congrArg Label.kind hlabel)

/-- What a row of slots admits, it also admits with nodes of the same kinds. -/
theorem forall₂_admits_regroup {s s' : Store} (hschema : s'.schema = s.schema)
    {slots : List ChildSlot} {cs : List Content} (hcs : List.Forall₂ s.Admits slots cs)
    {hs : List Handle}
    (hkinds : List.Forall₂ (fun a b => ∀ m, s.node? a = some m →
      ∃ n, s'.node? b = some n ∧ n.kind = m.kind) (cs.flatMap Content.nodes) hs) :
    List.Forall₂ s'.Admits slots (Shape.regroup (cs.map Content.shape) hs) := by
  induction hcs generalizing hs with
  | nil => exact .nil
  | @cons slot c slots cs hadm _ ih =>
    rw [List.flatMap_cons] at hkinds
    -- the nodes fall apart as the shapes say
    have hhead := List.forall₂_take c.shape.arity hkinds
    have htail := List.forall₂_drop c.shape.arity hkinds
    rw [← c.length_nodes, List.take_left] at hhead
    rw [← c.length_nodes, List.drop_left] at htail
    rw [c.length_nodes] at hhead htail
    have hlength : (hs.take c.shape.arity).length = c.shape.arity := by
      rw [← hhead.length_eq, c.length_nodes]
    refine .cons ⟨?_, fun b hb => ?_⟩ (ih htail)
    · rw [← hadm.shape]
      cases c with
      | one o => cases o <;> rfl
      | many nodes => rfl
    · rw [Shape.nodes_content hlength] at hb
      obtain ⟨a, ha, hab⟩ := forall₂_exists_left hhead hb
      obtain ⟨m, hm, hsub⟩ := hadm.nodes a ha
      obtain ⟨n, hn, hkind⟩ := hab m hm
      exact ⟨n, hn, by rw [hschema, hkind]; exact hsub⟩

/-! ### Planting -/

/-- From `s` to `s'` the trees `ts` were planted, with the roots `hs`. -/
structure Planted (s s' : Store) (hs : List Handle) (ts : List Tree) : Prop where
  steps : Steps s s'
  live : s'.live = s.live + Tree.sizeAll ts
  unfolds : List.Forall₂ s'.Unfolds hs ts
  sprouts : Sprouts s s' hs

theorem Planted.refl (s : Store) : Planted s s [] [] := ⟨.refl, rfl, .nil, .refl s⟩

/-- Trees that are planted after others leave them alone. -/
theorem Planted.append {s s₁ s₂ : Store} {hs ks : List Handle} {ts us : List Tree}
    (h₁ : Planted s s₁ hs ts) (h₂ : Planted s₁ s₂ ks us) : Planted s s₂ (hs ++ ks) (ts ++ us) where
  steps := h₁.steps.trans h₂.steps
  live := by rw [h₂.live, h₁.live, Tree.sizeAll_append, Nat.add_assoc]
  unfolds := List.rel_append (h₁.unfolds.imp fun _ _ h => h.mono h₂.sprouts.preserves) h₂.unfolds
  sprouts := h₁.sprouts.append h₂.sprouts

/-- Nodes that unfold to the trees below a node of a well-formed store fit into a new node with
    the same label. -/
theorem fill_of_unfolds {a : Store} (ha : a.WellFormed) (hlawful : a.schema.Lawful)
    {x : Handle} {n : Node} (hn : a.node? x = some n) {ts : List Tree}
    (hts : List.Forall₂ a.Unfolds n.childNodes ts) {s : Store} (hs : s.WellFormed)
    (hschema : s.schema = a.schema) {hs' : List Handle}
    (hhs : List.Forall₂ s.Unfolds hs' ts) :
    s.fill n.kind (n.values.map .value
        ++ (Shape.regroup (n.children.map Content.shape) hs').map Content.toFilling)
      = .ok ⟨n.kind, n.values, Shape.regroup (n.children.map Content.shape) hs', none,
          Notes.empty⟩ := by
  have hfit := ha.nodes x n hn
  -- the new children are of the kinds of the old ones, so they pass the same checks
  have hkinds : List.Forall₂ (fun b c => ∀ m, a.node? b = some m →
      ∃ k, s.node? c = some k ∧ k.kind = m.kind) n.childNodes hs' := by
    refine (forall₂_join hts hhs).imp fun b c hbc m hm => ?_
    obtain ⟨t, -, hc⟩ := id hbc
    obtain ⟨k, hk⟩ := isAlive_iff.mp hc.isAlive
    exact ⟨k, hk, Alike.kind_eq ha hs hlawful hschema hbc hm hk⟩
  refine fill_of_forall₂ ?_ ?_
  · rw [hschema]
    exact hfit.values
  · rw [hschema]
    exact forall₂_admits_regroup hschema hfit.children hkinds

/-- A label can be planted over nodes that unfold to the trees below it: the new node has no
    parent, becomes the parent of these nodes, and nothing else is different. -/
theorem plant_label_of_unfolds {a : Store} (ha : a.WellFormed) (hlawful : a.schema.Lawful)
    {x : Handle} {n : Node} (hn : a.node? x = some n) {ts : List Tree}
    (hts : List.Forall₂ a.Unfolds n.childNodes ts) {s : Store} (hs : s.WellFormed)
    (hschema : s.schema = a.schema) (hroom : s.live + 1 ≤ maxNodes) {hs' : List Handle}
    (hhs : List.Forall₂ s.Unfolds hs' ts) :
    ∃ h s', (a.label n).plant hs' s = .ok h s' ∧ s.node? h = none ∧ s'.live = s.live + 1 ∧
      ∀ y, s'.node? y = if y = h then
          some ⟨n.kind, n.values, Shape.regroup (n.children.map Content.shape) hs', none, n.notes⟩
        else (s.node? y).map fun m => if y ∈ hs' then { m with parent := some h } else m := by
  have hlength : hs'.length = Shape.arities (n.children.map Content.shape) :=
    hhs.length_eq.trans (length_of_unfolds hts)
  -- the new children are of the kinds that the old ones have
  have hfill := fill_of_unfolds ha hlawful hn hts hs hschema hhs
  have hspace : s.hasRoom = true := by
    rw [hs.booked.hasRoom_iff]
    omega
  obtain ⟨h, s₁, hconstruct⟩ : ∃ h s₁, construct n.kind (n.values.map .value
      ++ (Shape.regroup (n.children.map Content.shape) hs').map Content.toFilling) s = .ok h s₁ :=
    ⟨_, _, construct_eq_ok_iff.mpr ⟨_, hfill, hspace, rfl, rfl⟩⟩
  obtain ⟨hfresh, hlive, -⟩ := node?_construct hs.booked.freePlaces hfill hconstruct
  refine ⟨h, s₁.modifyNode h fun m => { m with notes := n.notes }, ?_, hfresh, ?_, fun y => ?_⟩
  · unfold Label.plant
    simp only [label, hschema, hlawful.kindByName?_kindName (ha.nodes x n hn).kind]
    exact constructAnnotated_of_construct hs.booked.freePlaces hconstruct n.notes
  · rw [live_modifyNode, hlive]
  · have hchildren : Node.childNodes ⟨n.kind, n.values,
        Shape.regroup (n.children.map Content.shape) hs', none, Notes.empty⟩ = hs' :=
      Shape.flatMap_nodes_regroup hlength
    rw [node?_construct_notes hs.booked.freePlaces hfill hconstruct, hchildren]

/-- A new node over the roots of what was planted is the root of all of it. -/
theorem Planted.over {s s₁ s₂ : Store} {hs' : List Handle} {ts : List Tree}
    (h₁ : Planted s s₁ hs' ts) (hsteps : Steps s₁ s₂) {h : Handle} (hfresh : s₁.node? h = none)
    (hlive : s₂.live = s₁.live + 1) {k : KindId} {values : List Value} {notes : Notes}
    {shapes : List Shape} (hlength : hs'.length = Shape.arities shapes)
    (hview : ∀ y, s₂.node? y = if y = h then
        some ⟨k, values, Shape.regroup shapes hs', none, notes⟩
      else (s₁.node? y).map fun m => if y ∈ hs' then { m with parent := some h } else m) :
    Planted s s₂ [h] [.node ⟨s.schema.kindName k, values, notes, shapes⟩ ts] := by
  have hchildren : Node.childNodes ⟨k, values, Shape.regroup shapes hs', none, notes⟩ = hs' :=
    Shape.flatMap_nodes_regroup hlength
  refine ⟨h₁.steps.trans hsteps, ?_, .cons ?_ .nil,
    h₁.sprouts.root hsteps.schema hfresh rfl hchildren hview⟩
  · rw [hlive, h₁.live, Tree.sizeAll, Tree.size, Tree.sizeAll]
    omega
  · refine unfolds_node_iff.mpr ⟨_, by rw [hview, if_pos rfl], ?_, ?_⟩
    · simp only [label, hsteps.schema, h₁.steps.schema, Shape.map_shape_regroup hlength]
    · rw [hchildren]
      exact h₁.unfolds.imp fun _ _ hu =>
        hu.mono (preserves_of_view hsteps.schema hfresh hview)

/-- The last step of planting: with all trees below it planted, the root can be made. -/
theorem Planted.root {a : Store} (ha : a.WellFormed) (hlawful : a.schema.Lawful) {x : Handle}
    {l : Label} {ts : List Tree} (hx : a.Unfolds x (.node l ts)) {s s₁ : Store}
    (hs : s.WellFormed) (hschema : s.schema = a.schema)
    (hroom : s.live + (Tree.node l ts).size ≤ maxNodes) {hs' : List Handle}
    (h₁ : Planted s s₁ hs' ts) :
    ∃ h s₂, l.plant hs' s₁ = .ok h s₂ ∧ Planted s s₂ [h] [.node l ts] := by
  obtain ⟨n, hn, rfl, hts⟩ := unfolds_node_iff.mp hx
  have hschema₁ : s₁.schema = a.schema := h₁.steps.schema.trans hschema
  have hroom₁ : s₁.live + 1 ≤ maxNodes := by
    rw [h₁.live]
    rw [Tree.size] at hroom
    omega
  obtain ⟨h, s₂, hplant, hfresh, hlive, hview⟩ := plant_label_of_unfolds ha hlawful hn hts
    (hs.steps h₁.steps) hschema₁ hroom₁ h₁.unfolds
  have hsteps : Steps s₁ s₂ := by
    rw [← after_of_ok hplant]
    exact Steps.plantLabel _ _ _
  have hplanted := h₁.over hsteps hfresh hlive
    (h₁.unfolds.length_eq.trans (length_of_unfolds hts)) hview
  rw [hschema] at hplanted
  exact ⟨h, s₂, hplant, hplanted⟩

end Store

/-- **Planting.**  A tree that was found in a well-formed store can be planted in any
    well-formed store over the same schema that has room for it. -/
theorem Tree.plant_spec {a : Store} (ha : a.WellFormed) (hlawful : a.schema.Lawful) {x : Handle}
    {t : Tree} (hx : a.Unfolds x t) {s : Store} (hs : s.WellFormed)
    (hschema : s.schema = a.schema) (hroom : s.live + t.size ≤ Store.maxNodes) :
    ∃ h s', t.plant s = .ok h s' ∧ Store.Planted s s' [h] [t] := by
  induction t generalizing x s with
  | node l ts ih =>
    have hall : ∃ hs' s', Tree.plantAll ts s = .ok hs' s' ∧ Store.Planted s s' hs' ts := by
      obtain ⟨n, -, -, hts⟩ := Store.unfolds_node_iff.mp hx
      rw [Tree.size] at hroom
      generalize n.childNodes = cs at hts
      clear hx
      -- tree by tree, in stores that have less and less room
      induction ts generalizing s cs with
      | nil => exact ⟨[], s, rfl, .refl s⟩
      | cons t ts ihts =>
        obtain ⟨c, cs, hct, hcs, rfl⟩ := List.forall₂_cons_right_iff.mp hts
        rw [Tree.sizeAll] at hroom
        obtain ⟨h, s₁, hplant, h₁⟩ :=
          ih t List.mem_cons_self hct hs hschema (by omega)
        have hlive : s₁.live = s.live + t.size := by
          rw [h₁.live, Tree.sizeAll, Tree.sizeAll]
          omega
        obtain ⟨hs', s₂, hrest, h₂⟩ := ihts (fun u hu => ih u (List.mem_cons_of_mem _ hu))
          (hs.steps h₁.steps) (h₁.steps.schema.trans hschema) (by omega) cs hcs
        exact ⟨h :: hs', s₂, plantAll_cons_eq_ok_iff.mpr ⟨h, s₁, hs', hplant, hrest, rfl⟩,
          h₁.append h₂⟩
    obtain ⟨hs', s₁, hplant, h₁⟩ := hall
    obtain ⟨h, s₂, hroot, h₂⟩ := h₁.root ha hlawful hx hs hschema hroom
    exact ⟨h, s₂, by rw [Tree.plant]; exact Store.bind_eq_ok_iff.mpr ⟨hs', s₁, hplant, hroot⟩, h₂⟩

end TypedForest
