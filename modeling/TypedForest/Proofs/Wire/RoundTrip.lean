import TypedForest.Proofs.Store.Run
import TypedForest.Proofs.Tree.Observation
import TypedForest.Proofs.Wire.Trees
import TypedForest.Store.Access
import TypedForest.Store.Annotation

namespace TypedForest

/-!
# Writing and reading back

* `Store.encode_round_trip` : which trees can be written, and what reading them gives;
* `Store.encode_eq_encode_iff` : two trees have the same bytes exactly if they agree.

Lengths are written as machine words, which they are in the memory of a machine.  Here it has to
be said (`Store.Addressable`); besides this, all that is asked of a store is that it can be
reached.
-/

namespace Store

/-- All lengths in the store can be counted in words. -/
def Addressable (s : Store) : Prop := ∀ h n, s.node? h = some n → (s.label n).Fits

/-- No value of a node that can be reached has too many lists inside each other. -/
def ShallowBelow (s : Store) (root : Handle) : Prop :=
  ∀ h n, s.Reaches root h → s.node? h = some n → (s.label n).Shallow

/-- A tree is shallow if all nodes below its root are. -/
theorem Unfolds.all_shallow_iff {s : Store} {h : Handle} {t : Tree} (ht : s.Unfolds h t) :
    t.All Label.Shallow ↔ s.ShallowBelow h := ht.all_iff

/-- In a store whose nodes fit, all trees fit. -/
theorem Unfolds.all_fits {s : Store} (hs : s.Addressable) {h : Handle} {t : Tree}
    (ht : s.Unfolds h t) : t.All Label.Fits :=
  ht.all_iff.mpr fun x n _ hn => hs x n hn

/-- A property of all nodes can be checked place by place. -/
theorem forall_node?_of_entries {s : Store} {P : Node → Prop}
    (hall : ∀ e ∈ s.entries.toList, ∀ n ∈ e.node.toList, P n) :
    ∀ h n, s.node? h = some n → P n := by
  intro h n hn
  rw [node?] at hn
  split at hn
  · next e he =>
    have hmem : e ∈ s.entries.toList := Array.mem_toList_iff.mpr (Array.mem_of_getElem? he)
    split at hn
    · exact hall e hmem n (Option.mem_toList.mpr hn)
    · cases hn
  · cases hn

/-- A tree can be written unless a value in it is too deep. -/
theorem exists_encode_iff {s : Store} {root : Handle} {t : Tree} (ht : s.Unfolds root t) :
    (∃ b, s.encode root = .ok b) ↔ s.ShallowBelow root := by
  obtain ⟨hok, herror⟩ := Wire.encode_of_unfolds ht
  rw [← ht.all_shallow_iff]
  constructor
  · rintro ⟨b, hb⟩
    by_contra hnot
    rw [herror hnot] at hb
    cases hb
  · exact fun hall => ⟨_, hok hall⟩

/-- Bytes that were written are those of a tree that can be written. -/
theorem eq_treeBytes_of_encode {s : Store} (hs : s.Addressable) {root : Handle} {t : Tree}
    (ht : s.Unfolds root t) {b : List UInt8} (hb : s.encode root = .ok b) :
    Wire.Writable s t ∧ b = Wire.preamble ++ Wire.treeBytes t := by
  have hshallow : t.All Label.Shallow := ht.all_shallow_iff.mpr ((exists_encode_iff ht).mp ⟨b, hb⟩)
  rw [(Wire.encode_of_unfolds ht).1 hshallow, Except.ok.injEq] at hb
  exact ⟨⟨⟨root, ht⟩, ht.all_fits hs, hshallow⟩, hb.symm⟩

/-! ### The place of a new tree -/

/-- The tree under `r` is new in `s'`: all that was in `s` is as it was, the other nodes of `s'`
    are those under `r`, the root has no parent, and every other of these nodes has as its
    parent the one node that holds it. -/
structure Grafted (s s' : Store) (r : Handle) : Prop where
  keeps : ∀ h n, s.node? h = some n → s'.node? h = some n
  new : ∀ h, s'.Reaches r h ↔ s.isAlive h = false ∧ s'.isAlive h = true
  root : s'.parent r = .ok none
  parents : ∀ h, s'.Reaches r h → h ≠ r →
    ∃ p, s'.parent h = .ok (some p) ∧ ∀ q, s'.Child q h ↔ q = p

/-- The parent of a live node is the one that it records. -/
theorem parent_of_node? {s : Store} {h : Handle} {n : Node} (hn : s.node? h = some n) :
    s.parent h = .ok n.parent := by
  rw [parent, get, hn]
  rfl

/-- A handle is stale if it has no node. -/
theorem isAlive_eq_false_iff {s : Store} {h : Handle} :
    s.isAlive h = false ↔ s.node? h = none := by
  rw [isAlive, Option.isSome_eq_false_iff, Option.isNone_iff_eq_none]

/-- What has grown under one root is a new tree. -/
theorem Sprouts.grafted {s s' : Store} (hs : s.WellFormed) {r : Handle}
    (h : Sprouts s s' [r]) : Grafted s s' r := by
  obtain ⟨hfresh, n, hn, hparent⟩ := h.roots r (List.mem_singleton_self r)
  -- all nodes on ways down from the root are new
  have hnew : ∀ x, s'.Reaches r x → s.node? x = none ∧ ∃ m, s'.node? x = some m := by
    intro x hx
    induction hx with
    | refl => exact ⟨hfresh, n, hn⟩
    | tail _ hc ih =>
      obtain ⟨m, hm, hmem⟩ := hc
      obtain ⟨hx₀, -, k, hk, -⟩ := (h.inner _ m ih.1 hm).2 _ hmem
      exact ⟨hx₀, k, hk⟩
  refine ⟨h.keeps, fun x => ⟨fun hx => ?_, fun hx => ?_⟩, ?_, fun x hx hne => ?_⟩
  · obtain ⟨hx₀, m, hm⟩ := hnew x hx
    exact ⟨isAlive_eq_false_iff.mpr hx₀, isAlive_of_node? hm⟩
  · obtain ⟨m, hm⟩ := isAlive_iff.mp hx.2
    obtain ⟨k, hk, hreach⟩ := h.reached x m (isAlive_eq_false_iff.mp hx.1) hm
    rwa [List.mem_singleton.mp hk] at hreach
  · rw [parent_of_node? hn, hparent]
  · obtain ⟨p, hp, hc⟩ := (Relation.ReflTransGen.cases_tail hx).resolve_left hne
    obtain ⟨hp₀, -⟩ := hnew p hp
    obtain ⟨m, hm, hmem⟩ := id hc
    obtain ⟨hx₀, -, k, hk, hkp⟩ := (h.inner p m hp₀ hm).2 x hmem
    refine ⟨p, by rw [parent_of_node? hk, hkp], fun q => ⟨fun hq => ?_, fun hq => hq ▸ hc⟩⟩
    obtain ⟨l, hl, hmem'⟩ := hq
    cases hq₀ : s.node? q with
    | none =>
      -- another new node that holds it would be its parent too
      obtain ⟨-, -, k', hk', hkq⟩ := (h.inner q l hq₀ hl).2 x hmem'
      rw [hk, Option.some.injEq] at hk'
      rw [← hk', hkp, Option.some.injEq] at hkq
      exact hkq.symm
    | some l₀ =>
      -- a node that was there before holds only nodes that were there before
      rw [h.keeps q l₀ hq₀, Option.some.injEq] at hl
      subst hl
      obtain ⟨k', hk'⟩ := (hs.nodes q l₀ hq₀).childNodes hmem'
      rw [hx₀] at hk'
      cases hk'

/-! ### The round trip -/

/-- Two nodes, in one store or two, have the same notes. -/
def SameNotes (s s' : Store) (h k : Handle) : Prop :=
  ∃ m n, s.notes h = .ok m ∧ s'.notes k = .ok n ∧ m.Identical n

theorem notes_of_says {s : Store} {h : Handle} {l : Label} (hl : s.Says h l) :
    s.notes h = .ok l.notes := by
  obtain ⟨n, hn, rfl⟩ := hl
  rw [notes, get, hn]
  rfl

/-- Nodes with the same labels have the same notes. -/
theorem sameNotes_of_says {s s' : Store} {hs ks : List Handle} {ls : List Label}
    (hhs : List.Forall₂ s.Says hs ls) (hks : List.Forall₂ s'.Says ks ls) :
    List.Forall₂ (SameNotes s s') hs ks := by
  refine (forall₂_join hhs hks).imp ?_
  rintro h k ⟨l, hh, hk⟩
  exact ⟨l.notes, l.notes, notes_of_says hh, notes_of_says hk, Notes.identical_iff.mpr rfl⟩

/-- Walks over the same tree meet the same notes. -/
theorem sameNotes_traverse {s s' : Store} {a b : Handle} {t : Tree} (ha : s.Unfolds a t)
    (hb : s'.Unfolds b t) (limit : Nat) :
    List.Forall₂ (SameNotes s s') (s.traverse .pre a limit) (s'.traverse .pre b limit) :=
  sameNotes_of_says (traverse_pre_of_unfolds ha limit) (traverse_pre_of_unfolds hb limit)

/-- **Round trip.**  A tree without cycles can be written exactly if no value in it has more
    than 128 lists inside each other.  What was written can be read into every store over the
    same schema that has room.  It gives a new tree that is equal to the old one, has the same
    notes, and is written as the same bytes.  The store it is read into can also be the one it
    comes from; then the comparison is made there. -/
theorem encode_round_trip {schema : Schema} (hbuilt : schema.Built) {s : Store}
    (hs : Reachable schema s) (hwords : s.Addressable) {root : Handle}
    (halive : s.isAlive root = true) (hacyclic : s.Acyclic root) :
    ((∃ b, s.encode root = .ok b) ↔ s.ShallowBelow root) ∧
      (¬ s.ShallowBelow root → s.encode root = .error (.malformed .valueTooDeep)) ∧
      ∃ t, s.Unfolds root t ∧ ∀ b, s.encode root = .ok b →
        ∀ u, Reachable schema u → u.live + t.size ≤ maxNodes →
          ∃ r u', decode b u = .ok r u' ∧ Grafted u u' r ∧ u'.encode r = .ok b ∧
            ∀ s', s' = s ∨ u = s ∧ s' = u' →
              (∀ how, equalTrees how s' root u' r = some true) ∧
                ∀ limit, List.Forall₂ (SameNotes s' u') (s'.traverse .pre root limit)
                  (u'.traverse .pre r limit) := by
  have hwf := hs.wellFormed_store
  have hlawful := hs.lawful hbuilt
  obtain ⟨t, ht⟩ := exists_unfolds hwf halive hacyclic
  refine ⟨exists_encode_iff ht, fun hdeep => ?_, t, ht, fun b hb u hu hroom => ?_⟩
  · exact (Wire.encode_of_unfolds ht).2 (mt ht.all_shallow_iff.mp hdeep)
  -- the bytes can only be those of the tree
  obtain ⟨hwritable, rfl⟩ := eq_treeBytes_of_encode hwords ht hb
  have hschema : u.schema = s.schema := hu.schema_eq.trans hs.schema_eq.symm
  -- reading the bytes plants the tree
  obtain ⟨r, u', hplant, hplanted⟩ :=
    Tree.plant_spec hwf hlawful ht hu.wellFormed_store hschema hroom
  have hr : u'.Unfolds r t := (List.forall₂_cons.mp hplanted.unfolds).1
  have hwf' := hu.wellFormed_store.steps hplanted.steps
  have hschema' : u'.schema = s.schema := hplanted.steps.schema.trans hschema
  refine ⟨r, u', Wire.decode_treeBytes hwf hlawful hwritable hschema hplant,
    hplanted.sprouts.grafted hu.wellFormed_store,
    (Wire.encode_of_unfolds hr).1 hwritable.shallow, ?_⟩
  -- the old tree is still there, also in the store that was read into
  rintro s' (rfl | ⟨rfl, rfl⟩)
  · exact ⟨fun how => equalTrees_of_unfolds hwf hwf' hlawful hschema' how ht hr,
      sameNotes_traverse ht hr⟩
  · have ht' := ht.mono hplanted.sprouts.preserves
    have hlawful' := hschema'.symm ▸ hlawful
    exact ⟨fun how => equalTrees_of_unfolds hwf' hwf' hlawful' rfl how ht' hr,
      sameNotes_traverse ht' hr⟩

end Store

/-! ### A tree to look at -/

namespace Sample

/-- The item and the group that holds it three times, with a note on the item. -/
def noted : Store := after (Store.setNote ⟨0, 0⟩ "mark" (.list [.null, .list []])) shared

theorem reachable_noted : Reachable schema noted :=
  ⟨[], run_shared.trans (.operation (.setNote _ _ _) _ _)⟩

def mark : Notes := Notes.ofList [("mark", .list [.null, .list []])]

def part : Tree := .node ⟨"item", [.str "part"], mark, [.vacant, .many 0]⟩ []

/-- The tree under the group. -/
def tree : Tree := .node ⟨"group", [.str "all"], Notes.empty, [.one, .many 2]⟩ [part, part, part]

/-- An item of this store with the note unfolds to the tree of an item. -/
theorem unfolds_part {s : Store} (hs : s.schema = schema) {h : Handle} {p : Option Handle}
    (hn : s.node? h = some ⟨⟨0⟩, [.str "part"], [.one none, .many []], p, mark⟩) :
    s.Unfolds h part := by
  have hname : schema.kindName ⟨0⟩ = "item" := by decide +kernel
  refine Store.unfolds_node_iff.mpr ⟨_, hn, ?_, .nil⟩
  rw [Store.label, hs, hname]
  rfl

/-- A group with three such items unfolds to the tree of the group. -/
theorem unfolds_group {s : Store} (hs : s.schema = schema) {h a b c : Handle}
    (hn : s.node? h
      = some ⟨⟨1⟩, [.str "all"], [.one (some a), .many [b, c]], none, Notes.empty⟩)
    (ha : s.Unfolds a part) (hb : s.Unfolds b part) (hc : s.Unfolds c part) :
    s.Unfolds h tree := by
  have hname : schema.kindName ⟨1⟩ = "group" := by decide +kernel
  refine Store.unfolds_node_iff.mpr ⟨_, hn, ?_, .cons ha (.cons hb (.cons hc .nil))⟩
  rw [Store.label, hs, hname]
  rfl

/-- The group unfolds to a tree with the item in three places. -/
theorem unfolds_noted : noted.Unfolds ⟨1, 0⟩ tree := by
  have hs : noted.schema = schema := reachable_noted.schema_eq
  have hpart : noted.Unfolds ⟨0, 0⟩ part := unfolds_part hs (p := some ⟨1, 0⟩) (by decide +kernel)
  exact unfolds_group hs (by decide +kernel) hpart hpart hpart

/-- All of its parts fit into words. -/
theorem addressable_noted : noted.Addressable :=
  Store.forall_node?_of_entries (by decide +kernel)

/-- Its values are not too deep, from wherever one starts. -/
theorem shallowBelow_noted (root : Handle) : noted.ShallowBelow root := by
  have hall : ∀ h n, noted.node? h = some n → (noted.label n).Shallow :=
    Store.forall_node?_of_entries (by decide +kernel)
  exact fun h n _ hn => hall h n hn

/-- The group can be written and read back into its own store. -/
theorem round_trip_noted :
    ∃ b r s', noted.encode ⟨1, 0⟩ = .ok b ∧ Store.decode b noted = .ok r s' ∧
      Store.Grafted noted s' r ∧ s'.encode r = .ok b ∧
      Store.equalTrees .byName s' ⟨1, 0⟩ s' r = some true := by
  obtain ⟨hwritten, -, t, ht, hread⟩ := Store.encode_round_trip built reachable_noted
    addressable_noted unfolds_noted.isAlive unfolds_noted.acyclic
  obtain ⟨b, hb⟩ := hwritten.mpr (shallowBelow_noted _)
  have hroom : noted.live + t.size ≤ Store.maxNodes := by
    rw [ht.unique unfolds_noted]
    decide +kernel
  obtain ⟨r, s', hdecode, hgrafted, hagain, hsame⟩ := hread b hb noted reachable_noted hroom
  exact ⟨b, r, s', hb, hdecode, hgrafted, hagain, (hsame s' (.inr ⟨rfl, rfl⟩)).1 .byName⟩

end Sample

/-! ### Trees with the same bytes -/

namespace Store

/-- The trees under two nodes agree node by node: in the names of the kinds, the values, the
    shapes of the slots and what is in them, and the notes. -/
inductive Agree (s s' : Store) : Handle → Handle → Prop
  | node {a b : Handle} {m n : Node} (hm : s.node? a = some m) (hn : s'.node? b = some n)
      (kind : s.schema.kindName m.kind = s'.schema.kindName n.kind)
      (values : List.Forall₂ (fun v w => v.identical w = true) m.values n.values)
      (children : List.Forall₂ (Content.Rel (Agree s s')) m.children n.children)
      (notes : m.notes.Identical n.notes) : Agree s s' a b

/-- Nodes that agree unfold to the same tree. -/
theorem Agree.tree_eq {s s' : Store} {a b : Handle} {t u : Tree} (hab : Agree s s' a b)
    (ha : s.Unfolds a t) (hb : s'.Unfolds b u) : t = u := by
  induction t generalizing a b u with
  | node l ts ih =>
    obtain ⟨l', us⟩ := u
    cases hab with
    | @node _ _ m n hm hn hkind hvalues hchildren hnotes =>
      obtain ⟨rfl, hts⟩ := (unfolds_iff_of_node? hm).mp ha
      obtain ⟨rfl, hus⟩ := (unfolds_iff_of_node? hn).mp hb
      obtain ⟨hshapes, hnodes⟩ := forall₂_rel_iff.mp hchildren
      have hlabel : s.label m = s'.label n := by
        simp only [label, hkind, Value.forall₂_identical_iff.mp hvalues,
          Notes.identical_iff.mp hnotes, hshapes]
      -- each child agrees with a node that unfolds to the tree in the same place
      have htrees : ts = us := by
        refine forall₂_right_unique hts (forall₂_join hnodes hus.flip) fun t ht c v hct => ?_
        rintro ⟨d, hcd, hdv⟩
        exact ih t ht hcd hct hdv
      rw [hlabel, htrees]

/-- Nodes that unfold to the same tree agree. -/
theorem agree_of_unfolds {s s' : Store} {a b : Handle} {t : Tree} (ha : s.Unfolds a t)
    (hb : s'.Unfolds b t) : Agree s s' a b := by
  induction t generalizing a b with
  | node l ts ih =>
    obtain ⟨m, hm, hml, hts⟩ := unfolds_node_iff.mp ha
    obtain ⟨n, hn, hnl, hus⟩ := unfolds_node_iff.mp hb
    have hlabel : s.label m = s'.label n := hml.trans hnl.symm
    -- nodes in the same places unfold to the same tree of the list
    have hnodes : List.Forall₂ (Agree s s') m.childNodes n.childNodes := by
      have hmem := forall₂_imp_of_mem hts fun c u hu hcu => And.intro hu hcu
      refine (forall₂_join hmem hus).imp ?_
      rintro c d ⟨u, ⟨hu, hcu⟩, hdu⟩
      exact ih u hu hcu hdu
    refine .node hm hn (congrArg Label.kind hlabel) ?_ ?_ ?_
    · exact Value.forall₂_identical_iff.mpr (congrArg Label.values hlabel)
    · exact forall₂_rel_iff.mpr ⟨congrArg Label.shapes hlabel, hnodes⟩
    · exact Notes.identical_iff.mpr (congrArg Label.notes hlabel)

/-- **The bytes identify the tree.**  Two trees, in stores over one schema or over two, are
    written as the same bytes exactly if they agree node by node.  So the bytes depend neither
    on handles, parents and other nodes, nor on how often a node is shared or in which order
    notes were set. -/
theorem encode_eq_encode_iff {schema schema' : Schema} {s s' : Store}
    (hs : Reachable schema s) (hs' : Reachable schema' s') (hwords : s.Addressable)
    (hwords' : s'.Addressable) {a b : Handle} (ha : s.isAlive a = true)
    (hb : s'.isAlive b = true) (hacyclic : s.Acyclic a) (hacyclic' : s'.Acyclic b)
    {x y : List UInt8} (hx : s.encode a = .ok x) (hy : s'.encode b = .ok y) :
    x = y ↔ Agree s s' a b := by
  obtain ⟨t, ht⟩ := exists_unfolds hs.wellFormed_store ha hacyclic
  obtain ⟨u, hu⟩ := exists_unfolds hs'.wellFormed_store hb hacyclic'
  obtain ⟨htw, rfl⟩ := eq_treeBytes_of_encode hwords ht hx
  obtain ⟨huw, rfl⟩ := eq_treeBytes_of_encode hwords' hu hy
  constructor
  · intro hbytes
    have heq : t = u := Wire.treeBytes_inj htw huw (List.append_cancel_left hbytes)
    rw [← heq] at hu
    exact agree_of_unfolds ht hu
  · intro hagree
    rw [hagree.tree_eq ht hu]

end Store

namespace Sample

/-- The group with two items: one is next, the other is twice a part. -/
def apart : Store :=
  after (Store.constructNamed "group"
    [.value (.str "all"), .one (some ⟨1, 0⟩), .many [⟨0, 0⟩, ⟨0, 0⟩]]) <|
  after (Store.setNote ⟨1, 0⟩ "mark" (.list [.null, .list []])) <|
  after (Store.constructNamed "item" [.value (.str "part")]) <|
  after (Store.setNote ⟨0, 0⟩ "mark" (.list [.null, .list []])) <|
  after (Store.constructNamed "item" [.value (.str "part")]) (Store.empty schema)

theorem reachable_apart : Reachable schema apart :=
  ⟨[], ((((Run.operation (.constructNamed _ _) _ _).trans (.operation (.setNote _ _ _) _ _)).trans
    (.operation (.constructNamed _ _) _ _)).trans (.operation (.setNote _ _ _) _ _)).trans
    (.operation (.constructNamed _ _) _ _)⟩

/-- With an item of its own for each slot the group unfolds to the same tree. -/
theorem unfolds_apart : apart.Unfolds ⟨2, 0⟩ tree := by
  have hs : apart.schema = schema := reachable_apart.schema_eq
  have hnext : apart.Unfolds ⟨1, 0⟩ part := unfolds_part hs (p := some ⟨2, 0⟩) (by decide +kernel)
  have hpart : apart.Unfolds ⟨0, 0⟩ part := unfolds_part hs (p := some ⟨2, 0⟩) (by decide +kernel)
  exact unfolds_group hs (by decide +kernel) hnext hpart hpart

theorem shallowBelow_apart (root : Handle) : apart.ShallowBelow root := by
  have hall : ∀ h n, apart.node? h = some n → (apart.label n).Shallow :=
    Store.forall_node?_of_entries (by decide +kernel)
  exact fun h n _ hn => hall h n hn

/-- The two groups are written alike, though they share their items differently. -/
theorem encode_noted_eq_encode_apart :
    ∃ b, noted.encode ⟨1, 0⟩ = .ok b ∧ apart.encode ⟨2, 0⟩ = .ok b := by
  obtain ⟨x, hx⟩ := (Store.exists_encode_iff unfolds_noted).mpr (shallowBelow_noted _)
  obtain ⟨y, hy⟩ := (Store.exists_encode_iff unfolds_apart).mpr (shallowBelow_apart _)
  have heq : x = y := (Store.encode_eq_encode_iff reachable_noted reachable_apart
    addressable_noted (Store.forall_node?_of_entries (by decide +kernel)) unfolds_noted.isAlive
    unfolds_apart.isAlive unfolds_noted.acyclic unfolds_apart.acyclic hx hy).mpr
    (Store.agree_of_unfolds unfolds_noted unfolds_apart)
  exact ⟨x, hx, heq ▸ hy⟩

end Sample

end TypedForest
