import TypedForest.Proofs.Wire.Parser
import TypedForest.Proofs.Wire.RoundTrip

namespace TypedForest

/-!
# Accepted bytes and canonical bytes

* `Wire.exists_spelled_of_decode` : what reading accepts are the spellings of trees, and it makes
  the nodes of the tree that they spell;
* `Wire.canonical_iff` : of the spellings of a tree the one that is written is canonical;
* `Store.decode_canonicalizes` : what was read, in whatever spelling, is written in the canonical
  one.
-/

namespace Wire

/-! ### Parsers that succeed -/

section

variable {α β : Type} {data rest : List UInt8} {s s' : Store}

/-- If a parser after another one has read something, so has the first one. -/
theorem parser_bind_eq_ok {p : Parser α} {f : α → Parser β} {b : β}
    (h : (p >>= f) data s = .ok (b, rest) s') :
    ∃ a mid s₁, p data s = .ok (a, mid) s₁ ∧ f a mid s₁ = .ok (b, rest) s' := by
  rw [parser_bind_apply] at h
  split at h
  · cases h
  · next a mid s₁ hp => exact ⟨a, mid, s₁, hp, h⟩

/-- Reading a part leaves the store alone. -/
theorem part_eq_ok {r : Reader α} {a : α} (h : part r data s = .ok (a, rest) s') :
    r data = .ok (a, rest) ∧ s' = s := by
  unfold part at h
  split at h
  · cases h
  · next hr =>
    cases h
    exact ⟨hr, rfl⟩

/-- An edit leaves the bytes alone. -/
theorem edit_eq_ok {x : Edit α} {a : α} (h : edit x data s = .ok (a, rest) s') :
    x s = .ok a s' ∧ rest = data := by
  unfold edit at h
  split at h
  · cases h
  · next hx =>
    cases h
    exact ⟨hx, rfl⟩

end

/-! ### Reading plants what the bytes spell -/

/-- From `s` to `s'` the trees `ts` were planted, with the roots `hs`, and planting them does
    this. -/
structure Sown (s s' : Store) (hs : List Handle) (ts : List Tree) : Prop where
  plant : Tree.plantAll ts s = .ok hs s'
  planted : Store.Planted s s' hs ts

/-- Trees that are planted after other trees are planted together with them. -/
theorem Sown.append {s s₁ s₂ : Store} {hs ks : List Handle} {ts us : List Tree}
    (h₁ : Sown s s₁ hs ts) (h₂ : Sown s₁ s₂ ks us) : Sown s s₂ (hs ++ ks) (ts ++ us) :=
  ⟨Tree.plantAll_append h₁.plant h₂.plant, h₁.planted.append h₂.planted⟩

/-- From fewer than `n` bytes the parser reads a tree that they spell, and plants it. -/
def Sows (n : Nat) (node : Parser Handle) : Prop :=
  ∀ data s h rest s', data.length < n → s.WellFormed → node data s = .ok (h, rest) s' →
    ∃ t p, data = p ++ rest ∧ SpellsTree .accepted t p ∧ Sown s s' [h] [t]

section

variable {n : Nat} {node : Parser Handle} (hnode : Sows n node) {data rest : List UInt8}
  {s s' : Store}
include hnode

/-- If nodes are read by planting trees, so are several nodes one after the other. -/
theorem Sows.times {m : Nat} {hs' : List Handle} (hlength : data.length < n)
    (hs : s.WellFormed) (h : times m node data s = .ok (hs', rest) s') :
    ∃ ts p, data = p ++ rest ∧ ts.length = m ∧ Row (SpellsTree .accepted) ts p ∧
      Sown s s' hs' ts := by
  induction m generalizing data s hs' with
  | zero =>
    cases h
    exact ⟨[], [], rfl, rfl, .nil, rfl, .refl _⟩
  | succ m ih =>
    obtain ⟨h₀, mid, s₁, hfirst, h⟩ := parser_bind_eq_ok h
    obtain ⟨hs₁, last, s₂, hrest, hpure⟩ := parser_bind_eq_ok h
    cases hpure
    obtain ⟨t, p, rfl, ht, hsown⟩ := hnode _ _ _ _ _ hlength hs hfirst
    rw [List.length_append] at hlength
    obtain ⟨ts, q, rfl, hcount, hts, hsown'⟩ := ih (by omega) (hs.steps hsown.planted.steps) hrest
    exact ⟨t :: ts, p ++ q, by rw [List.append_assoc], by rw [List.length_cons, hcount],
      .cons ht hts, hsown.append hsown'⟩

/-- A slot is read by planting the trees in it. -/
theorem Sows.slot {filling : Filling} (hlength : data.length < n) (hs : s.WellFormed)
    (hparse : parseSlot node data s = .ok (filling, rest) s') :
    ∃ shape ts hs' p, data = p ++ rest ∧
      SpellsSlot .accepted (SpellsTree .accepted) shape ts p ∧ Sown s s' hs' ts ∧
      filling = (shape.content hs').toFilling := by
  obtain ⟨tag, mid, s₁, hpart, h⟩ := parser_bind_eq_ok hparse
  obtain ⟨hread, rfl⟩ := part_eq_ok hpart
  obtain ⟨_, rfl, rfl⟩ := yields_readByte _ _ _ _ hread
  rw [List.length_append] at hlength
  -- the tag tells how many trees were spelled
  split at h
  · next htag =>
    subst htag
    cases h
    exact ⟨.vacant, [], [], _, rfl, .vacant, ⟨rfl, .refl _⟩, rfl⟩
  split at h
  · next htag =>
    subst htag
    obtain ⟨h₀, last, s₂, hfirst, hpure⟩ := parser_bind_eq_ok h
    cases hpure
    obtain ⟨t, p, rfl, ht, hsown⟩ := hnode _ _ _ _ _ (by omega) hs hfirst
    exact ⟨.one, [t], [h₀], _, rfl, .one ht, hsown, rfl⟩
  split at h
  · next htag =>
    subst htag
    obtain ⟨m, mid, s₁, hpart, hrest⟩ := parser_bind_eq_ok h
    obtain ⟨hread, rfl⟩ := part_eq_ok hpart
    obtain ⟨p, rfl, hcount⟩ := yields_readUnsigned _ _ _ _ hread
    obtain ⟨hs₁, last, s₂, hitems, hpure⟩ := parser_bind_eq_ok hrest
    cases hpure
    rw [List.length_append] at hlength
    obtain ⟨ts, q, rfl, rfl, hts, hsown⟩ := hnode.times (by omega) hs hitems
    exact ⟨.many ts.length, ts, hs₁, _, by simp, .many hcount hts, hsown, rfl⟩
  · cases h

/-- So are the slots of a node, one after the other. -/
theorem Sows.slots {m : Nat} {fillings : List Filling} (hlength : data.length < n)
    (hs : s.WellFormed) (hparse : Wire.times m (parseSlot node) data s = .ok (fillings, rest) s') :
    ∃ shapes ts hs' p, data = p ++ rest ∧ shapes.length = m ∧
      SpellsSlots .accepted (SpellsTree .accepted) shapes ts p ∧ Sown s s' hs' ts ∧
      hs'.length = Shape.arities shapes ∧
      fillings = (Shape.regroup shapes hs').map Content.toFilling := by
  induction m generalizing data s fillings with
  | zero =>
    cases hparse
    exact ⟨[], [], [], [], rfl, rfl, .nil, ⟨rfl, .refl _⟩, rfl, rfl⟩
  | succ m ih =>
    obtain ⟨filling, mid, s₁, hfirst, h⟩ := parser_bind_eq_ok hparse
    obtain ⟨fillings, last, s₂, hrest, hpure⟩ := parser_bind_eq_ok h
    cases hpure
    obtain ⟨shape, ts, hs₁, p, rfl, hslot, hsown, rfl⟩ := hnode.slot hlength hs hfirst
    rw [List.length_append] at hlength
    obtain ⟨shapes, us, hs₂, q, rfl, hcount, hslots, hsown', harities, rfl⟩ :=
      ih (by omega) (hs.steps hsown.planted.steps) hrest
    -- the first slot took as many nodes as its shape says
    have harity : hs₁.length = shape.arity :=
      hsown.planted.unfolds.length_eq.trans hslot.length_eq
    refine ⟨shape :: shapes, ts ++ us, hs₁ ++ hs₂, p ++ q, by rw [List.append_assoc],
      by rw [List.length_cons, hcount], .cons hslot hslots, hsown.append hsown', ?_, ?_⟩
    · rw [List.length_append, harity, harities]
      rfl
    · rw [Shape.regroup, List.take_left' harity, List.drop_left' harity, List.map_cons]

end

/-- A node over the roots of what was sown is the root of all of it. -/
theorem Sown.root {s s₁ s₂ : Store} (hs : s.WellFormed) {hs' : List Handle} {ts : List Tree}
    (h₁ : Sown s s₁ hs' ts) {l : Label} {es : List (String × Value)}
    (hnotes : Notes.ofList es = l.notes) {k : KindId} (hk : s.schema.kindByName? l.kind = some k)
    (hvalues : l.values.length = (s.schema.kind k).values.length)
    (hslots : l.shapes.length = (s.schema.kind k).children.length)
    (hlength : hs'.length = Shape.arities l.shapes) {h : Handle}
    (hmake : Store.constructAnnotated k (l.values.map .value
      ++ (Shape.regroup l.shapes hs').map Content.toFilling) es s₁ = .ok h s₂) :
    Sown s s₂ [h] [.node l ts] := by
  have hplaces := (hs.steps h₁.planted.steps).booked.freePlaces
  have hschema : s₁.schema = s.schema := h₁.planted.steps.schema
  obtain ⟨s', hconstruct, hs₂⟩ := Store.construct_of_constructAnnotated hplaces hmake
  rw [hnotes] at hs₂
  have hplant : l.plant hs' s₁ = .ok h s₂ := by
    rw [Label.plant, hschema, hk, hs₂]
    exact Store.constructAnnotated_of_construct hplaces hconstruct l.notes
  have hsteps : Store.Steps s₁ s₂ := by
    rw [← Store.after_of_ok hplant]
    exact Store.Steps.plantLabel l hs' s₁
  -- the new node holds what it is given
  have hcount : (Shape.regroup l.shapes hs').length = l.shapes.length := by
    rw [← List.length_map, Shape.map_shape_regroup hlength]
  rw [← hschema] at hvalues hslots
  obtain ⟨n, hfill, -⟩ := Store.construct_eq_ok_iff.mp hconstruct
  obtain rfl := Store.eq_of_fill hvalues (hcount.trans hslots) hfill
  obtain ⟨hfresh, hlive, -⟩ := Store.node?_construct hplaces hfill hconstruct
  have hview := Store.node?_construct_notes hplaces hfill hconstruct l.notes
  rw [Node.childNodes, Shape.flatMap_nodes_regroup hlength, ← hs₂] at hview
  have hplanted := h₁.planted.over hsteps hfresh (by rw [hs₂, Store.live_modifyNode, hlive])
    hlength hview
  rw [(Schema.kindByName?_eq_some hk).2] at hplanted
  refine ⟨Tree.plantAll_cons_eq_ok_iff.mpr ⟨h, s₂, [], ?_, rfl, rfl⟩, hplanted⟩
  rw [Tree.plant]
  exact Store.bind_eq_ok_iff.mpr ⟨hs', s₁, h₁.plant, hplant⟩

/-- Reading plants the tree that the bytes spell, by induction on the number of bytes. -/
theorem sows_subtree (n : Nat) : Sows n subtree := by
  induction n with
  | zero => exact fun _ _ _ _ _ hlength => absurd hlength (Nat.not_lt_zero _)
  | succ n ih =>
    intro data s h rest s' hlength hs hparse
    rw [subtree_eq_readHeader] at hparse
    obtain ⟨_, _, _, hget, hparse⟩ := parser_bind_eq_ok hparse
    cases hget
    obtain ⟨f, mid, s₁, hpart, hcomplete⟩ := parser_bind_eq_ok hparse
    obtain ⟨hread, rfl⟩ := part_eq_ok hpart
    -- the header takes bytes, and so the slots are shorter
    have hlt := readHeader_lt hread
    obtain ⟨p, rfl, hheads⟩ := yields_readHeader _ _ _ _ hread
    obtain ⟨name, hk, hspelled⟩ := hheads.spelled
    rw [complete_eq hheads.list, hheads.fillings] at hcomplete
    obtain ⟨fillings, last, s₂, hslots, hedit⟩ := parser_bind_eq_ok hcomplete
    rw [← edit_constructAnnotated] at hedit
    obtain ⟨hmake, rfl⟩ := edit_eq_ok hedit
    obtain ⟨shapes, ts, hs', q, rfl, hcount, hspelled', hsown, harities, rfl⟩ :=
      ih.slots (by omega) hs hslots
    exact ⟨_, p ++ q, (List.append_assoc _ _ _).symm, .node (hspelled shapes hcount) hspelled',
      hsown.root hs rfl hk hheads.values (hcount.trans hheads.slots) harities hmake⟩

/-- **Accepted bytes spell a tree**, and reading plants it. -/
theorem exists_spelled_of_decode {s s' : Store} (hs : s.WellFormed) {b : List UInt8} {r : Handle}
    (h : Store.decode b s = .ok r s') :
    ∃ t p, b = preamble ++ p ∧ SpellsTree .accepted t p ∧ t.plant s = .ok r s' ∧
      Store.Planted s s' [r] [t] := by
  rw [Store.decode_eq_parse, parse_eq_subtree] at h
  split at h
  · cases h
  next data hpreamble =>
  obtain ⟨_, rfl, rfl⟩ := yields_readPreamble _ _ _ hpreamble
  split at h
  · cases h
  next root rest s₁ hparse =>
  split at h
  · next hrest =>
    cases h
    obtain rfl := List.isEmpty_iff.mp hrest
    obtain ⟨t, p, rfl, hspelled, hsown⟩ :=
      sows_subtree _ _ _ _ _ _ (Nat.lt_succ_self data.length) hs hparse
    obtain ⟨h₁, s₂, hs₁, hplant, hnone, heq⟩ := Tree.plantAll_cons_eq_ok_iff.mp hsown.plant
    cases hnone
    cases heq
    exact ⟨t, p, by rw [List.append_nil], hspelled, hplant, hsown.planted⟩
  · cases h

/-! ### Canonical bytes -/

/-- The bytes spell a tree with numbers as short as they can be, and with the notes of each node
    in strictly ascending order of the bytes of their keys. -/
def Canonical (b : List UInt8) : Prop :=
  ∃ t p, b = preamble ++ p ∧ SpellsTree .canonical t p

/-- Among the bytes that spell a tree, those that are written for it are canonical and no others. -/
theorem canonical_iff {a : Store} {t : Tree} (ht : Writable a t) {p : List UInt8}
    (hp : SpellsTree .accepted t p) : Canonical (preamble ++ p) ↔ treeBytes t = p := by
  constructor
  · rintro ⟨u, q, hq, hspelled⟩
    obtain rfl : p = q := List.append_cancel_left hq
    obtain ⟨rfl, -⟩ := tells_spellsTree Style.readable_accepted Style.readable_canonical t u _ _
      [] [] hp hspelled rfl
    exact (hspelled.compares Style.compares_canonical).2
  · rintro rfl
    exact ⟨t, _, rfl, spellsTree_treeBytes Style.admits_canonical ht⟩

end Wire

namespace Store

/-- **Writing what was read makes it canonical.**  What reading accepts can be written, with no
    more bytes than were read, and these are read in its place with the same outcome.  In any
    store over the schema that has room they give an equal tree with the same notes.  They are
    canonical, and they are the bytes that were read exactly if these were canonical. -/
theorem decode_canonicalizes {schema : Schema} (hbuilt : schema.Built) {s s' : Store}
    (hs : Reachable schema s) {b : List UInt8} {r : Handle} (hread : decode b s = .ok r s') :
    ∃ c, s'.encode r = .ok c ∧ c.length ≤ b.length ∧ decode c s = .ok r s' ∧
      Wire.Canonical c ∧ (c = b ↔ Wire.Canonical b) ∧
      ∃ t, s'.Unfolds r t ∧ ∀ u, Reachable schema u → u.live + t.size ≤ maxNodes →
        ∃ r' u', decode c u = .ok r' u' ∧ (∀ how, equalTrees how s' r u' r' = some true) ∧
          ∀ limit, List.Forall₂ (SameNotes s' u') (s'.traverse .pre r limit)
            (u'.traverse .pre r' limit) := by
  have hwf := hs.wellFormed_store
  obtain ⟨t, p, rfl, hspelled, hplant, hplanted⟩ := Wire.exists_spelled_of_decode hwf hread
  have hr : s'.Unfolds r t := (List.forall₂_cons.mp hplanted.unfolds).1
  have hwf' := hwf.steps hplanted.steps
  have hschema' : s'.schema = s.schema := hplanted.steps.schema
  have hlawful' : s'.schema.Lawful := hschema' ▸ hs.lawful hbuilt
  -- whatever was accepted can be written, in no more bytes
  obtain ⟨⟨hfits, hshallow⟩, hlength⟩ := hspelled.compares Wire.Style.compares_accepted
  have hwritable : Wire.Writable s' t := ⟨⟨r, hr⟩, hfits, hshallow⟩
  have hcanonical : Wire.Canonical (Wire.preamble ++ Wire.treeBytes t) :=
    ⟨t, _, rfl, Wire.spellsTree_treeBytes Wire.Style.admits_canonical hwritable⟩
  refine ⟨Wire.preamble ++ Wire.treeBytes t, (Wire.encode_of_unfolds hr).1 hshallow, ?_,
    Wire.decode_treeBytes hwf' hlawful' hwritable hschema'.symm hplant, hcanonical, ?_, t, hr, ?_⟩
  · rw [List.length_append, List.length_append]
    exact Nat.add_le_add_left hlength _
  · rw [List.append_cancel_left_eq, Wire.canonical_iff hwritable hspelled]
  · -- another store with room for the tree reads the same from the canonical bytes
    intro u hu hroom
    have hschema : u.schema = s'.schema := hu.schema_eq.trans (hschema'.trans hs.schema_eq).symm
    obtain ⟨r', u', hplant', hplanted'⟩ :=
      Tree.plant_spec hwf' hlawful' hr hu.wellFormed_store hschema hroom
    have hr' : u'.Unfolds r' t := (List.forall₂_cons.mp hplanted'.unfolds).1
    have hwfu := hu.wellFormed_store.steps hplanted'.steps
    exact ⟨r', u', Wire.decode_treeBytes hwf' hlawful' hwritable hschema hplant',
      fun how => equalTrees_of_unfolds hwf' hwfu hlawful'
        (hplanted'.steps.schema.trans hschema) how hr hr', sameNotes_traverse hr hr'⟩

end Store

/-! ### Bytes to look at -/

namespace Sample

/-- An item with two of its numbers longer than they need to be, and with notes in a wrong order,
    one of them twice. -/
def loose : List UInt8 :=
  Wire.magic ++ [Wire.version] ++ [0x84, 0x00, 0x69, 0x74, 0x65, 0x6d] ++ [1, 4, 1, 0x78] ++
    [3, 1, 0x62, 0, 1, 0x61, 0, 1, 0x62, 2, 0x80, 0x00] ++ [2, 0, 2, 0]

/-- The same item as it is written. -/
def tight : List UInt8 :=
  Wire.magic ++ [Wire.version] ++ [4, 0x69, 0x74, 0x65, 0x6d] ++ [1, 4, 1, 0x78] ++
    [2, 1, 0x61, 0, 1, 0x62, 2, 0] ++ [2, 0, 2, 0]

/-- Bytes with an overlong length, with notes out of order and with a key twice are read; what is
    written for them is canonical, shorter, and read as the same. -/
theorem decode_loose_tight :
    ∃ r s', Store.decode loose (Store.empty schema) = .ok r s' ∧ s'.encode r = .ok tight ∧
      Store.decode tight (Store.empty schema) = .ok r s' ∧ Wire.Canonical tight ∧
      ¬ Wire.Canonical loose := by
  have hread : Store.decode loose (Store.empty schema)
      = .ok ⟨0, 0⟩ (after (Store.decode loose) (Store.empty schema)) := by decide +kernel
  have hwrite : (after (Store.decode loose) (Store.empty schema)).encode ⟨0, 0⟩ = .ok tight := by
    decide +kernel
  obtain ⟨c, hc, -, hagain, hcanonical, hiff, -⟩ :=
    Store.decode_canonicalizes built ⟨[], .refl _⟩ hread
  rw [hwrite, Except.ok.injEq] at hc
  subst hc
  exact ⟨_, _, hread, hwrite, hagain, hcanonical, fun h => absurd (hiff.mpr h) (by decide)⟩

end Sample

end TypedForest
