import TypedForest.Proofs.Tree.Planting
import TypedForest.Proofs.Wire.Frames
import TypedForest.Proofs.Wire.Values

namespace TypedForest.Wire

/-!
# Trees as bytes

The bytes of a tree are those of its label, followed slot by slot by a tag and the bytes of
the trees in the slot (`treeBytes`).

* `encode_of_unfolds` : what is written for a node is the bytes of the tree that it unfolds to,
  if all its labels are shallow;
* `decode_treeBytes` : reading the bytes of a tree does what planting the tree does;
* `treeBytes_inj` : trees with the same bytes are the same;
* `SpellsTree.compares` : other spellings of a tree are no shorter, and canonical ones are the
  same.

Writing and reading both work through a list of what is still to be done, so the lemmas about
single steps allow for anything that follows.
-/

/-! ### The bytes of a tree -/

/-- The bytes in front of the nodes of a slot. -/
def shapeBytes : Shape → List UInt8
  | .vacant => [Tag.slotVacant]
  | .one => [Tag.slotOne]
  | .many n => Tag.slotMany :: writeUnsigned n

/-- The bytes of a row of slots, given the bytes of the nodes in them. -/
def weave : List Shape → List (List UInt8) → List UInt8
  | [], _ => []
  | s :: shapes, bs =>
    shapeBytes s ++ ((bs.take s.arity).flatten ++ weave shapes (bs.drop s.arity))

mutual

/-- The bytes of a tree. -/
def treeBytes : Tree → List UInt8
  | .node l ts => labelBytes l ++ weave l.shapes (treesBytes ts)

/-- The bytes of trees, tree by tree. -/
def treesBytes : List Tree → List (List UInt8)
  | [] => []
  | t :: ts => treeBytes t :: treesBytes ts

end

/-- Several trees have the bytes of each of them. -/
theorem treesBytes_eq_map (ts : List Tree) : treesBytes ts = ts.map treeBytes := by
  induction ts with
  | nil => rfl
  | cons t ts ih => rw [treesBytes, ih, List.map_cons]

/-- The bytes of a tree are those of its root, with the trees below it between the tags of the
    slots. -/
theorem treeBytes_node (l : Label) (ts : List Tree) :
    treeBytes (.node l ts) = labelBytes l ++ weave l.shapes (ts.map treeBytes) := by
  rw [treeBytes, treesBytes_eq_map]

/-! ### Writing -/

theorem append_append_list (out : Array UInt8) (bs cs : List UInt8) :
    out ++ bs ++ cs = out ++ (bs ++ cs) := by
  apply Array.ext'
  simp

/-- The pieces are written as these bytes if the condition holds, and are too deep if not. -/
def Writes (s : Store) (pieces : List Piece) (ok : Prop) (bytes : List UInt8) : Prop :=
  ∀ rest out,
    (ok → writePieces s (pieces ++ rest) out = writePieces s rest (out ++ bytes)) ∧
      (¬ ok → writePieces s (pieces ++ rest) out = .error (.malformed .valueTooDeep))

/-- Nothing to write writes nothing. -/
theorem writes_nil (s : Store) : Writes s [] True [] := by
  intro rest out
  refine ⟨fun _ => ?_, fun h => absurd trivial h⟩
  rw [List.nil_append]
  congr 1

/-- Bytes that are given are written as they are. -/
theorem writes_raw (s : Store) (data : List UInt8) : Writes s [.raw data] True data := by
  intro rest out
  refine ⟨fun _ => ?_, fun h => absurd trivial h⟩
  rw [List.cons_append, List.nil_append, writePieces]

/-- Pieces after pieces write bytes after bytes, unless one of them is refused. -/
theorem Writes.append {s : Store} {ps qs : List Piece} {p q : Prop} {bs cs : List UInt8}
    (hp : Writes s ps p bs) (hq : Writes s qs q cs) : Writes s (ps ++ qs) (p ∧ q) (bs ++ cs) := by
  intro rest out
  rw [List.append_assoc]
  constructor
  · rintro ⟨h₁, h₂⟩
    rw [(hp _ _).1 h₁, (hq _ _).1 h₂, append_append_list]
  · intro hnot
    by_cases h₁ : p
    · rw [(hp _ _).1 h₁]
      exact (hq _ _).2 fun h₂ => hnot ⟨h₁, h₂⟩
    · exact (hp _ _).2 h₁

theorem Writes.congr {s : Store} {ps : List Piece} {p q : Prop} {bs : List UInt8}
    (h : Writes s ps p bs) (hpq : p ↔ q) : Writes s ps q bs :=
  propext hpq ▸ h

/-- The pieces of a slot are its tag, with the length of a list, and its nodes. -/
theorem slotPieces_eq (room : Nat) (c : Content) :
    slotPieces room c = .raw (shapeBytes c.shape) :: c.nodes.map (.node room) := by
  cases c with
  | one o => cases o <;> rfl
  | many hs => rfl

/-- Nodes one after the other, given how each is written. -/
theorem writes_nodes {s : Store} {room : Nat} {hs : List Handle} {ts : List Tree}
    (h : List.Forall₂ (fun h t => Writes s [.node room h] (t.All Label.Shallow) (treeBytes t))
      hs ts) :
    Writes s (hs.map (.node room)) (∀ t ∈ ts, t.All Label.Shallow)
      (ts.map treeBytes).flatten := by
  induction h with
  | nil => exact (writes_nil s).congr (by simp)
  | cons hhead _ ih => exact (hhead.append ih).congr List.forall_mem_cons.symm

/-- A row of slots, given how each node in it is written. -/
theorem writes_slots {s : Store} {room : Nat} {cs : List Content} {ts : List Tree}
    (h : List.Forall₂ (fun h t => Writes s [.node room h] (t.All Label.Shallow) (treeBytes t))
      (cs.flatMap Content.nodes) ts) :
    Writes s (cs.flatMap (slotPieces room)) (∀ t ∈ ts, t.All Label.Shallow)
      (weave (cs.map Content.shape) (ts.map treeBytes)) := by
  induction cs generalizing ts with
  | nil =>
    rw [List.forall₂_nil_left_iff.mp h]
    exact (writes_nil s).congr (by simp)
  | cons c cs ih =>
    have hhead := List.forall₂_take c.shape.arity h
    have htail := List.forall₂_drop c.shape.arity h
    rw [List.flatMap_cons, List.take_left' c.length_nodes] at hhead
    rw [List.flatMap_cons, List.drop_left' c.length_nodes] at htail
    rw [List.flatMap_cons, slotPieces_eq, List.map_cons, weave, ← List.map_take, ← List.map_drop]
    refine ((writes_raw s _).append ((writes_nodes hhead).append (ih htail))).congr ?_
    rw [true_and, ← List.forall_mem_append, List.take_append_drop]

/-- A live node is written by its header, and then by its slots. -/
theorem writePieces_node {s : Store} {h : Handle} {n : Node} (hn : s.node? h = some n)
    (room : Nat) (rest : List Piece) (out : Array UInt8) :
    writePieces s (.node (room + 1) h :: rest) out =
      match writeHeader s.schema n with
      | .error e => .error e
      | .ok header => writePieces s (childPieces room n ++ rest) (out ++ header) := by
  rw [writePieces]
  split
  · next hnone =>
    rw [hn] at hnone
    cases hnone
  · next m hm =>
    rw [hn, Option.some.injEq] at hm
    subst hm
    rfl

/-- A node that unfolds is written as its tree, as long as there is room for the ways below
    it. -/
theorem writes_node {s : Store} {h : Handle} {t : Tree} (ht : s.Unfolds h t) {room : Nat}
    (hroom : t.height ≤ room) :
    Writes s [.node room h] (t.All Label.Shallow) (treeBytes t) := by
  induction t generalizing h room with
  | node l ts ih =>
    obtain ⟨n, hn, rfl, hts⟩ := Store.unfolds_node_iff.mp ht
    obtain ⟨room, rfl⟩ : ∃ r, room = r + 1 :=
      ⟨room - 1, by have := Tree.height_pos (.node (s.label n) ts); omega⟩
    -- each tree below is written with one level less
    have hnodes : List.Forall₂ (fun h t => Writes s [.node room h] (t.All Label.Shallow)
        (treeBytes t)) (n.children.flatMap Content.nodes) ts :=
      forall₂_imp_of_mem hts fun c u hu hcu => ih u hu hcu (Tree.height_le_succ_iff.mp hroom u hu)
    have hslots := writes_slots hnodes
    intro rest out
    rw [List.cons_append, List.nil_append, Tree.all_node_iff, treeBytes_node, writePieces_node hn]
    constructor
    · rintro ⟨hlabel, hall⟩
      rw [writeHeader_eq_ok hlabel, ← append_append_list]
      exact (hslots rest _).1 hall
    · -- the header is refused, or else one of the trees below
      intro hnot
      by_cases hlabel : (s.label n).Shallow
      · rw [writeHeader_eq_ok hlabel]
        exact (hslots rest _).2 fun hall => hnot ⟨hlabel, hall⟩
      · rw [writeHeader_eq_error hlabel]

/-- The bytes that every tree starts with. -/
def preamble : List UInt8 := magic ++ [version]

/-- A tree in a store is encoded by its bytes, and refused if a value in it is too deep. -/
theorem encode_of_unfolds {s : Store} {root : Handle} {t : Tree} (ht : s.Unfolds root t) :
    (t.All Label.Shallow → s.encode root = .ok (preamble ++ treeBytes t)) ∧
      (¬ t.All Label.Shallow → s.encode root = .error (.malformed .valueTooDeep)) := by
  have hroom : t.height ≤ s.entries.size + 1 := Nat.le_succ_of_le ht.height_le
  -- there is room for more levels than a store has nodes
  obtain ⟨hok, herror⟩ := writes_node ht hroom [] preamble.toArray
  rw [List.append_nil] at hok herror
  constructor
  · intro hall
    rw [Store.encode]
    show (writePieces s _ preamble.toArray).map Array.toList = _
    rw [hok hall, writePieces]
    simp [Except.map]
  · intro hnot
    rw [Store.encode]
    show (writePieces s _ preamble.toArray).map Array.toList = _
    rw [herror hnot]
    rfl

/-! ### Reading -/

section

variable {f : Frame} (outer : List Frame) (data : List UInt8) (s : Store)

/-- A slot that is read as vacant is filled as such. -/
theorem readFrames_vacant {n : Nat} (hlist : f.list = none) (hslots : f.slotsLeft = n + 1) :
    readFrames (f :: outer) (Tag.slotVacant :: data) s
      = readFrames (f.close (.one none) :: outer) data s := by
  rw [readFrames_of_slot outer data s hlist hslots, if_pos rfl]

/-- A slot that is read as one node leads to the frame of that node. -/
theorem readFrames_one {n : Nat} (hlist : f.list = none) (hslots : f.slotsLeft = n + 1)
    {g : Frame} {rest : List UInt8} (hg : readHeader s.schema data = .ok (g, rest)) :
    readFrames (f :: outer) (Tag.slotOne :: data) s = readFrames (g :: f :: outer) rest s := by
  have htag : ¬ Tag.slotOne = Tag.slotVacant := by decide
  rw [readFrames_of_slot outer data s hlist hslots, if_neg htag, if_pos rfl, descend, hg]

/-- A slot that is read as a list leads to its items. -/
theorem readFrames_many {n : Nat} (hlist : f.list = none) (hslots : f.slotsLeft = n + 1)
    {m : Nat} {rest : List UInt8} (hm : readUnsigned .listLength data = .ok (m, rest)) :
    readFrames (f :: outer) (Tag.slotMany :: data) s
      = readFrames ({ f with list := some (m, []) } :: outer) rest s := by
  have htag₁ : ¬ Tag.slotMany = Tag.slotVacant := by decide
  have htag₂ : ¬ Tag.slotMany = Tag.slotOne := by decide
  rw [readFrames_of_slot outer data s hlist hslots, if_neg htag₁, if_neg htag₂, if_pos rfl, hm]

/-- The next item of a list leads to the frame of that item. -/
theorem readFrames_item {m : Nat} {nodes : List Handle} (hlist : f.list = some (m + 1, nodes))
    {g : Frame} {rest : List UInt8} (hg : readHeader s.schema data = .ok (g, rest)) :
    readFrames (f :: outer) data s
      = readFrames (g :: { f with list := some (m, nodes) } :: outer) rest s := by
  rw [readFrames_of_item outer data s hlist, descend, hg]

/-- A frame without slots to come gives way to the node that is made of it. -/
theorem readFrames_make (hlist : f.list = none) (hslots : f.slotsLeft = 0) {h : Handle}
    {s' : Store} (hmake : f.make s = .ok h s') :
    readFrames (f :: outer) data s = resume outer h data s' := by
  rw [readFrames_of_complete outer data s hlist hslots, hmake]

end

/-! ### Reading does what planting does -/

/-- Reading the bytes of a tree plants it. -/
def ReadsTree (schema : Schema) (t : Tree) : Prop :=
  ∀ s s' h outer rest, s.schema = schema → t.plant s = .ok h s' →
    ∃ g data, readHeader schema (treeBytes t ++ rest) = .ok (g, data) ∧
      readFrames (g :: outer) data s = resume outer h rest s'

/-- The items of a list, one after the other. -/
theorem readFrames_items {schema : Schema} {ts : List Tree} (hts : ∀ t ∈ ts, ReadsTree schema t)
    {f : Frame} {nodes : List Handle} (hlist : f.list = some (ts.length, nodes))
    (outer : List Frame) (rest : List UInt8) {s s' : Store} (hs : s.schema = schema)
    {hs' : List Handle} (hplant : Tree.plantAll ts s = .ok hs' s') :
    readFrames (f :: outer) ((ts.map treeBytes).flatten ++ rest) s
      = readFrames ({ f with list := some (0, hs'.reverse ++ nodes) } :: outer) rest s' := by
  induction ts generalizing f nodes s hs' with
  | nil =>
    cases hplant
    have hf : { f with list := some (0, [].reverse ++ nodes) } = f := by
      rw [List.reverse_nil, List.nil_append, ← List.length_nil, ← hlist]
    rw [hf]
    rfl
  | cons t ts ih =>
    obtain ⟨hread, hrest⟩ := List.forall_mem_cons.mp hts
    obtain ⟨h, s₁, ks, hfirst, hks, rfl⟩ := Tree.plantAll_cons_eq_ok_iff.mp hplant
    -- the frame waits for one item less while the first is read
    obtain ⟨g, data, hheader, hframes⟩ :=
      hread s s₁ h ({ f with list := some (ts.length, nodes) } :: outer)
        ((ts.map treeBytes).flatten ++ rest) hs hfirst
    have hstep := readFrames_item outer _ s hlist (hs ▸ hheader)
    rw [List.map_cons, List.flatten_cons, List.append_assoc, hstep, hframes, resume]
    have hreceive : Frame.receive { f with list := some (ts.length, nodes) } h
        = { f with list := some (ts.length, h :: nodes) } := rfl
    rw [hreceive, ih hrest rfl ((Tree.schema_of_plant hfirst).trans hs) hks, List.reverse_cons,
      List.append_assoc]
    rfl

/-- One slot of any shape. -/
theorem readFrames_slot {schema : Schema} {shape : Shape} (hfits : shape.arity < wordLimit)
    {ts : List Tree} (hlength : ts.length = shape.arity) (hts : ∀ t ∈ ts, ReadsTree schema t)
    {f : Frame} {n : Nat} (hlist : f.list = none) (hslots : f.slotsLeft = n + 1)
    (outer : List Frame) (rest : List UInt8) {s s' : Store} (hs : s.schema = schema)
    {hs' : List Handle} (hplant : Tree.plantAll ts s = .ok hs' s') :
    readFrames (f :: outer) (shapeBytes shape ++ ((ts.map treeBytes).flatten ++ rest)) s
      = readFrames (f.close (shape.content hs').toFilling :: outer) rest s' := by
  cases shape with
  | vacant =>
    obtain rfl := List.length_eq_zero_iff.mp hlength
    cases hplant
    exact readFrames_vacant outer rest s hlist hslots
  | one =>
    obtain ⟨t, rfl⟩ := List.length_eq_one_iff.mp hlength
    obtain ⟨h, s₁, ks, hfirst, hks, rfl⟩ := Tree.plantAll_cons_eq_ok_iff.mp hplant
    cases hks
    obtain ⟨g, data, hheader, hframes⟩ :=
      hts t List.mem_cons_self s _ h (f :: outer) rest hs hfirst
    have hreceive : f.receive h = f.close (.one (some h)) := by rw [Frame.receive, hlist]
    have hbytes : shapeBytes .one ++ (([t].map treeBytes).flatten ++ rest)
        = Tag.slotOne :: (treeBytes t ++ rest) := by simp [shapeBytes]
    rw [hbytes, readFrames_one outer _ s hlist hslots (hs ▸ hheader), hframes, resume, hreceive]
    rfl
  -- the length is read, then the items, and then the list is closed
  | many m =>
    have hcount :=
      reads_readUnsigned .listLength (n := m) hfits ((ts.map treeBytes).flatten ++ rest)
    have hitems := readFrames_items hts (f := { f with list := some (m, []) })
      (by rw [hlength]; rfl) outer rest hs hplant
    have hbytes : shapeBytes (.many m) ++ ((ts.map treeBytes).flatten ++ rest)
        = Tag.slotMany :: (writeUnsigned m ++ ((ts.map treeBytes).flatten ++ rest)) := by
      simp [shapeBytes]
    rw [hbytes, readFrames_many outer _ s hlist hslots hcount, hitems,
      readFrames_of_listEnd outer rest s' rfl, List.append_nil, List.reverse_reverse]
    rfl

/-- A row of slots. -/
theorem readFrames_slots {schema : Schema} {shapes : List Shape}
    (hfits : ∀ s ∈ shapes, s.arity < wordLimit) {ts : List Tree}
    (hlength : ts.length = Shape.arities shapes) (hts : ∀ t ∈ ts, ReadsTree schema t)
    {f : Frame} (hlist : f.list = none) (hslots : f.slotsLeft = shapes.length)
    (outer : List Frame) (rest : List UInt8) {s s' : Store} (hs : s.schema = schema)
    {hs' : List Handle} (hplant : Tree.plantAll ts s = .ok hs' s') :
    readFrames (f :: outer) (weave shapes (ts.map treeBytes) ++ rest) s
      = readFrames ({ f with
          fillings := ((Shape.regroup shapes hs').map Content.toFilling).reverse ++ f.fillings
          slotsLeft := 0 } :: outer) rest s' := by
  induction shapes generalizing f ts s hs' with
  | nil =>
    obtain rfl := List.length_eq_zero_iff.mp hlength
    cases hplant
    have hf : { f with
        fillings := ((Shape.regroup [] []).map Content.toFilling).reverse ++ f.fillings
        slotsLeft := 0 } = f := by
      rw [← List.length_nil (α := Shape), ← hslots]
      rfl
    rw [hf]
    rfl
  | cons shape shapes ih =>
    obtain ⟨hfit, hfits⟩ := List.forall_mem_cons.mp hfits
    -- the trees of the first slot, and all others
    rw [← List.take_append_drop shape.arity ts] at hplant hts
    obtain ⟨hs₁, s₁, hs₂, h₁, h₂, rfl⟩ := Tree.plantAll_append_eq_ok hplant
    obtain ⟨hts₁, hts₂⟩ := List.forall_mem_append.mp hts
    have hlength₁ := Shape.length_take_arity hlength
    have hlength₂ := Shape.length_drop_arity hlength
    have hhs₁ : hs₁.length = shape.arity := (Tree.length_of_plantAll h₁).trans hlength₁
    have hfirst := readFrames_slot hfit hlength₁ hts₁ hlist hslots outer
      (weave shapes ((ts.drop shape.arity).map treeBytes) ++ rest) hs h₁
    have hclosed : (f.close (shape.content hs₁).toFilling).slotsLeft = shapes.length := by
      show f.slotsLeft - 1 = _
      rw [hslots, List.length_cons]
      omega
    rw [weave, List.append_assoc, List.append_assoc, ← List.map_take, ← List.map_drop, hfirst,
      ih hfits hlength₂ hts₂ rfl hclosed ((Tree.schema_of_plantAll h₁).trans hs) h₂,
      Shape.regroup, List.take_left' hhs₁, List.drop_left' hhs₁, List.map_cons,
      List.reverse_cons, List.append_assoc, hlist]
    rfl

/-! ### Trees that can be written -/

/-- The tree was found in the store, and its labels can all be written. -/
structure Writable (a : Store) (t : Tree) : Prop where
  found : ∃ x, a.Unfolds x t
  fits : t.All Label.Fits
  shallow : t.All Label.Shallow

/-- The root of a tree that can be written has its trees in its slots, and they can be written
    too. -/
theorem Writable.node {a : Store} {l : Label} {ts : List Tree} (h : Writable a (.node l ts)) :
    ts.length = Shape.arities l.shapes ∧ (l.Fits ∧ l.Shallow) ∧ ∀ t ∈ ts, Writable a t := by
  obtain ⟨⟨x, hx⟩, hfits, hshallow⟩ := h
  obtain ⟨n, -, rfl, hts⟩ := Store.unfolds_node_iff.mp hx
  obtain ⟨hfit, hfits⟩ := Tree.all_node_iff.mp hfits
  obtain ⟨hshal, hshallow⟩ := Tree.all_node_iff.mp hshallow
  refine ⟨Store.length_of_unfolds hts, ⟨hfit, hshal⟩, fun t ht => ?_⟩
  obtain ⟨c, -, hc⟩ := forall₂_exists_left hts ht
  exact ⟨⟨c, hc⟩, hfits t ht, hshallow t ht⟩

/-- **Reading plants.**  Reading the bytes of a tree that was found in a well-formed store does
    what planting it does. -/
theorem readsTree_of_writable {a : Store} (ha : a.WellFormed) (hlawful : a.schema.Lawful)
    {t : Tree} (ht : Writable a t) : ReadsTree a.schema t := by
  induction t with
  | node l ts ih =>
    obtain ⟨hlength, ⟨hfits, hshallow⟩, hts⟩ := ht.node
    obtain ⟨x, hx⟩ := ht.found
    obtain ⟨n, hn, rfl, -⟩ := Store.unfolds_node_iff.mp hx
    have hconf := ha.nodes x n hn
    have hkind := hlawful.kindByName?_kindName hconf.kind
    have hread : ∀ t ∈ ts, ReadsTree a.schema t := fun t ht => ih t ht (hts t ht)
    intro s s' h outer rest hs hplant
    -- planting makes the trees below first, and so does reading
    obtain ⟨hs', s₁, hall, -, hroot⟩ := Tree.plant_node_eq_ok hlawful hconf.kind hs hplant
    have hslots : (n.children.map Content.shape).length
        = (a.schema.kind n.kind).children.length := by
      rw [List.length_map]
      exact hconf.children.length_eq.symm
    have hheader := reads_readHeader hfits hshallow hkind hconf.values.length_eq.symm hslots
    refine ⟨_, _, by rw [treeBytes_node, List.append_assoc]; exact hheader _, ?_⟩
    rw [readFrames_slots hfits.slots hlength hread rfl rfl outer rest hs hall]
    refine readFrames_make outer rest s₁ rfl rfl ?_
    -- the frame is now complete, and makes the node that planting makes
    simp only [Store.make_eq, Frame.ofLabel, Store.label, List.append_nil, List.reverse_reverse,
      hroot]

/-- The preamble is read as such. -/
theorem reads_readPreamble : Reads readPreamble preamble () := by
  intro rest
  rfl

/-- Nothing else is. -/
theorem yields_readPreamble : Yields readPreamble fun _ p => p = preamble := by
  refine (yields_readBytes _ _).bind fun start p hstart => ?_
  obtain ⟨rfl, -⟩ := hstart
  split
  · exact yields_fail _
  next hmagic =>
  refine (yields_readByte _).bind fun v q hv => ?_
  subst hv
  split
  · exact yields_fail _
  next hversion =>
  refine yields_pure ?_
  rw [not_ne_iff.mp hmagic, not_ne_iff.mp hversion]
  rfl

/-- Reading a written tree plants it and leaves nothing over. -/
theorem decode_treeBytes {a : Store} (ha : a.WellFormed) (hlawful : a.schema.Lawful)
    {t : Tree} (ht : Writable a t) {s s' : Store} (hs : s.schema = a.schema) {h : Handle}
    (hplant : t.plant s = .ok h s') :
    Store.decode (preamble ++ treeBytes t) s = .ok h s' := by
  obtain ⟨g, data, hheader, hframes⟩ :=
    readsTree_of_writable ha hlawful ht s s' h [] [] hs hplant
  rw [List.append_nil, ← hs] at hheader
  unfold Store.decode
  rw [reads_readPreamble]
  simp only [hheader, hframes, resume]
  rfl

/-! ### What is written is spelled -/

/-- A slot is written as a spelling of it, if the trees in it are. -/
theorem spellsSlot_shapeBytes {st : Style} (hst : st.Admits) {P : Tree → List UInt8 → Prop}
    {shape : Shape} (hfits : shape.arity < wordLimit) {ts : List Tree}
    (hlength : ts.length = shape.arity) (hts : ∀ t ∈ ts, P t (treeBytes t)) :
    SpellsSlot st P shape ts (shapeBytes shape ++ ts.flatMap treeBytes) := by
  cases shape with
  | vacant =>
    obtain rfl := List.length_eq_zero_iff.mp hlength
    exact .vacant
  | one =>
    obtain ⟨t, rfl⟩ := List.length_eq_one_iff.mp hlength
    rw [List.flatMap_cons, List.flatMap_nil, List.append_nil]
    exact .one (hts t List.mem_cons_self)
  | many n =>
    obtain rfl : ts.length = n := hlength
    exact .many (hst.count hfits) (row_flatMap hts)

/-- So are several slots, with their trees between the tags. -/
theorem spellsSlots_weave {st : Style} (hst : st.Admits) {P : Tree → List UInt8 → Prop}
    {shapes : List Shape} (hfits : ∀ s ∈ shapes, s.arity < wordLimit) {ts : List Tree}
    (hlength : ts.length = Shape.arities shapes) (hts : ∀ t ∈ ts, P t (treeBytes t)) :
    SpellsSlots st P shapes ts (weave shapes (ts.map treeBytes)) := by
  induction shapes generalizing ts with
  | nil =>
    obtain rfl := List.length_eq_zero_iff.mp hlength
    exact .nil
  | cons s shapes ih =>
    obtain ⟨hfit, hfits⟩ := List.forall_mem_cons.mp hfits
    have hslot := spellsSlot_shapeBytes hst hfit (Shape.length_take_arity hlength)
      fun t ht => hts t (List.mem_of_mem_take ht)
    have hslots := ih hfits (Shape.length_drop_arity hlength)
      fun t ht => hts t (List.mem_of_mem_drop ht)
    have hall := SpellsSlots.cons hslot hslots
    rwa [List.take_append_drop, List.flatMap_def, List.map_take, List.map_drop,
      List.append_assoc] at hall

/-- A tree that can be written is written as a spelling of it. -/
theorem spellsTree_treeBytes {st : Style} (hst : st.Admits) {a : Store} {t : Tree}
    (ht : Writable a t) : SpellsTree st t (treeBytes t) := by
  induction t with
  | node l ts ih =>
    obtain ⟨hlength, ⟨hfits, hshallow⟩, hts⟩ := ht.node
    rw [treeBytes_node]
    exact .node (spellsLabel_labelBytes hfits hshallow hst)
      (spellsSlots_weave hst hfits.slots hlength fun t ht => ih t ht (hts t ht))

/-- **The bytes of a tree say the tree**, also among trees of stores with another schema. -/
theorem treeBytes_inj {a b : Store} {t u : Tree} (ht : Writable a t) (hu : Writable b u)
    (h : treeBytes t = treeBytes u) : t = u := by
  have hreadable := Style.readable_accepted
  have hadmits := Style.admits_accepted
  exact (tells_spellsTree hreadable hreadable t u _ _ [] [] (spellsTree_treeBytes hadmits ht)
    (spellsTree_treeBytes hadmits hu) (by rw [h])).1

/-! ### What is spelled, compared with what is written -/

section

variable {R : List UInt8 → List UInt8 → Prop} {st : Style} (hst : st.Compares R)
  {P : Tree → List UInt8 → Prop} {C : Tree → Prop} {ts : List Tree} {p : List UInt8}
include hst

/-- A spelling of a slot compares with what is written for it, if those of the trees in it do. -/
theorem SpellsSlot.compares {shape : Shape} (h : SpellsSlot st P shape ts p)
    (hP : ∀ t ∈ ts, ∀ p, P t p → C t ∧ R (treeBytes t) p) :
    (shape.arity < wordLimit ∧ ∀ t ∈ ts, C t) ∧
      R (shapeBytes shape ++ ts.flatMap treeBytes) p := by
  cases h with
  | vacant => exact ⟨⟨by decide, by simp⟩, hst.refl _⟩
  | @one t p ht =>
    obtain ⟨hC, hwrite⟩ := hP t List.mem_cons_self p ht
    refine ⟨⟨by decide, by simpa using hC⟩, ?_⟩
    rw [List.flatMap_cons, List.flatMap_nil, List.append_nil]
    exact hst.cons _ hwrite
  | many hlength hts =>
    obtain ⟨hC, hwrite⟩ := hts.compares hst hP
    exact ⟨⟨hst.limit hlength, hC⟩, hst.cons _ (hst.append (hst.written hlength) hwrite)⟩

/-- So does a spelling of several slots. -/
theorem SpellsSlots.compares {shapes : List Shape} (h : SpellsSlots st P shapes ts p)
    (hP : ∀ t ∈ ts, ∀ p, P t p → C t ∧ R (treeBytes t) p) :
    ((∀ s ∈ shapes, s.arity < wordLimit) ∧ ∀ t ∈ ts, C t) ∧
      R (weave shapes (ts.map treeBytes)) p := by
  induction h with
  | nil => exact ⟨⟨by simp, by simp⟩, hst.refl _⟩
  | cons head _ ih =>
    obtain ⟨hP₁, hP₂⟩ := List.forall_mem_append.mp hP
    obtain ⟨⟨hlimit, hC₁⟩, hwrite₁⟩ := head.compares hst hP₁
    obtain ⟨⟨hlimits, hC₂⟩, hwrite₂⟩ := ih hP₂
    refine ⟨⟨List.forall_mem_cons.mpr ⟨hlimit, hlimits⟩, List.forall_mem_append.mpr ⟨hC₁, hC₂⟩⟩, ?_⟩
    rw [weave, ← List.map_take, ← List.map_drop, List.take_left' head.length_eq,
      List.drop_left' head.length_eq, ← List.append_assoc, ← List.flatMap_def]
    exact hst.append hwrite₁ hwrite₂

/-- A tree that is spelled can be written. -/
theorem SpellsTree.compares {t : Tree} (h : SpellsTree st t p) :
    (t.All Label.Fits ∧ t.All Label.Shallow) ∧ R (treeBytes t) p := by
  induction t generalizing p with
  | node l ts ih =>
    cases h with
    | node hl hts =>
      obtain ⟨⟨hslots, hall⟩, hwriteSlots⟩ := hts.compares hst fun t ht p h => ih t ht h
      obtain ⟨⟨hfits, hshallow⟩, hwriteLabel⟩ := hl.compares hst hslots
      rw [treeBytes_node, Tree.all_node_iff, Tree.all_node_iff]
      exact ⟨⟨⟨hfits, fun t ht => (hall t ht).1⟩, hshallow, fun t ht => (hall t ht).2⟩,
        hst.append hwriteLabel hwriteSlots⟩

end

end TypedForest.Wire
