import TypedForest.Proofs.Store.Step
import TypedForest.Proofs.Wire.Frames

namespace TypedForest

/-!
# Reading by recursive descent

What `Store.decode` reads is said most directly as a recursion (`Wire.parseNode`): the name of the
kind, the values, the notes, then one slot after the other with the nodes in it, and then the node
is made.  `Wire.readFrames` does the same with frames for the nodes that it is in the middle of.

* `Wire.Parser` : readers that make nodes on the way;
* `Wire.parse` : the recursion, which calls itself on fewer bytes only;
* `Wire.readFrames_append_outer` : inside other frames reading goes on as by itself, and then the
  node is handed to them;
* `Wire.subtree_eq_parseNode` : reading with frames solves the equation of the recursion;
* `Store.decode_recursive` : it is the recursion, since the equation has no other solution.
-/

namespace Wire

/-! ### Readers that make nodes -/

/-- Takes bytes off the front and may make nodes.  These stay when it fails. -/
abbrev Parser (α : Type) := StateT (List UInt8) (EStateM WireError Store) α

/-- The reader of a part, which makes no nodes. -/
def part {α : Type} (r : Reader α) : Parser α := fun data s =>
  match r data with
  | .error e => .error e s
  | .ok p => .ok p s

/-- An edit, which takes no bytes.  What it refuses is rejected. -/
def edit {α : Type} (x : Edit α) : Parser α := fun data s =>
  match x s with
  | .error e s => .error (.rejected e) s
  | .ok a s => .ok (a, data) s

/-- So many items, one after the other. -/
def times {α : Type} : (n : Nat) → (item : Parser α) → Parser (List α)
  | 0, _ => pure []
  | n + 1, item => do
    let a ← item
    return a :: (← times n item)

/-! ### The recursion -/

/-- A child slot, given how nodes are read. -/
def parseSlot (node : Parser Handle) : Parser Filling := do
  let tag ← part (readByte .slotTag)
  if tag = Tag.slotVacant then return .one none
  else if tag = Tag.slotOne then return .one (some (← node))
  else if tag = Tag.slotMany then
    let n ← part (readUnsigned .listLength)
    return .many (← times n node)
  else throw (.malformed (.unknownSlotTag tag))

/-- A node, given how the nodes in its slots are read. -/
def parseNode (node : Parser Handle) : Parser Handle := do
  let schema := (← getThe Store).schema
  let name ← part (readString .kindName)
  match schema.kindByName? name with
  | none => throw (.unknownKind name)
  | some k =>
    let kind := schema.kind k
    let valueCount ← part (readUnsigned .valueCount)
    if valueCount ≠ kind.values.length then
      throw (.malformed (.valueCount name kind.values.length valueCount))
    else
      let values ← times valueCount (part (readValue maxValueDepth))
      let noteCount ← part (readUnsigned .noteCount)
      let notes ← times noteCount (part readNote)
      let slotCount ← part (readUnsigned .slotCount)
      if slotCount ≠ kind.children.length then
        throw (.malformed (.slotCount name kind.children.length slotCount))
      else
        let fillings ← times slotCount (parseSlot node)
        let h ← edit (Store.construct k (values.map .value ++ fillings))
        edit (Store.setNotes h notes)
        return h

/-- A node with all that is below it.  The nodes in its slots stand after its name, so that there
    are fewer bytes left for them. -/
def parse : Parser Handle := fun data =>
  parseNode (fun rest s =>
    if rest.length < data.length then parse rest s else .error (.truncated .rootNode) s) data
termination_by data => data.length

/-- A whole input, given how its node is read: no bytes are left over. -/
def parseInput (node : Parser Handle) : Parser Handle := do
  part readPreamble
  let root ← node
  let rest ← get
  if rest.isEmpty then return root
  else throw (.malformed (.trailingBytes rest.length))

/-! ### The parts -/

/-- A parser after another one starts from the bytes and the store that the first one leaves. -/
theorem parser_bind_apply {α β : Type} (p : Parser α) (f : α → Parser β) (data : List UInt8)
    (s : Store) : (p >>= f) data s = match p data s with
      | .error e s => .error e s
      | .ok (a, rest) s => f a rest s := by
  show EStateM.bind (p data) (fun q => f q.1 q.2) s = _
  unfold EStateM.bind
  cases p data s <;> rfl

@[simp] theorem part_pure {α : Type} (a : α) : part (pure a : Reader α) = pure a := rfl

/-- Parts that do not touch the store can be read one by one. -/
@[simp] theorem part_bind {α β : Type} (r : Reader α) (f : α → Reader β) :
    part (r >>= f) = part r >>= fun a => part (f a) := by
  funext data s
  rw [parser_bind_apply]
  show part (fun data => r data >>= fun p => f p.1 p.2) data s = _
  simp only [part]
  cases r data <;> rfl

/-- A list of parts is the part so many times, behind those that were read before. -/
theorem part_readMany {α : Type} (item : Reader α) (n : Nat) (done : List α) :
    part (readMany item n done) = (done.reverse ++ ·) <$> times n (part item) := by
  induction n generalizing done with
  | zero => simp [readMany, times]
  | succ n ih => simp [readMany, times, ih, Functor.map_map]

/-- Edits one after the other are edits of the parser one after the other. -/
theorem edit_bind {α β : Type} (x : Edit α) (f : α → Edit β) :
    edit (x >>= f) = edit x >>= fun a => edit (f a) := by
  funext data s
  rw [parser_bind_apply, edit, edit, Store.bind_apply]
  cases x s <;> rfl

/-- The last steps on a node: it is made and gets its notes. -/
theorem edit_constructAnnotated (k : KindId) (args : List Filling)
    (notes : List (String × Value)) :
    edit (Store.constructAnnotated k args notes) = (do
      let h ← edit (Store.construct k args)
      edit (Store.setNotes h notes)
      return h) := by
  rw [Store.constructAnnotated, edit_bind]
  refine bind_congr fun h => ?_
  rw [edit_bind]
  rfl

/-! ### Frames inside other frames -/

/-- Inside other frames reading goes on as by itself, until the outermost of its own frames is
    complete. -/
theorem readFrames_append_outer (f : Frame) (inner outer : List Frame) (data : List UInt8)
    (s : Store) :
    readFrames (f :: inner ++ outer) data s = match readFrames (f :: inner) data s with
      | .error e s => .error e s
      | .ok (h, rest) s => resume outer h rest s := by
  have hne : f :: inner ≠ [] := List.cons_ne_nil f inner
  generalize f :: inner = frames at hne
  -- along the calls: the frames `outer` come in only when a node is complete and none of the
  -- frames inside them is left
  fun_induction readFrames frames data s with
  | case1 data s => exact absurd rfl hne
  | case2 data s f inner left nodes hlist e he =>
    rw [List.cons_append, readFrames_of_item _ _ _ hlist, descend, he]
  | case3 data s f inner left nodes hlist g rest hg ih =>
    rw [List.cons_append, readFrames_of_item _ _ _ hlist, descend, hg]
    exact ih (List.cons_ne_nil _ _)
  | case4 data s f inner nodes hlist ih =>
    rw [List.cons_append, readFrames_of_listEnd _ _ _ hlist]
    simp only [List.unattach_reverse, List.unattach_attach] at ih
    exact ih (List.cons_ne_nil _ _)
  | case5 s f inner hlist n hslots =>
    rw [List.cons_append, readFrames_of_no_slot _ _ hlist hslots]
  | case6 s f inner hlist n hslots data ih =>
    rw [List.cons_append, readFrames_of_slot _ _ _ hlist hslots, if_pos rfl]
    exact ih (List.cons_ne_nil _ _)
  | case7 s f inner hlist n hslots data e he htag =>
    rw [List.cons_append, readFrames_of_slot _ _ _ hlist hslots, if_neg htag, if_pos rfl,
      descend, he]
  | case8 s f inner hlist n hslots data g rest hg htag ih =>
    rw [List.cons_append, readFrames_of_slot _ _ _ hlist hslots, if_neg htag, if_pos rfl,
      descend, hg]
    exact ih (List.cons_ne_nil _ _)
  | case9 s f inner hlist n hslots data e he hvacant hone =>
    rw [List.cons_append, readFrames_of_slot _ _ _ hlist hslots, if_neg hvacant, if_neg hone,
      if_pos rfl, he]
  | case10 s f inner hlist n hslots data m rest hm hvacant hone ih =>
    rw [List.cons_append, readFrames_of_slot _ _ _ hlist hslots, if_neg hvacant, if_neg hone,
      if_pos rfl, hm]
    exact ih (List.cons_ne_nil _ _)
  | case11 s f inner hlist n hslots tag data hvacant hone hmany =>
    rw [List.cons_append, readFrames_of_slot _ _ _ hlist hslots, if_neg hvacant, if_neg hone,
      if_neg hmany]
  | case12 data s f inner hlist hslots e s' hmake =>
    rw [List.cons_append, readFrames_of_complete _ _ _ hlist hslots, hmake]
  | case13 data s f hlist hslots h s' hmake =>
    rw [List.cons_append, readFrames_of_complete _ _ _ hlist hslots, hmake]
    rfl
  | case14 data s f hlist hslots h s' hmake g inner ih =>
    rw [List.cons_append, readFrames_of_complete _ _ _ hlist hslots, hmake]
    exact ih (List.cons_ne_nil _ _)

/-- Reads on until a frame is complete. -/
def complete (f : Frame) : Parser Handle := readFrames [f]

/-- A node, read with frames. -/
def subtree : Parser Handle := descend []

/-- A node inside a frame is read by itself and then handed to the frame. -/
theorem descend_singleton (f : Frame) :
    descend [f] = (subtree >>= fun h => complete (f.receive h) : Parser Handle) := by
  funext data s
  rw [parser_bind_apply, subtree, descend, descend]
  cases readHeader s.schema data with
  | error e => rfl
  | ok p =>
    have hframes := readFrames_append_outer p.1 [] [f] p.2 s
    simp only [List.cons_append, List.nil_append] at hframes
    simp only [hframes]
    cases readFrames [p.1] p.2 s <;> rfl

/-- From a list in hand on: the items that are to come, and then the slots after the list. -/
theorem complete_list (f : Frame) (m : Nat) (nodes : List Handle) :
    complete { f with list := some (m, nodes) } = times m subtree >>= fun more =>
      complete (f.close (.many (nodes.reverse ++ more))) := by
  induction m generalizing nodes with
  | zero =>
    rw [times, pure_bind, List.append_nil]
    funext data s
    exact readFrames_of_listEnd _ _ _ rfl
  | succ m ih =>
    have hstep : complete { f with list := some (m + 1, nodes) } = subtree >>= fun h =>
        complete { f with list := some (m, h :: nodes) } := by
      funext data s
      rw [complete, readFrames_of_item _ _ _ rfl, descend_singleton]
      rfl
    simp [hstep, ih, times, List.append_assoc]

/-- From a frame on which a slot is to come: the slot, and then the slots after it. -/
theorem complete_of_slot {f : Frame} {n : Nat} (hlist : f.list = none)
    (hslots : f.slotsLeft = n + 1) :
    complete f = parseSlot subtree >>= fun filling => complete (f.close filling) := by
  funext data s
  cases data with
  | nil => exact readFrames_of_no_slot _ _ hlist hslots
  | cons tag data =>
    rw [complete, readFrames_of_slot _ _ _ hlist hslots, parseSlot, bind_assoc, parser_bind_apply]
    simp only [part, readByte]
    -- a vacant slot, one node, a list, and any other tag
    split
    · rw [pure_bind]
      rfl
    · split
      · rw [descend_singleton, bind_assoc]
        simp only [pure_bind, Frame.receive, hlist]
      · split
        · rw [bind_assoc, parser_bind_apply]
          simp only [bind_assoc, pure_bind]
          cases hn : readUnsigned .listLength data with
          | error e => simp only [part, hn]
          | ok p =>
            simp only [part, hn]
            exact congrFun (congrFun (complete_list f p.1 []) p.2) s
        · rfl

/-- From a frame on that has no list in hand: its slots, and then the node is made. -/
theorem complete_eq {f : Frame} (hlist : f.list = none) :
    complete f = times f.slotsLeft (parseSlot subtree) >>= fun fillings => do
      let h ← edit (Store.construct f.kind
        (f.values.map .value ++ (f.fillings.reverse ++ fillings)))
      edit (Store.setNotes h f.notes)
      return h := by
  generalize hslots : f.slotsLeft = n
  induction n generalizing f with
  | zero =>
    rw [times, pure_bind, List.append_nil]
    funext data s
    rw [← edit_constructAnnotated, complete, readFrames_of_complete _ _ _ hlist hslots,
      Store.make_eq, edit]
    cases Store.constructAnnotated f.kind (f.values.map .value ++ f.fillings.reverse) f.notes s with
    | error e s => rfl
    | ok h s => rfl
  | succ n ih =>
    -- a slot that is filled leaves one less
    have hclose : ∀ filling, (f.close filling).slotsLeft = n := fun filling => by
      show f.slotsLeft - 1 = n
      omega
    simp only [complete_of_slot hlist hslots, ih rfl (hclose _), times, bind_assoc, pure_bind]
    simp [Frame.close]

/-- A tree is its head and then its slots, read in a frame of its own. -/
theorem subtree_eq_readHeader :
    subtree = getThe Store >>= fun s => part (readHeader s.schema) >>= complete := by
  funext data s
  show descend [] data s = (part (readHeader s.schema) >>= complete) data s
  rw [parser_bind_apply, descend, part]
  cases readHeader s.schema data <;> rfl

/-- Reading with frames solves the equation of the recursion. -/
theorem subtree_eq_parseNode : subtree = parseNode subtree := by
  refine subtree_eq_readHeader.trans (bind_congr fun s => ?_)
  rw [readHeader, part_bind, bind_assoc]
  refine bind_congr fun name => ?_
  cases s.schema.kindByName? name with
  | none => rfl
  | some k =>
    dsimp only
    rw [part_bind, bind_assoc]
    refine bind_congr fun valueCount => ?_
    split
    · rfl
    · simp only [part_bind, bind_assoc, part_readMany, List.reverse_nil, List.nil_append, id_map']
      refine bind_congr fun values => bind_congr fun noteCount => bind_congr fun notes =>
        bind_congr fun slotCount => ?_
      split
      · rfl
      · exact complete_eq rfl

/-! ### The equation has one solution -/

/-- Two parsers do the same on fewer than `n` bytes, of which they leave no more than they got. -/
def AlikeBelow {α : Type} (n : Nat) (p q : Parser α) : Prop :=
  ∀ data s, data.length < n → p data s = q data s ∧
    ∀ a rest s', p data s = .ok (a, rest) s' → rest.length ≤ data.length

namespace AlikeBelow

variable {α β : Type} {n : Nat}

theorem pure (a : α) : AlikeBelow n (pure a) (pure a) := by
  refine fun data s _ => ⟨rfl, fun b rest s' h => ?_⟩
  cases h
  exact Nat.le_refl _

theorem throw (e : WireError) : AlikeBelow n (throw e : Parser α) (throw e) :=
  fun _ _ _ => ⟨rfl, nofun⟩

/-- Parsers one after the other are alike if both of them are, since the second one has no more
    bytes to read. -/
theorem bind {p q : Parser α} {f g : α → Parser β} (hp : AlikeBelow n p q)
    (hf : ∀ a, AlikeBelow n (f a) (g a)) : AlikeBelow n (p >>= f) (q >>= g) := by
  intro data s hlength
  obtain ⟨heq, hle⟩ := hp data s hlength
  rw [parser_bind_apply, parser_bind_apply, ← heq]
  cases hres : p data s with
  | error e s' => exact ⟨rfl, nofun⟩
  | ok r s' =>
    obtain ⟨a, rest⟩ := r
    have hrest := hle a rest s' hres
    obtain ⟨heq', hle'⟩ := hf a rest s' (Nat.lt_of_le_of_lt hrest hlength)
    exact ⟨heq', fun b last s'' h => Nat.le_trans (hle' b last s'' h) hrest⟩

/-- A part that leaves no more bytes than there were is like itself. -/
theorem part {r : Reader α} (hr : Shortens r) : AlikeBelow n (part r) (part r) := by
  refine fun data s _ => ⟨rfl, fun a rest s' h => ?_⟩
  unfold Wire.part at h
  split at h
  · cases h
  · next p hp =>
    cases h
    exact (hr _ _ _ hp).length_le

/-- An edit takes no bytes. -/
theorem edit (x : Edit α) : AlikeBelow n (edit x) (edit x) := by
  refine fun data s _ => ⟨rfl, fun a rest s' h => ?_⟩
  unfold Wire.edit at h
  split at h
  · cases h
  · cases h
    exact Nat.le_refl _

theorem getThe {f g : Store → Parser α} (hf : ∀ s, AlikeBelow n (f s) (g s)) :
    AlikeBelow n (getThe Store >>= f) (getThe Store >>= g) :=
  fun data s hlength => hf s data s hlength

/-- Behind a part that takes a byte, fewer bytes are left. -/
theorem part_bind {r : Reader α} {f g : α → Parser β}
    (hr : ∀ data a rest, r data = .ok (a, rest) → rest.length < data.length)
    (hf : ∀ a, AlikeBelow n (f a) (g a)) :
    AlikeBelow (n + 1) (Wire.part r >>= f) (Wire.part r >>= g) := by
  intro data s hlength
  rw [parser_bind_apply, parser_bind_apply, Wire.part]
  cases hres : r data with
  | error e => exact ⟨rfl, nofun⟩
  | ok p =>
    obtain ⟨a, rest⟩ := p
    have hrest := hr data a rest hres
    obtain ⟨heq, hle⟩ := hf a rest s (by omega)
    exact ⟨heq, fun b last s' h => Nat.le_trans (hle b last s' h) (Nat.le_of_lt hrest)⟩

/-- Parsers so many times are alike if they are alike once. -/
theorem times {p q : Parser α} (hp : AlikeBelow n p q) (m : Nat) :
    AlikeBelow n (times m p) (times m q) := by
  induction m with
  | zero => exact pure []
  | succ m ih => exact hp.bind fun a => ih.bind fun more => pure (a :: more)

/-- A slot is read alike if the nodes in it are. -/
theorem parseSlot {p q : Parser Handle} (hp : AlikeBelow n p q) :
    AlikeBelow n (parseSlot p) (parseSlot q) := by
  refine (part (compositional_shortens.readByte .slotTag nofun)).bind fun tag => ?_
  split
  · exact pure _
  · split
    · exact hp.bind fun h => pure _
    · split
      · exact (part (compositional_shortens.readUnsigned .listLength nofun)).bind fun m =>
          (hp.times m).bind fun nodes => pure _
      · exact throw _

/-- How nodes are read in the slots matters for fewer bytes only: the name stands before. -/
theorem parseNode {p q : Parser Handle} (hp : AlikeBelow n p q) :
    AlikeBelow (n + 1) (parseNode p) (parseNode q) := by
  -- the name is a byte at least, and so what follows is shorter
  refine getThe fun s => part_bind (fun _ _ _ => readString_lt) fun name => ?_
  cases s.schema.kindByName? name with
  | none => exact throw _
  | some k =>
    have hP := compositional_shortens
    refine (part (hP.readUnsigned .valueCount nofun)).bind fun valueCount => ?_
    split
    · exact throw _
    · refine ((part (hP.readValue _)).times _).bind fun values => ?_
      refine (part (hP.readUnsigned .noteCount nofun)).bind fun noteCount => ?_
      refine ((part hP.readNote).times _).bind fun notes => ?_
      refine (part (hP.readUnsigned .slotCount nofun)).bind fun slotCount => ?_
      split
      · exact throw _
      · refine (hp.parseSlot.times _).bind fun fillings => (edit _).bind fun h => ?_
        exact (edit _).bind fun _ => pure h

end AlikeBelow

/-- Parsers that solve the equation of the recursion are alike. -/
theorem alikeBelow_of_eq_parseNode {p q : Parser Handle} (hp : p = parseNode p)
    (hq : q = parseNode q) (n : Nat) : AlikeBelow n p q := by
  induction n with
  | zero => exact fun data s hlength => absurd hlength (Nat.not_lt_zero _)
  | succ n ih =>
    rw [hp, hq]
    exact ih.parseNode

/-- The recursion is reading with frames. -/
theorem alikeBelow_parse (n : Nat) : AlikeBelow n parse subtree := by
  induction n with
  | zero => exact fun data s hlength => absurd hlength (Nat.not_lt_zero _)
  | succ n ih =>
    intro data s hlength
    rw [parse, subtree_eq_parseNode]
    refine AlikeBelow.parseNode (fun rest s hrest => ?_) data s (Nat.lt_succ_self data.length)
    rw [if_pos hrest]
    exact ih rest s (by omega)

/-- The recursion reads what the frames do. -/
theorem parse_eq_subtree : parse = subtree := by
  funext data s
  exact (alikeBelow_parse (data.length + 1) data s (Nat.lt_succ_self _)).1

/-- The recursion solves its own equation, without the guard that makes it end. -/
theorem parse_eq : parse = parseNode parse := by
  rw [parse_eq_subtree]
  exact subtree_eq_parseNode

/-- It is the only one that does. -/
theorem eq_parseNode_iff {node : Parser Handle} : node = parseNode node ↔ node = parse := by
  constructor
  · intro h
    funext data s
    exact (alikeBelow_of_eq_parseNode h parse_eq (data.length + 1) data s (Nat.lt_succ_self _)).1
  · intro h
    rw [h]
    exact parse_eq

end Wire

/-! ### Whole inputs -/

namespace Store

/-- Reading a whole input, with the recursion for its node. -/
theorem decode_eq_parse (data : List UInt8) (s : Store) :
    decode data s = match Wire.readPreamble data with
      | .error e => .error e s
      | .ok ((), data) =>
        match Wire.parse data s with
        | .error e s => .error e s
        | .ok (root, rest) s =>
          if rest.isEmpty then .ok root s
          else .error (.malformed (.trailingBytes rest.length)) s := by
  rw [decode]
  cases Wire.readPreamble data with
  | error e => rfl
  | ok p =>
    simp only [Wire.parse_eq_subtree, Wire.subtree, Wire.descend]
    cases Wire.readHeader s.schema p.2 <;> rfl

/-- **Reading is recursive descent.**  Reading with frames has the outcome of the recursion, be it
    a root or an error, and leaves the same store.  The recursion is the one parser of nodes that
    reads those in the slots with itself. -/
theorem decode_recursive :
    (∀ data s, decode data s = (Wire.parseInput Wire.parse).run' data s) ∧
    ∀ node : Wire.Parser Handle, node = Wire.parseNode node ↔ node = Wire.parse := by
  refine ⟨fun data s => ?_, fun node => Wire.eq_parseNode_iff⟩
  show _ = EStateM.map (·.1) (Wire.parseInput Wire.parse data) s
  unfold EStateM.map Wire.parseInput
  rw [decode_eq_parse, Wire.parser_bind_apply, Wire.part]
  cases Wire.readPreamble data with
  | error e => rfl
  | ok p =>
    dsimp only
    rw [Wire.parser_bind_apply]
    cases Wire.parse p.2 s with
    | error e s => rfl
    | ok q s =>
      obtain ⟨root, rest⟩ := q
      cases rest <;> rfl

end Store

end TypedForest
