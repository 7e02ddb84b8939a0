import TypedForest.Proofs.Schema.Inheritance
import TypedForest.Proofs.Wire.Faults
import TypedForest.Proofs.Wire.Recovery

namespace TypedForest

/-!
# Reading hostile bytes

Whatever counts and lengths the bytes claim, reading them takes no more turns than there are
bytes, makes at most one node for every four of them, and never goes wrong in the middle of it.

* `Wire.Config.turn` : one turn of reading, with a check at every place where a count goes down or
  something is looked up;
* `Wire.Safe` : what holds between the turns;
* `Wire.Safe.turn` : a turn passes its checks, keeps this, and brings reading nearer to its end;
* `Store.decode_bounded` : so reading with all checks has the same outcome as reading.
-/

namespace Wire

/-! ### Loops inside a node -/

/-- A loop over items is left after one round more than there are bytes, however often it is to go
    round. -/
def Capped {α : Type} (item : Reader α) : Prop :=
  ∀ n data, readMany item n [] data = readMany item (min n (data.length + 1)) [] data

section

variable {α : Type} {item : Reader α} {P : α → List UInt8 → Prop} (hitem : Yields item P)
  (hP : ∀ a p, P a p → 0 < p.length)
include hitem hP

/-- If each item takes a byte, more rounds than there are bytes cannot be told apart. -/
theorem readMany_eq_of_lt {m n : Nat} (done : List α) {data : List UInt8} (hm : data.length < m)
    (hn : data.length < n) : readMany item m done data = readMany item n done data := by
  induction m generalizing n done data with
  | zero => exact absurd hm (Nat.not_lt_zero _)
  | succ m ih =>
    obtain ⟨n, rfl⟩ := Nat.exists_eq_succ_of_ne_zero (Nat.ne_of_gt (Nat.zero_lt_of_lt hn))
    show (item data >>= fun p => readMany item m (p.1 :: done) p.2)
      = (item data >>= fun p => readMany item n (p.1 :: done) p.2)
    cases hread : item data with
    | error e => rfl
    | ok q =>
      obtain ⟨p, rfl, hp⟩ := hitem _ _ _ hread
      have hpos := hP _ _ hp
      rw [List.length_append] at hm hn
      exact ih _ (by omega) (by omega)

/-- Readers whose items take a byte each need not be asked for more items than there are bytes. -/
theorem capped_of_yields : Capped item := by
  intro n data
  rcases Nat.le_total n (data.length + 1) with hle | hle
  · rw [Nat.min_eq_left hle]
  · rw [Nat.min_eq_right hle]
    exact readMany_eq_of_lt hitem hP [] (by omega) (by omega)

end

/-- A count takes at least one byte. -/
theorem Style.length_pos_of_accepted {n : Nat} {p : List UInt8} (h : accepted.count n p) :
    0 < p.length := by
  refine List.length_pos_of_ne_nil ?_
  rintro rfl
  cases h .kindName []

/-- A claimed number of values has no effect beyond the bytes that are there. -/
theorem capped_readValue (room : Nat) : Capped (readValue room) := by
  have hpos : ∀ list v p, SpellsValueWith .accepted list v p → 0 < p.length := by
    intro list v p h
    cases h <;> exact Nat.zero_lt_succ _
  refine capped_of_yields (yields_readValue room) fun v p h => ?_
  cases room <;> exact hpos _ v p h

/-- Nor has a claimed number of notes. -/
theorem capped_readNote : Capped readNote := by
  refine capped_of_yields yields_readNote fun e p h => ?_
  obtain ⟨⟨hlength⟩, -⟩ := h
  have := Style.length_pos_of_accepted hlength
  simp only [List.length_append]
  omega

/-! ### Reading turn by turn, with checks -/

/-- How reading ends: with a node and the rest of the bytes, or with an error. -/
abbrev Outcome := EStateM.Result WireError Store (Handle × List UInt8)

/-- Where reading is between two turns. -/
structure Config where
  frames : List Frame
  data : List UInt8
  store : Store

/-- What comes of a turn. -/
inductive Turn
  | more (c : Config)
  | ended (r : Outcome)

/-- Finishes the slot in hand, if there is one to be taken off the count. -/
def Frame.close? (f : Frame) (filling : Filling) : Option Frame :=
  if f.slotsLeft = 0 then none else some (f.close filling)

/-- Takes over a node, if it is for the list in hand or there is a slot for it. -/
def Frame.receive? (f : Frame) (h : Handle) : Option Frame :=
  if f.list.isSome then some (f.receive h) else f.close? (.one (some h))

/-- Whether a schema has a kind. -/
def hasKind (schema : Schema) (k : KindId) : Bool := decide (k.index < schema.size)

/-- Whether all is there that making the node of a frame looks up: its kind and those that its
    slots are for, the nodes in its slots with their kinds and all that these derive from, and the
    place that is said to be free. -/
def Frame.ready (f : Frame) (s : Store) : Bool :=
  hasKind s.schema f.kind &&
    ((s.schema.kind f.kind).children.all fun slot => hasKind s.schema slot.type.kind) &&
    (f.held.all fun h => (s.node? h).any fun n =>
      (Kind.lineage s.schema.kinds n.kind).all (hasKind s.schema)) &&
    s.free.head?.all fun i => decide (i < s.entries.size)

/-- Begins with a node inside the frames `outer`, if its kind is there. -/
def begin? (outer : List Frame) (data : List UInt8) (s : Store) : Option Turn :=
  match readHeader s.schema data with
  | .error e => some (.ended (.error e s))
  | .ok (g, rest) =>
    if hasKind s.schema g.kind then some (.more ⟨g :: outer, rest, s⟩) else none

/-- One turn of reading.  There is none if a count would go below zero, or if something would be
    looked up where it is not. -/
def Config.turn : Config → Option Turn
  | ⟨[], _, s⟩ => some (.ended (.error (.truncated .rootNode) s))
  | ⟨f :: outer, data, s⟩ =>
    match f.list with
    | some (left + 1, nodes) => begin? ({ f with list := some (left, nodes) } :: outer) data s
    | some (0, nodes) =>
      (f.close? (.many nodes.reverse)).map fun f => .more ⟨f :: outer, data, s⟩
    | none =>
      match f.slotsLeft with
      | _ + 1 =>
        match data with
        | [] => some (.ended (.error (.truncated .slotTag) s))
        | tag :: data =>
          if tag = Tag.slotVacant then
            (f.close? (.one none)).map fun f => .more ⟨f :: outer, data, s⟩
          else if tag = Tag.slotOne then begin? (f :: outer) data s
          else if tag = Tag.slotMany then
            match readUnsigned .listLength data with
            | .error e => some (.ended (.error e s))
            | .ok (n, data) => some (.more ⟨{ f with list := some (n, []) } :: outer, data, s⟩)
          else some (.ended (.error (.malformed (.unknownSlotTag tag)) s))
      | 0 =>
        if f.ready s then
          match f.make s with
          | .error e s => some (.ended (.error e s))
          | .ok h s =>
            match outer with
            | [] => some (.ended (.ok (h, data) s))
            | g :: outer => (g.receive? h).map fun g => .more ⟨g :: outer, data, s⟩
        else none

/-- Goes on for a number of turns at most. -/
def Turn.run : Nat → Turn → Option Outcome
  | _, .ended r => some r
  | 0, .more _ => none
  | n + 1, .more c => c.turn >>= Turn.run n

/-- After the node no bytes are left over. -/
def finish : Outcome → EStateM.Result WireError Store Handle
  | .error e s => .error e s
  | .ok (root, rest) s =>
    if rest.isEmpty then .ok root s else .error (.malformed (.trailingBytes rest.length)) s

/-- `Store.decode` with the checks of `Config.turn`, for a number of turns at most. -/
def decodeWithin (turns : Nat) (data : List UInt8) (s : Store) :
    Option (EStateM.Result WireError Store Handle) :=
  match readPreamble data with
  | .error e => some (.error e s)
  | .ok ((), rest) => (begin? [] rest s >>= Turn.run turns).map finish

/-! ### What holds between the turns -/

/-- The counts of a frame fit its kind: each of its child slots is filled or to come, and a list
    in hand is for one that is to come. -/
structure Frame.Counted (schema : Schema) (f : Frame) : Prop where
  values : f.values.length = (schema.kind f.kind).values.length
  slots : f.fillings.length + f.slotsLeft = (schema.kind f.kind).children.length
  list : f.list.isSome = true → 0 < f.slotsLeft

/-- The state of reading `size` bytes since the store was `s₀`.  Each frame is paid for with four
    of the bytes that are gone, and so is each node that was made. -/
structure Safe (s₀ : Store) (size : Nat) (c : Config) : Prop where
  growing : Growing s₀ c.store c.frames
  counted : ∀ f ∈ c.frames, f.Counted c.store.schema
  waiting : ∀ f ∈ c.frames.tail, 0 < f.slotsLeft
  budget : 4 * (c.store.live + c.frames.length) + c.data.length ≤ 4 * s₀.live + size

/-- How many turns a frame can take that take no bytes: one to finish the list in hand, and one to
    make the node. -/
def Frame.freeTurns (f : Frame) : Nat := if f.list.isSome then 2 else 1

/-- How many turns there can be, if all others take a byte. -/
def Config.left (c : Config) : Nat := c.data.length + (c.frames.map Frame.freeTurns).sum

/-- How reading ends from here on. -/
def Config.read (c : Config) : Outcome := readFrames c.frames c.data c.store

/-- Reading ends within the budget, and what it reports is sensible. -/
def Ends {α : Type} (s₀ : Store) (size : Nat) : EStateM.Result WireError Store α → Prop
  | .ok _ s => 4 * s.live ≤ 4 * s₀.live + size
  | .error e s => 4 * s.live ≤ 4 * s₀.live + size ∧ Sensible e

/-- There is a turn from `c`, it is one of reading, and it brings it nearer to its end. -/
def Proceeds (s₀ : Store) (size : Nat) (c : Config) : Option Turn → Prop
  | none => False
  | some (.more c') => c'.frames ≠ [] ∧ Safe s₀ size c' ∧ c'.left < c.left ∧ c.read = c'.read
  | some (.ended r) => Ends s₀ size r ∧ c.read = r

/-! ### The parts of a turn -/

/-- A node up to its child slots has four numbers at least: the length of its name, and the counts
    of its values, notes and slots. -/
theorem SpellsLabel.four_le {l : Label} {p : List UInt8} (h : SpellsLabel .accepted l p) :
    4 ≤ p.length := by
  obtain ⟨⟨hname⟩, hvalues, -, hnotes, -, -, hslots⟩ := h
  have := Style.length_pos_of_accepted hname
  have := Style.length_pos_of_accepted hvalues
  have := Style.length_pos_of_accepted hnotes
  have := Style.length_pos_of_accepted hslots
  simp only [List.length_append]
  omega

/-- The head of a node takes at least four bytes, and its counts are those of its kind. -/
theorem readHeader_takes {schema : Schema} {data rest : List UInt8} {g : Frame}
    (hg : readHeader schema data = .ok (g, rest)) :
    rest.length + 4 ≤ data.length ∧ g.Counted schema ∧ g.list = none := by
  obtain ⟨p, rfl, hheads⟩ := yields_readHeader _ _ _ _ hg
  obtain ⟨name, -, hspelled⟩ := hheads.spelled
  have hfour := (hspelled (List.replicate g.slotsLeft .vacant) List.length_replicate).four_le
  refine ⟨?_, ⟨hheads.values, ?_, ?_⟩, hheads.list⟩
  · rw [List.length_append]
    omega
  · rw [hheads.fillings, hheads.slots, List.length_nil, Nat.zero_add]
  · rw [hheads.list]
    nofun

section

variable {schema : Schema} {f : Frame}

/-- A slot that is filled is no longer to come. -/
theorem Frame.Counted.close (h : f.Counted schema) (hpos : 0 < f.slotsLeft) (filling : Filling) :
    (f.close filling).Counted schema := by
  refine ⟨h.values, ?_, nofun⟩
  have := h.slots
  show f.fillings.length + 1 + (f.slotsLeft - 1) = (schema.kind f.kind).children.length
  omega

/-- A node that is received goes into the list in hand or fills a slot. -/
theorem Frame.Counted.receive (h : f.Counted schema) (hpos : 0 < f.slotsLeft) (x : Handle) :
    (f.receive x).Counted schema := by
  unfold Frame.receive
  split
  · exact ⟨h.values, h.slots, fun _ => hpos⟩
  · exact h.close hpos _

theorem Frame.freeTurns_of_no_list (hlist : f.list = none) : f.freeTurns = 1 := by
  rw [freeTurns, hlist]
  rfl

/-- Receiving a node neither begins a list nor ends one. -/
theorem Frame.freeTurns_receive (f : Frame) (x : Handle) :
    (f.receive x).freeTurns = f.freeTurns := by
  unfold Frame.receive
  split
  · next hlist => simp only [freeTurns, hlist, Option.isSome_some]
  · next hlist =>
    rw [freeTurns, freeTurns, hlist]
    rfl

/-- A slot can be filled while there is one to come. -/
theorem Frame.close?_eq (hpos : 0 < f.slotsLeft) (filling : Filling) :
    f.close? filling = some (f.close filling) := if_neg (by omega)

/-- A frame that waits for a node has a slot for it. -/
theorem Frame.receive?_eq (hpos : 0 < f.slotsLeft) (x : Handle) :
    f.receive? x = some (f.receive x) := by
  unfold receive? receive
  cases hlist : f.list with
  | none => exact close?_eq hpos _
  | some p => rfl

end

/-- Nodes that wait in the open frames are alive. -/
theorem Growing.isAlive_of_held {s₀ s : Store} {frames : List Frame} (h : Growing s₀ s frames)
    {f : Frame} (hf : f ∈ frames) {x : Handle} (hx : x ∈ f.held) : s.isAlive x = true := by
  obtain ⟨-, n, hn, -⟩ := h.sprouts.roots x (List.mem_flatMap.mpr ⟨f, hf, hx⟩)
  exact Store.isAlive_of_node? hn

/-- The node of a frame is one more. -/
theorem live_of_make {s s' : Store} (hs : s.FreePlaces) {f : Frame} {r : Handle}
    (hmake : f.make s = .ok r s') : s'.live = s.live + 1 := by
  rw [Store.make_eq] at hmake
  split at hmake
  · cases hmake
  · next r' s₁ hconstruct =>
    cases hmake
    obtain ⟨s₁, hc, rfl⟩ := Store.construct_of_constructAnnotated hs hconstruct
    obtain ⟨n, hfill, -⟩ := Store.construct_eq_ok_iff.mp hc
    rw [Store.live_modifyNode, (Store.node?_construct hs hfill hc).2.1]

section

variable {s₀ s : Store} {size : Nat} {f : Frame} {outer : List Frame} {data rest : List UInt8}

/-- Where reading is safe it may stop with an error that makes sense. -/
theorem Safe.ends (h : Safe s₀ size ⟨outer, data, s⟩) {e : WireError} (he : Sensible e) :
    Ends (α := Handle × List UInt8) s₀ size (.error e s) := by
  have hbudget : 4 * (s.live + outer.length) + data.length ≤ 4 * s₀.live + size := h.budget
  exact ⟨by omega, he⟩

/-- A node whose head was read is paid for by the bytes of the head. -/
theorem Safe.begin (h : Safe s₀ size ⟨outer, data, s⟩) (hwait : ∀ f ∈ outer, 0 < f.slotsLeft)
    {g : Frame} (hg : readHeader s.schema data = .ok (g, rest)) :
    Safe s₀ size ⟨g :: outer, rest, s⟩ := by
  obtain ⟨hfour, hcounted, -⟩ := readHeader_takes hg
  have hbudget : 4 * (s.live + outer.length) + data.length ≤ 4 * s₀.live + size := h.budget
  refine ⟨h.growing.begin hg, List.forall_mem_cons.mpr ⟨hcounted, h.counted⟩, hwait, ?_⟩
  show 4 * (s.live + (outer.length + 1)) + rest.length ≤ 4 * s₀.live + size
  omega

/-- The innermost frame may be replaced by one with the same nodes, on fewer bytes. -/
theorem Safe.replace (h : Safe s₀ size ⟨f :: outer, data, s⟩) {g : Frame}
    (hgrowing : Growing s₀ s (g :: outer)) (hcounted : g.Counted s.schema)
    (hrest : rest.length ≤ data.length) : Safe s₀ size ⟨g :: outer, rest, s⟩ where
  growing := hgrowing
  counted := List.forall_mem_cons.mpr ⟨hcounted, (List.forall_mem_cons.mp h.counted).2⟩
  waiting := h.waiting
  budget := Nat.le_trans (Nat.add_le_add_left hrest _) h.budget

/-- The next frame takes over the node of the innermost one. -/
theorem Safe.resume {g : Frame} (h : Safe s₀ size ⟨f :: g :: outer, data, s⟩)
    (hlist : f.list = none) {r : Handle} {s' : Store} (hmake : f.make s = .ok r s') :
    Safe s₀ size ⟨g.receive r :: outer, data, s'⟩ := by
  obtain ⟨hwaits, hwaiting⟩ := List.forall_mem_cons.mp h.waiting
  obtain ⟨-, hcounts⟩ := List.forall_mem_cons.mp h.counted
  have hschema : s'.schema = s.schema := (h.growing.make_ok hlist hmake).1.schema
  have hlive : s'.live = s.live + 1 := live_of_make h.growing.wellFormed.booked.freePlaces hmake
  refine ⟨h.growing.resume hlist hmake, ?_, hwaiting, ?_⟩
  · rw [hschema]
    obtain ⟨hcounted, hcounts⟩ := List.forall_mem_cons.mp hcounts
    exact List.forall_mem_cons.mpr ⟨hcounted.receive hwaits r, hcounts⟩
  · have hbudget : 4 * (s.live + (outer.length + 2)) + data.length ≤ 4 * s₀.live + size := h.budget
    show 4 * (s'.live + (outer.length + 1)) + data.length ≤ 4 * s₀.live + size
    omega

/-- A frame that has come about by safe reading can be made a node without looking at kinds, nodes
    or places that are not there. -/
theorem Safe.ready (hclosed : s₀.schema.Closed) (h : Safe s₀ size ⟨f :: outer, data, s⟩) :
    f.ready s = true := by
  have hwf := h.growing.wellFormed
  rw [← h.growing.sprouts.schema] at hclosed
  simp only [Frame.ready, hasKind, Bool.and_eq_true, decide_eq_true_eq, List.all_eq_true,
    Option.any_eq_true, Option.all_eq_true]
  refine ⟨⟨⟨h.growing.kinds f List.mem_cons_self, hclosed.targets f.kind⟩, fun x hx => ?_⟩, ?_⟩
  · obtain ⟨n, hn⟩ := Store.isAlive_iff.mp (h.growing.isAlive_of_held List.mem_cons_self hx)
    refine ⟨n, hn, fun k hk => ?_⟩
    exact Nat.lt_of_le_of_lt (Kind.index_le_of_mem_lineage hclosed.bases hk) (hwf.nodes x n hn).kind
  · intro i hi
    have hplace := hwf.booked.freePlaces i (List.mem_of_mem_head? hi)
    rw [← Store.size_occupancy]
    exact (Array.getElem?_eq_some_iff.mp hplace).1

/-- A frame that is complete has something for every slot, so that its node is refused for
    nothing but its content. -/
theorem Safe.make_error (h : Safe s₀ size ⟨f :: outer, data, s⟩) (hlist : f.list = none)
    (hslots : f.slotsLeft = 0) {e : WireError} {s' : Store} (hmake : f.make s = .error e s') :
    Ends (α := Handle × List UInt8) s₀ size (.error e s') := by
  have hcounted := (List.forall_mem_cons.mp h.counted).1
  obtain rfl := h.growing.make_error hmake
  rw [Store.make_eq] at hmake
  split at hmake
  · next x s₁ hconstruct =>
    cases hmake
    -- the notes are set on a node that was just made, so the node itself was refused
    have hrefused := Store.construct_of_constructAnnotated_error
      h.growing.wellFormed.booked.freePlaces hconstruct
    refine h.ends ⟨nofun, ?_⟩
    rintro _ ⟨⟩
    refine Store.ofContent_of_construct hcounted.values.symm ?_ ?_ hrefused
    · rw [List.length_reverse, ← hcounted.slots, hslots, Nat.add_zero]
    · intro y hy
      -- its children were made before and are still there
      have hheld : y ∈ f.held := by
        rw [Frame.held, hlist]
        simpa using hy
      exact h.growing.isAlive_of_held List.mem_cons_self hheld
  · cases hmake

/-- To begin with a node is a turn, from where the frames around it are. -/
theorem proceeds_begin {c : Config} (h : Safe s₀ size ⟨outer, data, s⟩)
    (hwait : ∀ f ∈ outer, 0 < f.slotsLeft) (hleft : Config.left ⟨outer, data, s⟩ ≤ c.left)
    (hread : c.read = descend outer data s) : Proceeds s₀ size c (begin? outer data s) := by
  unfold begin?
  unfold descend at hread
  cases hg : readHeader s.schema data with
  | error e =>
    rw [hg] at hread
    exact ⟨h.ends (compositional_reportsParts.readHeader _ _ _ hg).sensible, hread⟩
  | ok p =>
    obtain ⟨g, rest⟩ := p
    obtain ⟨hfour, -, hlist⟩ := readHeader_takes hg
    rw [hg] at hread
    dsimp only
    rw [hasKind, if_pos (decide_eq_true (Store.readHeader_eq_ok hg).1)]
    refine ⟨List.cons_ne_nil _ _, h.begin hwait hg, Nat.lt_of_lt_of_le ?_ hleft, hread⟩
    have hfree : g.freeTurns = 1 := Frame.freeTurns_of_no_list hlist
    simp only [Config.left, List.map_cons, List.sum_cons, hfree]
    omega

/-- To replace the innermost frame is a turn, if it takes a byte or finishes a list. -/
theorem proceeds_replace (h : Safe s₀ size ⟨f :: outer, data, s⟩) {g : Frame}
    (hgrowing : Growing s₀ s (g :: outer)) (hcounted : g.Counted s.schema)
    (hrest : rest.length ≤ data.length)
    (hleft : rest.length + g.freeTurns < data.length + f.freeTurns)
    (hread : readFrames (f :: outer) data s = readFrames (g :: outer) rest s) :
    Proceeds s₀ size ⟨f :: outer, data, s⟩ (some (.more ⟨g :: outer, rest, s⟩)) := by
  refine ⟨List.cons_ne_nil _ _, h.replace hgrowing hcounted hrest, ?_, hread⟩
  simp only [Config.left, List.map_cons, List.sum_cons]
  omega

/-- The list in hand has items to come. -/
theorem proceeds_item (h : Safe s₀ size ⟨f :: outer, data, s⟩) {left : Nat} {nodes : List Handle}
    (hlist : f.list = some (left + 1, nodes)) :
    Proceeds s₀ size ⟨f :: outer, data, s⟩ (Config.turn ⟨f :: outer, data, s⟩) := by
  have hcounted := (List.forall_mem_cons.mp h.counted).1
  have hpos : 0 < f.slotsLeft := hcounted.list (by rw [hlist]; rfl)
  have hgrowing : Growing s₀ s ({ f with list := some (left, nodes) } :: outer) := by
    refine h.growing.replace rfl ?_
    rw [Frame.held, Frame.held, hlist]
    exact .refl _
  simp only [Config.turn, hlist]
  refine proceeds_begin (h.replace hgrowing ⟨hcounted.values, hcounted.slots, fun _ => hpos⟩
    (Nat.le_refl _)) (List.forall_mem_cons.mpr ⟨hpos, h.waiting⟩) ?_
    (readFrames_of_item outer data s hlist)
  simp [Config.left, Frame.freeTurns, hlist]

/-- The list in hand is complete. -/
theorem proceeds_listEnd (h : Safe s₀ size ⟨f :: outer, data, s⟩) {nodes : List Handle}
    (hlist : f.list = some (0, nodes)) :
    Proceeds s₀ size ⟨f :: outer, data, s⟩ (Config.turn ⟨f :: outer, data, s⟩) := by
  have hcounted := (List.forall_mem_cons.mp h.counted).1
  have hpos : 0 < f.slotsLeft := hcounted.list (by rw [hlist]; rfl)
  simp only [Config.turn, hlist, Frame.close?_eq hpos]
  refine proceeds_replace h (h.growing.closeList hlist) (hcounted.close hpos _) (Nat.le_refl _) ?_
    (readFrames_of_listEnd outer data s hlist)
  simp [Frame.freeTurns, Frame.close, hlist]

/-- A slot is to come. -/
theorem proceeds_slot {tag : UInt8} (h : Safe s₀ size ⟨f :: outer, tag :: data, s⟩)
    (hlist : f.list = none) {n : Nat} (hslots : f.slotsLeft = n + 1) :
    Proceeds s₀ size ⟨f :: outer, tag :: data, s⟩ (Config.turn ⟨f :: outer, tag :: data, s⟩) := by
  have hcounted := (List.forall_mem_cons.mp h.counted).1
  have hpos : 0 < f.slotsLeft := by omega
  have hshorter : data.length ≤ (tag :: data).length := Nat.le_succ _
  have hread := readFrames_of_slot outer data s hlist hslots tag
  simp only [Config.turn, hlist, hslots]
  -- the tag is that of a vacant slot, of one node, of a list, or none at all
  split
  · next hvacant =>
    rw [if_pos hvacant] at hread
    rw [Frame.close?_eq hpos]
    refine proceeds_replace h (h.growing.closeVacant hlist) (hcounted.close hpos _) hshorter ?_
      hread
    simp [Frame.freeTurns, Frame.close, hlist]
  next hvacant =>
  rw [if_neg hvacant] at hread
  split
  · next hone =>
    rw [if_pos hone] at hread
    exact proceeds_begin (h.replace h.growing hcounted hshorter)
      (List.forall_mem_cons.mpr ⟨hpos, h.waiting⟩) (Nat.add_le_add_right hshorter _) hread
  next hone =>
  rw [if_neg hone] at hread
  split
  · next hmany =>
    rw [if_pos hmany] at hread
    split
    · next e he =>
      rw [he] at hread
      have hpart := compositional_reportsParts.readUnsigned .listLength (by decide) _ _ he
      exact ⟨h.ends hpart.sensible, hread⟩
    · next m rest hm =>
      rw [hm] at hread
      rw [← hslots]
      -- the tag and the length pay for the turn that finishes the list
      have hlt : rest.length < data.length := by
        obtain ⟨p, rfl, hp⟩ := yields_readUnsigned _ _ _ _ hm
        have := Style.length_pos_of_accepted hp
        rw [List.length_append]
        omega
      have hgrowing : Growing s₀ s ({ f with list := some (m, []) } :: outer) := by
        refine h.growing.replace rfl ?_
        rw [Frame.held, Frame.held, hlist]
        exact .refl _
      refine proceeds_replace h hgrowing ⟨hcounted.values, hcounted.slots, fun _ => hpos⟩ ?_ ?_
        hread
      · exact Nat.le_trans (Nat.le_of_lt hlt) hshorter
      · have hfree : f.freeTurns = 1 := Frame.freeTurns_of_no_list hlist
        have hfree' : Frame.freeTurns { f with list := some (m, []) } = 2 := rfl
        rw [hfree, hfree', List.length_cons]
        omega
  · next hmany =>
    rw [if_neg hmany] at hread
    exact ⟨h.ends (OfPart.sensible trivial), hread⟩

/-- All slots are there, and the node is made. -/
theorem proceeds_complete (hclosed : s₀.schema.Closed) (h : Safe s₀ size ⟨f :: outer, data, s⟩)
    (hlist : f.list = none) (hslots : f.slotsLeft = 0) :
    Proceeds s₀ size ⟨f :: outer, data, s⟩ (Config.turn ⟨f :: outer, data, s⟩) := by
  have hread := readFrames_of_complete outer data s hlist hslots
  simp only [Config.turn, hlist, hslots, h.ready hclosed, if_true]
  cases hmake : f.make s with
  | error e s' =>
    rw [hmake] at hread
    exact ⟨h.make_error hlist hslots hmake, hread⟩
  | ok r s' =>
    rw [hmake] at hread
    cases outer with
    | nil =>
      -- the frame is exchanged for a live node, which the budget counts alike
      have hlive : s'.live = s.live + 1 := live_of_make h.growing.wellFormed.booked.freePlaces hmake
      have hbudget : 4 * (s.live + 1) + data.length ≤ 4 * s₀.live + size := h.budget
      refine ⟨?_, hread⟩
      show 4 * s'.live ≤ 4 * s₀.live + size
      omega
    | cons g outer =>
      have hpos : 0 < g.slotsLeft := h.waiting g List.mem_cons_self
      dsimp only
      rw [Frame.receive?_eq hpos]
      refine ⟨List.cons_ne_nil _ _, h.resume hlist hmake, ?_, hread⟩
      have hfree : f.freeTurns = 1 := Frame.freeTurns_of_no_list hlist
      simp only [Config.left, List.map_cons, List.sum_cons, hfree, Frame.freeTurns_receive]
      omega

end

/-- **There is always a turn**, and it is one of reading. -/
theorem Safe.turn {s₀ : Store} (hclosed : s₀.schema.Closed) {size : Nat} {c : Config}
    (h : Safe s₀ size c) (hopen : c.frames ≠ []) : Proceeds s₀ size c c.turn := by
  obtain ⟨frames, data, s⟩ := c
  obtain ⟨f, outer, rfl⟩ := List.exists_cons_of_ne_nil hopen
  -- what happens in a turn depends on how far the innermost frame has come
  cases hlist : f.list with
  | some p =>
    obtain ⟨left, nodes⟩ := p
    cases left with
    | zero => exact proceeds_listEnd h hlist
    | succ left => exact proceeds_item h hlist
  | none =>
    cases hslots : f.slotsLeft with
    | zero => exact proceeds_complete hclosed h hlist hslots
    | succ n =>
      cases data with
      | nil =>
        have htag : Field.slotTag ≠ .rootNode := by decide
        simp only [Config.turn, hlist, hslots]
        exact ⟨h.ends (OfPart.sensible htag), readFrames_of_no_slot outer s hlist hslots⟩
      | cons tag data => exact proceeds_slot h hlist hslots

/-- **Reading ends in time**, that is within the turns that there can be. -/
theorem Safe.run {s₀ : Store} (hclosed : s₀.schema.Closed) {size n : Nat} {c : Config}
    (h : Safe s₀ size c) (hopen : c.frames ≠ []) (hn : c.left ≤ n) :
    Turn.run n (.more c) = some c.read ∧ Ends s₀ size c.read := by
  induction n generalizing c with
  | zero =>
    -- an open frame has a turn to come
    obtain ⟨f, outer, hframes⟩ := List.exists_cons_of_ne_nil hopen
    have hpos : 0 < f.freeTurns := by
      unfold Frame.freeTurns
      split <;> omega
    rw [Config.left, hframes, List.map_cons, List.sum_cons] at hn
    omega
  | succ n ih =>
    -- one turn, and what is left to do has become less
    have hturn := h.turn hclosed hopen
    rw [Turn.run]
    cases ht : c.turn with
    | none =>
      rw [ht] at hturn
      exact hturn.elim
    | some t =>
      rw [ht] at hturn
      cases t with
      | ended r =>
        obtain ⟨hends, hread⟩ := hturn
        rw [hread]
        exact ⟨by cases n <;> rfl, hends⟩
      | more c' =>
        obtain ⟨hopen', hsafe, hleft, hread⟩ := hturn
        rw [hread]
        exact ih hsafe hopen' (by omega)

/-- The node at the start, read with checks. -/
theorem run_descend {s : Store} (hs : s.WellFormed) (hclosed : s.schema.Closed)
    (data : List UInt8) {n : Nat} (hn : data.length ≤ n) :
    (begin? [] data s >>= Turn.run n) = some (descend [] data s) ∧
      Ends s data.length (descend [] data s) := by
  have hstart : Safe s data.length ⟨[], data, s⟩ :=
    ⟨⟨hs, nofun, .refl s⟩, nofun, nofun, Nat.le_refl _⟩
  unfold begin? descend
  cases hg : readHeader s.schema data with
  | error e =>
    refine ⟨?_, hstart.ends (compositional_reportsParts.readHeader _ _ _ hg).sensible⟩
    cases n <;> rfl
  | ok p =>
    obtain ⟨g, rest⟩ := p
    obtain ⟨hfour, -, hlist⟩ := readHeader_takes hg
    dsimp only
    rw [hasKind, if_pos (decide_eq_true (Store.readHeader_eq_ok hg).1)]
    refine (hstart.begin nofun hg).run hclosed (List.cons_ne_nil _ _) ?_
    have hfree : g.freeTurns = 1 := Frame.freeTurns_of_no_list hlist
    simp only [Config.left, List.map_cons, List.map_nil, List.sum_cons, List.sum_nil, hfree]
    omega

/-- Bytes that are left over are reported in a sensible way. -/
theorem Ends.finish {s₀ : Store} {size : Nat} {r : Outcome} (h : Ends s₀ size r) :
    Ends s₀ size (finish r) := by
  cases r with
  | error e s => exact h
  | ok p s =>
    unfold Wire.finish
    dsimp only
    split
    · exact h
    · exact ⟨h, nofun, nofun⟩

end Wire

namespace Store

/-- Decoding is reading the preamble, reading the root, and looking for bytes that are left over. -/
theorem decode_eq_finish (data : List UInt8) (s : Store) :
    decode data s = match Wire.readPreamble data with
      | .error e => .error e s
      | .ok ((), rest) => Wire.finish (Wire.descend [] rest s) := by
  unfold decode Wire.descend
  cases Wire.readPreamble data with
  | error e => rfl
  | ok p =>
    dsimp only
    cases Wire.readHeader s.schema p.2 with
    | error e => rfl
    | ok q =>
      dsimp only
      cases Wire.readFrames [q.1] q.2 s <;> rfl

/-- Reading with checks is reading, and it ends within the budget. -/
theorem decodeWithin_eq {s : Store} (hs : s.WellFormed) (hclosed : s.schema.Closed)
    (data : List UInt8) :
    Wire.decodeWithin data.length data s = some (decode data s) ∧
      Wire.Ends s (data.length - 5) (decode data s) := by
  rw [decode_eq_finish, Wire.decodeWithin]
  cases hpreamble : Wire.readPreamble data with
  | error e =>
    have hpart := Wire.compositional_reportsParts.readPreamble _ _ hpreamble
    exact ⟨rfl, Nat.le_add_right _ _, hpart.sensible⟩
  | ok p =>
    obtain ⟨⟨⟩, rest⟩ := p
    obtain ⟨_, rfl, rfl⟩ := Wire.yields_readPreamble _ _ _ hpreamble
    -- the preamble takes five bytes and makes no node
    have hsize : (Wire.preamble ++ rest).length = rest.length + 5 := by
      rw [List.length_append, Nat.add_comm]
      rfl
    obtain ⟨hrun, hends⟩ :=
      Wire.run_descend hs hclosed rest (n := (Wire.preamble ++ rest).length) (by omega)
    rw [hsize, Nat.add_sub_cancel]
    rw [hsize] at hrun
    dsimp only
    rw [hrun]
    exact ⟨rfl, hends.finish⟩

/-- **Reading is safe on all bytes.**  With a check wherever a count goes down or something is
    looked up, and with no more turns than there are bytes, reading has the same outcome as
    without; and within a turn the loops over values and notes end with the bytes, too.  It adds
    at most one node for every four bytes behind the preamble, also when it fails.  It never
    reports that there is no root, and the store rejects a node only for its content or for lack
    of room. -/
theorem decode_bounded {schema : Schema} (hbuilt : schema.Built) {s : Store}
    (hs : Reachable schema s) (data : List UInt8) :
    Wire.decodeWithin data.length data s = some (decode data s) ∧
      (∀ room, Wire.Capped (Wire.readValue room)) ∧ Wire.Capped Wire.readNote ∧
      (added s (after (decode data) s)).length ≤ (data.length - 5) / 4 ∧
      (∀ s', decode data s ≠ .error (.truncated .rootNode) s') ∧
      ∀ e s', decode data s = .error (.rejected e) s' →
        e = .storeFull ∨ ∃ slot expected found, e = .typeMismatch slot expected found := by
  have hwf := hs.wellFormed_store
  have hwf' := hwf.steps (Growths.decode data s).steps
  obtain ⟨hwithin, hends⟩ := decodeWithin_eq hwf (hs.schema_eq ▸ hbuilt.closed) data
  refine ⟨hwithin, Wire.capped_readValue, Wire.capped_readNote, ?_, fun s' h => ?_,
    fun e s' h => ?_⟩
  · obtain ⟨roots, hsprouts⟩ := exists_sprouts_decode hwf data
    -- the nodes that were added are counted by the live ones, since none was lost
    have hadded := hwf'.booked.live_add_length_filter hwf.booked
      fun x => (hsprouts.untouched hwf).isAlive
    have hbudget : 4 * (after (decode data) s).live ≤ 4 * s.live + (data.length - 5) := by
      unfold after
      cases hdecode : decode data s with
      | ok r s' =>
        rw [hdecode] at hends
        exact hends
      | error e s' =>
        rw [hdecode] at hends
        exact hends.1
    rw [added]
    omega
  · rw [h] at hends
    exact hends.2.1 rfl
  · rw [h] at hends
    exact hends.2.2 e rfl

end Store

/-! ### Bytes to look at -/

namespace Sample

/-- An item that claims to have as many parts as a word can count, of which one is there. -/
def greedy : List UInt8 :=
  Wire.magic ++ [Wire.version] ++ [4, 0x69, 0x74, 0x65, 0x6d, 1, 0, 0, 2, 0] ++
    [2, 0xff, 0xff, 0xff, 0xff, 0xff, 0xff, 0xff, 0xff, 0xff, 0x01] ++
    [4, 0x69, 0x74, 0x65, 0x6d, 1, 0, 0, 2, 0, 2, 0]

/-- The part that is there is made, and then the bytes end. -/
theorem decode_greedy_bounded :
    ∃ s', Store.decode greedy tangle = .error (.truncated .kindName) s' ∧
      Wire.decodeWithin greedy.length greedy tangle = some (.error (.truncated .kindName) s') ∧
      (Store.added tangle s').length = 1 ∧ 1 ≤ (greedy.length - 5) / 4 := by
  have hdecode : Store.decode greedy tangle
      = .error (.truncated .kindName) (after (Store.decode greedy) tangle) := by decide +kernel
  have hadded : (Store.added tangle (after (Store.decode greedy) tangle)).length = 1 := by
    decide +kernel
  obtain ⟨hwithin, -, -, hbound, -⟩ := Store.decode_bounded built reachable_tangle greedy
  rw [hadded] at hbound
  rw [hdecode] at hwithin
  exact ⟨_, hdecode, hwithin, hadded, hbound⟩

end Sample

end TypedForest
