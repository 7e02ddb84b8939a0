import TypedForest.Proofs.Tree.Basic
import TypedForest.Proofs.Wire.Reading

namespace TypedForest.Wire

/-!
# Spellings

The format leaves some freedom: a number may have more groups than it needs, and notes may stand
in any order and more than once.  So one tree has many spellings (`SpellsTree`).  A `Style` says
which of them are meant, where the format leaves a choice: `Style.accepted` all that reading takes,
`Style.canonical` the shortest numbers and ascending keys.

* `SpellsLabel.reads` : what is spelled is read;
* `yields_readHeader` : what is read is spelled;
* `tells_spellsTree` : bytes spell one tree at most, and where it ends does not depend on what
  follows.
-/

/-! ### Numbers -/

/-- The groups of a number, `n` of which may come before the last that a word can have. -/
inductive Groups (allowed : UInt8 → Bool) : Nat → List UInt8 → Prop
  | final {b : UInt8} (hb : allowed b = true) : Groups allowed 0 [b]
  | last {n : Nat} {b : UInt8} (hb : b < 128) : Groups allowed (n + 1) [b]
  | more {n : Nat} {b : UInt8} {bs : List UInt8} (hb : ¬ b < 128) (hbs : Groups allowed n bs) :
    Groups allowed (n + 1) (b :: bs)

section

variable {allowed : UInt8 → Bool} {n : Nat} {bs : List UInt8}

/-- Bytes that are groups are read as they are, whatever comes after them. -/
theorem Groups.reads (h : Groups allowed n bs) (field : Field) :
    Reads (readGroups allowed field n) bs bs := by
  induction h with
  | final hb => exact fun rest => if_pos hb
  | last hb => exact fun rest => if_pos hb
  | more hb _ ih =>
    intro rest
    rw [List.cons_append, readGroups, if_neg hb, ih rest]

/-- What is read as groups is a front of the bytes that are groups. -/
theorem groups_of_readGroups {field : Field} {data rest : List UInt8}
    (h : readGroups allowed field n data = .ok (bs, rest)) :
    data = bs ++ rest ∧ Groups allowed n bs := by
  induction data generalizing n bs with
  | nil => cases n <;> cases h
  | cons b data ih =>
    cases n with
    -- the last group there is room for must be one that is allowed
    | zero =>
      rw [readGroups] at h
      split at h
      · next hb =>
        cases h
        exact ⟨rfl, .final hb⟩
      · exact absurd h overflow_ne_ok
    | succ n =>
      rw [readGroups] at h
      split at h
      · next hb =>
        cases h
        exact ⟨rfl, .last hb⟩
      · next hb =>
        split at h
        · cases h
        · next cs rest' hcs =>
          cases h
          obtain ⟨rfl, hgroups⟩ := ih hcs
          exact ⟨rfl, .more hb hgroups⟩

theorem Groups.ne_nil (h : Groups allowed n bs) : bs ≠ [] := by
  cases h <;> simp

end

/-- A number of one group is written as it is. -/
theorem writeUnsigned_singleton {b : UInt8} (hb : b.toNat < 128) :
    writeUnsigned (groupsToNat [b]) = [b] := by
  have hvalue : groupsToNat [b] = b.toNat := by
    rw [groupsToNat, groupsToNat]
    omega
  rw [hvalue, writeUnsigned, if_pos hb, UInt8.ofNat_toNat]

/-- A number has at least the groups that are written for it, and exactly these if it has no
    more. -/
theorem Groups.shortest_unsigned {n : Nat} {bs : List UInt8}
    (h : Groups (fun b => b == 0x00 || b == 0x01) n bs) :
    groupsToNat bs < 2 * Nat.pow 128 n ∧
      (writeUnsigned (groupsToNat bs)).length ≤ bs.length ∧
      (bs.length ≤ (writeUnsigned (groupsToNat bs)).length →
        bs = writeUnsigned (groupsToNat bs)) := by
  induction h with
  -- in the last of ten groups only one bit is left of the word
  | @final b hb =>
    obtain rfl | rfl : b = 0 ∨ b = 1 := by simpa using hb
    · rw [writeUnsigned_singleton (by decide)]
      exact ⟨by decide, Nat.le_refl _, fun _ => rfl⟩
    · rw [writeUnsigned_singleton (by decide)]
      exact ⟨by decide, Nat.le_refl _, fun _ => rfl⟩
  | @last n b hb =>
    have hb : b.toNat < 128 := UInt8.lt_iff_toNat_lt.mp hb
    have hpow : Nat.pow 128 (n + 1) = Nat.pow 128 n * 128 := rfl
    have hpos : 0 < Nat.pow 128 n := Nat.pow_pos (by omega)
    rw [writeUnsigned_singleton hb, groupsToNat, groupsToNat]
    exact ⟨by omega, Nat.le_refl _, fun _ => rfl⟩
  | @more n b bs hb hbs ih =>
    obtain ⟨hlt, hlength, heq⟩ := ih
    have hb : ¬ b.toNat < 128 := fun h => hb (UInt8.lt_iff_toNat_lt.mpr h)
    have hbyte := b.toNat_lt
    have hpow : Nat.pow 128 (n + 1) = Nat.pow 128 n * 128 := rfl
    have hpos : 0 < bs.length := List.length_pos_of_ne_nil hbs.ne_nil
    rw [groupsToNat, List.length_cons]
    refine ⟨by omega, ?_⟩
    by_cases hsmall : b.toNat % 128 + 128 * groupsToNat bs < 128
    · -- only the first group says anything
      rw [writeUnsigned, if_pos hsmall, List.length_singleton]
      exact ⟨by omega, fun h => by omega⟩
    · have hfirst : UInt8.ofNat ((b.toNat % 128 + 128 * groupsToNat bs) % 128 + 128) = b :=
        Utf8.ofNat_eq (by omega)
      have hrest : (b.toNat % 128 + 128 * groupsToNat bs) / 128 = groupsToNat bs := by omega
      rw [writeUnsigned, if_neg hsmall, hfirst, hrest, List.length_cons]
      exact ⟨by omega, fun h => by rw [← heq (by omega)]⟩

/-- An integer of one group is written as it is. -/
theorem writeSigned_singleton {b : UInt8} (hb : b.toNat < 128) :
    -64 ≤ groupsToInt [b] ∧ groupsToInt [b] < 64 ∧ writeSigned (groupsToInt [b]) = [b] := by
  have hpow : (Nat.pow 128 1 : Int) = 128 := rfl
  have hvalue : -64 ≤ groupsToInt [b] ∧ groupsToInt [b] < 64 ∧
      (groupsToInt [b] % 128).toNat = b.toNat := by
    simp only [groupsToInt, signBit, groupsToNat, List.length_singleton, hpow, decide_eq_true_eq]
    split <;> omega
  obtain ⟨hlow, hhigh, hbyte⟩ := hvalue
  refine ⟨hlow, hhigh, ?_⟩
  rw [writeSigned, if_pos ⟨hlow, hhigh⟩, Utf8.ofNat_eq hbyte]

/-- The same with a sign. -/
theorem Groups.shortest_signed {n : Nat} {bs : List UInt8}
    (h : Groups (fun b => b == 0x00 || b == 0x7F) n bs) :
    (-(Nat.pow 128 n : Int) ≤ groupsToInt bs ∧ groupsToInt bs < (Nat.pow 128 n : Int)) ∧
      (writeSigned (groupsToInt bs)).length ≤ bs.length ∧
      (bs.length ≤ (writeSigned (groupsToInt bs)).length → bs = writeSigned (groupsToInt bs)) := by
  induction h with
  -- the last of ten groups is all sign
  | @final b hb =>
    obtain rfl | rfl : b = 0 ∨ b = 0x7F := by simpa using hb
    · rw [(writeSigned_singleton (by decide)).2.2]
      exact ⟨by decide, Nat.le_refl _, fun _ => rfl⟩
    · rw [(writeSigned_singleton (by decide)).2.2]
      exact ⟨by decide, Nat.le_refl _, fun _ => rfl⟩
  | @last n b hb =>
    obtain ⟨hlow, hhigh, hwrite⟩ := writeSigned_singleton (UInt8.lt_iff_toNat_lt.mp hb)
    have hpow : (Nat.pow 128 (n + 1) : Int) = Nat.pow 128 n * 128 := rfl
    have hpos : 0 < (Nat.pow 128 n : Int) := Int.natCast_pos.mpr (Nat.pow_pos (by omega))
    rw [hwrite]
    exact ⟨by omega, Nat.le_refl _, fun _ => rfl⟩
  | @more n b bs hb hbs ih =>
    obtain ⟨hrange, hlength, heq⟩ := ih
    have hb : ¬ b.toNat < 128 := fun h => hb (UInt8.lt_iff_toNat_lt.mpr h)
    have hbyte := b.toNat_lt
    have hpow : (Nat.pow 128 (n + 1) : Int) = Nat.pow 128 n * 128 := rfl
    have hpos : 0 < bs.length := List.length_pos_of_ne_nil hbs.ne_nil
    rw [groupsToInt_cons hbs.ne_nil, List.length_cons]
    generalize groupsToInt bs = i at hrange hlength heq
    refine ⟨by omega, ?_⟩
    by_cases hsmall : -64 ≤ (b.toNat % 128 : Nat) + 128 * i ∧ (b.toNat % 128 : Nat) + 128 * i < 64
    · -- the groups after the first only repeat its sign
      rw [writeSigned, if_pos hsmall, List.length_singleton]
      exact ⟨by omega, fun h => by omega⟩
    · have hfirst : UInt8.ofNat ((((b.toNat % 128 : Nat) + 128 * i) % 128).toNat + 128) = b :=
        Utf8.ofNat_eq (by omega)
      have hrest : ((b.toNat % 128 : Nat) + 128 * i) / 128 = i := by omega
      rw [writeSigned, if_neg hsmall, hfirst, hrest, List.length_cons]
      exact ⟨by omega, fun h => by rw [← heq (by omega)]⟩

/-! ### Styles -/

/-- No other bytes that spell the same are shorter. -/
def Shortest {α : Type} (spells : α → List UInt8 → Prop) (a : α) (p : List UInt8) : Prop :=
  spells a p ∧ ∀ q, spells a q → p.length ≤ q.length

/-- What is meant by a spelling, where the format leaves a choice: how numbers are spelled, and
    which keys the notes of a node may have, in their order. -/
structure Style where
  count : Nat → List UInt8 → Prop
  int : Int64 → List UInt8 → Prop
  keys : List String → Prop

namespace Style

/-- All that reading takes. -/
def accepted : Style where
  count n p := ∀ field, Reads (readUnsigned field) p n
  int i p := ∀ field, Reads (readSigned field) p i
  keys _ := True

/-- Numbers as short as they can be, and keys in strictly ascending order of their bytes. -/
def canonical : Style where
  count := Shortest accepted.count
  int := Shortest accepted.int
  keys keys := keys.Pairwise fun a b => Utf8.encode a < Utf8.encode b

/-- Numbers in this style are read. -/
structure Readable (st : Style) : Prop where
  count : ∀ {n p}, st.count n p → accepted.count n p
  int : ∀ {i p}, st.int i p → accepted.int i p

/-- Whatever the reader accepts it can read. -/
theorem readable_accepted : accepted.Readable := ⟨id, id⟩

theorem readable_canonical : canonical.Readable := ⟨And.left, And.left⟩

/-- A number that is read has as many groups as it is written with, or more. -/
theorem accepted_count {n : Nat} {p : List UInt8} (h : accepted.count n p) :
    n < wordLimit ∧ (writeUnsigned n).length ≤ p.length ∧
      (p.length ≤ (writeUnsigned n).length → p = writeUnsigned n) := by
  have hread := h .kindName []
  obtain ⟨bs, rest, hbs, hpure⟩ := bind_eq_ok hread
  cases hpure
  obtain ⟨hp, hgroups⟩ := groups_of_readGroups hbs
  rw [List.append_nil, List.append_nil] at hp
  rw [hp]
  exact hgroups.shortest_unsigned

/-- Whoever spells an integer takes at least the bytes of the writer, and who takes no more has
    written the same. -/
theorem accepted_int {i : Int64} {p : List UInt8} (h : accepted.int i p) :
    (writeSigned i.toInt).length ≤ p.length ∧
      (p.length ≤ (writeSigned i.toInt).length → p = writeSigned i.toInt) := by
  have hread := h .int []
  obtain ⟨bs, rest, hbs, hpure⟩ := bind_eq_ok hread
  cases hpure
  obtain ⟨hp, hgroups⟩ := groups_of_readGroups hbs
  rw [List.append_nil, List.append_nil] at hp
  obtain ⟨⟨hlow, hhigh⟩, hshortest⟩ := hgroups.shortest_signed
  rw [hp, Int64.toInt_ofInt_of_le hlow hhigh]
  exact hshortest

/-- The one shortest spelling of a count is that of the writer, and counts beyond the word limit
    have none. -/
theorem canonical_count_iff {n : Nat} {p : List UInt8} :
    canonical.count n p ↔ n < wordLimit ∧ p = writeUnsigned n := by
  constructor
  · rintro ⟨haccepted, hshortest⟩
    obtain ⟨hlimit, -, heq⟩ := accepted_count haccepted
    exact ⟨hlimit, heq (hshortest _ fun field => reads_readUnsigned field hlimit)⟩
  · rintro ⟨hlimit, rfl⟩
    exact ⟨fun field => reads_readUnsigned field hlimit, fun q hq => (accepted_count hq).2.1⟩

/-- The one shortest spelling of an integer is that of the writer. -/
theorem canonical_int_iff {i : Int64} {p : List UInt8} :
    canonical.int i p ↔ p = writeSigned i.toInt := by
  constructor
  · rintro ⟨haccepted, hshortest⟩
    exact (accepted_int haccepted).2 (hshortest _ fun field => reads_readSigned field i)
  · rintro rfl
    exact ⟨fun field => reads_readSigned field i, fun q hq => (accepted_int hq).1⟩

end Style

/-! ### The format -/

/-- Items one after the other. -/
inductive Row {α : Type} (item : α → List UInt8 → Prop) : List α → List UInt8 → Prop
  | nil : Row item [] []
  | cons {a : α} {as : List α} {p q : List UInt8} (head : item a p) (tail : Row item as q) :
    Row item (a :: as) (p ++ q)

/-- A text: the number of its bytes, and the bytes. -/
inductive SpellsString (st : Style) : String → List UInt8 → Prop
  | mk {s : String} {p : List UInt8} (hlength : st.count (Utf8.encode s).length p) :
    SpellsString st s (p ++ Utf8.encode s)

/-- A value, given how the content of a list is spelled: a tag and what belongs to it. -/
inductive SpellsValueWith (st : Style) (list : Value → List UInt8 → Prop) :
    Value → List UInt8 → Prop
  | null : SpellsValueWith st list .null [Tag.null]
  | bool (b : Bool) : SpellsValueWith st list (.bool b) [Tag.bool, if b then 1 else 0]
  | int {i : Int64} {p : List UInt8} (hi : st.int i p) :
    SpellsValueWith st list (.int i) (Tag.int :: p)
  | float (x : Binary64) :
    SpellsValueWith st list (.float x) (Tag.float :: littleEndian 8 x.bits.toNat)
  | str {s : String} {p : List UInt8} (hs : SpellsString st s p) :
    SpellsValueWith st list (.str s) (Tag.str :: p)
  | bytes {data p : List UInt8} (hlength : st.count data.length p) :
    SpellsValueWith st list (.bytes data) (Tag.bytes :: (p ++ data))
  | list {v : Value} {p : List UInt8} (hv : list v p) : SpellsValueWith st list v (Tag.list :: p)

/-- The content of a list: the number of its items, and the items. -/
inductive SpellsList (st : Style) (item : Value → List UInt8 → Prop) : Value → List UInt8 → Prop
  | mk {items : List Value} {p q : List UInt8} (hlength : st.count items.length p)
      (hitems : Row item items q) : SpellsList st item (.list items) (p ++ q)

/-- A value in which at most `room` lists stand inside each other. -/
def SpellsValue (st : Style) : (room : Nat) → Value → List UInt8 → Prop
  | 0 => SpellsValueWith st fun _ _ => False
  | room + 1 => SpellsValueWith st (SpellsList st (SpellsValue st room))

/-- A note: its key and its value. -/
inductive SpellsNote (st : Style) : String × Value → List UInt8 → Prop
  | mk {key : String} {v : Value} {p q : List UInt8} (hkey : SpellsString st key p)
      (hv : SpellsValue st maxValueDepth v q) : SpellsNote st (key, v) (p ++ q)

/-- A node up to its child slots: the name of its kind, the values, the notes and the number of
    the slots.  Of notes with the same key the last one counts. -/
inductive SpellsLabel (st : Style) : Label → List UInt8 → Prop
  | mk {kind : String} {values : List Value} {es : List (String × Value)} {shapes : List Shape}
      {p₁ p₂ p₃ p₄ p₅ p₆ : List UInt8} (hkind : SpellsString st kind p₁)
      (hvalueCount : st.count values.length p₂)
      (hvalues : Row (SpellsValue st maxValueDepth) values p₃)
      (hnoteCount : st.count es.length p₄) (hnotes : Row (SpellsNote st) es p₅)
      (hkeys : st.keys (es.map Prod.fst)) (hslotCount : st.count shapes.length p₆) :
    SpellsLabel st ⟨kind, values, Notes.ofList es, shapes⟩
      (p₁ ++ (p₂ ++ (p₃ ++ (p₄ ++ (p₅ ++ p₆)))))

/-- A child slot with the trees in it, given how trees are spelled. -/
inductive SpellsSlot (st : Style) (tree : Tree → List UInt8 → Prop) :
    Shape → List Tree → List UInt8 → Prop
  | vacant : SpellsSlot st tree .vacant [] [Tag.slotVacant]
  | one {t : Tree} {p : List UInt8} (ht : tree t p) :
    SpellsSlot st tree .one [t] (Tag.slotOne :: p)
  | many {ts : List Tree} {p q : List UInt8} (hlength : st.count ts.length p)
      (hts : Row tree ts q) : SpellsSlot st tree (.many ts.length) ts (Tag.slotMany :: (p ++ q))

/-- A row of child slots. -/
inductive SpellsSlots (st : Style) (tree : Tree → List UInt8 → Prop) :
    List Shape → List Tree → List UInt8 → Prop
  | nil : SpellsSlots st tree [] [] []
  | cons {shape : Shape} {shapes : List Shape} {ts us : List Tree} {p q : List UInt8}
      (head : SpellsSlot st tree shape ts p) (tail : SpellsSlots st tree shapes us q) :
    SpellsSlots st tree (shape :: shapes) (ts ++ us) (p ++ q)

/-- A node with all that is below it. -/
inductive SpellsTree (st : Style) : Tree → List UInt8 → Prop
  | node {l : Label} {ts : List Tree} {p q : List UInt8} (hl : SpellsLabel st l p)
      (hts : SpellsSlots st (SpellsTree st) l.shapes ts q) :
    SpellsTree st (.node l ts) (p ++ q)

/-- A slot is spelled with as many trees as its shape has room for. -/
theorem SpellsSlot.length_eq {st : Style} {tree : Tree → List UInt8 → Prop} {shape : Shape}
    {ts : List Tree} {p : List UInt8} (h : SpellsSlot st tree shape ts p) :
    ts.length = shape.arity := by
  cases h <;> rfl

/-! ### What is spelled is read -/

section

variable {st : Style} (hst : st.Readable)
include hst

/-- A spelling of a text is read as the text, if counts are read as they are spelled. -/
theorem SpellsString.reads {s : String} {p : List UInt8} (h : SpellsString st s p)
    (field : Field) : Reads (readString field) p s := by
  obtain ⟨hlength⟩ := h
  refine (hst.count hlength field).bind ((reads_readBytes field (Utf8.encode s)).bind_nil ?_)
  rw [Utf8.decode_encode]
  exact reads_pure s

omit hst in
/-- Items one after the other are read as a list, behind those that were read before. -/
theorem Row.reads {α : Type} {item : α → List UInt8 → Prop} {r : Reader α}
    (hitem : ∀ a p, item a p → Reads r p a) {as : List α} {p : List UInt8} (h : Row item as p)
    (done : List α) : Reads (readMany r as.length done) p (done.reverse ++ as) := by
  induction h generalizing done with
  | nil =>
    rw [List.append_nil]
    exact reads_pure _
  | @cons a as p q head _ ih =>
    have htail := ih (a :: done)
    rw [List.reverse_cons, List.append_assoc] at htail
    exact (hitem a p head).bind htail

/-- A spelling of a value is read as the value, if the spellings of lists are. -/
theorem SpellsValueWith.reads {list : Value → List UInt8 → Prop} {r : Reader Value}
    (hlist : ∀ v p, list v p → Reads r p v) {v : Value} {p : List UInt8}
    (h : SpellsValueWith st list v p) : Reads (readValueWith r) p v := by
  unfold readValueWith
  -- one byte for the tag, and then what belongs to it
  cases h with
  | null =>
    refine (reads_readByte .valueTag Tag.null).bind_nil ?_
    exact reads_pure _
  | bool b =>
    refine (reads_readByte .valueTag Tag.bool).bind ?_
    refine (reads_readByte .bool _).bind_nil ?_
    cases b <;> exact reads_pure _
  | int hi =>
    refine (reads_readByte .valueTag Tag.int).bind ?_
    exact (hst.int hi .int).map _
  | float x =>
    refine (reads_readByte .valueTag Tag.float).bind ?_
    exact reads_float x
  | str hs =>
    refine (reads_readByte .valueTag Tag.str).bind ?_
    exact (hs.reads hst .string).map _
  | @bytes data p hlength =>
    refine (reads_readByte .valueTag Tag.bytes).bind ?_
    refine (hst.count hlength .bytesLength).bind ?_
    exact (reads_readBytes .bytes data).map _
  | list hv =>
    refine (reads_readByte .valueTag Tag.list).bind ?_
    exact hlist _ _ hv

/-- A spelling of a value with room for some levels of lists is read as the value. -/
theorem SpellsValue.reads {room : Nat} {v : Value} {p : List UInt8}
    (h : SpellsValue st room v p) : Reads (readValue room) p v := by
  induction room generalizing v p with
  | zero => exact SpellsValueWith.reads hst (fun _ _ => False.elim) h
  | succ room ih =>
    refine SpellsValueWith.reads hst (fun v p hv => ?_) h
    obtain ⟨hlength, hitems⟩ := hv
    exact (hst.count hlength .listLength).bind ((hitems.reads (fun _ _ => ih) []).map _)

/-- A spelling of a note is read as the note. -/
theorem SpellsNote.reads {e : String × Value} {p : List UInt8} (h : SpellsNote st e p) :
    Reads readNote p e := by
  obtain ⟨hkey, hv⟩ := h
  exact (hkey.reads hst .noteKey).bind ((hv.reads hst).map _)

end

/-- What a node says up to the number of its child slots, read without a schema. -/
def readLabel : Reader (String × List Value × List (String × Value) × Nat) := do
  let kind ← readString .kindName
  let valueCount ← readUnsigned .valueCount
  let values ← readMany (readValue maxValueDepth) valueCount []
  let noteCount ← readUnsigned .noteCount
  let notes ← readMany readNote noteCount []
  let slotCount ← readUnsigned .slotCount
  return (kind, values, notes, slotCount)

/-- A spelling of all of a node but its children is read as such, with the notes in any order in
    which they were spelled. -/
theorem SpellsLabel.reads {st : Style} (hst : st.Readable) {l : Label} {p : List UInt8}
    (h : SpellsLabel st l p) :
    ∃ es, Notes.ofList es = l.notes ∧
      Reads readLabel p (l.kind, l.values, es, l.shapes.length) := by
  obtain ⟨hkind, hvalueCount, hvalues, hnoteCount, hnotes, -, hslotCount⟩ := h
  refine ⟨_, rfl, (hkind.reads hst .kindName).bind ?_⟩
  refine (hst.count hvalueCount .valueCount).bind ?_
  refine (hvalues.reads (fun _ _ h => h.reads hst) []).bind ?_
  refine (hst.count hnoteCount .noteCount).bind ?_
  refine (hnotes.reads (fun _ _ h => h.reads hst) []).bind ?_
  exact (hst.count hslotCount .slotCount).map _

/-! ### Bytes spell one tree -/

/-- Bytes that spell this tree spell no other, and the tree ends in one place, whatever
    follows. -/
def Tells (P Q : Tree → List UInt8 → Prop) (t : Tree) : Prop :=
  ∀ u p q rest rest', P t p → Q u q → p ++ rest = q ++ rest' → t = u ∧ rest = rest'

section

variable {P Q : Tree → List UInt8 → Prop} {ts us : List Tree} {p q rest rest' : List UInt8}

/-- As many trees one after the other, each of which can be told from its bytes, can be told from
    theirs. -/
theorem Row.unique (hp : Row P ts p) (hq : Row Q us q) (hlength : ts.length = us.length)
    (htells : ∀ t ∈ ts, Tells P Q t) (h : p ++ rest = q ++ rest') : ts = us ∧ rest = rest' := by
  induction hp generalizing us q with
  | nil =>
    obtain rfl := List.length_eq_zero_iff.mp hlength.symm
    cases hq
    exact ⟨rfl, h⟩
  | @cons t ts p₁ p₂ head _ ih =>
    obtain ⟨u, us, rfl⟩ := List.exists_cons_of_length_eq_add_one hlength.symm
    cases hq with
    | cons head' tail' =>
      obtain ⟨ht, hts⟩ := List.forall_mem_cons.mp htells
      rw [List.append_assoc, List.append_assoc] at h
      -- the first tree is told from its bytes, and what comes after it is the same
      obtain ⟨hfirst, h⟩ := ht u _ _ _ _ head head' h
      obtain ⟨hrest, h⟩ := ih tail' (Nat.succ.inj hlength) hts h
      exact ⟨by rw [hfirst, hrest], h⟩

variable {st st' : Style} (hst : st.Readable) (hst' : st'.Readable)
include hst hst'

/-- So can a slot and the trees in it. -/
theorem SpellsSlot.unique {shape shape' : Shape} (hp : SpellsSlot st P shape ts p)
    (hq : SpellsSlot st' Q shape' us q) (htells : ∀ t ∈ ts, Tells P Q t)
    (h : p ++ rest = q ++ rest') : shape = shape' ∧ ts = us ∧ rest = rest' := by
  cases hp <;> cases hq <;> simp only [List.cons_append, List.nil_append, List.cons.injEq] at h
  case vacant.vacant => exact ⟨rfl, rfl, h.2⟩
  case one.one t p ht u q hu =>
    obtain ⟨rfl, hrest⟩ := htells t List.mem_cons_self u _ _ _ _ ht hu h.2
    exact ⟨rfl, rfl, hrest⟩
  case many.many p₁ p₂ hlength hts q₁ q₂ hlength' hus =>
    rw [List.append_assoc, List.append_assoc] at h
    obtain ⟨hcount, h⟩ := (hst.count hlength .listLength).unique
      (hst'.count hlength' .listLength) h.2
    obtain ⟨rfl, hrest⟩ := hts.unique hus hcount htells h
    exact ⟨rfl, rfl, hrest⟩
  -- the tags of different shapes are different
  all_goals exact absurd h.1 (by decide)

/-- And so can as many slots one after the other. -/
theorem SpellsSlots.unique {shapes shapes' : List Shape} (hp : SpellsSlots st P shapes ts p)
    (hq : SpellsSlots st' Q shapes' us q) (hcount : shapes.length = shapes'.length)
    (htells : ∀ t ∈ ts, Tells P Q t) (h : p ++ rest = q ++ rest') :
    shapes = shapes' ∧ ts = us ∧ rest = rest' := by
  induction hp generalizing shapes' us q with
  | nil =>
    obtain rfl := List.length_eq_zero_iff.mp hcount.symm
    cases hq
    exact ⟨rfl, rfl, h⟩
  | cons head _ ih =>
    obtain ⟨shape', shapes', rfl⟩ := List.exists_cons_of_length_eq_add_one hcount.symm
    cases hq with
    | cons head' tail' =>
      obtain ⟨htells₁, htells₂⟩ := List.forall_mem_append.mp htells
      rw [List.append_assoc, List.append_assoc] at h
      obtain ⟨rfl, rfl, h⟩ := head.unique hst hst' head' htells₁ h
      obtain ⟨rfl, rfl, h⟩ := ih tail' (Nat.succ.inj hcount) htells₂ h
      exact ⟨rfl, rfl, h⟩

/-- Labels agree up to the shapes of the slots, which come later. -/
theorem SpellsLabel.unique {l l' : Label} (hp : SpellsLabel st l p) (hq : SpellsLabel st' l' q)
    (h : p ++ rest = q ++ rest') :
    l' = { l with shapes := l'.shapes } ∧ l.shapes.length = l'.shapes.length ∧ rest = rest' := by
  obtain ⟨es, hes, hread⟩ := hp.reads hst
  obtain ⟨es', hes', hread'⟩ := hq.reads hst'
  obtain ⟨hsame, hrest⟩ := hread.unique hread' h
  simp only [Prod.mk.injEq] at hsame
  obtain ⟨hkind, hvalues, rfl, hcount⟩ := hsame
  cases l
  cases l'
  simp_all

/-- **The format is unambiguous.**  Bytes spell one tree at most, in whatever styles. -/
theorem tells_spellsTree (t : Tree) : Tells (SpellsTree st) (SpellsTree st') t := by
  induction t with
  | node l ts ih =>
    intro u p q rest rest' ht hu h
    cases ht with
    | node hl hts =>
      cases hu with
      | @node l' us _ _ hl' hus =>
        rw [List.append_assoc, List.append_assoc] at h
        obtain ⟨hlabel, hcount, h⟩ := hl.unique hst hst' hl' h
        obtain ⟨hshapes, rfl, hrest⟩ := hts.unique hst hst' hus hcount ih h
        rw [← hshapes] at hlabel
        rw [hlabel]
        exact ⟨rfl, hrest⟩

end

/-! ### What is read is spelled -/

/-- So many bytes stand for a number below so many powers of `256`. -/
theorem ofLittleEndian_lt (bs : List UInt8) : ofLittleEndian bs < Nat.pow 256 bs.length := by
  induction bs with
  | nil => exact Nat.one_pos
  | cons b bs ih =>
    have hpow : Nat.pow 256 (b :: bs).length = Nat.pow 256 bs.length * 256 := rfl
    have hb := b.toNat_lt
    rw [ofLittleEndian]
    omega

/-- The bytes of the number that bytes stand for are these bytes. -/
theorem littleEndian_ofLittleEndian (bs : List UInt8) :
    littleEndian bs.length (ofLittleEndian bs) = bs := by
  induction bs with
  | nil => rfl
  | cons b bs ih =>
    have hb := b.toNat_lt
    have hrest : (b.toNat + 256 * ofLittleEndian bs) / 256 = ofLittleEndian bs := by omega
    rw [List.length_cons, ofLittleEndian, littleEndian, hrest, ih,
      Utf8.ofNat_eq (b := b) (by omega)]

/-- The bytes that a reader takes off spell what it returns. -/
def Yields {α : Type} (r : Reader α) (spells : α → List UInt8 → Prop) : Prop :=
  ∀ data a rest, r data = .ok (a, rest) → ∃ p, data = p ++ rest ∧ spells a p

section

variable {α β : Type} {P : α → List UInt8 → Prop} {Q : β → List UInt8 → Prop}

theorem yields_pure {a : α} (h : P a []) : Yields (pure a) P := by
  intro data b rest hread
  cases hread
  exact ⟨[], rfl, h⟩

theorem yields_fail (e : WireError) : Yields (Reader.fail e) P := fun _ _ _ hread => by cases hread

/-- One reader after the other yields a spelling and then another. -/
theorem Yields.bind {r : Reader α} {f : α → Reader β} (hr : Yields r P)
    (hf : ∀ a p, P a p → Yields (f a) fun b q => Q b (p ++ q)) : Yields (r >>= f) Q := by
  intro data b rest hread
  obtain ⟨a, mid, ha, hb⟩ := bind_eq_ok hread
  obtain ⟨p, rfl, hp⟩ := hr _ _ _ ha
  obtain ⟨q, rfl, hq⟩ := hf a p hp _ _ _ hb
  exact ⟨p ++ q, (List.append_assoc _ _ _).symm, hq⟩

/-- A last step that only puts together what was read. -/
theorem Yields.map {r : Reader α} (hr : Yields r P) {f : α → β}
    (hf : ∀ a p, P a p → Q (f a) p) : Yields (r >>= fun a => pure (f a)) Q :=
  hr.bind fun a p hp => yields_pure (by rw [List.append_nil]; exact hf a p hp)

/-- A byte is its own spelling. -/
theorem yields_readByte (field : Field) : Yields (readByte field) fun b p => p = [b] := by
  intro data b rest hread
  cases data with
  | nil => cases hread
  | cons c data =>
    cases hread
    exact ⟨[b], rfl, rfl⟩

/-- So are several bytes. -/
theorem yields_readBytes (n : Nat) (field : Field) :
    Yields (readBytes n field) fun bs p => p = bs ∧ bs.length = n := by
  intro data bs rest hread
  simp only [readBytes, List.splitAt_eq] at hread
  split at hread
  · cases hread
  · next hlength =>
    cases hread
    refine ⟨_, (List.take_append_drop n data).symm, rfl, ?_⟩
    rw [List.length_take] at hlength ⊢
    omega

/-- What is read as a count is a spelling that is accepted of it. -/
theorem yields_readUnsigned (field : Field) : Yields (readUnsigned field) Style.accepted.count := by
  intro data n rest hread
  obtain ⟨bs, mid, hbs, hpure⟩ := bind_eq_ok hread
  cases hpure
  obtain ⟨rfl, hgroups⟩ := groups_of_readGroups hbs
  exact ⟨bs, rfl, fun field => (hgroups.reads field).map _⟩

/-- What is read as an integer is a spelling that is accepted of it. -/
theorem yields_readSigned (field : Field) : Yields (readSigned field) Style.accepted.int := by
  intro data i rest hread
  obtain ⟨bs, mid, hbs, hpure⟩ := bind_eq_ok hread
  cases hpure
  obtain ⟨rfl, hgroups⟩ := groups_of_readGroups hbs
  exact ⟨bs, rfl, fun field => (hgroups.reads field).map _⟩

/-- What is read as a text is its length and its encoding. -/
theorem yields_readString (field : Field) :
    Yields (readString field) (SpellsString .accepted) := by
  refine (yields_readUnsigned field).bind fun n p hn => ?_
  refine (yields_readBytes n field).bind fun bs q hbs => ?_
  obtain ⟨rfl, rfl⟩ := hbs
  cases hdecode : Utf8.decode q with
  | error fault => exact yields_fail _
  | ok s =>
    obtain rfl := Utf8.encode_of_decode hdecode
    refine yields_pure ?_
    rw [List.append_nil]
    exact .mk hn

/-- What is read as a list are its items, one after the other. -/
theorem Yields.readMany {item : Reader α} (hitem : Yields item P) (n : Nat) (done : List α) :
    Yields (readMany item n done) fun as p =>
      ∃ bs, as = done.reverse ++ bs ∧ bs.length = n ∧ Row P bs p := by
  induction n generalizing done with
  | zero => exact yields_pure ⟨[], by simp, rfl, .nil⟩
  | succ n ih =>
    refine hitem.bind fun a p hp data as rest hread => ?_
    obtain ⟨q, rfl, bs, rfl, hlength, hbs⟩ := ih (a :: done) _ _ _ hread
    exact ⟨q, rfl, a :: bs, by simp, by rw [List.length_cons, hlength], .cons hp hbs⟩

/-- What is read as a value is a spelling of it, if that is so for lists. -/
theorem yields_readValueWith {list : Value → List UInt8 → Prop} {r : Reader Value}
    (hlist : Yields r list) : Yields (readValueWith r) (SpellsValueWith .accepted list) := by
  -- the reader tries one tag after the other
  refine (yields_readByte _).bind fun tag p htag => ?_
  subst htag
  split
  · next htag => exact htag ▸ yields_pure .null
  split
  · next htag =>
    subst htag
    refine (yields_readByte _).bind fun b q hb => ?_
    subst hb
    split
    · next hb => exact hb ▸ yields_pure (.bool false)
    split
    · next hb => exact hb ▸ yields_pure (.bool true)
    · exact yields_fail _
  split
  · next htag => exact htag ▸ (yields_readSigned _).map fun i q hi => .int hi
  split
  · next htag =>
    subst htag
    refine (yields_readBytes 8 _).map fun bs q hbs => ?_
    obtain ⟨rfl, hlength⟩ := hbs
    -- eight bytes fill the word of a float
    have hbits : (UInt64.ofNat (ofLittleEndian q)).toNat = ofLittleEndian q := by
      rw [UInt64.toNat_ofNat']
      have hlt := ofLittleEndian_lt q
      rw [hlength] at hlt
      exact Nat.mod_eq_of_lt hlt
    have hspelled : SpellsValueWith .accepted list (.float ⟨UInt64.ofNat (ofLittleEndian q)⟩) _ :=
      .float _
    rwa [hbits, ← hlength, littleEndian_ofLittleEndian] at hspelled
  split
  · next htag => exact htag ▸ (yields_readString _).map fun s q hs => .str hs
  split
  · next htag =>
    subst htag
    refine (yields_readUnsigned _).bind fun n q hn => (yields_readBytes n _).map fun bs u hbs => ?_
    obtain ⟨rfl, rfl⟩ := hbs
    exact .bytes hn
  split
  · next htag =>
    subst htag
    intro data v rest hread
    obtain ⟨q, rfl, hv⟩ := hlist _ _ _ hread
    exact ⟨q, rfl, .list hv⟩
  · exact yields_fail _

/-- What is read as a value is a spelling of it that has no more levels of lists than there is room
    for. -/
theorem yields_readValue (room : Nat) : Yields (readValue room) (SpellsValue .accepted room) := by
  induction room with
  | zero => exact yields_readValueWith (yields_fail _)
  | succ room ih =>
    refine yields_readValueWith ((yields_readUnsigned _).bind fun n p hn => ?_)
    refine (ih.readMany n []).map fun items q hitems => ?_
    obtain ⟨_, rfl, rfl, hitems⟩ := hitems
    exact .mk hn hitems

/-- What is read as a note is a spelling of it. -/
theorem yields_readNote : Yields readNote (SpellsNote .accepted) :=
  (yields_readString _).bind fun _ _ hkey =>
    (yields_readValue _).map fun _ _ hv => .mk hkey hv

end

/-- What is read of a node up to its child slots is spelled, whatever will stand in these, and has
    the counts that its kind asks for. -/
structure Heads (schema : Schema) (f : Frame) (p : List UInt8) : Prop where
  values : f.values.length = (schema.kind f.kind).values.length
  slots : f.slotsLeft = (schema.kind f.kind).children.length
  fillings : f.fillings = []
  list : f.list = none
  spelled : ∃ name, schema.kindByName? name = some f.kind ∧ ∀ shapes : List Shape,
    shapes.length = f.slotsLeft →
      SpellsLabel .accepted ⟨name, f.values, Notes.ofList f.notes, shapes⟩ p

/-- What is read as the head of a node spells all of it but its children, as many of them as its
    kind has slots. -/
theorem yields_readHeader (schema : Schema) : Yields (readHeader schema) (Heads schema) := by
  refine (yields_readString _).bind fun name p₁ hname => ?_
  cases hk : schema.kindByName? name with
  | none => exact yields_fail _
  | some k =>
    refine (yields_readUnsigned _).bind fun valueCount p₂ hvalueCount => ?_
    split
    · exact yields_fail _
    -- counts other than those of the kind are refused on the way
    next hcount =>
    refine ((yields_readValue _).readMany _ _).bind fun values p₃ hread => ?_
    obtain ⟨_, rfl, rfl, hvalues⟩ := hread
    refine (yields_readUnsigned _).bind fun noteCount p₄ hnoteCount => ?_
    refine (yields_readNote.readMany _ _).bind fun notes p₅ hread => ?_
    obtain ⟨_, rfl, rfl, hnotes⟩ := hread
    refine (yields_readUnsigned _).bind fun slotCount p₆ hslotCount => ?_
    split
    · exact yields_fail _
    next hslots =>
    refine yields_pure ⟨not_ne_iff.mp hcount, not_ne_iff.mp hslots, rfl, rfl, name, hk, ?_⟩
    rintro shapes rfl
    rw [List.append_nil]
    exact .mk hname hvalueCount hvalues hnoteCount hnotes trivial hslotCount

end TypedForest.Wire
