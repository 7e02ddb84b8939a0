import TypedForest.Schema.Basic
import TypedForest.Store.Construct
import TypedForest.Wire.Format
import TypedForest.Wire.Varint

namespace TypedForest.Wire

/-!
# Reading the parts of a node

Readers for the values, the notes and the whole of a node up to its child slots.  A
reader takes bytes off the front and leaves a later part of them (`Shortens`); a node
takes at least one byte (`readHeader_lt`).

All of them are put together from the readers of bytes and of numbers.  What holds of these
and passes on to sequences holds of all readers (`Compositional`).
-/

/-- One byte. -/
def readByte (field : Field) : Reader UInt8
  | [] => .error (.truncated field)
  | b :: rest => .ok (b, rest)

/-- As many bytes as asked for. -/
def readBytes (n : Nat) (field : Field) : Reader (List UInt8) := fun data =>
  let (head, rest) := data.splitAt n
  if head.length < n then .error (.truncated field) else .ok (head, rest)

/-- A text with its length in front. -/
def readString (field : Field) : Reader String := do
  let n ← readUnsigned field
  let bs ← readBytes n field
  match Utf8.decode bs with
  | .ok s => return s
  | .error fault => Reader.fail (.malformed (.notUtf8 field fault))

/-- So many items one after the other, behind those in `done`, which stand last one
    first. -/
def readMany {α : Type} (item : Reader α) : (n : Nat) → (done : List α) → Reader (List α)
  | 0, done => pure done.reverse
  | n + 1, done => do
    let a ← item
    readMany item n (a :: done)

/-- A value, given how the content of a list is read. -/
def readValueWith (list : Reader Value) : Reader Value := do
  let tag ← readByte .valueTag
  if tag = Tag.null then return .null
  else if tag = Tag.bool then
    let b ← readByte .bool
    if b = 0 then return .bool false
    else if b = 1 then return .bool true
    else Reader.fail (.malformed (.invalidBool b))
  else if tag = Tag.int then return .int (← readSigned .int)
  else if tag = Tag.float then
    let bs ← readBytes 8 .float
    return .float ⟨UInt64.ofNat (ofLittleEndian bs)⟩
  else if tag = Tag.str then return .str (← readString .string)
  else if tag = Tag.bytes then
    let n ← readUnsigned .bytesLength
    return .bytes (← readBytes n .bytes)
  else if tag = Tag.list then list
  else Reader.fail (.malformed (.unknownValueTag tag))

/-- A value in which at most `room` lists stand inside each other. -/
def readValue : (room : Nat) → Reader Value
  | 0 => readValueWith (Reader.fail (.malformed .valueTooDeep))
  | room + 1 => readValueWith do
    let n ← readUnsigned .listLength
    return .list (← readMany (readValue room) n [])

/-- A note: its key and its value. -/
def readNote : Reader (String × Value) := do
  let key ← readString .noteKey
  return (key, ← readValue maxValueDepth)

/-- A node whose child slots are not all read. -/
structure Frame where
  kind : KindId
  values : List Value
  notes : List (String × Value)
  /-- What the slots hold that have been read, the last one first. -/
  fillings : List Filling
  /-- The number of slots that are not finished. -/
  slotsLeft : Nat
  /-- The list in hand, if the slot in hand is a list: the number of nodes still to come,
      and the nodes so far, the last one first. -/
  list : Option (Nat × List Handle)
deriving DecidableEq, Repr

/-- A node up to its child slots. -/
def readHeader (schema : Schema) : Reader Frame := do
  let name ← readString .kindName
  match schema.kindByName? name with
  | none => Reader.fail (.unknownKind name)
  | some k =>
    let kind := schema.kind k
    let valueCount ← readUnsigned .valueCount
    if valueCount ≠ kind.values.length then
      Reader.fail (.malformed (.valueCount name kind.values.length valueCount))
    else
      let values ← readMany (readValue maxValueDepth) valueCount []
      let noteCount ← readUnsigned .noteCount
      let notes ← readMany readNote noteCount []
      let slotCount ← readUnsigned .slotCount
      if slotCount ≠ kind.children.length then
        Reader.fail (.malformed (.slotCount name kind.children.length slotCount))
      else return ⟨k, values, notes, [], slotCount, none⟩

/-! ### What holds of all readers -/

/-- A sequence of two readers succeeds when both do. -/
theorem bind_eq_ok {α β : Type} {r : Reader α} {f : α → Reader β} {data rest : List UInt8}
    {b : β} (h : (r >>= f) data = .ok (b, rest)) :
    ∃ a mid, r data = .ok (a, mid) ∧ f a mid = .ok (b, rest) := by
  change (r data >>= fun p => f p.1 p.2) = .ok (b, rest) at h
  cases hr : r data with
  | error e => rw [hr] at h; cases h
  | ok p => rw [hr] at h; exact ⟨p.1, p.2, rfl, h⟩

/-- What can be wrong with a part of a node.  Only with the whole of them bytes may be left over,
    the root may be missing, or the store may reject a node. -/
def OfPart : WireError → Prop
  | .truncated field => field ≠ .rootNode
  | .malformed (.trailingBytes _) => False
  | .rejected _ => False
  | _ => True

/-- A property of readers that those of single parts have, and that passes on to what is put
    together from them. -/
structure Compositional (P : ∀ {α : Type}, Reader α → Prop) : Prop where
  pure : ∀ {α : Type} (a : α), P (pure a : Reader α)
  fail : ∀ {α : Type} (e : WireError), OfPart e → P (Reader.fail e : Reader α)
  bind : ∀ {α β : Type} {r : Reader α} {f : α → Reader β}, P r → (∀ a, P (f a)) → P (r >>= f)
  readByte : ∀ field, field ≠ .rootNode → P (readByte field)
  readBytes : ∀ n field, field ≠ .rootNode → P (readBytes n field)
  readGroups : ∀ allowed field n, field ≠ .rootNode → P (readGroups allowed field n)

namespace Compositional

variable {P : ∀ {α : Type}, Reader α → Prop} (hP : Compositional P)
include hP

theorem readUnsigned (field : Field) (hfield : field ≠ .rootNode) : P (readUnsigned field) :=
  hP.bind (hP.readGroups _ _ _ hfield) fun _ => hP.pure _

theorem readSigned (field : Field) (hfield : field ≠ .rootNode) : P (readSigned field) :=
  hP.bind (hP.readGroups _ _ _ hfield) fun _ => hP.pure _

theorem readString (field : Field) (hfield : field ≠ .rootNode) : P (readString field) := by
  refine hP.bind (hP.readUnsigned field hfield) fun n => ?_
  refine hP.bind (hP.readBytes n field hfield) fun bs => ?_
  cases Utf8.decode bs with
  | ok s => exact hP.pure s
  | error fault => exact hP.fail _ trivial

theorem readMany {α : Type} {item : Reader α} (hi : P item) (n : Nat) :
    ∀ done, P (readMany item n done) := by
  induction n with
  | zero => exact fun done => hP.pure _
  | succ n ih => exact fun done => hP.bind hi fun a => ih (a :: done)

theorem readValueWith {list : Reader Value} (hl : P list) : P (readValueWith list) := by
  refine hP.bind (hP.readByte _ nofun) fun tag => ?_
  split
  · exact hP.pure _
  · split
    · refine hP.bind (hP.readByte _ nofun) fun b => ?_
      split
      · exact hP.pure _
      · split
        · exact hP.pure _
        · exact hP.fail _ trivial
    · split
      · exact hP.bind (hP.readSigned _ nofun) fun _ => hP.pure _
      · split
        · exact hP.bind (hP.readBytes _ _ nofun) fun _ => hP.pure _
        · split
          · exact hP.bind (hP.readString _ nofun) fun _ => hP.pure _
          · split
            · exact hP.bind (hP.readUnsigned _ nofun) fun _ =>
                hP.bind (hP.readBytes _ _ nofun) fun _ => hP.pure _
            · split
              · exact hl
              · exact hP.fail _ trivial

theorem readValue (room : Nat) : P (readValue room) := by
  induction room with
  | zero => exact hP.readValueWith (hP.fail _ trivial)
  | succ room ih =>
    refine hP.readValueWith (hP.bind (hP.readUnsigned _ nofun) fun n => ?_)
    exact hP.bind (hP.readMany ih n []) fun _ => hP.pure _

theorem readNote : P readNote :=
  hP.bind (hP.readString _ nofun) fun _ => hP.bind (hP.readValue _) fun _ => hP.pure _

/-- A node starts with the name of its kind, and what follows is put together from parts. -/
theorem readHeader_of {Q : Reader Frame → Prop}
    (hQ : ∀ f : String → Reader Frame, (∀ name, P (f name)) → Q (Wire.readString .kindName >>= f))
    (schema : Schema) : Q (readHeader schema) := by
  refine hQ _ fun name => ?_
  cases schema.kindByName? name with
  | none => exact hP.fail _ trivial
  | some k =>
    refine hP.bind (hP.readUnsigned _ nofun) fun valueCount => ?_
    split
    · exact hP.fail _ trivial
    · refine hP.bind (hP.readMany (hP.readValue _) _ _) fun values => ?_
      refine hP.bind (hP.readUnsigned _ nofun) fun noteCount => ?_
      refine hP.bind (hP.readMany hP.readNote _ _) fun notes => ?_
      refine hP.bind (hP.readUnsigned _ nofun) fun slotCount => ?_
      split
      · exact hP.fail _ trivial
      · exact hP.pure _

theorem readHeader (schema : Schema) : P (readHeader schema) :=
  hP.readHeader_of (fun _ hf => hP.bind (hP.readString _ nofun) hf) schema

end Compositional

/-! ### Readers only take bytes away -/

/-- A reader leaves a later part of the bytes. -/
def Shortens {α : Type} (r : Reader α) : Prop :=
  ∀ (data : List UInt8) (a : α) (rest : List UInt8), r data = .ok (a, rest) → rest <:+ data

theorem overflow_ne_ok {α : Type} {field : Field} {last : UInt8} {data : List UInt8}
    {p : α × List UInt8} : overflow field last data ≠ .ok p := by
  induction data generalizing last with
  | nil => simp [overflow]
  | cons b rest ih =>
    unfold overflow
    split
    · simp
    · exact ih

/-- A number takes at least one byte. -/
theorem readGroups_lt {allowed : UInt8 → Bool} {field : Field} {n : Nat}
    {data bs rest : List UInt8} (h : readGroups allowed field n data = .ok (bs, rest)) :
    rest <:+ data ∧ rest.length < data.length := by
  induction data generalizing n bs with
  | nil => cases n <;> cases h
  | cons b data ih =>
    cases n with
    | zero =>
      unfold readGroups at h
      split at h
      · cases h; exact ⟨List.suffix_cons _ _, by simp⟩
      · exact absurd h overflow_ne_ok
    | succ n =>
      unfold readGroups at h
      split at h
      · cases h; exact ⟨List.suffix_cons _ _, by simp⟩
      · split at h
        · cases h
        · next bs' rest' hrec =>
          cases h
          obtain ⟨hsuf, hlt⟩ := ih hrec
          exact ⟨hsuf.trans (List.suffix_cons _ _), by simp; omega⟩

theorem shortens_readBytes (n : Nat) (field : Field) : Shortens (readBytes n field) := by
  intro data bs rest h
  simp only [readBytes, List.splitAt_eq] at h
  split at h
  · cases h
  · cases h; exact List.drop_suffix _ _

theorem compositional_shortens : Compositional Shortens where
  pure a := by
    intro data b rest h
    cases h
    exact List.suffix_refl _
  fail e _ := by
    intro data b rest h
    cases h
  bind hr hf := by
    intro data b rest h
    obtain ⟨a, mid, h₁, h₂⟩ := bind_eq_ok h
    exact (hf a _ _ _ h₂).trans (hr _ _ _ h₁)
  readByte field _ := by
    intro data b rest h
    cases data with
    | nil => cases h
    | cons c data => cases h; exact List.suffix_cons _ _
  readBytes n field _ := shortens_readBytes n field
  readGroups allowed field n _ := fun _ _ _ h => (readGroups_lt h).1

/-- A text takes at least one byte, for its length. -/
theorem readString_lt {field : Field} {data rest : List UInt8} {text : String}
    (h : readString field data = .ok (text, rest)) : rest.length < data.length := by
  obtain ⟨n, mid, hn, hbytes⟩ := bind_eq_ok h
  obtain ⟨gs, mid', hgs, hpure⟩ := bind_eq_ok hn
  have hlt : mid.length < data.length := by
    cases hpure
    exact (readGroups_lt hgs).2
  have hrest : rest <:+ mid := by
    refine compositional_shortens.bind (shortens_readBytes n field) (fun bs => ?_) _ _ _ hbytes
    cases Utf8.decode bs with
    | ok s => exact compositional_shortens.pure s
    | error fault => exact compositional_shortens.fail _ trivial
  exact Nat.lt_of_le_of_lt hrest.length_le hlt

/-- A node takes at least one byte, since its name does. -/
theorem readHeader_lt {schema : Schema} {data rest : List UInt8} {f : Frame}
    (h : readHeader schema data = .ok (f, rest)) : rest.length < data.length := by
  refine compositional_shortens.readHeader_of
    (Q := fun r => ∀ data f rest, r data = .ok (f, rest) → rest.length < data.length)
    (fun parts hparts data f rest h => ?_) schema data f rest h
  obtain ⟨name, mid, hname, h⟩ := bind_eq_ok h
  exact Nat.lt_of_le_of_lt (hparts name _ _ _ h).length_le (readString_lt hname)

end TypedForest.Wire
