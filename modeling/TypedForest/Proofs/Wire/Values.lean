import Mathlib.Data.List.Flatten
import TypedForest.Proofs.Notes
import TypedForest.Proofs.Tree.Unfolding
import TypedForest.Proofs.Wire.Spelling

namespace TypedForest

/-!
# Values and labels as bytes

The bytes of a value do not depend on the limit for lists inside each other; the limit only
decides whether they are written (`Wire.writeValue_eq`).  What is written is spelled
(`Wire.spellsValue_valueBytes`), and so read back, if all lengths can be counted in words.

The same holds of a node up to its child slots, that is of its `Label`:

* `Wire.writeHeader_eq_ok`, `Wire.writeHeader_eq_error` : writing succeeds exactly for labels
  with shallow values;
* `Wire.spellsLabel_labelBytes`, `Wire.reads_readHeader` : what is written is spelled, and reading
  gives the frame of the label;
* `Wire.SpellsLabel.compares` : other spellings are no shorter, and canonical ones are the same.
-/

namespace Value

mutual

/-- How many lists stand inside each other. -/
def nesting : Value → Nat
  | null => 0
  | bool _ => 0
  | int _ => 0
  | float _ => 0
  | str _ => 0
  | bytes _ => 0
  | list items => 1 + nestingAll items

/-- The greatest nesting of several values. -/
def nestingAll : List Value → Nat
  | [] => 0
  | v :: vs => max v.nesting (nestingAll vs)

end

/-- Several values have no more levels than each of them may have. -/
theorem nestingAll_le_iff {vs : List Value} {n : Nat} :
    nestingAll vs ≤ n ↔ ∀ v ∈ vs, v.nesting ≤ n := by
  induction vs with
  | nil => simp [nestingAll]
  | cons v vs ih => rw [nestingAll, Nat.max_le, ih, List.forall_mem_cons]

mutual

/-- All lengths in a value can be counted in words. -/
def Fits : Value → Prop
  | null => True
  | bool _ => True
  | int _ => True
  | float _ => True
  | str s => (Utf8.encode s).length < Wire.wordLimit
  | bytes data => data.length < Wire.wordLimit
  | list items => items.length < Wire.wordLimit ∧ FitsAll items

/-- All lengths in several values can be counted in words. -/
def FitsAll : List Value → Prop
  | [] => True
  | v :: vs => v.Fits ∧ FitsAll vs

end

mutual

def decideFits : (v : Value) → Decidable v.Fits
  | null | bool _ | int _ | float _ => .isTrue trivial
  | str s => inferInstanceAs (Decidable ((Utf8.encode s).length < Wire.wordLimit))
  | bytes data => inferInstanceAs (Decidable (data.length < Wire.wordLimit))
  | list items => @instDecidableAnd (items.length < Wire.wordLimit) (FitsAll items) _
    (decideFitsAll items)

def decideFitsAll : (vs : List Value) → Decidable (FitsAll vs)
  | [] => .isTrue trivial
  | v :: vs => @instDecidableAnd v.Fits (FitsAll vs) (decideFits v) (decideFitsAll vs)

end

instance : DecidablePred Fits := decideFits

/-- Several values fit if each of them does. -/
theorem fitsAll_iff {vs : List Value} : FitsAll vs ↔ ∀ v ∈ vs, v.Fits := by
  induction vs with
  | nil => simp [FitsAll]
  | cons v vs ih => rw [FitsAll, ih, List.forall_mem_cons]

end Value

namespace Wire

/-! ### Values -/

mutual

/-- The bytes of a value. -/
def valueBytes : Value → List UInt8
  | .null => [Tag.null]
  | .bool b => [Tag.bool, if b then 1 else 0]
  | .int i => Tag.int :: writeSigned i.toInt
  | .float x => Tag.float :: littleEndian 8 x.bits.toNat
  | .str s => Tag.str :: writeString s
  | .bytes data => Tag.bytes :: (writeUnsigned data.length ++ data)
  | .list items => Tag.list :: (writeUnsigned items.length ++ valuesBytes items)

/-- The bytes of values one after the other. -/
def valuesBytes : List Value → List UInt8
  | [] => []
  | v :: vs => valueBytes v ++ valuesBytes vs

end

/-- Several values are written one after the other. -/
theorem valuesBytes_eq_flatMap (vs : List Value) : valuesBytes vs = vs.flatMap valueBytes := by
  induction vs with
  | nil => rfl
  | cons v vs ih => rw [valuesBytes, ih, List.flatMap_cons]

mutual

/-- A value is written exactly if there is room for the lists inside each other. -/
theorem writeValue_eq (room : Nat) : ∀ v : Value,
    writeValue room v = if v.nesting ≤ room then .ok (valueBytes v)
      else .error (.malformed .valueTooDeep)
  | .null | .bool _ | .int _ | .float _ | .str _ | .bytes _ => by
    simp [writeValue, Value.nesting, valueBytes]
  | .list items => by
    cases room with
    | zero =>
      rw [writeValue, if_neg (by rw [Value.nesting]; omega)]
    | succ room =>
      rw [writeValue, writeValues_eq room items, Value.nesting, valueBytes]
      by_cases h : Value.nestingAll items ≤ room
      · rw [if_pos h, if_pos (by omega)]
      · rw [if_neg h, if_neg (by omega)]

/-- Several values are written with the room that each of them has, and refused if one of them is
    too deep. -/
theorem writeValues_eq (room : Nat) : ∀ vs : List Value,
    writeValues room vs = if Value.nestingAll vs ≤ room then .ok (valuesBytes vs)
      else .error (.malformed .valueTooDeep)
  | [] => by simp [writeValues, Value.nestingAll, valuesBytes]
  | v :: vs => by
    rw [writeValues, writeValue_eq room v, writeValues_eq room vs, Value.nestingAll, valuesBytes]
    by_cases hv : v.nesting ≤ room
    · by_cases hvs : Value.nestingAll vs ≤ room
      · simp [hv, hvs]
      · simp [hv, hvs]
    · simp [hv]

end

/-! ### Notes -/

/-- The bytes of a note. -/
def noteBytes (e : String × Value) : List UInt8 := writeString e.1 ++ valueBytes e.2

/-- The bytes of notes, with their number in front. -/
def notesBytes (es : List (String × Value)) : List UInt8 :=
  writeUnsigned es.length ++ es.flatMap noteBytes

/-- Notes are written one after the other, and refused if a value in one of them is too deep. -/
theorem writeNotes_eq (es : List (String × Value)) :
    writeNotes es = if Value.nestingAll (es.map Prod.snd) ≤ maxValueDepth then
      .ok (es.flatMap noteBytes) else .error (.malformed .valueTooDeep) := by
  induction es with
  | nil => rfl
  | cons e es ih =>
    obtain ⟨key, v⟩ := e
    rw [writeNotes, writeValue_eq, ih, List.map_cons, Value.nestingAll, List.flatMap_cons,
      noteBytes]
    by_cases hv : v.nesting ≤ maxValueDepth
    · by_cases hvs : Value.nestingAll (es.map Prod.snd) ≤ maxValueDepth
      · simp [hv, hvs]
      · simp [hv, hvs]
    · simp [hv]

/-! ### What is written is spelled -/

/-- What is written belongs to this style. -/
structure Style.Admits (st : Style) : Prop where
  count : ∀ {n}, n < wordLimit → st.count n (writeUnsigned n)
  int : ∀ i : Int64, st.int i (writeSigned i.toInt)
  keys : ∀ notes : Notes, st.keys (notes.entries.map Prod.fst)

/-- The writer spells as short as can be. -/
theorem Style.admits_canonical : canonical.Admits where
  count h := canonical_count_iff.mpr ⟨h, rfl⟩
  int _ := canonical_int_iff.mpr rfl
  keys notes := by
    refine List.pairwise_map.mpr (notes.sorted.imp fun h => ?_)
    exact Utf8.encode_lt_encode_iff.mpr h

/-- The reader accepts what the writer spells. -/
theorem Style.admits_accepted : accepted.Admits where
  count h := (admits_canonical.count h).1
  int i := (admits_canonical.int i).1
  keys _ := trivial

/-- What is written item by item is a row of spellings. -/
theorem row_flatMap {α : Type} {item : α → List UInt8 → Prop} {write : α → List UInt8}
    {as : List α} (h : ∀ a ∈ as, item a (write a)) : Row item as (as.flatMap write) := by
  induction as with
  | nil => exact .nil
  | cons a as ih =>
    obtain ⟨hfirst, hrest⟩ := List.forall_mem_cons.mp h
    exact .cons hfirst (ih hrest)

section

variable {st : Style} (hst : st.Admits)
include hst

/-- A value that is no list is spelled as it is written, however lists are spelled. -/
theorem spellsValueWith_valueBytes {v : Value} (hfits : v.Fits) (hlist : ∀ items, v ≠ .list items)
    (list : Value → List UInt8 → Prop) : SpellsValueWith st list v (valueBytes v) := by
  cases v with
  | null => exact .null
  | bool b => exact .bool b
  | int i => exact .int (hst.int i)
  | float x => exact .float x
  | str s => exact .str (.mk (hst.count hfits))
  | bytes data => exact .bytes (hst.count hfits)
  | list items => exact absurd rfl (hlist items)

/-- A value is spelled as it is written, if there is room for the lists inside each other. -/
theorem spellsValue_valueBytes {room : Nat} {v : Value} (hfits : v.Fits)
    (hroom : v.nesting ≤ room) : SpellsValue st room v (valueBytes v) := by
  induction room generalizing v with
  -- without room for a list the value is none
  | zero =>
    refine spellsValueWith_valueBytes hst hfits (fun items h => ?_) _
    rw [h, Value.nesting] at hroom
    omega
  | succ room ih =>
    by_cases hlist : ∃ items, v = .list items
    · obtain ⟨items, rfl⟩ := hlist
      -- the items of a list have one level less
      have hitems := Value.fitsAll_iff.mp hfits.2
      have hnesting : ∀ v ∈ items, v.nesting ≤ room := by
        rw [Value.nesting] at hroom
        exact Value.nestingAll_le_iff.mp (by omega)
      rw [valueBytes, valuesBytes_eq_flatMap]
      exact .list (.mk (hst.count hfits.1)
        (row_flatMap fun v hv => ih (hitems v hv) (hnesting v hv)))
    · exact spellsValueWith_valueBytes hst hfits (fun items h => hlist ⟨items, h⟩) _

/-- A note that fits and is not too deep is written as a spelling of it. -/
theorem spellsNote_noteBytes {e : String × Value} (hkey : (Utf8.encode e.1).length < wordLimit)
    (hfits : e.2.Fits) (hroom : e.2.nesting ≤ maxValueDepth) : SpellsNote st e (noteBytes e) :=
  .mk (.mk (hst.count hkey)) (spellsValue_valueBytes hst hfits hroom)

end

/-! ### What is spelled, compared with what is written -/

/-- Numbers are read, and what is written for numbers and notes stands in the relation `R` to their
    spellings in this style.  The relation passes on to sequences. -/
structure Style.Compares (st : Style) (R : List UInt8 → List UInt8 → Prop) : Prop
    extends st.Readable where
  refl : ∀ p, R p p
  trans : ∀ {p q r}, R p q → R q r → R p r
  append : ∀ {p p' q q'}, R p q → R p' q' → R (p ++ p') (q ++ q')
  written : ∀ {n p}, st.count n p → R (writeUnsigned n) p
  writtenInt : ∀ {i p}, st.int i p → R (writeSigned i.toInt) p
  notes : ∀ {es}, st.keys (es.map Prod.fst) →
    R (notesBytes (Notes.ofList es).entries) (notesBytes es)

/-- Fewer items take no more bytes, in any order. -/
theorem length_flatMap_le {α : Type} (write : α → List UInt8) {as bs : List α}
    (h : as.Subperm bs) : (as.flatMap write).length ≤ (bs.flatMap write).length := by
  obtain ⟨cs, hperm, hsub⟩ := h
  rw [← (hperm.flatMap_right write).length_eq]
  exact (hsub.flatMap write).length_le

/-- A lesser number is not longer. -/
theorem length_writeUnsigned_mono {m n : Nat} (h : m ≤ n) :
    (writeUnsigned m).length ≤ (writeUnsigned n).length := by
  fun_induction writeUnsigned m generalizing n with
  | case1 m hm =>
    rw [writeUnsigned]
    split <;> simp
  | case2 m hm ih =>
    have hn : writeUnsigned n = UInt8.ofNat (n % 128 + 128) :: writeUnsigned (n / 128) := by
      rw [writeUnsigned, if_neg (by omega)]
    rw [hn, List.length_cons, List.length_cons]
    exact Nat.succ_le_succ (ih (by omega))

/-- What is accepted is never shorter than what is written. -/
theorem Style.compares_accepted : accepted.Compares fun p q => p.length ≤ q.length where
  toReadable := readable_accepted
  refl p := Nat.le_refl _
  trans := Nat.le_trans
  append h h' := by
    rw [List.length_append, List.length_append]
    omega
  written h := (accepted_count h).2.1
  writtenInt h := (accepted_int h).1
  notes {es} _ := by
    have hsub := Notes.entries_ofList_subperm es
    have hcount := length_writeUnsigned_mono hsub.length_le
    have hbytes := length_flatMap_le noteBytes hsub
    rw [notesBytes, notesBytes, List.length_append, List.length_append]
    omega

/-- What is canonical is what is written. -/
theorem Style.compares_canonical : canonical.Compares Eq where
  toReadable := readable_canonical
  refl p := rfl
  trans := Eq.trans
  append h h' := by rw [h, h']
  written h := (canonical_count_iff.mp h).2.symm
  writtenInt h := (canonical_int_iff.mp h).symm
  notes {es} hkeys := by
    have hsorted : es.Pairwise fun a b => a.1 < b.1 :=
      (List.pairwise_map.mp hkeys).imp fun h => Utf8.encode_lt_encode_iff.mp h
    rw [Notes.entries_ofList hsorted]

/-- Items one after the other compare if each of them does. -/
theorem Row.compares {α : Type} {R : List UInt8 → List UInt8 → Prop} {st : Style}
    (hst : st.Compares R) {item : α → List UInt8 → Prop} {write : α → List UInt8} {C : α → Prop}
    {as : List α} {p : List UInt8} (h : Row item as p)
    (hitem : ∀ a ∈ as, ∀ p, item a p → C a ∧ R (write a) p) :
    (∀ a ∈ as, C a) ∧ R (as.flatMap write) p := by
  induction h with
  | nil => exact ⟨by simp, hst.refl _⟩
  | cons head _ ih =>
    obtain ⟨hfirst, hrest⟩ := List.forall_mem_cons.mp hitem
    obtain ⟨hC, hwrite⟩ := hfirst _ head
    obtain ⟨hall, hwrites⟩ := ih hrest
    exact ⟨List.forall_mem_cons.mpr ⟨hC, hall⟩, hst.append hwrite hwrites⟩

section

variable {R : List UInt8 → List UInt8 → Prop} {st : Style} (hst : st.Compares R)
include hst

/-- What is spelled as a count is below the word limit. -/
theorem Style.Compares.limit {n : Nat} {p : List UInt8} (h : st.count n p) : n < wordLimit :=
  (accepted_count (hst.count h)).1

theorem Style.Compares.cons {p q : List UInt8} (b : UInt8) (h : R p q) : R (b :: p) (b :: q) :=
  hst.append (hst.refl [b]) h

/-- A spelling of a text compares with what is written for it. -/
theorem SpellsString.compares {s : String} {p : List UInt8} (h : SpellsString st s p) :
    (Utf8.encode s).length < wordLimit ∧ R (writeString s) p := by
  obtain ⟨hlength⟩ := h
  exact ⟨hst.limit hlength, hst.append (hst.written hlength) (hst.refl _)⟩

/-- A spelling of a value compares with what is written for it, if that is so for lists. -/
theorem SpellsValueWith.compares {room : Nat} {list : Value → List UInt8 → Prop}
    (hlist : ∀ v p, list v p →
      (v.Fits ∧ v.nesting ≤ room) ∧ R (valueBytes v) (Tag.list :: p))
    {v : Value} {p : List UInt8} (h : SpellsValueWith st list v p) :
    (v.Fits ∧ v.nesting ≤ room) ∧ R (valueBytes v) p := by
  cases h with
  | null => exact ⟨⟨trivial, Nat.zero_le _⟩, hst.refl _⟩
  | bool b => exact ⟨⟨trivial, Nat.zero_le _⟩, hst.refl _⟩
  | int hi => exact ⟨⟨trivial, Nat.zero_le _⟩, hst.cons _ (hst.writtenInt hi)⟩
  | float x => exact ⟨⟨trivial, Nat.zero_le _⟩, hst.refl _⟩
  | str hs =>
    obtain ⟨hlimit, hwrite⟩ := hs.compares hst
    exact ⟨⟨hlimit, Nat.zero_le _⟩, hst.cons _ hwrite⟩
  | bytes hlength =>
    exact ⟨⟨hst.limit hlength, Nat.zero_le _⟩,
      hst.cons _ (hst.append (hst.written hlength) (hst.refl _))⟩
  | list hv => exact hlist _ _ hv

/-- A spelling of a value compares with what is written for it, and the value fits and has no more
    levels than there is room for. -/
theorem SpellsValue.compares {room : Nat} {v : Value} {p : List UInt8}
    (h : SpellsValue st room v p) : (v.Fits ∧ v.nesting ≤ room) ∧ R (valueBytes v) p := by
  induction room generalizing v p with
  | zero => exact SpellsValueWith.compares hst (fun _ _ => False.elim) h
  | succ room ih =>
    refine SpellsValueWith.compares hst (fun v p hv => ?_) h
    obtain ⟨hlength, hitems⟩ := hv
    obtain ⟨hall, hwrite⟩ := hitems.compares hst fun _ _ _ h => ih h
    rw [valueBytes, valuesBytes_eq_flatMap, Value.nesting]
    refine ⟨⟨⟨hst.limit hlength, Value.fitsAll_iff.mpr fun v hv => (hall v hv).1⟩, ?_⟩,
      hst.cons _ (hst.append (hst.written hlength) hwrite)⟩
    have hnesting := Value.nestingAll_le_iff.mpr fun v hv => (hall v hv).2
    omega

/-- A spelling of a note compares with what is written for it. -/
theorem SpellsNote.compares {e : String × Value} {p : List UInt8} (h : SpellsNote st e p) :
    ((Utf8.encode e.1).length < wordLimit ∧ e.2.Fits ∧ e.2.nesting ≤ maxValueDepth) ∧
      R (noteBytes e) p := by
  obtain ⟨hkey, hv⟩ := h
  obtain ⟨hlimit, hwriteKey⟩ := hkey.compares hst
  obtain ⟨hfits, hwrite⟩ := hv.compares hst
  exact ⟨⟨hlimit, hfits⟩, hst.append hwriteKey hwrite⟩

end

end Wire

/-! ### Labels -/

namespace Label

/-- No value of the node, in a slot or in a note, has too many lists inside each other. -/
structure Shallow (l : Label) : Prop where
  values : ∀ v ∈ l.values, v.nesting ≤ Wire.maxValueDepth
  notes : ∀ e ∈ l.notes.entries, e.2.nesting ≤ Wire.maxValueDepth

/-- All lengths in what a node says can be counted in words. -/
structure Fits (l : Label) : Prop where
  kind : (Utf8.encode l.kind).length < Wire.wordLimit
  valueCount : l.values.length < Wire.wordLimit
  values : ∀ v ∈ l.values, v.Fits
  noteCount : l.notes.entries.length < Wire.wordLimit
  notes : ∀ e ∈ l.notes.entries, (Utf8.encode e.1).length < Wire.wordLimit ∧ e.2.Fits
  slotCount : l.shapes.length < Wire.wordLimit
  slots : ∀ s ∈ l.shapes, s.arity < Wire.wordLimit

instance : DecidablePred Shallow := fun l =>
  decidable_of_iff ((∀ v ∈ l.values, v.nesting ≤ Wire.maxValueDepth) ∧
    ∀ e ∈ l.notes.entries, e.2.nesting ≤ Wire.maxValueDepth)
    ⟨fun h => ⟨h.1, h.2⟩, fun h => ⟨h.values, h.notes⟩⟩

instance : DecidablePred Fits := fun l =>
  decidable_of_iff ((Utf8.encode l.kind).length < Wire.wordLimit ∧
    l.values.length < Wire.wordLimit ∧ (∀ v ∈ l.values, v.Fits) ∧
    l.notes.entries.length < Wire.wordLimit ∧
    (∀ e ∈ l.notes.entries, (Utf8.encode e.1).length < Wire.wordLimit ∧ e.2.Fits) ∧
    l.shapes.length < Wire.wordLimit ∧ ∀ s ∈ l.shapes, s.arity < Wire.wordLimit)
    ⟨fun ⟨h₁, h₂, h₃, h₄, h₅, h₆, h₇⟩ => ⟨h₁, h₂, h₃, h₄, h₅, h₆, h₇⟩,
      fun ⟨h₁, h₂, h₃, h₄, h₅, h₆, h₇⟩ => ⟨h₁, h₂, h₃, h₄, h₅, h₆, h₇⟩⟩

end Label

namespace Wire

/-- The bytes of a node up to its child slots. -/
def labelBytes (l : Label) : List UInt8 :=
  writeString l.kind
    ++ (writeUnsigned l.values.length ++ l.values.flatMap valueBytes)
    ++ (writeUnsigned l.notes.entries.length ++ l.notes.entries.flatMap noteBytes)
    ++ writeUnsigned l.shapes.length

/-- A node is written up to its child slots exactly if its values are shallow. -/
theorem writeHeader_eq_ok {s : Store} {n : Node} (h : (s.label n).Shallow) :
    writeHeader s.schema n = .ok (labelBytes (s.label n)) := by
  have hvalues : Value.nestingAll n.values ≤ maxValueDepth := Value.nestingAll_le_iff.mpr h.values
  have hnotes : Value.nestingAll (n.notes.entries.map Prod.snd) ≤ maxValueDepth := by
    refine Value.nestingAll_le_iff.mpr fun v hv => ?_
    obtain ⟨e, he, rfl⟩ := List.mem_map.mp hv
    exact h.notes e he
  rw [writeHeader, writeValues_eq, if_pos hvalues, writeNotes_eq, if_pos hnotes]
  simp only [valuesBytes_eq_flatMap, labelBytes, Store.label, List.length_map]

/-- A node with a value or a note that is too deep has no header. -/
theorem writeHeader_eq_error {s : Store} {n : Node} (h : ¬ (s.label n).Shallow) :
    writeHeader s.schema n = .error (.malformed .valueTooDeep) := by
  rw [writeHeader, writeValues_eq, writeNotes_eq]
  by_cases hvalues : Value.nestingAll n.values ≤ maxValueDepth
  · by_cases hnotes : Value.nestingAll (n.notes.entries.map Prod.snd) ≤ maxValueDepth
    · refine absurd ⟨Value.nestingAll_le_iff.mp hvalues, fun e he => ?_⟩ h
      exact Value.nestingAll_le_iff.mp hnotes e.2 (List.mem_map_of_mem he)
    · simp [hvalues, hnotes]
  · simp [hvalues]

/-- The frame of a node whose child slots are all still to be read. -/
def Frame.ofLabel (k : KindId) (l : Label) : Frame :=
  ⟨k, l.values, l.notes.entries, [], l.shapes.length, none⟩

section

variable {l : Label} (hfits : l.Fits) (hshallow : l.Shallow)
include hfits hshallow

/-- The values of a node that fits are written as spellings of them. -/
theorem row_values {st : Style} (hst : st.Admits) :
    Row (SpellsValue st maxValueDepth) l.values (l.values.flatMap valueBytes) :=
  row_flatMap fun v hv =>
    spellsValue_valueBytes hst (hfits.values v hv) (hshallow.values v hv)

/-- So are its notes. -/
theorem row_notes {st : Style} (hst : st.Admits) :
    Row (SpellsNote st) l.notes.entries (l.notes.entries.flatMap noteBytes) :=
  row_flatMap fun e he => spellsNote_noteBytes hst (hfits.notes e he).1 (hfits.notes e he).2
    (hshallow.notes e he)

/-- A label is spelled as it is written. -/
theorem spellsLabel_labelBytes {st : Style} (hst : st.Admits) :
    SpellsLabel st l (labelBytes l) := by
  have hlabel : l = ⟨l.kind, l.values, Notes.ofList l.notes.entries, l.shapes⟩ := by
    rw [Notes.ofList_entries]
  have hspelled : SpellsLabel st ⟨l.kind, l.values, Notes.ofList l.notes.entries, l.shapes⟩ _ :=
    .mk (.mk (hst.count hfits.kind)) (hst.count hfits.valueCount) (row_values hfits hshallow hst)
      (hst.count hfits.noteCount) (row_notes hfits hshallow hst) (hst.keys l.notes)
      (hst.count hfits.slotCount)
  rw [← hlabel] at hspelled
  simpa only [labelBytes, writeString, List.append_assoc] using hspelled

omit hfits hshallow in
/-- A label that is spelled can be written, if the lengths in its slots can. -/
theorem SpellsLabel.compares {R : List UInt8 → List UInt8 → Prop} {st : Style}
    (hst : st.Compares R) {p : List UInt8} (h : SpellsLabel st l p)
    (hslots : ∀ s ∈ l.shapes, s.arity < wordLimit) :
    (l.Fits ∧ l.Shallow) ∧ R (labelBytes l) p := by
  obtain @⟨kind, values, es, shapes, p₁, p₂, p₃, p₄, p₅, p₆, hkind, hvalueCount, hvalues,
    hnoteCount, hnotes, hkeys, hslotCount⟩ := h
  obtain ⟨hkindLimit, hwriteKind⟩ := hkind.compares hst
  obtain ⟨hvaluesFit, hwriteValues⟩ := hvalues.compares hst fun _ _ _ h => h.compares hst
  obtain ⟨hnotesFit, hwriteNotes⟩ := hnotes.compares hst fun _ _ _ h => h.compares hst
  -- the notes are among those that were spelled
  have hsub := Notes.entries_ofList_subperm es
  have hentries := fun e he => hnotesFit e (hsub.subset he)
  refine ⟨⟨⟨hkindLimit, hst.limit hvalueCount, fun v hv => (hvaluesFit v hv).1,
    Nat.lt_of_le_of_lt hsub.length_le (hst.limit hnoteCount),
    fun e he => ⟨(hentries e he).1, (hentries e he).2.1⟩, hst.limit hslotCount, hslots⟩,
    ⟨fun v hv => (hvaluesFit v hv).2, fun e he => (hentries e he).2.2⟩⟩, ?_⟩
  -- the writer may have fewer notes than were spelled, but not more
  have hallNotes : R (notesBytes (Notes.ofList es).entries) (p₄ ++ p₅) :=
    hst.trans (hst.notes hkeys) (hst.append (hst.written hnoteCount) hwriteNotes)
  have hall := hst.append hwriteKind (hst.append (hst.append (hst.written hvalueCount) hwriteValues)
    (hst.append hallNotes (hst.written hslotCount)))
  simpa only [labelBytes, notesBytes, List.append_assoc] using hall

/-- Reading a node up to its child slots gives back what was written, if its kind is one of the
    schema and has as many slots. -/
theorem reads_readHeader {schema : Schema} {k : KindId}
    (hk : schema.kindByName? l.kind = some k)
    (hvalues : l.values.length = (schema.kind k).values.length)
    (hslots : l.shapes.length = (schema.kind k).children.length) :
    Reads (readHeader schema) (labelBytes l) (Frame.ofLabel k l) := by
  have hadmits := Style.admits_accepted
  have hreadable := Style.readable_accepted
  have hkind : SpellsString .accepted l.kind (writeString l.kind) := .mk (hadmits.count hfits.kind)
  unfold readHeader labelBytes
  rw [List.append_assoc, List.append_assoc, List.append_assoc]
  -- part by part, as the header is written
  refine (hkind.reads hreadable .kindName).bind ?_
  rw [hk]
  refine (reads_readUnsigned .valueCount hfits.valueCount).bind ?_
  rw [if_neg (fun h => h hvalues)]
  refine ((row_values hfits hshallow hadmits).reads (fun _ _ h => h.reads hreadable) []).bind ?_
  rw [List.append_assoc]
  refine (reads_readUnsigned .noteCount hfits.noteCount).bind ?_
  refine ((row_notes hfits hshallow hadmits).reads (fun _ _ h => h.reads hreadable) []).bind ?_
  refine (reads_readUnsigned .slotCount hfits.slotCount).bind_nil ?_
  rw [if_neg (fun h => h hslots)]
  exact reads_pure _

end

end Wire

end TypedForest
