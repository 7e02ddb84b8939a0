import TypedForest.Proofs.Json.Documents
import TypedForest.Proofs.Number.Shortest
import TypedForest.Value.Json

namespace TypedForest

/-!
# Values written as JSON and read again

The document of a value is legible (`Value.legible_toJson`).  Reading it gives the value again
unless there are floating-point numbers in it.  With such numbers reading succeeds exactly if all
of them are finite, since infinities and not-a-number are written as `null`, which is no number.
`Recovers` says this of any reader, and is put together from the parts of what is read.

The readers follow a bounded number of arrays and objects inside each other, so the statements are
for documents whose nesting is within the bound (`Json.nesting`).
-/

namespace Json

/-! ### Nesting -/

mutual

/-- How many arrays and objects stand inside each other. -/
def nesting : Json → Nat
  | arr items => nestingItems items + 1
  | obj fields => nestingFields fields + 1
  | null | bool _ | num _ | str _ => 0

/-- The deepest nesting of several documents. -/
def nestingItems : List Json → Nat
  | [] => 0
  | j :: js => max (nesting j) (nestingItems js)

/-- The deepest nesting of the documents in fields. -/
def nestingFields : List (Option String × Json) → Nat
  | [] => 0
  | (_, j) :: fs => max (nesting j) (nestingFields fs)

end

/-- Items have no more levels than each of them may have. -/
theorem nestingItems_le_iff {items : List Json} {d : Nat} :
    nestingItems items ≤ d ↔ ∀ j ∈ items, j.nesting ≤ d := by
  induction items with
  | nil => simp [nestingItems]
  | cons j js ih => simp [nestingItems, ih]

/-- Nor have the fields of an object. -/
theorem nestingFields_le_iff {fields : List (Option String × Json)} {d : Nat} :
    nestingFields fields ≤ d ↔ ∀ f ∈ fields, f.2.nesting ≤ d := by
  induction fields with
  | nil => simp [nestingFields]
  | cons f fs ih =>
    obtain ⟨name, j⟩ := f
    simp [nestingFields, ih]

/-- An array has one level more than its items. -/
theorem nesting_arr_le_iff {items : List Json} {d : Nat} :
    (arr items).nesting ≤ d ↔ ∃ e, d = e + 1 ∧ ∀ j ∈ items, j.nesting ≤ e := by
  rw [nesting]
  constructor
  · intro h
    exact ⟨d - 1, by omega, nestingItems_le_iff.mp (by omega)⟩
  · rintro ⟨e, rfl, h⟩
    exact Nat.succ_le_succ (nestingItems_le_iff.mpr h)

/-- An object has one level more than its fields. -/
theorem nesting_obj_le_iff {fields : List (Option String × Json)} {d : Nat} :
    (obj fields).nesting ≤ d ↔ ∃ e, d = e + 1 ∧ ∀ f ∈ fields, f.2.nesting ≤ e := by
  rw [nesting]
  constructor
  · intro h
    exact ⟨d - 1, by omega, nestingFields_le_iff.mp (by omega)⟩
  · rintro ⟨e, rfl, h⟩
    exact Nat.succ_le_succ (nestingFields_le_iff.mpr h)

/-- A tag around a document is one level more. -/
theorem nesting_tagged_le_iff {tag : String} {payload : Json} {d : Nat} :
    (tagged tag payload).nesting ≤ d ↔ ∃ e, d = e + 1 ∧ payload.nesting ≤ e := by
  rw [tagged, nesting_obj_le_iff]
  simp

/-- A document with a tag around it is legible if the document is. -/
theorem Legible.tagged (tag : String) {payload : Json} (h : payload.Legible) :
    (Json.tagged tag payload).Legible := by
  refine .obj (by simp) ?_
  simpa using h

end Json

/-! ### Readers -/

/-- Neither infinite nor not-a-number. -/
def Binary64.isFinite (x : Binary64) : Bool := !x.isNaN && !x.isInfinite

/-- A reader succeeds exactly if the given floating-point numbers are finite, and gives `a` if
    there are none. -/
structure Recovers {α : Type} (floats : List Binary64) (a : α) (r : Option α) : Prop where
  isSome_iff : r.isSome ↔ ∀ x ∈ floats, x.isFinite
  eq_some : floats = [] → r = some a

namespace Recovers

variable {α β γ : Type} {fs gs : List Binary64} {a : α}

/-- What is read without looking at a floating-point number is recovered. -/
theorem some (a : α) : Recovers [] a (some a) := ⟨by simp, fun _ => rfl⟩

/-- What is made of a part that is recovered is recovered too. -/
theorem map {r : Option α} (f : α → β) (h : Recovers fs a r) : Recovers fs (f a) (r.map f) := by
  refine ⟨by rw [Option.isSome_map, h.isSome_iff], fun hnil => ?_⟩
  rw [h.eq_some hnil, Option.map_some]

/-- Two readers, one after the other.  What the first one gives is known only without
    floating-point numbers, so the second has to succeed or fail whatever it is. -/
theorem bind {r : Option α} {k : α → Option β} {g : α → β} (h : Recovers fs a r)
    (hk : ∀ b, Recovers gs (g b) (k b)) : Recovers (fs ++ gs) (g a) (r.bind k) := by
  constructor
  · rw [List.forall_mem_append, ← h.isSome_iff]
    cases r with
    | none => simp
    | some b => simpa using (hk b).isSome_iff
  · intro hnil
    obtain ⟨hfs, hgs⟩ := List.append_eq_nil_iff.mp hnil
    rw [h.eq_some hfs, Option.bind_some, (hk a).eq_some hgs]

/-- The same reader for a row of documents. -/
theorem mapM {read : γ → Option α} {write : α → γ} {floats : α → List Binary64} {as : List α}
    (h : ∀ a ∈ as, Recovers (floats a) a (read (write a))) :
    Recovers (as.flatMap floats) as ((as.map write).mapM read) := by
  induction as with
  | nil => exact .some []
  | cons a as ih =>
    have hrest := ih fun b hb => h b (List.mem_cons_of_mem a hb)
    have hcons := (h a List.mem_cons_self).bind fun b => hrest.map (b :: ·)
    simpa [Option.map_eq_bind, Function.comp_def] using hcons

end Recovers

/-! ### Numbers -/

namespace Json

/-- A 64-bit integer is read from its own numeral. -/
theorem toInt64?_ofInt (i : Int64) : (ofInt i.toInt).toInt64? = some i := by
  simp only [ofInt, toInt64?, Numeral.toInt?_ofInt]
  rw [if_pos ⟨i.minValue_le_toInt, i.toInt_le⟩, Int64.ofInt_toInt]

/-- So is a byte. -/
theorem toByte?_ofInt (b : UInt8) : (ofInt b.toNat).toByte? = some b := by
  have hlt := b.toNat_lt
  simp only [ofInt, toByte?, Numeral.toInt?_ofInt]
  rw [if_pos (by omega), Int.toNat_natCast, UInt8.ofNat_toNat]

/-- And so are several bytes. -/
theorem mapM_toByte? (data : List UInt8) :
    (data.map fun b => ofInt b.toNat).mapM toByte? = some data := by
  have hread : Recovers (data.flatMap fun _ => []) data
      ((data.map fun b => ofInt b.toNat).mapM toByte?) :=
    .mapM fun b _ => (toByte?_ofInt b).symm ▸ .some b
  exact hread.eq_some (by simp)

/-- Just the finite floating-point numbers have a numeral. -/
theorem isSome_numeral?_iff (layout : FloatLayout) (x : Binary64) :
    (layout.numeral? x).isSome ↔ x.isFinite := by
  rw [FloatLayout.numeral?, Option.isSome_map, Binary64.magnitude?, Binary64.isFinite,
    Binary64.isNaN, Binary64.isInfinite]
  by_cases h : x.exponentField = 2047
  · by_cases hfraction : x.fractionField = 0 <;> simp [h, hfraction]
  · rw [if_neg h]
    split_ifs <;> simp [h]

/-- A floating-point number is read again exactly if it is finite. -/
theorem isSome_toBinary64?_iff (x : Binary64) : (ofBinary64 x).toBinary64?.isSome ↔ x.isFinite := by
  rw [← isSome_numeral?_iff floatLayout, ofBinary64]
  cases hn : floatLayout.numeral? x with
  | none => simp [toBinary64?]
  | some n => simp [toBinary64?, (Binary64.numeral?_eq_some hn).2]

/-- A floating-point number is written as something legible, be it finite or not. -/
theorem legible_ofBinary64 (x : Binary64) : (ofBinary64 x).Legible := by
  rw [ofBinary64]
  cases hn : floatLayout.numeral? x with
  | none => exact .null
  | some n => exact .num (Binary64.numeral?_eq_some hn).1

theorem items?_ofBinary64 (x : Binary64) : (ofBinary64 x).items? = none := by
  rw [ofBinary64]
  cases floatLayout.numeral? x <;> rfl

end Json

/-! ### Values -/

namespace Value

mutual

/-- The floating-point numbers in a value. -/
def floats : Value → List Binary64
  | float x => [x]
  | list items => floatsAll items
  | null | bool _ | int _ | str _ | bytes _ => []

/-- The floating-point numbers in several values. -/
def floatsAll : List Value → List Binary64
  | [] => []
  | v :: vs => floats v ++ floatsAll vs

end

/-- The floating-point numbers in several values are those of each of them. -/
theorem floatsAll_eq_flatMap (vs : List Value) : floatsAll vs = vs.flatMap floats := by
  induction vs with
  | nil => rw [floatsAll, List.flatMap_nil]
  | cons v vs ih => rw [floatsAll, ih, List.flatMap_cons]

theorem toJsons_eq_map (vs : List Value) : toJsons vs = vs.map toJson := by
  induction vs with
  | nil => rw [toJsons, List.map_nil]
  | cons v vs ih => rw [toJsons, ih, List.map_cons]

mutual

/-- The document of a value is legible. -/
theorem legible_toJson : ∀ v : Value, v.toJson.Legible
  | null => by
    rw [toJson]
    exact .str _
  | bool b => by
    rw [toJson]
    exact .tagged _ (.bool b)
  | int i => by
    rw [toJson]
    exact .tagged _ (.num (Numeral.wellFormed_ofInt _))
  | float x => by
    rw [toJson]
    exact .tagged _ (Json.legible_ofBinary64 x)
  | str s => by
    rw [toJson]
    exact .tagged _ (.str s)
  | bytes data => by
    rw [toJson]
    refine .tagged _ (.arr fun j hj => ?_)
    obtain ⟨b, -, rfl⟩ := List.mem_map.mp hj
    exact .num (Numeral.wellFormed_ofInt _)
  | list items => by
    rw [toJson]
    exact .tagged _ (.arr (legible_toJsons items))

/-- So are those of several values. -/
theorem legible_toJsons : ∀ vs : List Value, ∀ j ∈ toJsons vs, j.Legible
  | [] => by simp [toJsons]
  | v :: vs => by
    rw [toJsons, List.forall_mem_cons]
    exact ⟨legible_toJson v, legible_toJsons vs⟩

end

/-- A form that holds no values is read by its name and content. -/
theorem recovers_of_scalar {v : Value} {tag : String} {payload : Json}
    (hjson : v.toJson = Json.tagged tag payload) (hitems : payload.items? = none)
    (hread : Recovers v.floats v (ofScalar? tag payload)) {depth : Nat}
    (h : v.toJson.nesting ≤ depth) : Recovers v.floats v (ofJson? depth v.toJson) := by
  rw [hjson] at h ⊢
  obtain ⟨d, rfl, -⟩ := Json.nesting_tagged_le_iff.mp h
  have hscalar : ofJson? (d + 1) (Json.tagged tag payload) = ofScalar? tag payload := by
    rw [Json.tagged, ofJson?]
    rintro _ items - rfl
    cases hitems
  rw [hscalar]
  exact hread

/-- **Values.**  A value whose document is within the bound is read again exactly if its
    floating-point numbers are finite. -/
theorem recovers_ofJson? (v : Value) {depth : Nat} (h : v.toJson.nesting ≤ depth) :
    Recovers v.floats v (ofJson? depth v.toJson) := by
  -- the reader goes down two levels from a list to its items
  induction depth using Nat.strongRecOn generalizing v with
  | ind depth ih =>
    cases v with
    | null =>
      rw [toJson, Json.ofString, floats, ofJson?.eq_def]
      exact .some _
    | bool b =>
      refine recovers_of_scalar (by rw [toJson]) rfl ?_ h
      rw [floats]
      exact .some _
    | int i =>
      refine recovers_of_scalar (by rw [toJson]) rfl ?_ h
      rw [floats]
      show Recovers [] (int i) ((Json.ofInt i.toInt).toInt64?.map int)
      rw [Json.toInt64?_ofInt]
      exact .some _
    | float x =>
      refine recovers_of_scalar (by rw [toJson]) (Json.items?_ofBinary64 x) ?_ h
      rw [floats]
      show Recovers [x] (float x) ((Json.ofBinary64 x).toBinary64?.map float)
      refine ⟨?_, fun hnil => absurd hnil (List.cons_ne_nil x [])⟩
      rw [Option.isSome_map, Json.isSome_toBinary64?_iff, List.forall_mem_singleton]
    | str s =>
      refine recovers_of_scalar (by rw [toJson]) rfl ?_ h
      rw [floats]
      exact .some _
    | bytes data =>
      rw [toJson] at h ⊢
      obtain ⟨d, rfl, hpayload⟩ := Json.nesting_tagged_le_iff.mp h
      obtain ⟨d, rfl, -⟩ := Json.nesting_arr_le_iff.mp hpayload
      rw [Json.tagged, floats, ofJson?, if_neg (by decide), if_pos rfl, Json.mapM_toByte?]
      exact .some _
    | list items =>
      rw [toJson, toJsons_eq_map] at h ⊢
      obtain ⟨d, rfl, hpayload⟩ := Json.nesting_tagged_le_iff.mp h
      obtain ⟨d, rfl, hitems⟩ := Json.nesting_arr_le_iff.mp hpayload
      rw [Json.tagged, floats, floatsAll_eq_flatMap, ofJson?, if_pos rfl]
      exact .map list (.mapM fun v hv => ih d (by omega) v (hitems _ (List.mem_map_of_mem hv)))

end Value

end TypedForest
