import TypedForest.Proofs.Notes
import TypedForest.Proofs.Value.Json
import TypedForest.Snapshot.Json

namespace TypedForest

/-!
# Snapshots written as JSON and read again

Every snapshot has a text.  A snapshot without floating-point numbers is read again from its text
as it was (`Snapshot.json_round_trip`).  In general its text is read as some snapshot exactly if
the floating-point numbers in its values and notes are finite (`Snapshot.json_loads_iff`): writing
never fails, but an infinity or not-a-number leaves a `null` that the reader refuses
(`Sample.unreadable`).

The reader follows at most 127 arrays and objects inside each other, so both are for snapshots
whose documents are nested no deeper.
-/

namespace Snapshot

/-! ### The documents of lists -/

/-- A pair of a name and the document of what stands under it. -/
def pairJson {α : Type} (write : α → Json) (e : String × α) : Json :=
  .arr [Json.ofString e.1, write e.2]

theorem entryJson_eq : entryJson = pairJson Value.toJson := rfl

/-- The slots of a node are written as pairs, one by one. -/
theorem childrenJson_eq_map (cs : List (String × Child)) :
    childrenJson cs = cs.map (pairJson childJson) := by
  induction cs with
  | nil => rw [childrenJson, List.map_nil]
  | cons e cs ih => rw [childrenJson, ih, List.map_cons, pairJson]

theorem toJsons_eq_map (ts : List Snapshot) : toJsons ts = ts.map toJson := by
  induction ts with
  | nil => rw [toJsons, List.map_nil]
  | cons t ts ih => rw [toJsons, ih, List.map_cons]

/-! ### Legibility -/

/-- A pair is legible if its second part is. -/
theorem legible_pairJson {α : Type} {write : α → Json} {e : String × α}
    (h : (write e.2).Legible) : (pairJson write e).Legible := by
  refine .arr ?_
  simpa using ⟨Json.Legible.str e.1, h⟩

/-- The object of a snapshot is legible if its fields are, whichever of them are left out. -/
theorem legible_fields {kind values children notes : Json} (isEmpty₁ isEmpty₂ isEmpty₃ : Bool)
    (hkind : kind.Legible) (hvalues : values.Legible) (hchildren : children.Legible)
    (hnotes : notes.Legible) :
    (Json.obj ((some "kind", kind) :: (optionalField "values" isEmpty₁ values
        ++ optionalField "children" isEmpty₂ children
        ++ optionalField "notes" isEmpty₃ notes))).Legible := by
  have hfield (name : String) (isEmpty : Bool) {j : Json} (hj : j.Legible) :
      ∀ f ∈ optionalField name isEmpty j, f.1.isSome ∧ f.2.Legible := by
    cases isEmpty <;> simp [optionalField, hj]
  have hall : ∀ f ∈ (some "kind", kind) :: (optionalField "values" isEmpty₁ values
      ++ optionalField "children" isEmpty₂ children ++ optionalField "notes" isEmpty₃ notes),
      f.1.isSome ∧ f.2.Legible := by
    rw [List.forall_mem_cons, List.forall_mem_append, List.forall_mem_append]
    exact ⟨⟨rfl, hkind⟩, ⟨hfield _ _ hvalues, hfield _ _ hchildren⟩, hfield _ _ hnotes⟩
  exact .obj (fun f hf => (hall f hf).1) fun f hf => (hall f hf).2

mutual

/-- The document of a snapshot is legible. -/
theorem legible_toJson : ∀ t : Snapshot, t.toJson.Legible
  | .mk kind values children notes => by
    rw [toJson]
    refine legible_fields _ _ _ (.str kind) (.arr ?_) (.arr (legible_childrenJson children))
      (.obj ?_ ?_)
    · rw [entryJson_eq, List.forall_mem_map]
      exact fun e _ => legible_pairJson (Value.legible_toJson e.2)
    · rw [List.forall_mem_map]
      exact fun _ _ => rfl
    · rw [List.forall_mem_map]
      exact fun e _ => Value.legible_toJson e.2

/-- So are those of its slots. -/
theorem legible_childrenJson : ∀ cs : List (String × Child), ∀ j ∈ childrenJson cs, j.Legible
  | [] => by simp [childrenJson]
  | (name, c) :: cs => by
    rw [childrenJson, List.forall_mem_cons]
    exact ⟨legible_pairJson (e := (name, c)) (legible_childJson c), legible_childrenJson cs⟩

/-- And so is that of what a slot holds. -/
theorem legible_childJson : ∀ c : Child, (childJson c).Legible
  | .absent => by
    rw [childJson]
    exact .str _
  | .node t => by
    rw [childJson]
    exact .tagged _ (legible_toJson t)
  | .list ts => by
    rw [childJson]
    exact .tagged _ (.arr (legible_toJsons ts))

/-- The documents of several snapshots are legible. -/
theorem legible_toJsons : ∀ ts : List Snapshot, ∀ j ∈ toJsons ts, j.Legible
  | [] => by simp [toJsons]
  | t :: ts => by
    rw [toJsons, List.forall_mem_cons]
    exact ⟨legible_toJson t, legible_toJsons ts⟩

end

/-- A text that was written is read as the document that it was written from. -/
theorem ofJsonText?_jsonText (t : Snapshot) : ofJsonText? t.jsonText = ofJson? 127 t.toJson := by
  rw [ofJsonText?, jsonText, (legible_toJson t).read?_prettyText, Option.bind_some, Json.maxDepth]

/-! ### Floating-point numbers -/

/-- The floating-point numbers in named values. -/
def floatsOf (entries : List (String × Value)) : List Binary64 :=
  entries.flatMap fun e => e.2.floats

mutual

/-- The floating-point numbers in the values and notes of a snapshot. -/
def floats : Snapshot → List Binary64
  | .mk _ values children notes =>
    floatsOf values ++ (floatsEntries children ++ floatsOf notes.entries)

/-- The floating-point numbers in named slots. -/
def floatsEntries : List (String × Child) → List Binary64
  | [] => []
  | (_, c) :: cs => floatsChild c ++ floatsEntries cs

/-- The floating-point numbers in what a slot holds. -/
def floatsChild : Child → List Binary64
  | .absent => []
  | .node t => floats t
  | .list ts => floatsAll ts

/-- The floating-point numbers in several snapshots. -/
def floatsAll : List Snapshot → List Binary64
  | [] => []
  | t :: ts => floats t ++ floatsAll ts

end

/-- The floating-point numbers in slots are those of what each of them holds. -/
theorem floatsEntries_eq_flatMap (cs : List (String × Child)) :
    floatsEntries cs = cs.flatMap fun e => floatsChild e.2 := by
  induction cs with
  | nil => rw [floatsEntries, List.flatMap_nil]
  | cons e cs ih => rw [floatsEntries, ih, List.flatMap_cons]

/-- The floating-point numbers in several snapshots are those of each of them. -/
theorem floatsAll_eq_flatMap (ts : List Snapshot) : floatsAll ts = ts.flatMap floats := by
  induction ts with
  | nil => rw [floatsAll, List.flatMap_nil]
  | cons t ts ih => rw [floatsAll, ih, List.flatMap_cons]

/-! ### The parts of a snapshot -/

/-- Pairs are recovered if their second parts are, two levels below. -/
theorem recovers_pairsOfJson? {α : Type} {depth : Nat} {read : Json → Option α} {write : α → Json}
    {floats : α → List Binary64} {entries : List (String × α)}
    (hdepth : (Json.arr (entries.map (pairJson write))).nesting ≤ depth)
    (h : ∀ a, (write a).nesting ≤ depth - 2 → Recovers (floats a) a (read (write a))) :
    Recovers (entries.flatMap fun e => floats e.2) entries
      (pairsOfJson? depth read (.arr (entries.map (pairJson write)))) := by
  obtain ⟨d, rfl, hpairs⟩ := Json.nesting_arr_le_iff.mp hdepth
  rw [pairsOfJson?, if_neg (Nat.succ_ne_zero d)]
  refine .mapM fun e he => ?_
  obtain ⟨c, rfl, hhalves⟩ := Json.nesting_arr_le_iff.mp (hpairs _ (List.mem_map_of_mem he))
  rw [pairJson, Json.ofString, pairOfJson?, if_neg (by omega)]
  exact (h e.2 (hhalves (write e.2) (by simp))).map (e.1, ·)

/-- Notes are recovered, one level below. -/
theorem recovers_notesOfJson? {depth : Nat} {notes : Notes}
    (hdepth : (Json.obj (notes.entries.map fun e => (some e.1, e.2.toJson))).nesting ≤ depth) :
    Recovers (floatsOf notes.entries) notes
      (notesOfJson? depth (.obj (notes.entries.map fun e => (some e.1, e.2.toJson)))) := by
  obtain ⟨d, rfl, hfields⟩ := Json.nesting_obj_le_iff.mp hdepth
  have hentries : Recovers (floatsOf notes.entries) notes.entries
      ((notes.entries.map fun e => (some e.1, e.2.toJson)).mapM (noteOfJson? d)) := by
    refine .mapM fun e he => ?_
    rw [noteOfJson?]
    exact (Value.recovers_ofJson? e.2 (hfields _ (List.mem_map_of_mem he))).map (e.1, ·)
  -- the entries are in order already, so putting them in one by one changes nothing
  have hnotes := hentries.map Notes.ofList
  rw [Notes.ofList_entries] at hnotes
  rw [notesOfJson?, if_neg (Nat.succ_ne_zero d)]
  exact hnotes

/-- What a slot holds, given that nodes and items within the bound are read again. -/
theorem recovers_childOfJson? {depth : Nat} {node item : Json → Option Snapshot}
    (hnode : ∀ t : Snapshot, t.toJson.nesting ≤ depth - 1 → Recovers t.floats t (node t.toJson))
    (hitem : ∀ t : Snapshot, t.toJson.nesting ≤ depth - 2 → Recovers t.floats t (item t.toJson))
    (c : Child) (h : (childJson c).nesting ≤ depth) :
    Recovers (floatsChild c) c (childOfJson? depth node item (childJson c)) := by
  cases c with
  | absent =>
    rw [childJson, floatsChild]
    exact .some _
  | node t =>
    rw [childJson] at h ⊢
    obtain ⟨d, rfl, hnesting⟩ := Json.nesting_tagged_le_iff.mp h
    rw [floatsChild, Json.tagged, childOfJson?, if_neg (Nat.succ_ne_zero d)]
    exact (hnode t hnesting).map Child.node
  | list ts =>
    rw [childJson, toJsons_eq_map] at h ⊢
    obtain ⟨d, rfl, hpayload⟩ := Json.nesting_tagged_le_iff.mp h
    obtain ⟨d, rfl, hitems⟩ := Json.nesting_arr_le_iff.mp hpayload
    rw [floatsChild, floatsAll_eq_flatMap, Json.tagged, childOfJson?, if_neg (by omega)]
    exact .map Child.list (.mapM fun t ht => hitem t (hitems _ (List.mem_map_of_mem ht)))

/-! ### Whole snapshots -/

/-- The fields that are written are found under their names. -/
theorem ofFields?_optionalField (depth : Nat) (child : Json → Option Child) (kind : Json)
    (isEmpty₁ isEmpty₂ isEmpty₃ : Bool) (values children notes : Json) :
    ofFields? depth child ((some "kind", kind) :: (optionalField "values" isEmpty₁ values
        ++ optionalField "children" isEmpty₂ children ++ optionalField "notes" isEmpty₃ notes))
      = ofParts? depth child kind (if isEmpty₁ then none else some values)
        (if isEmpty₂ then none else some children) (if isEmpty₃ then none else some notes) := by
  cases isEmpty₁ <;> cases isEmpty₂ <;> cases isEmpty₃ <;> rfl

/-- A field that may be left out.  Only a field that is written is within the bound. -/
theorem recovers_fieldOr? {α : Type} {depth : Nat} {fs : List Binary64} {a absent : α}
    {read : Json → Option α} {name : String} {isEmpty : Bool} {j : Json}
    (hfield : ∀ f ∈ optionalField name isEmpty j, f.2.nesting ≤ depth)
    (hempty : isEmpty = true → fs = [] ∧ a = absent)
    (h : j.nesting ≤ depth → Recovers fs a (read j)) :
    Recovers fs a (fieldOr? read absent (if isEmpty then none else some j)) := by
  cases isEmpty with
  | true =>
    obtain ⟨rfl, rfl⟩ := hempty rfl
    exact .some _
  | false => exact h (hfield (some name, j) List.mem_cons_self)

/-- A node is recovered if its values, its slots and its notes are. -/
theorem recovers_ofParts? {depth : Nat} {child : Json → Option Child} {kind : String}
    {values : List (String × Value)} {children : List (String × Child)} {notes : Notes}
    {v c n : Option Json} {fs gs hs : List Binary64}
    (hvalues : Recovers fs values (fieldOr? (pairsOfJson? depth (Value.ofJson? (depth - 2))) [] v))
    (hchildren : Recovers gs children (fieldOr? (pairsOfJson? depth child) [] c))
    (hnotes : Recovers hs notes (fieldOr? (notesOfJson? depth) Notes.empty n)) :
    Recovers (fs ++ (gs ++ hs)) (.mk kind values children notes)
      (ofParts? depth child (Json.ofString kind) v c n) := by
  have hall := hvalues.bind fun vs => hchildren.bind fun cs => hnotes.map (Snapshot.mk kind vs cs)
  simpa [ofParts?, Json.ofString, Json.text?, Option.map_eq_bind, Function.comp_def] using hall

/-- **Snapshots.**  A snapshot whose document is within the bound is read again exactly if its
    floating-point numbers are finite. -/
theorem recovers_ofJson? (t : Snapshot) {depth : Nat} (h : t.toJson.nesting ≤ depth) :
    Recovers t.floats t (ofJson? depth t.toJson) := by
  -- a child is four levels deeper than its node, an item of a list five
  induction depth using Nat.strongRecOn generalizing t with
  | ind depth ih =>
    obtain ⟨kind, values, children, notes⟩ := t
    rw [toJson, childrenJson_eq_map, entryJson_eq] at h ⊢
    obtain ⟨d, rfl, hfields⟩ := Json.nesting_obj_le_iff.mp h
    rw [List.forall_mem_cons, List.forall_mem_append, List.forall_mem_append] at hfields
    obtain ⟨-, ⟨hvalues, hchildren⟩, hnotes⟩ := hfields
    rw [ofJson?, ofFields?_optionalField, floats, floatsEntries_eq_flatMap]
    refine recovers_ofParts? (recovers_fieldOr? hvalues ?_ fun hle => ?_)
      (recovers_fieldOr? hchildren ?_ fun hle => ?_) (recovers_fieldOr? hnotes ?_ ?_)
    · intro hempty
      simp [List.isEmpty_iff.mp hempty, floatsOf]
    · exact recovers_pairsOfJson? hle fun v hv => Value.recovers_ofJson? v hv
    · intro hempty
      simp [List.isEmpty_iff.mp hempty]
    · -- two levels are taken by the slots and their pairs, so the induction hypothesis covers what
      -- a slot holds
      refine recovers_pairsOfJson? hle fun c hc => ?_
      refine recovers_childOfJson? (fun t ht => ih _ (by omega) t ?_)
        (fun t ht => ih _ (by omega) t ?_) c hc
      · omega
      · omega
    · intro hempty
      have hentries := List.isEmpty_iff.mp hempty
      exact ⟨by simp [hentries, floatsOf], Notes.ext_entries hentries⟩
    · exact recovers_notesOfJson?

/-- **Round trip.**  A snapshot without floating-point numbers is read again from its text as it
    was. -/
theorem json_round_trip {t : Snapshot} (hfloats : t.floats = [])
    (hnesting : t.toJson.nesting ≤ 127) : ofJsonText? t.jsonText = some t := by
  rw [ofJsonText?_jsonText]
  exact (recovers_ofJson? t hnesting).eq_some hfloats

end Snapshot

namespace Sample

/-- Texts and integers at their limits, a name that is used twice, slots of every form, and parts
    that leave out all fields or all but one. -/
def motley : Snapshot :=
  .mk "\"Größe\"\\\u0007"
    [("", .list [.null, .list [], .bool true]), ("", .int Int64.minValue), ("𝄞", .bytes [0, 255])]
    [("inner", .absent), ("inner", .node (.mk "" [] [] Notes.empty)),
      ("many", .list [.mk "\n" [] [("none", .list [])] Notes.empty])]
    (Notes.ofList [("\t", .str "\x7f\u2028"), ("é", .int Int64.maxValue)])

/-- A snapshot with all sorts of characters, with names twice and with slots of all sorts is read
    back. -/
theorem json_round_trip_motley :
    Snapshot.ofJsonText? motley.jsonText = some motley :=
  Snapshot.json_round_trip (by decide +kernel) (by decide +kernel)

end Sample

namespace Snapshot

/-- **Loading.**  The text of a snapshot can be read exactly if the floating-point numbers in its
    values and notes are finite. -/
theorem json_loads_iff {t : Snapshot} (hnesting : t.toJson.nesting ≤ 127) :
    (ofJsonText? t.jsonText).isSome ↔ ∀ x ∈ t.floats, x.isFinite := by
  rw [ofJsonText?_jsonText]
  exact (recovers_ofJson? t hnesting).isSome_iff

end Snapshot

namespace Sample

/-- The largest finite number, and in the notes the smallest one and negative zero. -/
def measured : Snapshot :=
  .mk "Nest" [("v", .float ⟨0x7fefffffffffffff⟩)] []
    (Notes.ofList [("least", .list [.float ⟨1⟩, .float ⟨0x8000000000000000⟩])])

theorem json_loads_measured : (Snapshot.ofJsonText? measured.jsonText).isSome :=
  (Snapshot.json_loads_iff (by decide +kernel)).mpr (by decide +kernel)

/-- A node whose value is not a number. -/
def notANumber : Snapshot :=
  .mk "Nest" [("v", .float ⟨0x7ff8000000000000⟩)] [("inner", .absent), ("many", .list [])]
    Notes.empty

/-- It is written with a `null` in place of the number, and cannot be read again. -/
theorem unreadable :
    notANumber.toJson.nesting ≤ 127 ∧ Snapshot.ofJsonText? notANumber.jsonText = none := by
  refine ⟨by decide +kernel, ?_⟩
  -- what is read from the text is the document, so the text itself need not be computed
  rw [Snapshot.ofJsonText?_jsonText]
  decide +kernel

end Sample

end TypedForest
