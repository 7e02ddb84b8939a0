import Mathlib.Data.List.Sort
import TypedForest.Notes

namespace TypedForest

/-!
# Notes as finite maps

Notes are kept in ascending order of their keys, so they are determined by what is found under
each key (`Notes.ext_find?`, `Notes.identical_iff`), and putting the entries of some notes back
one after the other gives the notes again (`Notes.ofList_entries`).
-/

namespace Notes

/-- Notes with the same entries are the same. -/
theorem ext_entries {m n : Notes} (h : m.entries = n.entries) : m = n := by
  cases m
  cases n
  simp_all

/-! ### Entries in order -/

/-- A key that comes after all others is added at the end. -/
theorem insertEntry_of_forall_lt {key : String} (v : Value) {es : List (String × Value)}
    (h : ∀ e ∈ es, e.1 < key) : insertEntry key v es = es ++ [(key, v)] := by
  induction es with
  | nil => rfl
  | cons e es ih =>
    obtain ⟨k, w⟩ := e
    have hk : k < key := h (k, w) List.mem_cons_self
    have hlt : ¬ key < k := String.lt_asymm hk
    have hne : key ≠ k := fun heq => String.lt_irrefl k (heq ▸ hk)
    rw [insertEntry, if_neg hlt, if_neg hne, ih fun e he => h e (List.mem_cons_of_mem _ he)]
    rfl

/-- Entries in order are added at the end, one after the other. -/
theorem entries_foldl_insert {es : List (String × Value)} {n : Notes}
    (h : (n.entries ++ es).Pairwise fun a b => a.1 < b.1) :
    (es.foldl (fun n e => n.insert e.1 e.2) n).entries = n.entries ++ es := by
  induction es generalizing n with
  | nil => rw [List.foldl_nil, List.append_nil]
  | cons e es ih =>
    have hlast : (n.insert e.1 e.2).entries = n.entries ++ [e] := by
      refine insertEntry_of_forall_lt e.2 fun a ha => ?_
      exact (List.pairwise_append.mp h).2.2 a ha e List.mem_cons_self
    have hsplit : n.entries ++ e :: es = (n.entries ++ [e]) ++ es := by simp
    rw [List.foldl_cons, ih (by rw [hlast, ← hsplit]; exact h), hlast, hsplit]

/-- Entries in order are kept as they are. -/
theorem entries_ofList {es : List (String × Value)} (h : es.Pairwise fun a b => a.1 < b.1) :
    (ofList es).entries = es := by
  rw [ofList, entries_foldl_insert (by simpa [empty] using h)]
  rfl

/-- Putting the entries of notes back one after the other gives the notes again. -/
theorem ofList_entries (n : Notes) : ofList n.entries = n := ext_entries (entries_ofList n.sorted)

/-- An entry is added, or takes the place of the one with its key. -/
theorem insertEntry_subperm (key : String) (v : Value) (es : List (String × Value)) :
    (insertEntry key v es).Subperm ((key, v) :: es) := by
  induction es with
  | nil => exact .refl _
  | cons e es ih =>
    obtain ⟨k, w⟩ := e
    rw [insertEntry]
    split
    · exact .refl _
    split
    · exact (List.subperm_cons _).mpr .cons_self
    · exact ((List.subperm_cons (k, w)).mpr ih).trans (List.Perm.swap _ _ _).subperm

/-- Entries are given up, or kept with another place. -/
theorem entries_foldl_insert_subperm (es : List (String × Value)) (n : Notes) :
    (es.foldl (fun n e => n.insert e.1 e.2) n).entries.Subperm (n.entries ++ es) := by
  induction es generalizing n with
  | nil =>
    rw [List.append_nil]
    exact .refl _
  | cons e es ih =>
    have hinsert := (List.subperm_append_right es).mpr (insertEntry_subperm e.1 e.2 n.entries)
    exact (ih (n.insert e.1 e.2)).trans (hinsert.trans List.perm_middle.symm.subperm)

/-- Notes have no entries but those that they are made of. -/
theorem entries_ofList_subperm (es : List (String × Value)) : (ofList es).entries.Subperm es :=
  entries_foldl_insert_subperm es empty

/-! ### Notes by what is found under the keys -/

/-- The entry of a key is what is found under it. -/
theorem find?_eq_some_iff {n : Notes} {key : String} {v : Value} :
    n.find? key = some v ↔ (key, v) ∈ n.entries := by
  rw [find?, List.lookup_eq_some_iff]
  constructor
  · rintro ⟨front, back, hsplit, -⟩
    rw [hsplit]
    exact List.mem_append_right _ List.mem_cons_self
  · intro hmem
    obtain ⟨front, back, hsplit⟩ := List.append_of_mem hmem
    refine ⟨front, back, hsplit, fun p hp => ?_⟩
    -- keys before an entry are smaller than its own
    have hsorted := hsplit ▸ n.sorted
    have hlt : p.1 < key := (List.pairwise_append.mp hsorted).2.2 p hp (key, v) List.mem_cons_self
    have hne : key ≠ p.1 := fun heq => String.lt_irrefl p.1 (heq ▸ hlt)
    exact bne_iff_ne.mpr hne

/-- Notes are determined by what is found under each key. -/
theorem ext_find? {m n : Notes} (h : ∀ key, m.find? key = n.find? key) : m = n := by
  have hirrefl : Std.Irrefl fun a b : String × Value => a.1 < b.1 :=
    ⟨fun a => String.lt_irrefl a.1⟩
  have hantisymm : Std.Antisymm fun a b : String × Value => a.1 < b.1 :=
    ⟨fun a b hab hba => absurd hba (String.lt_asymm hab)⟩
  refine ext_entries (m.sorted.eq_of_mem_iff n.sorted fun e => ?_)
  rw [← find?_eq_some_iff, ← find?_eq_some_iff, h]

/-- Notes under the same keys, with the same data under each. -/
structure Identical (m n : Notes) : Prop where
  keys : ∀ key, (m.find? key).isSome = (n.find? key).isSome
  values : ∀ key v w, m.find? key = some v → n.find? key = some w → v.identical w = true

/-- Notes are identical if they are the same, since values are. -/
theorem identical_iff {m n : Notes} : m.Identical n ↔ m = n := by
  constructor
  · rintro ⟨hkeys, hvalues⟩
    refine ext_find? fun key => ?_
    -- notes are told by what is found under each key
    have hkey := hkeys key
    cases hm : m.find? key with
    | none =>
      rw [hm] at hkey
      exact (Option.isSome_eq_false_iff.mp hkey.symm |> Option.isNone_iff_eq_none.mp).symm
    | some v =>
      rw [hm] at hkey
      obtain ⟨w, hw⟩ := Option.isSome_iff_exists.mp hkey.symm
      rw [hw, (Value.identical_iff v w).mp (hvalues key v w hm hw)]
  · rintro rfl
    refine ⟨fun _ => rfl, fun key v w hv hw => ?_⟩
    rw [hv, Option.some.injEq] at hw
    exact (Value.identical_iff v w).mpr hw

/-! ### Taking notes away -/

/-- A key is there if something is found under it. -/
theorem contains_iff {n : Notes} {key : String} :
    n.contains key = true ↔ ∃ v, n.find? key = some v := by
  simp only [contains, find?_eq_some_iff, List.any_eq_true, beq_iff_eq]
  constructor
  · rintro ⟨e, he, rfl⟩
    exact ⟨e.2, he⟩
  · rintro ⟨v, hv⟩
    exact ⟨_, hv, rfl⟩

/-- Taking away the value under a key leaves those under all other keys. -/
theorem find?_erase (n : Notes) (key other : String) :
    (n.erase key).find? other = if other = key then none else n.find? other := by
  refine Option.ext fun v => ?_
  rw [find?_eq_some_iff, erase, List.mem_filter, ← find?_eq_some_iff]
  by_cases h : other = key <;> simp [h]

theorem erase_erase (n : Notes) (key : String) : (n.erase key).erase key = n.erase key := by
  refine ext_find? fun other => ?_
  rw [find?_erase, find?_erase]
  split <;> rfl

end Notes

end TypedForest
