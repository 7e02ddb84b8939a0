import TypedForest.Value.Basic

namespace TypedForest

/-!
# Notes

Notes are values under text keys.  They are kept in ascending order of the keys, so
that notes with the same keys and values are equal as data, and reading them in
order needs no sorting.
-/

/-- Values under distinct keys, in ascending order of the keys. -/
structure Notes where
  entries : List (String × Value)
  sorted : entries.Pairwise fun a b => a.1 < b.1
deriving DecidableEq, Repr

namespace Notes

/-- No notes. -/
def empty : Notes := ⟨[], .nil⟩

instance : Inhabited Notes := ⟨empty⟩

/-- The value under a key. -/
def find? (n : Notes) (key : String) : Option Value := n.entries.lookup key

/-- Whether there is a value under a key. -/
def contains (n : Notes) (key : String) : Bool := n.entries.any (·.1 == key)

/-- Puts a value under a key, in place of the one that is there. -/
def insertEntry (key : String) (v : Value) : List (String × Value) → List (String × Value)
  | [] => [(key, v)]
  | (k, w) :: rest =>
    if key < k then (key, v) :: (k, w) :: rest
    else if key = k then (key, v) :: rest
    else (k, w) :: insertEntry key v rest

theorem mem_insertEntry {key : String} {v : Value} {e : String × Value} :
    ∀ {es : List (String × Value)}, e ∈ insertEntry key v es → e = (key, v) ∨ e ∈ es
  | [], h => by simpa [insertEntry] using h
  | (k, w) :: rest, h => by
    unfold insertEntry at h
    split at h
    · simpa using h
    · split at h
      · rcases List.mem_cons.mp h with h | h
        · exact .inl h
        · exact .inr (List.mem_cons_of_mem _ h)
      · rcases List.mem_cons.mp h with h | h
        · exact .inr (h ▸ List.mem_cons_self)
        · rcases mem_insertEntry h with h | h
          · exact .inl h
          · exact .inr (List.mem_cons_of_mem _ h)

/-- Insertion keeps the order of the keys. -/
theorem pairwise_insertEntry (key : String) (v : Value) :
    ∀ {es : List (String × Value)}, es.Pairwise (fun a b => a.1 < b.1) →
      (insertEntry key v es).Pairwise fun a b => a.1 < b.1
  | [], _ => by simp [insertEntry]
  | (k, w) :: rest, h => by
    obtain ⟨hk, hrest⟩ := List.pairwise_cons.mp h
    unfold insertEntry
    split
    · -- the new key is the least
      next hlt =>
      refine List.pairwise_cons.mpr ⟨fun e he => ?_, h⟩
      rcases List.mem_cons.mp he with rfl | he
      · exact hlt
      · exact String.lt_trans hlt (hk e he)
    · next hlt =>
      split
      · next heq => exact List.pairwise_cons.mpr ⟨fun e he => heq ▸ hk e he, hrest⟩
      · next hne =>
        refine List.pairwise_cons.mpr ⟨fun e he => ?_, pairwise_insertEntry key v hrest⟩
        rcases mem_insertEntry he with rfl | he
        · show k < key
          grind
        · exact hk e he

/-- Puts a value under a key, in place of the one that is there. -/
def insert (n : Notes) (key : String) (v : Value) : Notes :=
  ⟨insertEntry key v n.entries, pairwise_insertEntry key v n.sorted⟩

/-- Takes away the value under a key. -/
def erase (n : Notes) (key : String) : Notes :=
  ⟨n.entries.filter (·.1 != key), n.sorted.filter _⟩

/-- The notes with the given entries; of entries with the same key the last one
    counts. -/
def ofList (entries : List (String × Value)) : Notes :=
  entries.foldl (fun n e => n.insert e.1 e.2) empty

end Notes

end TypedForest
