import TypedForest.Store.Annotation
import TypedForest.Store.Assign

namespace TypedForest

/-!
# The view of a store under its writes

`Store.node?` is how a store is seen.  For each basic write this module says what is seen
afterwards, at the handle that was written to and at all others:

* `Store.node?_modifyNode`, `Store.node?_adopt` : changing a node, setting parents;
* `Store.node?_insert` : a new node in a free place, when the free places are free;
* `Store.node?_dropNotes` : taking notes off marked nodes.

`Store.occupancy` is the other half of the state: which places hold a node.
-/

theorem Handle.eq_of_index_of_generation {a b : Handle} (hi : a.index = b.index)
    (hg : a.generation = b.generation) : a = b := by
  cases a
  cases b
  simp_all

namespace Store

/-! ### Finding a node -/

/-- A node is found at its index if the generation is right. -/
theorem node?_eq_some_iff {s : Store} {h : Handle} {n : Node} :
    s.node? h = some n ↔
      ∃ e, s.entries[h.index]? = some e ∧ e.generation = h.generation ∧ e.node = some n := by
  unfold node?
  cases s.entries[h.index]? with
  | none => simp
  | some e => by_cases hg : e.generation = h.generation <;> simp [hg]

/-- A handle is alive if it leads to a node. -/
theorem isAlive_iff {s : Store} {h : Handle} : s.isAlive h = true ↔ ∃ n, s.node? h = some n :=
  Option.isSome_iff_exists

theorem isAlive_of_node? {s : Store} {h : Handle} {n : Node} (hn : s.node? h = some n) :
    s.isAlive h = true := isAlive_iff.mpr ⟨n, hn⟩

/-- A stale handle leads nowhere. -/
theorem node?_eq_none_iff {s : Store} {h : Handle} :
    s.node? h = none ↔ s.isAlive h = false := by
  rw [isAlive, Option.isSome_eq_false_iff, Option.isNone_iff_eq_none]

/-- What is read is the node that is there. -/
theorem get_eq_ok_iff {s : Store} {h : Handle} {n : Node} :
    s.get h = .ok n ↔ s.node? h = some n := by
  unfold get
  cases s.node? h <;> simp

/-- A kind that is read is that of the node. -/
theorem kindOf_eq_ok_iff {s : Store} {h : Handle} {k : KindId} :
    s.kindOf h = .ok k ↔ ∃ n, s.node? h = some n ∧ n.kind = k := by
  unfold kindOf get
  cases s.node? h <;> simp [Except.map]

/-- The handles of two nodes in the same place are the same. -/
theorem eq_of_index_eq {s : Store} {a b : Handle} {m n : Node} (ha : s.node? a = some m)
    (hb : s.node? b = some n) (h : a.index = b.index) : a = b := by
  obtain ⟨e, he, hge, -⟩ := node?_eq_some_iff.mp ha
  obtain ⟨f, hf, hgf, -⟩ := node?_eq_some_iff.mp hb
  rw [h, hf, Option.some.injEq] at he
  exact Handle.eq_of_index_of_generation h (by rw [← hge, ← hgf, he])

/-- A node is in a place that the store has. -/
theorem index_lt_of_node? {s : Store} {h : Handle} {n : Node} (hn : s.node? h = some n) :
    h.index < s.entries.size := by
  obtain ⟨e, he, -⟩ := node?_eq_some_iff.mp hn
  exact (Array.getElem?_eq_some_iff.mp he).1

/-! ### Changing nodes -/

@[simp] theorem schema_modifyNode (s : Store) (h : Handle) (f : Node → Node) :
    (s.modifyNode h f).schema = s.schema := rfl

@[simp] theorem free_modifyNode (s : Store) (h : Handle) (f : Node → Node) :
    (s.modifyNode h f).free = s.free := rfl

@[simp] theorem live_modifyNode (s : Store) (h : Handle) (f : Node → Node) :
    (s.modifyNode h f).live = s.live := rfl

/-- A change to a node is seen there and nowhere else. -/
theorem node?_modifyNode (s : Store) (h x : Handle) (f : Node → Node) :
    (s.modifyNode h f).node? x = if x = h then (s.node? x).map f else s.node? x := by
  unfold node? modifyNode
  by_cases hi : x.index = h.index
  · rw [hi, Array.getElem?_modify, if_pos rfl]
    cases s.entries[h.index]? with
    | none => simp
    | some e =>
      by_cases hx : x = h
      · subst hx
        by_cases hg : e.generation = x.generation <;> simp [hg]
      · -- another generation of the same place: at most one of the two is current
        have hne : h.generation ≠ x.generation := fun hg =>
          hx (Handle.eq_of_index_of_generation hi hg.symm)
        by_cases hg : e.generation = h.generation
        · simp [hx, hg, hne]
        · simp [hx, hg]
  · have hx : x ≠ h := fun hx => hi (congrArg Handle.index hx)
    rw [if_neg hx, Array.getElem?_modify, if_neg (fun e => hi e.symm)]

/-- The changed node is found under its handle. -/
theorem node?_modifyNode_self {s : Store} {h : Handle} {n : Node} (hn : s.node? h = some n)
    (f : Node → Node) : (s.modifyNode h f).node? h = some (f n) := by
  rw [node?_modifyNode, if_pos rfl, hn, Option.map_some]

/-- Two changes that do the same to the node in hand do the same to the store. -/
theorem modifyNode_congr {s : Store} {h : Handle} {f g : Node → Node}
    (hfg : ∀ n, s.node? h = some n → f n = g n) : s.modifyNode h f = s.modifyNode h g := by
  unfold modifyNode
  congr 1
  apply Array.ext_getElem?
  intro i
  rw [Array.getElem?_modify, Array.getElem?_modify]
  by_cases hi : h.index = i
  · rw [if_pos hi, if_pos hi]
    cases he : s.entries[i]? with
    | none => rfl
    | some e =>
      by_cases hg : e.generation = h.generation
      · cases hn : e.node with
        | none => simp [hg, hn]
        | some n =>
          -- only a node that the handle leads to is changed
          have hfound : s.node? h = some n :=
            node?_eq_some_iff.mpr ⟨e, by rw [hi, he], hg, hn⟩
          simp [hg, hn, hfg n hfound]
      · simp [hg]
  · rw [if_neg hi, if_neg hi]

/-- One change after the other is the change by both. -/
theorem modifyNode_modifyNode (s : Store) (h : Handle) (f g : Node → Node) :
    (s.modifyNode h f).modifyNode h g = s.modifyNode h (g ∘ f) := by
  unfold modifyNode
  congr 1
  apply Array.ext_getElem?
  intro i
  simp only [Array.getElem?_modify]
  by_cases hi : h.index = i
  · simp only [if_pos hi]
    cases s.entries[i]? with
    | none => rfl
    | some e => by_cases hg : e.generation = h.generation <;> simp [hg]
  · simp only [if_neg hi]

/-- A change that leaves the node as it is leaves the store as it is. -/
theorem modifyNode_eq_self {s : Store} {h : Handle} {f : Node → Node}
    (hf : ∀ n, s.node? h = some n → f n = n) : s.modifyNode h f = s := by
  rw [modifyNode_congr (g := id) hf]
  unfold modifyNode
  congr 1
  apply Array.ext_getElem?
  intro i
  rw [Array.getElem?_modify]
  by_cases hi : h.index = i
  · rw [if_pos hi]
    cases s.entries[i]? with
    | none => rfl
    | some e =>
      show some (if e.generation = h.generation then { e with node := e.node.map id } else e)
        = some e
      rw [Option.map_id_fun]
      exact congrArg some (ite_self e)
  · rw [if_neg hi]

/-- Writing what is in a slot changes nothing. -/
theorem modifyNode_set_self {s : Store} {h : Handle} {n : Node} (hn : s.node? h = some n) {i : Nat}
    {c : Content} (hc : n.children[i]? = some c) :
    (s.modifyNode h fun n => { n with children := n.children.set i c }) = s := by
  refine modifyNode_eq_self fun m hm => ?_
  rw [hn, Option.some.injEq] at hm
  subst hm
  obtain ⟨hi, rfl⟩ := List.getElem?_eq_some_iff.mp hc
  rw [List.set_getElem_self]

@[simp] theorem schema_adopt (s : Store) (p : Handle) (cs : List Handle) :
    (s.adopt p cs).schema = s.schema := by
  induction cs generalizing s with
  | nil => rfl
  | cons c cs ih => exact ih _

@[simp] theorem free_adopt (s : Store) (p : Handle) (cs : List Handle) :
    (s.adopt p cs).free = s.free := by
  induction cs generalizing s with
  | nil => rfl
  | cons c cs ih => exact ih _

@[simp] theorem live_adopt (s : Store) (p : Handle) (cs : List Handle) :
    (s.adopt p cs).live = s.live := by
  induction cs generalizing s with
  | nil => rfl
  | cons c cs ih => exact ih _

/-- After an adoption the children have the new parent and nothing else is different. -/
theorem node?_adopt (s : Store) (p : Handle) (cs : List Handle) (x : Handle) :
    (s.adopt p cs).node? x
      = (s.node? x).map fun n => if x ∈ cs then { n with parent := some p } else n := by
  induction cs generalizing s with
  | nil => simp [adopt]
  | cons c cs ih =>
    rw [adopt, List.foldl_cons]
    show (adopt _ p cs).node? x = _
    rw [ih, node?_modifyNode]
    by_cases hx : x = c
    · rw [if_pos hx, Option.map_map]
      refine congrArg (fun f => Option.map f _) (funext fun n => ?_)
      by_cases hxs : x ∈ cs <;> simp [hx]
    · rw [if_neg hx]
      simp [hx]

/-! ### Places -/

/-- Which places hold a node. -/
def occupancy (s : Store) : Array Bool := s.entries.map fun e => e.node.isSome

@[simp] theorem size_occupancy (s : Store) : s.occupancy.size = s.entries.size :=
  Array.size_map

/-- A live node takes its place. -/
theorem occupancy_eq_true_of_node? {s : Store} {h : Handle} {n : Node}
    (hn : s.node? h = some n) : s.occupancy[h.index]? = some true := by
  obtain ⟨e, he, -, hnode⟩ := node?_eq_some_iff.mp hn
  rw [occupancy, Array.getElem?_map, he, Option.map_some, hnode, Option.isSome_some]

/-- A change to a node takes and frees no place. -/
@[simp] theorem occupancy_modifyNode (s : Store) (h : Handle) (f : Node → Node) :
    (s.modifyNode h f).occupancy = s.occupancy := by
  apply Array.ext_getElem?
  intro i
  rw [occupancy, occupancy, Array.getElem?_map, Array.getElem?_map, modifyNode,
    Array.getElem?_modify]
  by_cases hi : h.index = i
  · rw [if_pos hi]
    cases s.entries[i]? with
    | none => rfl
    | some e => by_cases hg : e.generation = h.generation <;> simp [hg]
  · rw [if_neg hi]

/-- Nor does adopting children. -/
@[simp] theorem occupancy_adopt (s : Store) (p : Handle) (cs : List Handle) :
    (s.adopt p cs).occupancy = s.occupancy := by
  induction cs generalizing s with
  | nil => rfl
  | cons c cs ih => exact (ih _).trans (occupancy_modifyNode s c _)

/-! ### A new node -/

@[simp] theorem schema_insert (s : Store) (n : Node) : (s.insert n).2.schema = s.schema := by
  unfold insert
  split <;> rfl

/-- A node that is put in is one node more. -/
@[simp] theorem live_insert (s : Store) (n : Node) : (s.insert n).2.live = s.live + 1 := by
  unfold insert
  split <;> rfl

/-- The free places that are listed hold no node. -/
def FreePlaces (s : Store) : Prop := ∀ i ∈ s.free, s.occupancy[i]? = some false

/-- The handle of a new node was not in use. -/
theorem node?_insert_fst {s : Store} (hs : s.FreePlaces) (n : Node) :
    s.node? (s.insert n).1 = none := by
  refine Option.eq_none_iff_forall_ne_some.mpr fun m hm => ?_
  have hocc := occupancy_eq_true_of_node? hm
  unfold insert at hocc
  split at hocc
  · next i rest hfree =>
    rw [hs i (hfree ▸ List.mem_cons_self)] at hocc
    cases hocc
  · rw [Array.getElem?_eq_none (by simp)] at hocc
    cases hocc

/-- After an insertion the new node is found under its handle, and nothing else is
    different. -/
theorem node?_insert {s : Store} (hs : s.FreePlaces) (n : Node) (x : Handle) :
    (s.insert n).2.node? x = if x = (s.insert n).1 then some n else s.node? x := by
  unfold insert
  split
  · next i rest hfree =>
    -- the place exists and has no node, so no handle finds one there
    obtain ⟨e, he, hnone⟩ : ∃ e, s.entries[i]? = some e ∧ e.node = none := by
      have := hs i (hfree ▸ List.mem_cons_self)
      rw [occupancy, Array.getElem?_map, Option.map_eq_some_iff] at this
      obtain ⟨e, he, hnode⟩ := this
      exact ⟨e, he, by simpa using hnode⟩
    unfold node?
    simp only [Array.getElem?_modify, he, Option.map_some, Option.getD_some]
    by_cases hi : x.index = i
    · by_cases hg : e.generation = x.generation
      · have hx : x = ⟨i, e.generation⟩ := Handle.eq_of_index_of_generation hi hg.symm
        simp [hx, he]
      · have hx : x ≠ ⟨i, e.generation⟩ := fun h => hg (congrArg Handle.generation h).symm
        simp [hx, hi, he, hg]
    · have hx : x ≠ ⟨i, e.generation⟩ := fun h => hi (congrArg Handle.index h)
      simp [hx, Ne.symm hi]
  · unfold node?
    simp only [Array.getElem?_push]
    by_cases hi : x.index = s.entries.size
    · by_cases hg : x.generation = 0
      · have hx : x = ⟨s.entries.size, 0⟩ := Handle.eq_of_index_of_generation hi hg
        simp [hx]
      · have hx : x ≠ ⟨s.entries.size, 0⟩ := fun h => hg (congrArg Handle.generation h)
        simp [hx, hi, Ne.symm hg]
    · have hx : x ≠ ⟨s.entries.size, 0⟩ := fun h => hi (congrArg Handle.index h)
      simp [hx, hi]

/-! ### Notes of marked nodes -/

/-- Deleting notes takes and frees no place. -/
@[simp] theorem occupancy_dropNotes (s : Store) (key : String) (marks : Array Bool) :
    (s.dropNotes key marks).occupancy = s.occupancy := by
  apply Array.ext_getElem?
  intro i
  rw [occupancy, occupancy, Array.getElem?_map, Array.getElem?_map, dropNotes,
    Array.getElem?_mapIdx]
  cases s.entries[i]? with
  | none => rfl
  | some e => by_cases hm : isMarked marks i <;> simp [hm]

/-- A note is deleted from the nodes that are marked. -/
theorem node?_dropNotes (s : Store) (key : String) (marks : Array Bool) (x : Handle) :
    (s.dropNotes key marks).node? x
      = (s.node? x).map fun n => if isMarked marks x.index then dropNote key n else n := by
  unfold node? dropNotes
  simp only [Array.getElem?_mapIdx]
  cases s.entries[x.index]? with
  | none => rfl
  | some e =>
    by_cases hm : isMarked marks x.index <;>
      by_cases hg : e.generation = x.generation <;> simp [hm, hg]

end Store

end TypedForest
