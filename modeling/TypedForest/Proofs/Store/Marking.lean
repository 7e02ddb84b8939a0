import TypedForest.Proofs.Store.WellFormed
import TypedForest.Store.Sweep

namespace TypedForest

/-!
# Marking and sweeping

The marks that `Store.mark` leaves are closed: a child of a marked node is marked
(`Store.closed_reachable`).  The invariant of the marker is that a child of a marked node is
marked or still to be visited (`Store.Pending`).

A sweep by closed marks keeps the store well-formed (`Store.WellFormed.swept`): a node that
stays keeps all its children, loses a parent that goes, and the places of the nodes that go
are entered in the free list.
-/

namespace Store

/-! ### The marks -/

/-- A child of a marked node is marked or on the list of those to visit. -/
def Pending (s : Store) (todo : List Handle) (marks : Array Bool) : Prop :=
  ∀ h n, s.node? h = some n → isMarked marks h.index = true →
    ∀ c ∈ n.childNodes, s.isAlive c = true → isMarked marks c.index = true ∨ c ∈ todo

/-- A child of a marked node is marked. -/
def Closed (s : Store) (marks : Array Bool) : Prop :=
  ∀ h n, s.node? h = some n → isMarked marks h.index = true →
    ∀ c ∈ n.childNodes, s.isAlive c = true → isMarked marks c.index = true

/-- A new mark is one mark more. -/
theorem isMarked_setIfInBounds {marks : Array Bool} {i j : Nat} (hi : i < marks.size) :
    isMarked (marks.setIfInBounds i true) j = (decide (i = j) || isMarked marks j) := by
  unfold isMarked
  rw [Array.getElem?_setIfInBounds]
  by_cases hij : i = j
  · subst hij
    simp [hi]
  · simp [hij]

/-- The place of a live node has a mark, which is set if it is not unset. -/
theorem isMarked_of_ne_false {s : Store} {marks : Array Bool}
    (hsize : marks.size = s.entries.size) {h : Handle} {n : Node} (hn : s.node? h = some n)
    (hm : ¬ marks[h.index]? = some false) : isMarked marks h.index = true := by
  have hlt : h.index < marks.size := by
    rw [hsize]
    exact index_lt_of_node? hn
  rw [Array.getElem?_eq_getElem hlt, Option.some.injEq] at hm
  rw [isMarked, Array.getElem?_eq_getElem hlt, Option.getD_some]
  simpa using hm

/-- Marking ends with closed marks if it starts with every child marked or to be visited. -/
theorem closed_mark {s : Store} {todo : List Handle} {marks : Array Bool}
    (hsize : marks.size = s.entries.size) (hp : s.Pending todo marks) :
    s.Closed (s.mark todo marks) := by
  induction todo, marks using mark.induct s with
  | case1 marks =>
    intro h n hn hm c hc halive
    rw [mark] at hm ⊢
    -- nothing is left to do, and so nothing waits
    rcases hp h n hn hm c hc halive with h | h
    · exact h
    · cases h
  | case2 marks h rest hdead ih =>
    -- a stale handle is left out, and a live child is another one
    rw [mark, hdead]
    refine ih hsize fun x n hn hm c hc halive => ?_
    rcases hp x n hn hm c hc halive with hmark | hmem
    · exact .inl hmark
    · rcases List.mem_cons.mp hmem with rfl | hmem
      · obtain ⟨m, hm'⟩ := isAlive_iff.mp halive
        rw [hdead] at hm'
        cases hm'
      · exact .inr hmem
  | case3 marks h rest n hn hm ih =>
    -- `h` is marked now: its children go to the front of the list
    have hlt : h.index < marks.size := (Array.getElem?_eq_some_iff.mp hm).1
    rw [mark, hn]
    simp only [hm, dite_true]
    refine ih (by rw [Array.size_setIfInBounds]; exact hsize) fun x m hx hmark c hc halive => ?_
    rw [isMarked_setIfInBounds hlt, Bool.or_eq_true, decide_eq_true_eq] at hmark ⊢
    by_cases hxh : x = h
    · subst hxh
      rw [hn, Option.some.injEq] at hx
      exact .inr (List.mem_append_left _ (hx ▸ hc))
    · have hold : isMarked marks x.index = true := by
        rcases hmark with hidx | hold
        · exact absurd (eq_of_index_eq hn hx hidx).symm hxh
        · exact hold
      rcases hp x m hx hold c hc halive with hcm | hmem
      · exact .inl (.inr hcm)
      · rcases List.mem_cons.mp hmem with rfl | hmem
        · exact .inl (.inl rfl)
        · exact .inr (List.mem_append_right _ hmem)
  | case4 marks h rest n hn hm ih =>
    -- the place of `h` has its mark already
    have hmarked : isMarked marks h.index = true := isMarked_of_ne_false hsize hn hm
    rw [mark, hn]
    simp only [hm, dite_false]
    refine ih hsize fun x m hx hmark c hc halive => ?_
    rcases hp x m hx hmark c hc halive with hcm | hmem
    · exact .inl hcm
    · rcases List.mem_cons.mp hmem with rfl | hmem
      · exact .inl hmarked
      · exact .inr hmem

/-- In the beginning nothing is marked. -/
theorem isMarked_replicate_false (n i : Nat) : isMarked (Array.replicate n false) i = false := by
  unfold isMarked
  rw [Array.getElem?_replicate]
  split <;> rfl

/-- The marks of what can be reached are closed. -/
theorem closed_reachable (s : Store) (roots : List Handle) : s.Closed (s.reachable roots) := by
  refine closed_mark Array.size_replicate fun h n _ hm => ?_
  rw [isMarked_replicate_false] at hm
  cases hm

/-! ### The sweep -/

/-- The store after a sweep by the given marks. -/
def swept (s : Store) (marks : Array Bool) : Store :=
  { s with
    entries := s.entries.mapIdx (s.sweptEntry marks)
    free := (s.garbage marks).reverse ++ s.free
    live := s.live - (s.garbage marks).length }

/-- A sweep succeeds if its roots are alive, and keeps what is reachable from them. -/
theorem sweep_eq_ok_iff {s s' : Store} {roots : List Handle} {n : Nat} :
    sweep roots s = .ok n s' ↔ s.checkAlive roots = .ok () ∧
      n = (s.garbage (s.reachable roots)).length ∧ s' = s.swept (s.reachable roots) := by
  unfold sweep
  cases s.checkAlive roots with
  | error e => simp
  | ok u =>
    constructor
    · intro h
      cases h
      exact ⟨rfl, rfl, rfl⟩
    · rintro ⟨-, rfl, rfl⟩
      rfl

/-- A sweep that fails leaves the store as it was. -/
theorem sweep_eq_error {s s' : Store} {roots : List Handle} {e : NodeError}
    (h : sweep roots s = .error e s') : s' = s := by
  unfold sweep at h
  split at h
  · cases h; rfl
  · cases h

/-- A node that stays, without its parent if that one goes. -/
def cutParent (s : Store) (marks : Array Bool) (n : Node) : Node :=
  { n with parent := n.parent.filter fun p => s.isAlive p && isMarked marks p.index }

/-- After a sweep the marked nodes are found as before, up to their parents, and no others. -/
theorem node?_swept (s : Store) (marks : Array Bool) (x : Handle) :
    (s.swept marks).node? x
      = if isMarked marks x.index then (s.node? x).map (s.cutParent marks) else none := by
  unfold node? swept
  simp only [Array.getElem?_mapIdx]
  cases s.entries[x.index]? with
  | none => simp
  | some e =>
    simp only [Option.map_some, sweptEntry]
    cases hn : e.node with
    | none => by_cases hg : e.generation = x.generation <;> simp [hn, hg]
    | some n =>
      by_cases hm : isMarked marks x.index
      · by_cases hg : e.generation = x.generation <;> simp [hm, hg, cutParent]
      · simp [hm]

/-- A place is still taken if it is marked. -/
theorem getElem?_occupancy_swept (s : Store) (marks : Array Bool) (i : Nat) :
    (s.swept marks).occupancy[i]? = s.occupancy[i]?.map (· && isMarked marks i) := by
  rw [occupancy, occupancy, swept, Array.getElem?_map, Array.getElem?_map,
    Array.getElem?_mapIdx]
  cases s.entries[i]? with
  | none => rfl
  | some e =>
    simp only [Option.map_some, sweptEntry]
    cases hn : e.node with
    | none => simp [hn]
    | some n => by_cases hm : isMarked marks i <;> simp [hm]

/-- What goes was there, and has no mark. -/
theorem mem_garbage_iff {s : Store} {marks : Array Bool} {i : Nat} :
    i ∈ s.garbage marks ↔ s.occupancy[i]? = some true ∧ isMarked marks i = false := by
  rw [garbage, List.mem_filter, List.mem_range, occupancy, Array.getElem?_map]
  by_cases hi : i < s.entries.size
  · simp [hi]
  · simp [hi]

/-- No place goes twice. -/
theorem nodup_garbage (s : Store) (marks : Array Bool) : (s.garbage marks).Nodup :=
  List.nodup_range.filter _

/-- The nodes that go and the nodes that stay are all nodes. -/
theorem count_occupancy_swept (s : Store) (marks : Array Bool) :
    (s.swept marks).occupancy.count true + (s.garbage marks).length = s.occupancy.count true := by
  have hsize : (s.swept marks).occupancy.size = s.occupancy.size := by
    simp [swept]
  have hstay : (List.range s.occupancy.size).filter
        (fun i => (s.swept marks).occupancy[i]? == some true)
      = ((List.range s.occupancy.size).filter (isMarked marks)).filter
          fun i => s.occupancy[i]? == some true := by
    rw [List.filter_filter]
    refine List.filter_congr fun i _ => ?_
    rw [getElem?_occupancy_swept]
    cases s.occupancy[i]? with
    | none => rfl
    | some b => cases b <;> cases isMarked marks i <;> rfl
  have hgo : s.garbage marks
      = ((List.range s.occupancy.size).filter (fun i => !isMarked marks i)).filter
          fun i => s.occupancy[i]? == some true := by
    rw [List.filter_filter, garbage, size_occupancy]
    refine List.filter_congr fun i _ => ?_
    rw [occupancy, Array.getElem?_map]
    cases s.entries[i]? with
    | none => rfl
    | some e => cases e.node <;> simp
  rw [← length_filter_range_eq_count, ← length_filter_range_eq_count, hsize, hstay, hgo,
    ← List.countP_eq_length_filter, ← List.countP_eq_length_filter,
    ← List.countP_eq_length_filter]
  exact (List.countP_eq_countP_filter_add _ _ _).symm

/-- The books are in order after a sweep. -/
theorem Booked.swept {s : Store} (hs : s.Booked) (marks : Array Bool) :
    (s.swept marks).Booked where
  size := by
    show (s.entries.mapIdx _).size ≤ maxNodes
    rw [Array.size_mapIdx]
    exact hs.size
  live := by
    have hcount := count_occupancy_swept s marks
    show s.live - (s.garbage marks).length = _
    rw [hs.live]
    omega
  nodup := by
    refine List.Nodup.append (List.nodup_reverse.mpr (nodup_garbage s marks)) hs.nodup ?_
    intro i hi hfree
    rw [List.mem_reverse, mem_garbage_iff] at hi
    rw [hs.free i, hi.1] at hfree
    cases hfree
  free := by
    intro i
    show i ∈ (s.garbage marks).reverse ++ s.free ↔ _
    rw [List.mem_append, List.mem_reverse, mem_garbage_iff, hs.free i, getElem?_occupancy_swept]
    cases s.occupancy[i]? with
    | none => simp
    | some b => cases b <;> simp

/-- **Sweeping keeps the invariant.**  With closed marks the children of a node that stays
    stay as well, and the parent that it keeps is one that stays. -/
theorem WellFormed.swept {s : Store} (hs : s.WellFormed) {marks : Array Bool}
    (hclosed : s.Closed marks) : (s.swept marks).WellFormed := by
  refine (hs.booked.swept marks).wellFormed fun h n hn => ?_
  rw [node?_swept] at hn
  by_cases hm : isMarked marks h.index = true
  swap
  · rw [if_neg hm] at hn
    cases hn
  rw [if_pos hm, Option.map_eq_some_iff] at hn
  obtain ⟨m, hfound, rfl⟩ := hn
  have hfit := hs.nodes h m hfound
  refine ⟨hfit.kind, hfit.values, ?_, fun p hp => ?_⟩
  · refine List.forall₂_iff_get.mpr ⟨hfit.children.length_eq, fun i hi hj => ?_⟩
    have hadm := (List.forall₂_iff_get.mp hfit.children).2 i hi hj
    refine ⟨hadm.shape, fun c hc => ?_⟩
    obtain ⟨d, hd, hsub⟩ := hadm.nodes c hc
    have hchild : c ∈ m.childNodes := List.mem_flatMap.mpr ⟨_, List.getElem_mem hj, hc⟩
    have hcm := hclosed h m hfound hm c hchild (isAlive_of_node? hd)
    exact ⟨s.cutParent marks d, by rw [node?_swept, if_pos hcm, hd, Option.map_some], hsub⟩
  · obtain ⟨-, hstay⟩ := Option.filter_eq_some_iff.mp hp
    rw [Bool.and_eq_true] at hstay
    obtain ⟨q, hq⟩ := isAlive_iff.mp hstay.1
    exact isAlive_of_node? (by rw [node?_swept, if_pos hstay.2, hq, Option.map_some])

/-- A sweep that succeeds leaves a well-formed store. -/
theorem WellFormed.sweep {s s' : Store} (hs : s.WellFormed) {roots : List Handle} {n : Nat}
    (h : Store.sweep roots s = .ok n s') : s'.WellFormed := by
  obtain ⟨-, -, rfl⟩ := sweep_eq_ok_iff.mp h
  exact hs.swept (closed_reachable s roots)

end Store

end TypedForest
