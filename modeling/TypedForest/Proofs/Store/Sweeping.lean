import TypedForest.Proofs.Store.Run
import TypedForest.Proofs.Tree.Unfolding

namespace TypedForest

/-!
# What a sweep leaves

A sweep keeps exactly the nodes that can be reached from its roots, on every graph: nodes may be
shared, and ways may lead back to where they came from.

* `Store.handles` : the handles of all live nodes, against which nodes are counted;
* `Store.isMarked_reachable_iff` : the marks are those of the nodes that can be reached;
* `Store.Reclaims` : what a sweep does to a store, as seen through its nodes;
* `Store.sweep_exact` : every sweep does this or fails for a stale root.

Marking never visits a place twice, so it ends; that what it marks is closed under children was
shown with the invariant.  Here it remains that it marks the roots and nothing beyond what they
reach.
-/

namespace Store

/-! ### Counting nodes by their handles -/

/-- The handle of the node at a place, if there is one. -/
def handleAt? (s : Store) (i : Nat) : Option Handle :=
  s.entries[i]?.bind fun e => e.node.map fun _ => ⟨i, e.generation⟩

/-- The handles of all live nodes, in the order of their places. -/
def handles (s : Store) : List Handle := (List.range s.entries.size).filterMap s.handleAt?

/-- The handle at a place is the live one with its index. -/
theorem handleAt?_eq_some_iff {s : Store} {i : Nat} {h : Handle} :
    s.handleAt? i = some h ↔ h.index = i ∧ s.isAlive h = true := by
  rw [handleAt?, isAlive_iff]
  constructor
  · intro hat
    obtain ⟨e, he, hmap⟩ := Option.bind_eq_some_iff.mp hat
    obtain ⟨n, hn, rfl⟩ := Option.map_eq_some_iff.mp hmap
    exact ⟨rfl, n, node?_eq_some_iff.mpr ⟨e, he, rfl, hn⟩⟩
  · rintro ⟨rfl, n, hn⟩
    obtain ⟨e, he, hg, hnode⟩ := node?_eq_some_iff.mp hn
    refine Option.bind_eq_some_iff.mpr ⟨e, he, Option.map_eq_some_iff.mpr ⟨n, hnode, ?_⟩⟩
    exact Handle.eq_of_index_of_generation rfl hg

/-- The handles of a store are those that are alive. -/
theorem mem_handles_iff {s : Store} {h : Handle} : h ∈ s.handles ↔ s.isAlive h = true := by
  rw [handles, List.mem_filterMap]
  constructor
  · rintro ⟨i, -, hi⟩
    exact (handleAt?_eq_some_iff.mp hi).2
  · intro halive
    obtain ⟨n, hn⟩ := isAlive_iff.mp halive
    exact ⟨h.index, List.mem_range.mpr (index_lt_of_node? hn),
      handleAt?_eq_some_iff.mpr ⟨rfl, halive⟩⟩

/-- Each of them is listed once. -/
theorem nodup_handles (s : Store) : s.handles.Nodup := by
  refine List.Nodup.filterMap (fun i j h hi hj => ?_) List.nodup_range
  exact (handleAt?_eq_some_iff.mp hi).1.symm.trans (handleAt?_eq_some_iff.mp hj).1

/-- There is a handle where the place is taken. -/
theorem isSome_handleAt? (s : Store) (i : Nat) :
    (s.handleAt? i).isSome = (s.occupancy[i]? == some true) := by
  rw [handleAt?, occupancy, Array.getElem?_map]
  cases s.entries[i]? with
  | none => rfl
  | some e => cases he : e.node <;> simp [he]

/-- There are as many handles as the store counts nodes. -/
theorem Booked.length_handles {s : Store} (hs : s.Booked) : s.handles.length = s.live := by
  rw [hs.live, ← length_filter_range_eq_count, size_occupancy, handles,
    List.length_filterMap_eq_countP, List.countP_eq_length_filter]
  simp only [isSome_handleAt?]

/-- When all nodes of `s'` are alive in `s` too, the other nodes of `s` make up the difference
    between the two counts. -/
theorem Booked.live_add_length_filter {s s' : Store} (hs : s.Booked) (hs' : s'.Booked)
    (hsub : ∀ h, s'.isAlive h = true → s.isAlive h = true) :
    s'.live + (s.handles.filter fun h => !s'.isAlive h).length = s.live := by
  have hboth : (s.handles.filter s'.isAlive).Perm s'.handles := by
    refine (List.perm_ext_iff_of_nodup ((nodup_handles s).filter _) (nodup_handles s')).mpr ?_
    intro h
    rw [List.mem_filter, mem_handles_iff, mem_handles_iff]
    exact ⟨fun hh => hh.2, fun hh => ⟨hsub h hh, hh⟩⟩
  rw [← hs.length_handles, ← hs'.length_handles, ← hboth.length_eq]
  exact (List.length_eq_length_filter_add s'.isAlive).symm

/-! ### The marks are those of the nodes that can be reached -/

/-- One of the nodes `roots` leads down to the node. -/
def ReachedFrom (s : Store) (roots : List Handle) (h : Handle) : Prop :=
  ∃ r ∈ roots, s.Reaches r h

/-- What is reached has children that are reached. -/
theorem ReachedFrom.child {s : Store} {roots : List Handle} {h c : Handle}
    (hh : s.ReachedFrom roots h) (hc : s.Child h c) : s.ReachedFrom roots c := by
  obtain ⟨r, hr, hreach⟩ := hh
  exact ⟨r, hr, hreach.tail hc⟩

/-- In a well-formed store only live nodes can be reached from live nodes. -/
theorem WellFormed.isAlive_of_reachedFrom {s : Store} (hs : s.WellFormed) {roots : List Handle}
    (hroots : ∀ r ∈ roots, s.isAlive r = true) {h : Handle} (hh : s.ReachedFrom roots h) :
    s.isAlive h = true := by
  obtain ⟨r, hr, hreach⟩ := hh
  cases Relation.ReflTransGen.cases_tail hreach with
  | inl heq => exact heq ▸ hroots r hr
  | inr hlast =>
    obtain ⟨p, -, n, hn, hmem⟩ := hlast
    obtain ⟨m, hm⟩ := (hs.nodes p n hn).childNodes hmem
    exact isAlive_of_node? hm

/-- A mark that is set stays set. -/
theorem isMarked_mark_of_isMarked {s : Store} {todo : List Handle} {marks : Array Bool} {i : Nat}
    (hi : isMarked marks i = true) : isMarked (s.mark todo marks) i = true := by
  induction todo, marks using mark.induct s with
  | case1 marks =>
    rw [mark]
    exact hi
  | case2 marks h rest hdead ih =>
    rw [mark, hdead]
    exact ih hi
  | case3 marks h rest n hn hm ih =>
    have hlt : h.index < marks.size := (Array.getElem?_eq_some_iff.mp hm).1
    rw [mark, hn]
    simp only [hm, dite_true]
    refine ih ?_
    -- marks are only added
    rw [isMarked_setIfInBounds hlt, hi, Bool.or_true]
  | case4 marks h rest n hn hm ih =>
    rw [mark, hn]
    simp only [hm, dite_false]
    exact ih hi

/-- What is on the list and alive gets its mark. -/
theorem isMarked_mark_of_mem {s : Store} {todo : List Handle} {marks : Array Bool}
    (hsize : marks.size = s.entries.size) {h : Handle} (hh : h ∈ todo)
    (halive : s.isAlive h = true) : isMarked (s.mark todo marks) h.index = true := by
  induction todo, marks using mark.induct s with
  | case1 marks => cases hh
  | case2 marks x rest hdead ih =>
    rw [mark, hdead]
    -- the stale handle is not the live one that waits
    refine ih hsize ((List.mem_cons.mp hh).resolve_left ?_)
    rintro rfl
    obtain ⟨n, hn⟩ := isAlive_iff.mp halive
    rw [hdead] at hn
    cases hn
  | case3 marks x rest n hn hm ih =>
    have hlt : x.index < marks.size := (Array.getElem?_eq_some_iff.mp hm).1
    rw [mark, hn]
    simp only [hm, dite_true]
    rcases List.mem_cons.mp hh with rfl | hrest
    · refine isMarked_mark_of_isMarked ?_
      rw [isMarked_setIfInBounds hlt, decide_eq_true rfl, Bool.true_or]
    · refine ih ?_ (List.mem_append_right _ hrest)
      rw [Array.size_setIfInBounds, hsize]
  | case4 marks x rest n hn hm ih =>
    rw [mark, hn]
    simp only [hm, dite_false]
    rcases List.mem_cons.mp hh with rfl | hrest
    · exact isMarked_mark_of_isMarked (isMarked_of_ne_false hsize hn hm)
    · exact ih hsize hrest

/-- Every marked place is that of a live node of `R`. -/
def MarksOnly (s : Store) (R : Handle → Prop) (marks : Array Bool) : Prop :=
  ∀ i, isMarked marks i = true → ∃ h, h.index = i ∧ s.isAlive h = true ∧ R h

/-- Marking stays among the nodes of `R` when `R` goes down to children. -/
theorem marksOnly_mark {s : Store} {R : Handle → Prop} (hR : ∀ h c, R h → s.Child h c → R c)
    {todo : List Handle} {marks : Array Bool} (htodo : ∀ h ∈ todo, R h)
    (hmarks : s.MarksOnly R marks) : s.MarksOnly R (s.mark todo marks) := by
  induction todo, marks using mark.induct s with
  | case1 marks =>
    rw [mark]
    exact hmarks
  | case2 marks h rest hdead ih =>
    rw [mark, hdead]
    exact ih (List.forall_mem_cons.mp htodo).2 hmarks
  | case3 marks h rest n hn hm ih =>
    obtain ⟨hh, hrest⟩ := List.forall_mem_cons.mp htodo
    have hlt : h.index < marks.size := (Array.getElem?_eq_some_iff.mp hm).1
    rw [mark, hn]
    simp only [hm, dite_true]
    refine ih (fun c hc => ?_) fun i hi => ?_
    · -- the children of `h` are in `R` because `h` is
      rcases List.mem_append.mp hc with hchild | hc
      · exact hR h c hh ⟨n, hn, hchild⟩
      · exact hrest c hc
    · rw [isMarked_setIfInBounds hlt, Bool.or_eq_true, decide_eq_true_eq] at hi
      rcases hi with rfl | hi
      · exact ⟨h, rfl, isAlive_of_node? hn, hh⟩
      · exact hmarks i hi
  | case4 marks h rest n hn hm ih =>
    rw [mark, hn]
    simp only [hm, dite_false]
    exact ih (List.forall_mem_cons.mp htodo).2 hmarks

/-- **The marks.**  The place of a live node is marked exactly if a root leads to the node. -/
theorem isMarked_reachable_iff {s : Store} {roots : List Handle} {h : Handle}
    (halive : s.isAlive h = true) :
    isMarked (s.reachable roots) h.index = true ↔ s.ReachedFrom roots h := by
  constructor
  · intro hm
    have honly : s.MarksOnly (s.ReachedFrom roots) (s.reachable roots) := by
      refine marksOnly_mark (fun _ _ => ReachedFrom.child) (fun r hr => ⟨r, hr, .refl⟩) ?_
      intro i hi
      rw [isMarked_replicate_false] at hi
      cases hi
    obtain ⟨x, hindex, hx, hreached⟩ := honly h.index hm
    obtain ⟨m, hm⟩ := isAlive_iff.mp hx
    obtain ⟨n, hn⟩ := isAlive_iff.mp halive
    rwa [eq_of_index_eq hm hn hindex] at hreached
  · rintro ⟨r, hr, hreach⟩
    -- along the way down each mark leads to the next, since the marks are closed
    induction hreach with
    | refl => exact isMarked_mark_of_mem Array.size_replicate hr halive
    | tail _ hc ih =>
      obtain ⟨n, hn, hmem⟩ := hc
      exact closed_reachable s roots _ n hn (ih (isAlive_of_node? hn)) _ hmem halive

/-! ### One sweep -/

/-- The check of roots succeeds if all of them are alive. -/
theorem checkAlive_eq_ok_iff {s : Store} {roots : List Handle} :
    s.checkAlive roots = .ok () ↔ ∀ r ∈ roots, s.isAlive r = true := by
  induction roots with
  | nil => simp [checkAlive]
  | cons r roots ih =>
    rw [checkAlive, List.forall_mem_cons]
    by_cases hr : s.isAlive r = true
    · rw [if_pos hr, ih]
      exact (and_iff_right hr).symm
    · rw [if_neg hr]
      simp [hr]

/-- A root that is refused is stale. -/
theorem checkAlive_eq_error {s : Store} {roots : List Handle} {e : NodeError}
    (h : s.checkAlive roots = .error e) :
    ∃ r ∈ roots, s.isAlive r = false ∧ e = .staleNode r := by
  induction roots with
  | nil => cases h
  | cons r roots ih =>
    rw [checkAlive] at h
    split at h
    · obtain ⟨x, hx, hstale⟩ := ih h
      exact ⟨x, List.mem_cons_of_mem r hx, hstale⟩
    · next hr =>
      cases h
      exact ⟨r, List.mem_cons_self, by simpa using hr, rfl⟩

/-- What is marked stays alive. -/
theorem isAlive_swept_iff {s : Store} {marks : Array Bool} {h : Handle} :
    (s.swept marks).isAlive h = true ↔ s.isAlive h = true ∧ isMarked marks h.index = true := by
  rw [isAlive, node?_swept]
  by_cases hm : isMarked marks h.index = true
  · rw [if_pos hm, Option.isSome_map]
    exact (and_iff_left hm).symm
  · simp [hm]

/-- A sweep that finds every live node marked changes nothing. -/
theorem WellFormed.swept_eq_self {s : Store} (hs : s.WellFormed) {marks : Array Bool}
    (hmarks : ∀ h, s.isAlive h = true → isMarked marks h.index = true) :
    s.garbage marks = [] ∧ s.swept marks = s := by
  -- all live nodes have their marks, and so nothing goes
  have hgarbage : s.garbage marks = [] := by
    refine List.eq_nil_iff_forall_not_mem.mpr fun i hi => ?_
    obtain ⟨hocc, hunmarked⟩ := mem_garbage_iff.mp hi
    have hsome : (s.handleAt? i).isSome = true := by rw [isSome_handleAt?, hocc]; rfl
    obtain ⟨h, hh⟩ := Option.isSome_iff_exists.mp hsome
    obtain ⟨rfl, halive⟩ := handleAt?_eq_some_iff.mp hh
    rw [hmarks h halive] at hunmarked
    cases hunmarked
  have hentries : s.entries.mapIdx (s.sweptEntry marks) = s.entries := by
    apply Array.ext_getElem?
    intro i
    rw [Array.getElem?_mapIdx]
    cases he : s.entries[i]? with
    | none => rfl
    | some e =>
      rw [Option.map_some, Option.some.injEq, sweptEntry]
      cases hnode : e.node with
      | none => rfl
      | some n =>
        have hn : s.node? ⟨i, e.generation⟩ = some n :=
          node?_eq_some_iff.mpr ⟨e, he, rfl, hnode⟩
        -- the parent of a live node is alive and so has its mark
        have hparent : n.parent.filter (fun p => s.isAlive p && isMarked marks p.index)
            = n.parent := by
          cases hp : n.parent with
          | none => rfl
          | some p =>
            have halive := (hs.nodes _ n hn).parent p hp
            simp [halive, hmarks p halive]
        simp only [hmarks _ (isAlive_of_node? hn), if_true, hparent]
        rw [← hnode]
  refine ⟨hgarbage, ?_⟩
  rw [Store.swept, hentries, hgarbage]
  rfl

/-- What a sweep does: from `s` to `s'`, exactly the nodes that `roots` do not lead to are gone,
    and `n` counts them.  A node that stays has its kind, values, children and notes, and its
    parent if that one stays; and there is nothing left for another sweep to do. -/
structure Reclaims (s : Store) (roots : List Handle) (n : Nat) (s' : Store) : Prop where
  schema : s'.schema = s.schema
  alive : ∀ h, s'.isAlive h = true ↔ s.ReachedFrom roots h
  count : n = (s.handles.filter fun h => !s'.isAlive h).length
  live : s'.live + n = s.live
  keeps : ∀ h, s'.isAlive h = true → ∃ m, s.node? h = some m ∧
    s'.node? h = some { m with parent := m.parent.filter s'.isAlive }
  again : sweep roots s' = .ok 0 s'

section

variable {s s' : Store} {roots : List Handle} {n : Nat} (hs : s.WellFormed)
  (hsweep : sweep roots s = .ok n s')
include hsweep

/-- A node that is left has lost its parent at most. -/
theorem node?_sweep {h : Handle} (halive : s'.isAlive h = true) :
    ∃ m, s.node? h = some m ∧
      s'.node? h = some { m with parent := m.parent.filter s'.isAlive } := by
  obtain ⟨-, -, rfl⟩ := sweep_eq_ok_iff.mp hsweep
  obtain ⟨hold, hm⟩ := isAlive_swept_iff.mp halive
  obtain ⟨m, hnode⟩ := isAlive_iff.mp hold
  refine ⟨m, hnode, ?_⟩
  rw [node?_swept, if_pos hm, hnode, Option.map_some, cutParent]
  have hsame : (fun p => s.isAlive p && isMarked (s.reachable roots) p.index)
      = (s.swept (s.reachable roots)).isAlive := by
    funext p
    rw [Bool.eq_iff_iff, Bool.and_eq_true, isAlive_swept_iff]
  rw [hsame]

include hs

/-- A sweep leaves what is reached from its roots. -/
theorem isAlive_sweep_iff (h : Handle) : s'.isAlive h = true ↔ s.ReachedFrom roots h := by
  obtain ⟨hroots, -, rfl⟩ := sweep_eq_ok_iff.mp hsweep
  rw [isAlive_swept_iff]
  constructor
  · rintro ⟨halive, hm⟩
    exact (isMarked_reachable_iff halive).mp hm
  · intro hreached
    have halive := hs.isAlive_of_reachedFrom (checkAlive_eq_ok_iff.mp hroots) hreached
    exact ⟨halive, (isMarked_reachable_iff halive).mpr hreached⟩

/-- The ways down from the roots are all kept. -/
theorem ReachedFrom.sweep {h : Handle} (hh : s.ReachedFrom roots h) : s'.ReachedFrom roots h := by
  obtain ⟨r, hr, hreach⟩ := hh
  refine ⟨r, hr, ?_⟩
  induction hreach with
  | refl => exact .refl
  | @tail p c hp hc ih =>
    obtain ⟨n, hn, hmem⟩ := hc
    have hstays : s'.isAlive p = true := (isAlive_sweep_iff hs hsweep p).mpr ⟨r, hr, hp⟩
    obtain ⟨m, hm, hm'⟩ := node?_sweep hsweep hstays
    rw [hn, Option.some.injEq] at hm
    subst hm
    exact ih.tail ⟨_, hm', hmem⟩

/-- **One sweep.** -/
theorem reclaims_of_sweep : Reclaims s roots n s' := by
  have hs' := hs.sweep hsweep
  have halive := isAlive_sweep_iff hs hsweep
  have hsub : ∀ h, s'.isAlive h = true → s.isAlive h = true := fun h hh => by
    obtain ⟨m, hm, -⟩ := node?_sweep hsweep hh
    exact isAlive_of_node? hm
  have hcount := hs.booked.live_add_length_filter hs'.booked hsub
  have hlive : s'.live + n = s.live := by
    obtain ⟨-, rfl, rfl⟩ := sweep_eq_ok_iff.mp (id hsweep)
    have hsum := count_occupancy_swept s (s.reachable roots)
    rwa [← hs'.booked.live, ← hs.booked.live] at hsum
  refine ⟨(Step.sweep hsweep).schema, halive, by omega, hlive,
    fun h hh => node?_sweep hsweep hh, ?_⟩
  -- everything alive now can still be reached, so the second sweep finds it marked
  have hmarks : ∀ h, s'.isAlive h = true → isMarked (s'.reachable roots) h.index = true := by
    intro h hh
    exact (isMarked_reachable_iff hh).mpr (((halive h).mp hh).sweep hs hsweep)
  obtain ⟨hgarbage, hself⟩ := hs'.swept_eq_self hmarks
  refine sweep_eq_ok_iff.mpr ⟨checkAlive_eq_ok_iff.mpr fun r hr => ?_, ?_, hself.symm⟩
  · exact (halive r).mpr ⟨r, hr, .refl⟩
  · rw [hgarbage]
    rfl

end

/-- **Sweeping is exact.**  For every list of roots a sweep of a store that can be reached ends.
    It fails exactly if a root is stale, and then nothing has changed.  Otherwise the nodes that
    the roots lead to stay as they are, up to parents that go, all others are reclaimed and
    counted, and a second sweep with the same roots finds nothing to do. -/
theorem sweep_exact {schema : Schema} {s : Store} (hs : Reachable schema s)
    (roots : List Handle) :
    ((∃ e s', sweep roots s = .error e s') ↔ ∃ r ∈ roots, s.isAlive r = false) ∧
      (∀ e s', sweep roots s = .error e s' → s' = s) ∧
      ∀ n s', sweep roots s = .ok n s' → Reclaims s roots n s' := by
  refine ⟨?_, fun e s' => sweep_eq_error, fun n s' => reclaims_of_sweep hs.wellFormed_store⟩
  cases hcheck : s.checkAlive roots with
  | error e =>
    have hfails : sweep roots s = .error e s := by
      unfold sweep
      rw [hcheck]
    obtain ⟨r, hr, hstale, -⟩ := checkAlive_eq_error hcheck
    exact ⟨fun _ => ⟨r, hr, hstale⟩, fun _ => ⟨e, s, hfails⟩⟩
  | ok u =>
    -- with live roots a sweep always works
    have hroots := checkAlive_eq_ok_iff.mp hcheck
    have hworks := sweep_eq_ok_iff.mpr ⟨hcheck, rfl, rfl⟩
    constructor
    · rintro ⟨e, s', hfails⟩
      rw [hworks] at hfails
      cases hfails
    · rintro ⟨r, hr, hstale⟩
      rw [hroots r hr] at hstale
      cases hstale

end Store

/-! ### A sweep to look at -/

namespace Sample

/-- Two items that are next to each other both ways, and a group with both as its parts, one of
    them twice. -/
def tangle : Store :=
  after (Store.constructNamed "group"
    [.value (.str "all"), .one none, .many [⟨0, 0⟩, ⟨1, 0⟩, ⟨0, 0⟩]]) <|
  after (Store.set ⟨0, 0⟩ "next" (.one (some ⟨1, 0⟩))) <|
  after (Store.constructNamed "item" [.value (.str "b"), .one (some ⟨0, 0⟩)]) <|
  after (Store.constructNamed "item" [.value (.str "a")]) (Store.empty schema)

theorem reachable_tangle : Reachable schema tangle :=
  ⟨[], (((Run.operation (.constructNamed _ _) _ _).trans
    (.operation (.constructNamed _ _) _ _)).trans (.operation (.set _ _ _) _ _)).trans
    (.operation (.constructNamed _ _) _ _)⟩

/-- A sweep from one of the items reclaims the group; the items keep each other and lose their
    parent. -/
theorem sweep_tangle :
    ∃ s', Store.sweep [⟨1, 0⟩] tangle = .ok 1 s' ∧ Store.Reclaims tangle [⟨1, 0⟩] 1 s' ∧
      s'.parent ⟨0, 0⟩ = .ok none := by
  have hsweep : Store.sweep [⟨1, 0⟩] tangle
      = .ok 1 (after (Store.sweep [⟨1, 0⟩]) tangle) := by cbv
  obtain ⟨-, -, hreclaims⟩ := Store.sweep_exact reachable_tangle [⟨1, 0⟩]
  exact ⟨_, hsweep, hreclaims 1 _ hsweep, by cbv⟩

end Sample

end TypedForest
