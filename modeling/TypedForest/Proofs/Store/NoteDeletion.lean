import TypedForest.Proofs.Store.History
import TypedForest.Proofs.Tree.Orders
import TypedForest.Proofs.Wire.RoundTrip

namespace TypedForest

/-!
# Deleting a note from a tree

The deletion of a note can take in everything below a node.  It marks what it can reach and then
takes the note off every marked node.  The plain way to do it is a walk with a stack, without any
marks (`Store.clear`): it comes to a shared node once for each way that leads there, changes nodes
that it may still come back to, and on a cycle it never ends.

* `Store.SamePlaces`, `Store.eq_of_samePlaces` : a store is known from its places and its nodes;
* `Store.clear_of_visits` : the walk takes the note off the nodes of a traversal, one by one;
* `Store.Cleared` : all that is different after a deletion;
* `Store.deleteNote_exact` : from a node without cycles below it, the walk ends, and it has the
  same outcome as the deletion, which is that.
-/

namespace Store

/-! ### Stores with the same places -/

/-- Two stores have the same places, with the same generations, and the same of them are free. -/
structure SamePlaces (s s' : Store) : Prop where
  schema : s'.schema = s.schema
  live : s'.live = s.live
  free : s'.free = s.free
  size : s'.entries.size = s.entries.size
  generations : s'.generationAt = s.generationAt

theorem SamePlaces.refl (s : Store) : SamePlaces s s := ⟨rfl, rfl, rfl, rfl, rfl⟩

theorem SamePlaces.symm {s s' : Store} (h : SamePlaces s s') : SamePlaces s' s :=
  ⟨h.schema.symm, h.live.symm, h.free.symm, h.size.symm, h.generations.symm⟩

/-- Twice the same places are the same places. -/
theorem SamePlaces.trans {s t u : Store} (hst : SamePlaces s t) (htu : SamePlaces t u) :
    SamePlaces s u :=
  ⟨htu.schema.trans hst.schema, htu.live.trans hst.live, htu.free.trans hst.free,
    htu.size.trans hst.size, htu.generations.trans hst.generations⟩

/-- A change to a node keeps all places. -/
theorem samePlaces_modifyNode (s : Store) (h : Handle) (f : Node → Node) :
    SamePlaces s (s.modifyNode h f) :=
  ⟨rfl, rfl, rfl, Array.size_modify, generationAt_modifyNode s h f⟩

/-- So does deleting notes. -/
theorem samePlaces_dropNotes (s : Store) (key : String) (marks : Array Bool) :
    SamePlaces s (s.dropNotes key marks) :=
  ⟨rfl, rfl, rfl, Array.size_mapIdx, generationAt_dropNotes s key marks⟩

/-- Stores with the same places and the same nodes are equal. -/
theorem eq_of_samePlaces {s s' : Store} (h : SamePlaces s s')
    (hnodes : ∀ x, s'.node? x = s.node? x) : s' = s := by
  have hentries : s'.entries = s.entries := by
    refine Array.ext h.size fun i hi' hi => ?_
    have hgen : s'.entries[i].generation = s.entries[i].generation := by
      have := congrFun h.generations i
      simpa [generationAt, hi, hi'] using this
    have hnode := hnodes ⟨i, s.entries[i].generation⟩
    simp only [node?, Array.getElem?_eq_getElem hi', Array.getElem?_eq_getElem hi, hgen,
      if_true] at hnode
    cases he' : s'.entries[i]
    cases he : s.entries[i]
    simp_all
  cases s
  cases s'
  obtain ⟨rfl, rfl, rfl, -, -⟩ := h
  cases hentries
  rfl

/-! ### The walk -/

/-- A walk with a stack: it takes the note off the next node and puts the children of the node in
    its place, until the stack is empty or a handle is stale.  A walk that comes to a cycle never
    ends; then there is no outcome. -/
def clear (key : String) (todo : List Handle) (s : Store) :
    Option (EStateM.Result NodeError Store Unit) :=
  match todo with
  | [] => some (.ok () s)
  | h :: rest =>
    match s.get h with
    | .error e => some (.error e s)
    | .ok n => (clear key (s := s.modifyNode h (dropNote key))) (n.childNodes ++ rest)
partial_fixpoint

/-- The store without the note on the nodes of a list. -/
def strip (s : Store) (key : String) (hs : List Handle) : Store :=
  hs.foldl (fun s h => s.modifyNode h (dropNote key)) s

/-- A note that is deleted twice is deleted. -/
theorem dropNote_dropNote (key : String) (n : Node) :
    dropNote key (dropNote key n) = dropNote key n := by
  simp only [dropNote, Notes.erase_erase]

/-- Stripping nodes of a note keeps all places. -/
theorem samePlaces_strip (s : Store) (key : String) (hs : List Handle) :
    SamePlaces s (s.strip key hs) := by
  induction hs generalizing s with
  | nil => exact .refl s
  | cons h hs ih => exact (samePlaces_modifyNode s h _).trans (ih _)

/-- A node that is listed twice has lost the note the first time. -/
theorem node?_strip (s : Store) (key : String) (hs : List Handle) (x : Handle) :
    (s.strip key hs).node? x = (s.node? x).map fun n => if x ∈ hs then dropNote key n else n := by
  induction hs generalizing s with
  | nil => simp [strip]
  | cons h hs ih =>
    rw [strip, List.foldl_cons, ← strip, ih, node?_modifyNode]
    by_cases hx : x = h
    · rw [if_pos hx, Option.map_map]
      refine congrArg (Option.map · _) (funext fun n => ?_)
      simp [hx, dropNote_dropNote]
    · simp [hx]

/-- The walk goes where a traversal of the store goes that it starts from: taking notes off nodes
    does not change what is below them. -/
theorem clear_of_visits {s₀ : Store} (hs₀ : s₀.WellFormed) (key : String) {todo l : List Handle}
    (hl : s₀.Visits (.pre todo) l) (htodo : ∀ h ∈ todo, s₀.isAlive h = true) {s : Store}
    (hs : ∀ x, (s.node? x).map Node.childNodes = (s₀.node? x).map Node.childNodes) :
    clear key todo s = some (.ok () (s.strip key l)) := by
  generalize hf : Frontier.pre todo = f at hl
  induction hl generalizing todo s with
  | done hempty =>
    subst hf
    obtain rfl : todo = [] := List.isEmpty_iff.mp hempty
    rw [clear]
    rfl
  | @step _ _ h _ hnext _ ih =>
    subst hf
    cases todo with
    | nil => cases hnext
    | cons x rest =>
      cases hnext
      obtain ⟨halive, hrest⟩ := List.forall_mem_cons.mp htodo
      obtain ⟨m, hm⟩ := isAlive_iff.mp halive
      -- the node has its old children, whether or not it lost the note before
      obtain ⟨n, hn, hchildren⟩ : ∃ n, s.node? h = some n ∧ n.childNodes = m.childNodes := by
        have := hs h
        rw [hm, Option.map_some] at this
        exact Option.map_eq_some_iff.mp this
      have hbelow : s₀.childrenOf h = n.childNodes := by rw [childrenOf, hm, hchildren]; rfl
      rw [clear, get_eq_ok_iff.mpr hn]
      show clear key (n.childNodes ++ rest) (s.modifyNode h (dropNote key)) = _
      refine ih ?_ (fun y => ?_) (by rw [hbelow])
      · refine List.forall_mem_append.mpr ⟨fun c hc => ?_, hrest⟩
        exact hs₀.isAlive_of_child ⟨m, hm, hchildren ▸ hc⟩
      · rw [← hs y, node?_modifyNode]
        split
        · rw [Option.map_map]
          rfl
        · rfl

/-! ### The deletion -/

/-- All that is different after the note under a key was taken off a node and everything below
    it. -/
structure Cleared (s : Store) (h : Handle) (key : String) (s' : Store) : Prop where
  places : SamePlaces s s'
  nodes : ∀ x, (s'.node? x).map (fun n => { n with notes := Notes.empty })
    = (s.node? x).map fun n => { n with notes := Notes.empty }
  below : ∀ x, s.Reaches h x → s'.hasNote x key = .ok false
  apart : ∀ x, ¬ s.Reaches h x → s'.notes x = s.notes x
  others : ∀ x other, other ≠ key → s'.note x other = s.note x other

/-- Taking the note off exactly the nodes that can be reached is the deletion. -/
theorem cleared_strip {s : Store} (hs : s.WellFormed) {h : Handle} (halive : s.isAlive h = true)
    (key : String) {l : List Handle} (hl : ∀ x, x ∈ l ↔ s.Reaches h x) :
    s.Cleared h key (s.strip key l) := by
  -- the notes of each node, on the list or not, from which all parts are read off
  have hnotes : ∀ x, (s.strip key l).notes x
      = (s.notes x).map fun notes => if x ∈ l then notes.erase key else notes := by
    intro x
    rw [notes, notes, get, get, node?_strip]
    cases s.node? x with
    | none => rfl
    | some n => by_cases hx : x ∈ l <;> simp [hx, Except.map, dropNote]
  refine ⟨samePlaces_strip s key l, fun x => ?_, fun x hx => ?_, fun x hx => ?_,
    fun x other hother => ?_⟩
  · rw [node?_strip, Option.map_map]
    refine congrArg (Option.map · _) (funext fun n => ?_)
    simp only [Function.comp_apply]
    split <;> rfl
  · have hx' : s.isAlive x = true :=
      hs.isAlive_of_reachedFrom (by simpa using halive) ⟨h, List.mem_singleton_self h, hx⟩
    obtain ⟨n, hn⟩ := isAlive_iff.mp hx'
    -- an erased note is not found
    have hgone : (n.notes.erase key).contains key = false := by
      refine Bool.eq_false_iff.mpr fun hcontains => ?_
      obtain ⟨v, hv⟩ := Notes.contains_iff.mp hcontains
      rw [Notes.find?_erase, if_pos rfl] at hv
      cases hv
    rw [hasNote, hnotes, notes, get_eq_ok_iff.mpr hn]
    simp only [Except.map, if_pos ((hl x).mpr hx), hgone]
  · rw [hnotes]
    cases s.notes x with
    | error e => rfl
    | ok notes => simp only [Except.map, if_neg (mt (hl x).mp hx)]
  · rw [note, note, hnotes]
    cases s.notes x with
    | error e => rfl
    | ok notes =>
      simp only [Except.map]
      split
      · rw [Notes.find?_erase, if_neg hother]
      · rfl

/-- The marks take in what the walk comes to. -/
theorem dropNotes_eq_strip {s : Store} {roots : List Handle} (key : String) {l : List Handle}
    (hl : ∀ x, x ∈ l ↔ s.ReachedFrom roots x) :
    s.dropNotes key (s.reachable roots) = s.strip key l := by
  refine eq_of_samePlaces ((samePlaces_strip s key l).symm.trans (samePlaces_dropNotes s key _))
    fun x => ?_
  rw [node?_dropNotes, node?_strip]
  cases hx : s.node? x with
  | none => rfl
  | some n =>
    have hmarked := (isMarked_reachable_iff (isAlive_of_node? hx)).trans (hl x).symm
    simp only [Option.map_some, hmarked]

/-- **Deleting a note from a tree.**  When no cycle can be reached from a live node, the deletion
    says whether the node itself had the note, and afterwards nothing is different but that the
    note is gone from every node that can be reached.  The walk with a stack ends with the same
    store, and no handle that it comes to is stale. -/
theorem deleteNote_exact {schema : Schema} {s : Store} (hs : Reachable schema s) {h : Handle}
    (halive : s.isAlive h = true) (hacyclic : s.Acyclic h) (key : String) :
    ∃ had s', s.hasNote h key = .ok had ∧ deleteNote h key true s = .ok had s' ∧
      clear key [h] s = some (.ok () s') ∧ s.Cleared h key s' := by
  have hwf := hs.wellFormed_store
  obtain ⟨n, hn⟩ := isAlive_iff.mp halive
  obtain ⟨t, ht⟩ := exists_unfolds hwf halive hacyclic
  have hheight : s.HeightLe t.height h := ⟨t, ht, Nat.le_refl _⟩
  have hvisits := visits_pre (List.forall_mem_singleton.mpr hheight)
  have hmem : ∀ x, x ∈ [h].flatMap (s.preorder t.height) ↔ s.Reaches h x := by
    intro x
    rw [List.flatMap_singleton, mem_preorder_iff hheight]
  have hsame : s.dropNotes key (s.reachable [h]) = _ := dropNotes_eq_strip key fun x =>
    (hmem x).trans ⟨fun hx => ⟨h, List.mem_singleton_self h, hx⟩, by simp [ReachedFrom]⟩
  refine ⟨n.notes.contains key, _, ?_, ?_,
    clear_of_visits hwf key hvisits (List.forall_mem_singleton.mpr halive) fun _ => rfl,
    cleared_strip hwf halive key hmem⟩
  · simp only [hasNote, notes, get_eq_ok_iff.mpr hn]
    rfl
  · simp only [deleteNote, get_eq_ok_iff.mpr hn, hsame]
    rfl

end Store

/-- The group of `noted` has no mark itself, but the item that it holds three times has one, which
    goes. -/
theorem Sample.deleteNote_noted :
    noted.hasNote ⟨0, 0⟩ "mark" = .ok true ∧
      ∃ s', Store.deleteNote ⟨1, 0⟩ "mark" true noted = .ok false s' ∧
        Store.clear "mark" [⟨1, 0⟩] noted = some (.ok () s') ∧
        s'.hasNote ⟨0, 0⟩ "mark" = .ok false := by
  obtain ⟨had, s', hhad, hdelete, hclear, hcleared⟩ := Store.deleteNote_exact reachable_noted
    unfolds_noted.isAlive unfolds_noted.acyclic "mark"
  have hnone : noted.hasNote ⟨1, 0⟩ "mark" = .ok false := by decide +kernel
  rw [hnone, Except.ok.injEq] at hhad
  subst hhad
  have hchild : noted.Child ⟨1, 0⟩ ⟨0, 0⟩ := by
    rw [Store.child_iff_mem_childrenOf]
    decide +kernel
  exact ⟨by decide +kernel, s', hdelete, hclear, hcleared.below _ (.single hchild)⟩

end TypedForest
