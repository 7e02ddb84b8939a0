import TypedForest.Proofs.Store.Copy
import TypedForest.Proofs.Tree.Orders
import TypedForest.Proofs.Wire.Recovery

namespace TypedForest

/-!
# Deep copies

A revision that copies the nodes and keeps every copy plants the tree under the root once more.
A node that is there in several places of the tree is copied once for each of them, so there are
as many new nodes as a traversal visits nodes, and each of them is in one place.

* `Store.Visits.labels` : a traversal meets the labels of the tree, one node for each;
* `Store.Planted.nodup` : in a tree that was planted every node is in one place;
* `Store.revise_keep_copies` : what is true of the copy.
-/

/-! ### Traversals of trees -/

/-- A traversal meets as many labels as the tree has nodes. -/
theorem Tree.length_preorder (t : Tree) : t.preorder.length = t.size := by
  induction t with
  | node l ts ih =>
    have hall : (preorderAll ts).length = sizeAll ts := by
      induction ts with
      | nil => rfl
      | cons t ts ihs =>
        rw [preorderAll, sizeAll, List.length_append, ih t List.mem_cons_self,
          ihs fun u hu => ih u (List.mem_cons_of_mem t hu)]
    rw [preorder, size, List.length_cons, hall, Nat.add_comm]

namespace Store

/-- The nodes that a traversal visits say what is in the tree. -/
theorem Visits.labels {s : Store} {h : Handle} {t : Tree} {visited : List Handle}
    (hvisits : s.Visits (s.frontier .pre h) visited) (ht : s.Unfolds h t) :
    List.Forall₂ s.Says visited t.preorder := by
  have hsays := traverse_pre_of_unfolds ht (max visited.length t.preorder.length)
  rw [traverse, hvisits.visit_eq, List.nil_append, List.take_of_length_le (Nat.le_max_left _ _),
    List.take_of_length_le (Nat.le_max_right _ _)] at hsays
  exact hsays

/-- The traversal from the root of a tree comes to all its nodes. -/
theorem Unfolds.visits {s : Store} {h : Handle} {t : Tree} (ht : s.Unfolds h t) :
    s.Visits (s.frontier .pre h) (s.preorder t.height h) :=
  visits_frontier ⟨t, ht, Nat.le_refl _⟩ .pre

theorem Unfolds.mem_preorder_iff {s : Store} {h x : Handle} {t : Tree} (ht : s.Unfolds h t) :
    x ∈ s.preorder t.height h ↔ s.Reaches h x :=
  Store.mem_preorder_iff ⟨t, ht, Nat.le_refl _⟩

/-- Where the nodes of `s` are as they were, their traversals are too. -/
theorem preorder_of_keeps {s s' : Store} (hs : s.WellFormed)
    (hkeeps : ∀ x n, s.node? x = some n → s'.node? x = some n) (n : Nat) {h : Handle}
    (halive : s.isAlive h = true) : s'.preorder n h = s.preorder n h := by
  induction n generalizing h with
  | zero => rfl
  | succ n ih =>
    obtain ⟨m, hm⟩ := isAlive_iff.mp halive
    have hchildren : s'.childrenOf h = s.childrenOf h := by
      rw [childrenOf, childrenOf, hm, hkeeps h m hm]
    show h :: (s'.childrenOf h).flatMap (s'.preorder n)
      = h :: (s.childrenOf h).flatMap (s.preorder n)
    rw [hchildren]
    congr 1
    refine List.flatMap_congr fun c hc => ih ?_
    exact hs.isAlive_of_child (child_iff_mem_childrenOf.mpr hc)

/-- In a tree that was planted every node is in one place. -/
theorem Planted.nodup {s s' : Store} (hs : s.WellFormed) {r : Handle} {t : Tree}
    (hplanted : Planted s s' [r] [t]) : (s'.preorder t.height r).Nodup := by
  have hgrafted := hplanted.sprouts.grafted hs
  have hr : s'.Unfolds r t := (List.forall₂_cons.mp hplanted.unfolds).1
  have hwf' := hs.steps hplanted.steps
  -- the new nodes are all among the visited ones, and there are as many of them
  have hsub : added s s' ⊆ s'.preorder t.height r := by
    intro x hx
    exact hr.mem_preorder_iff.mpr ((hgrafted.new x).mpr (mem_added_iff.mp hx))
  have hlength : (s'.preorder t.height r).length = (added s s').length := by
    have hcount := hwf'.booked.live_add_length_filter hs.booked fun x hx => by
      obtain ⟨n, hn⟩ := isAlive_iff.mp hx
      exact isAlive_of_node? (hgrafted.keeps x n hn)
    have hlive : s'.live = s.live + t.size := hplanted.live
    rw [(hr.visits.labels hr).length_eq, Tree.length_preorder, added]
    omega
  have hnodup : (added s s').Nodup := (nodup_handles s').filter _
  exact ((hnodup.subperm hsub).perm_of_length_le hlength.le).nodup_iff.mp hnodup

end Store

/-! ### The copy -/

/-- A revision that keeps all copies plants the tree. -/
theorem Revision.exists_revise_keep {s : Store} (hs : s.WellFormed) (hlawful : s.schema.Lawful)
    {root : Handle} {t : Tree} (ht : s.Unfolds root t) (hroom : s.live + t.size ≤ Store.maxNodes) :
    ∃ r s', (∀ (τ : Type) (c : τ), Store.revise .copy keep root (s, c) = .ok (some r) (s', c)) ∧
      Store.Planted s s' [r] [t] := by
  obtain ⟨r, s', hplant, hplanted⟩ := Tree.plant_spec hs hlawful ht hs rfl hroom
  refine ⟨r, s', fun τ c => ?_, hplanted⟩
  exact revise_of_copies (copies_of_unfolds hs hlawful ht) ⟨hs, rfl, fun _ _ hn => hn, hroom⟩
    hplant c

/-- A tree that was planted in its own store is equal to the tree it was made from. -/
theorem Store.Planted.equalTrees {s s' : Store} (hs : s.WellFormed) (hlawful : s.schema.Lawful)
    {root r : Handle} {t : Tree} (ht : s.Unfolds root t) (hplanted : Planted s s' [r] [t])
    (how : KindMatch) : Store.equalTrees how s' root s' r = some true := by
  have hwf' := hs.steps hplanted.steps
  refine equalTrees_of_unfolds hwf' hwf' ?_ rfl how (ht.mono hplanted.sprouts.preserves) ?_
  · rw [hplanted.steps.schema]
    exact hlawful
  · exact (List.forall₂_cons.mp hplanted.unfolds).1

/-- **Deep copies.**  Let a traversal from a root without cycles below it visit `n` nodes, some of
    them perhaps several times, and let there be room for `n` more.  The copying revision that
    keeps every copy gives a tree that is equal to the old one.  Its traversal visits `n` nodes
    too, one after the other with the same notes; these are the new nodes, and none of them is
    visited twice.  The root of the copy has no parent and every other new node has as its parent
    the node that holds it.  The copy can be copied in the same way. -/
theorem Store.revise_keep_copies {schema : Schema} (hbuilt : schema.Built) {s : Store}
    (hs : Reachable schema s) {root : Handle} (halive : s.isAlive root = true)
    (hacyclic : s.Acyclic root) :
    ∃ visited, s.Visits (s.frontier .pre root) visited ∧
      (s.live + visited.length ≤ maxNodes → ∃ r s' copies,
        (∀ (τ : Type) (c : τ), revise .copy Revision.keep root (s, c) = .ok (some r) (s', c)) ∧
        (∀ how, equalTrees how s' root s' r = some true) ∧
        s'.Visits (s'.frontier .pre root) visited ∧ s'.Visits (s'.frontier .pre r) copies ∧
        List.Forall₂ (SameNotes s' s') visited copies ∧
        s'.live = s.live + visited.length ∧ copies.Nodup ∧
        (∀ x, x ∈ copies ↔ s.isAlive x = false ∧ s'.isAlive x = true) ∧
        Grafted s s' r ∧
        (s'.live + visited.length ≤ maxNodes → ∃ r₂ s₂,
          (∀ (τ : Type) (c : τ), revise .copy Revision.keep r (s', c) = .ok (some r₂) (s₂, c)) ∧
          ∀ how, equalTrees how s₂ r s₂ r₂ = some true)) := by
  have hwf := hs.wellFormed_store
  have hlawful := hs.lawful hbuilt
  obtain ⟨t, ht⟩ := exists_unfolds hwf halive hacyclic
  have hlength : (s.preorder t.height root).length = t.size := by
    rw [(ht.visits.labels ht).length_eq, Tree.length_preorder]
  refine ⟨s.preorder t.height root, ht.visits, fun hroom => ?_⟩
  rw [hlength] at hroom ⊢
  obtain ⟨r, s', hrevise, hplanted⟩ := Revision.exists_revise_keep hwf hlawful ht hroom
  have hwf' := hwf.steps hplanted.steps
  have hlawful' : s'.schema.Lawful := by
    rw [hplanted.steps.schema]
    exact hlawful
  have hroot : s'.Unfolds root t := ht.mono hplanted.sprouts.preserves
  have hr : s'.Unfolds r t := (List.forall₂_cons.mp hplanted.unfolds).1
  have hgrafted := hplanted.sprouts.grafted hwf
  -- the traversal of the old tree has not changed
  have hvisits : s'.Visits (s'.frontier .pre root) (s.preorder t.height root) := by
    rw [← preorder_of_keeps hwf hgrafted.keeps t.height halive]
    exact hroot.visits
  refine ⟨r, s', s'.preorder t.height r, hrevise, hplanted.equalTrees hwf hlawful ht, hvisits,
    hr.visits, sameNotes_of_says (hvisits.labels hroot) (hr.visits.labels hr), hplanted.live,
    hplanted.nodup hwf, fun x => ?_, hgrafted, fun hroom' => ?_⟩
  · rw [hr.mem_preorder_iff]
    exact hgrafted.new x
  · obtain ⟨r₂, s₂, hagain, hplanted₂⟩ := Revision.exists_revise_keep hwf' hlawful' hr hroom'
    exact ⟨r₂, s₂, hagain, hplanted₂.equalTrees hwf' hlawful' hr⟩

/-- The group that holds an item three times: four nodes are added, three of them copies of the
    item. -/
theorem Sample.keep_copies_noted :
    ∃ r s', Store.revise .copy Revision.keep ⟨1, 0⟩ (noted, ()) = .ok (some r) (s', ()) ∧
      s'.live = 6 ∧ (∀ how, Store.equalTrees how s' ⟨1, 0⟩ s' r = some true) ∧
      Store.Grafted noted s' r := by
  obtain ⟨visited, hvisits, hcopy⟩ := Store.revise_keep_copies built reachable_noted
    unfolds_noted.isAlive unfolds_noted.acyclic
  have hlength : visited.length = 4 := by
    rw [(hvisits.labels unfolds_noted).length_eq]
    rfl
  rw [hlength] at hcopy
  obtain ⟨r, s', copies, hrevise, hequal, -, -, -, hlive, -, -, hgrafted, -⟩ :=
    hcopy (by decide +kernel)
  exact ⟨r, s', hrevise Unit (), hlive, hequal, hgrafted⟩

end TypedForest
