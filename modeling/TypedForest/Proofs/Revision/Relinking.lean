import TypedForest.Proofs.Store.Copy
import TypedForest.Proofs.Store.Ownership
import TypedForest.Proofs.Tree.Traversal

namespace TypedForest

/-!
# Revisions that set parents right

A revision in place writes to every slot that it comes to, also when nothing in the slot has
changed.  Writing makes the node the parent of what it holds, so a revision that keeps every node
gives each node below the root one of its holders as parent, and does nothing else.

* `Store.unlinked` : a store without its parent links, which is all of it that stays;
* `Revision.Relinked` : which nodes have got a parent and which are as they were;
* `Revision.relinks_of_unfolds` : the recursion sets the parents of all nodes below;
* `Store.revise_keep_relinks` : the same for a revision.
-/

/-! ### Stores without parent links -/

/-- The node without its parent. -/
def Node.unlinked (n : Node) : Node := { n with parent := none }

namespace Store

/-- The store without any parent links.  All else is in it: the schema, the free list, the count of
    the nodes, and of every place the generation and the node with its kind, its values, what is in
    its slots, and its notes. -/
def unlinked (s : Store) : Store :=
  { s with entries := s.entries.map fun e => { e with node := e.node.map Node.unlinked } }

/-- Without parents a node is what it was but for the parent. -/
theorem node?_unlinked (s : Store) (h : Handle) :
    s.unlinked.node? h = (s.node? h).map Node.unlinked := by
  unfold node? unlinked
  rw [Array.getElem?_map]
  cases s.entries[h.index]? with
  | none => rfl
  | some e => by_cases hg : e.generation = h.generation <;> simp [hg]

/-- A change to a node is the same change to what is left of it without its parent. -/
theorem unlinked_modifyNode (s : Store) (h : Handle) {f g : Node → Node}
    (hfg : ∀ n, (f n).unlinked = g n.unlinked) :
    (s.modifyNode h f).unlinked = s.unlinked.modifyNode h g := by
  have hcomp : Node.unlinked ∘ f = g ∘ Node.unlinked := funext hfg
  unfold unlinked modifyNode
  congr 1
  apply Array.ext_getElem?
  intro i
  rw [Array.getElem?_map, Array.getElem?_modify, Array.getElem?_modify, Array.getElem?_map]
  split
  · rw [Option.map_map, Option.map_map]
    congr 1
    funext e
    by_cases hg : e.generation = h.generation
    · simp [hg, hcomp]
    · simp [hg]
  · rfl

/-- Changing parents changes nothing else. -/
theorem unlinked_adopt (s : Store) (p : Handle) (cs : List Handle) :
    (s.adopt p cs).unlinked = s.unlinked := by
  induction cs generalizing s with
  | nil => rfl
  | cons c cs ih =>
    rw [adopt, List.foldl_cons]
    have hparent : (s.modifyNode c fun n => { n with parent := some p }).unlinked = s.unlinked := by
      refine (unlinked_modifyNode s c (g := id) fun n => ?_).trans ?_
      · rfl
      · exact modifyNode_eq_self fun _ _ => rfl
    exact (ih _).trans hparent

/-- What a node is but for its parent is known without parents. -/
theorem exists_node?_of_unlinked {s : Store} {h : Handle} {n : Node}
    (hn : s.unlinked.node? h = some n.unlinked) : ∃ p, s.node? h = some { n with parent := p } := by
  rw [node?_unlinked] at hn
  obtain ⟨m, hm, hmn⟩ := Option.map_eq_some_iff.mp hn
  obtain ⟨k, vs, cs, p, ns⟩ := m
  simp only [Node.unlinked, Node.mk.injEq, true_and] at hmn
  obtain ⟨rfl, rfl, rfl, rfl⟩ := hmn
  exact ⟨p, hm⟩

/-- A node is there without its parent too. -/
theorem unlinked_of_node? {s : Store} {h : Handle} {n : Node} (hn : s.node? h = some n) :
    s.unlinked.node? h = some n.unlinked := by
  rw [node?_unlinked, hn, Option.map_some]

/-- A node that is the same but for its parent. -/
theorem exists_node?_of_same {s s' : Store} {h : Handle}
    (hsame : s'.unlinked.node? h = s.unlinked.node? h) {n : Node} (hn : s.node? h = some n) :
    ∃ p, s'.node? h = some { n with parent := p } :=
  exists_node?_of_unlinked (hsame.trans (unlinked_of_node? hn))

/-- Parents do not matter for what is below a node. -/
theorem Child.of_unlinked {s s' : Store} {p c : Handle} (hc : s.Child p c)
    (hsame : s'.unlinked.node? p = s.unlinked.node? p) : s'.Child p c := by
  obtain ⟨n, hn, hmem⟩ := hc
  obtain ⟨q, hm⟩ := exists_node?_of_same hsame hn
  exact ⟨_, hm, hmem⟩

section

variable {s s' : Store} (hsame : s'.unlinked = s.unlinked)
include hsame

/-- Stores that are the same but for the parents have the same nodes, of the same kinds. -/
theorem retains_of_unlinked : Retains s s' := by
  have hschema : s'.unlinked.schema = s.unlinked.schema := by rw [hsame]
  refine ⟨hschema, fun h n hn => ?_⟩
  obtain ⟨p, hm⟩ := exists_node?_of_same (by rw [hsame]) hn
  exact ⟨_, hm, rfl⟩

/-- Writing back what is in a slot sets the parents of what is in it. -/
theorem setChildAt_of_unlinked (hs : s.WellFormed) {h : Handle} {n : Node}
    (hn : s.node? h = some n) {i : Nat} {d : Content} (hd : n.children[i]? = some d) :
    setChildAt h i d.toFilling s' = .ok () (s'.adopt h d.nodes) := by
  have hfound : s'.unlinked.node? h = s.unlinked.node? h := by rw [hsame]
  obtain ⟨p, hm⟩ := exists_node?_of_same hfound hn
  have hretains := retains_of_unlinked hsame
  obtain ⟨slot, hslot, hadmits⟩ := (hs.nodes h n hn).exists_admits hd
  have hkindOf : s'.kindOf h = .ok n.kind := kindOf_eq_ok_iff.mpr ⟨_, hm, rfl⟩
  have hcheck : s'.checkChild slot d.toFilling = .ok d :=
    checkChild_eq_ok_iff.mpr ⟨rfl, hadmits.retain hretains⟩
  have hwritten : (s'.modifyNode h fun n => { n with children := n.children.set i d }) = s' :=
    modifyNode_set_self hm hd
  simp only [setChildAt, hkindOf, hretains.schema, hslot, hcheck, hwritten]

end

end Store

/-! ### The recursion -/

namespace Revision

/-- From `s` to `s'` the nodes `below` have each got a parent that holds it and is itself reached
    from the root in `a`.  All else is as it was. -/
structure Relinked (a : Store) (root : Handle) (s s' : Store) (below : Handle → Prop) : Prop where
  same : s'.unlinked = s.unlinked
  outside : ∀ y, ¬ below y → s'.link y = s.link y
  inside : ∀ y, below y → ∃ p, s'.link y = some (some p) ∧ a.Reaches root p ∧ a.Child p y

section

variable {a : Store} {root : Handle}

/-- Nothing is linked anew if there is nothing below. -/
theorem relinked_self (s : Store) {below : Handle → Prop} (hnone : ∀ y, ¬ below y) :
    Relinked a root s s below :=
  ⟨rfl, fun _ _ => rfl, fun y hy => (hnone y hy).elim⟩

/-- It does not matter how the nodes below are described. -/
theorem Relinked.congr {s s' : Store} {below below' : Handle → Prop}
    (h : Relinked a root s s' below) (hbelow : ∀ y, below' y ↔ below y) :
    Relinked a root s s' below' := by
  rw [funext fun y => propext (hbelow y)]
  exact h

/-- Parents that are set later stay, and others stay if they are not set again. -/
theorem Relinked.trans {s s₁ s₂ : Store} {below₁ below₂ : Handle → Prop}
    (h₁ : Relinked a root s s₁ below₁) (h₂ : Relinked a root s₁ s₂ below₂) :
    Relinked a root s s₂ fun y => below₁ y ∨ below₂ y := by
  refine ⟨h₂.same.trans h₁.same, fun y hy => ?_, fun y hy => ?_⟩
  · rw [not_or] at hy
    rw [h₂.outside y hy.2, h₁.outside y hy.1]
  · -- a node with several holders keeps the one that was written to last
    by_cases hy₂ : below₂ y
    · exact h₂.inside y hy₂
    · obtain ⟨p, hp, hholds⟩ := h₁.inside y (hy.resolve_right hy₂)
      exact ⟨p, (h₂.outside y hy₂).trans hp, hholds⟩

/-- A node that the root reaches becomes the parent of nodes that it holds. -/
theorem relinked_adopt {x : Handle} (hx : a.Reaches root x) {s : Store} {cs : List Handle}
    (hcs : ∀ c ∈ cs, a.Child x c) (halive : ∀ c ∈ cs, s.isAlive c = true) :
    Relinked a root s (s.adopt x cs) (· ∈ cs) := by
  refine ⟨Store.unlinked_adopt s x cs, fun y hy => ?_, fun y hy => ⟨x, ?_, hx, hcs y hy⟩⟩
  · rw [Store.link_adopt x halive, if_neg hy]
  · rw [Store.link_adopt x halive, if_pos hy]

/-- The recursion that comes to the node returns it, and sets the parents of all nodes below it. -/
def Relinks (τ : Type) (a : Store) (root x : Handle) : Prop :=
  ∀ s : Store, s.unlinked = a.unlinked → ∃ s',
    Yields (bottomUp .inPlace keep x : Attempt τ (Option Handle)) s (some x) s' ∧
      Relinked a root s s' (Relation.TransGen a.Child x)

variable {τ : Type}

/-- Nodes that are revised one after the other link all that is below any of them. -/
theorem relinks_items {xs : List Handle} (hxs : ∀ x ∈ xs, Relinks τ a root x) {s : Store}
    (hs : s.unlinked = a.unlinked) :
    ∃ s', Yields (xs.filterMapM (bottomUp .inPlace keep) : Attempt τ (List Handle)) s xs s' ∧
      Relinked a root s s' fun y => ∃ x ∈ xs, Relation.TransGen a.Child x y := by
  induction xs generalizing s with
  | nil => exact ⟨s, fun c => rfl, relinked_self s (by simp)⟩
  | cons x xs ih =>
    obtain ⟨hx, hrest⟩ := List.forall_mem_cons.mp hxs
    obtain ⟨s₁, hfirst, hlinked₁⟩ := hx s hs
    obtain ⟨s₂, hyields, hlinked₂⟩ := ih hrest (hlinked₁.same.trans hs)
    refine ⟨s₂, ?_, (hlinked₁.trans hlinked₂).congr fun y => List.exists_mem_cons_iff ..⟩
    rw [List.filterMapM_cons]
    exact hfirst.bind (hyields.bind_pure _)

/-- So do the nodes of a slot. -/
theorem relinks_content {d : Content} (hd : ∀ x ∈ d.nodes, Relinks τ a root x) {s : Store}
    (hs : s.unlinked = a.unlinked) :
    ∃ s', Yields (reviseContent (bottomUp .inPlace keep) d : Attempt τ Filling) s d.toFilling s' ∧
      Relinked a root s s' fun y => ∃ x ∈ d.nodes, Relation.TransGen a.Child x y := by
  cases d with
  | one node =>
    cases node with
    | none => exact ⟨s, fun c => rfl, relinked_self s (by simp [Content.nodes])⟩
    | some x =>
      obtain ⟨s', hyields, hlinked⟩ := hd x (List.mem_singleton_self x) s hs
      refine ⟨s', hyields.bind_pure _, hlinked.congr fun y => ?_⟩
      simp [Content.nodes]
  | many xs =>
    obtain ⟨s', hyields, hlinked⟩ := relinks_items hd hs
    exact ⟨s', hyields.bind_pure _, hlinked⟩

section

variable (ha : a.WellFormed) {x : Handle} (hx : a.Reaches root x) {n : Node}
  (hn : a.node? x = some n) (hchildren : ∀ y ∈ n.childNodes, Relinks τ a root y)
include ha hx hn hchildren

/-- With a slot also the parents of what is in it are set. -/
theorem relinks_slot {d : Content} {i : Nat} (hd : n.children[i]? = some d) {s : Store}
    (hs : s.unlinked = a.unlinked) :
    ∃ s', Yields (reviseSlot .inPlace (bottomUp .inPlace keep) x d i : Attempt τ Filling) s
        d.toFilling s' ∧
      Relinked a root s s' fun y => ∃ c ∈ d.nodes, a.Reaches c y := by
  have hmem : ∀ c ∈ d.nodes, c ∈ n.childNodes := fun c hc =>
    List.mem_flatMap.mpr ⟨d, List.mem_of_getElem? hd, hc⟩
  obtain ⟨s₁, hyields, hlinked⟩ := relinks_content (fun c hc => hchildren c (hmem c hc)) hs
  have hs₁ := hlinked.same.trans hs
  have halive : ∀ c ∈ d.nodes, s₁.isAlive c = true := by
    intro c hc
    obtain ⟨m, hm⟩ := (ha.nodes x n hn).childNodes (hmem c hc)
    exact (Store.retains_of_unlinked hs₁).isAlive (Store.isAlive_of_node? hm)
  have hadopt := relinked_adopt hx (fun c hc => ⟨n, hn, hmem c hc⟩) halive
  refine ⟨s₁.adopt x d.nodes, ?_, (hlinked.trans hadopt).congr fun y => ?_⟩
  · exact hyields.bind ((yields_onStore (Store.setChildAt_of_unlinked hs₁ ha hn hd)).bind_pure _)
  · -- what is reached from a node in the slot is this node or below it
    simp only [Store.Reaches, Relation.reflTransGen_iff_eq_or_transGen]
    grind

/-- Slot by slot all children of a node get it for their parent, and what is below them gets parents
    too. -/
theorem relinks_slots {ps : List (Content × Nat)} (hps : ∀ p ∈ ps, n.children[p.2]? = some p.1)
    {s : Store} (hs : s.unlinked = a.unlinked) :
    ∃ s', Yields (ps.mapM fun (d, i) => reviseSlot .inPlace (bottomUp .inPlace keep) x d i :
        Attempt τ (List Filling)) s (ps.map fun p => p.1.toFilling) s' ∧
      Relinked a root s s' fun y => ∃ p ∈ ps, ∃ c ∈ p.1.nodes, a.Reaches c y := by
  -- from slot to slot: what a slot links stays linked to some node on the way, even if a later one
  -- links it again
  induction ps generalizing s with
  | nil => exact ⟨s, fun c => rfl, relinked_self s (by simp)⟩
  | cons p ps ih =>
    obtain ⟨hp, hrest⟩ := List.forall_mem_cons.mp hps
    obtain ⟨s₁, hfirst, hlinked₁⟩ := relinks_slot ha hx hn hchildren hp hs
    obtain ⟨s₂, hyields, hlinked₂⟩ := ih hrest (hlinked₁.same.trans hs)
    refine ⟨s₂, ?_, (hlinked₁.trans hlinked₂).congr fun y => List.exists_mem_cons_iff ..⟩
    rw [List.mapM_cons]
    exact hfirst.bind (hyields.bind_pure _)

end

/-- **The recursion sets parents.**  It does so for all nodes below a node that the root reaches,
    if there are no cycles below it. -/
theorem relinks_of_unfolds (ha : a.WellFormed) {x : Handle} {t : Tree} (ht : a.Unfolds x t)
    (hx : a.Reaches root x) : Relinks τ a root x := by
  induction t generalizing x with
  | node l ts ih =>
    obtain ⟨n, hn, -, hts⟩ := Store.unfolds_node_iff.mp ht
    -- the trees below are lower, and are reached through this node
    have hchildren : ∀ y ∈ n.childNodes, Relinks τ a root y := by
      intro y hy
      obtain ⟨u, hu, hyu⟩ := forall₂_exists_right hts hy
      exact ih u hu hyu (hx.tail ⟨n, hn, hy⟩)
    intro s hs
    obtain ⟨p, hm⟩ := Store.exists_node?_of_same (by rw [hs]) hn
    obtain ⟨s', hyields, hlinked⟩ := relinks_slots ha hx hn hchildren
      (fun p hp => List.mem_zipIdx_iff_getElem?.mp hp) hs
    refine ⟨s', ?_, hlinked.congr fun y => ?_⟩
    · rw [bottomUp_eq, reviseNode]
      exact (yields_readNode hm).bind (hyields.bind fun c => rfl)
    · -- what is below is in a slot, or below what is in one
      rw [Relation.TransGen.head'_iff]
      constructor
      · rintro ⟨c, ⟨m, hm, hc⟩, hreach⟩
        rw [hn, Option.some.injEq] at hm
        subst hm
        obtain ⟨d, hd, hcd⟩ := List.mem_flatMap.mp hc
        obtain ⟨i, hi⟩ := List.getElem?_of_mem hd
        exact ⟨(d, i), List.mem_zipIdx_iff_getElem?.mpr hi, c, hcd, hreach⟩
      · rintro ⟨⟨d, i⟩, hp, c, hc, hreach⟩
        have hd : n.children[i]? = some d := List.mem_zipIdx_iff_getElem?.mp hp
        exact ⟨c, ⟨n, hn, List.mem_flatMap.mpr ⟨d, List.mem_of_getElem? hd, hc⟩⟩, hreach⟩

end

end Revision

/-! ### Ways to a node -/

namespace Store

/-- A way can be followed in two parts. -/
theorem follow_append (s : Store) (h : Handle) (way way' : List Nat) :
    s.follow h (way ++ way') = (s.follow h way).bind fun x => s.follow x way' := by
  induction way generalizing h with
  | nil => rfl
  | cons i way ih =>
    rw [List.cons_append, follow, follow, Option.bind_assoc]
    exact congrArg _ (funext ih)

/-- A way to a node, on to a child and down to another node. -/
theorem follow_through {s : Store} {root x c y : Handle} {way way' : List Nat} {i : Nat}
    (hway : s.follow root way = some x) (hi : (s.childrenOf x)[i]? = some c)
    (hway' : s.follow c way' = some y) : s.follow root (way ++ i :: way') = some y := by
  rw [follow_append, hway, Option.bind_some, follow, hi]
  exact hway'

/-- A way to a node that holds another leads on to that. -/
theorem Child.exists_follow {s : Store} {root x y : Handle} (hchild : s.Child x y) {way : List Nat}
    (hway : s.follow root way = some x) : ∃ i, s.follow root (way ++ [i]) = some y := by
  obtain ⟨i, hi⟩ := List.getElem?_of_mem (child_iff_mem_childrenOf.mp hchild)
  exact ⟨i, follow_through hway hi rfl⟩

/-- There is a way to every node that is reached. -/
theorem Reaches.exists_follow {s : Store} {root x : Handle} (hx : s.Reaches root x) :
    ∃ way, s.follow root way = some x := by
  induction hx with
  | refl => exact ⟨[], rfl⟩
  | tail _ hchild ih =>
    obtain ⟨way, hway⟩ := ih
    obtain ⟨i, hi⟩ := hchild.exists_follow hway
    exact ⟨way ++ [i], hi⟩

/-- A node to which there is only one way is held by only one node that is reached. -/
theorem eq_of_follow_unique {s : Store} {root p q y : Handle}
    (hunique : ∃! way, s.follow root way = some y) (hp : s.Reaches root p) (hpy : s.Child p y)
    (hq : s.Reaches root q) (hqy : s.Child q y) : p = q := by
  obtain ⟨way, hway⟩ := hp.exists_follow
  obtain ⟨way', hway'⟩ := hq.exists_follow
  obtain ⟨i, hi⟩ := hpy.exists_follow hway
  obtain ⟨j, hj⟩ := hqy.exists_follow hway'
  have hsame : way = way' := (List.append_inj' (hunique.unique hi hj) rfl).1
  rw [← hsame, hway, Option.some.injEq] at hway'
  exact hway'

/-- **Parents are set right.**  A revision in place that keeps every node returns the root.  Of the
    store nothing changes but parent links, and of these not the root's and not those of nodes that
    the root does not reach.  Every other node that the root reaches has in the end a parent that
    holds it and is reached from the root.  This is the only such node if only one way leads from
    the root to the node. -/
theorem revise_keep_relinks {schema : Schema} {s : Store} (hs : Reachable schema s)
    {root : Handle} (halive : s.isAlive root = true) (hacyclic : s.Acyclic root) {τ : Type}
    (c : τ) :
    ∃ s', revise .inPlace Revision.keep root (s, c) = .ok (some root) (s', c) ∧
      s'.unlinked = s.unlinked ∧ s'.parent root = s.parent root ∧
      (∀ y, ¬ s.Reaches root y → s'.parent y = s.parent y) ∧
      ∀ y, s.Reaches root y → y ≠ root →
        ∃ p, s'.parent y = .ok (some p) ∧ s'.Child p y ∧ s.Reaches root p ∧
          ((∃! way, s.follow root way = some y) →
            ∀ q, s.Reaches root q → s.Child q y → q = p) := by
  have hwf := hs.wellFormed_store
  obtain ⟨t, ht⟩ := exists_unfolds hwf halive hacyclic
  obtain ⟨s', hyields, hlinked⟩ :=
    Revision.relinks_of_unfolds (τ := τ) hwf ht Relation.ReflTransGen.refl s rfl
  have hparent : ∀ y, ¬ Relation.TransGen s.Child root y → s'.parent y = s.parent y := by
    intro y hy
    rw [parent_eq_link, parent_eq_link, hlinked.outside y hy]
  refine ⟨s', ?_, hlinked.same, hparent root ?_, fun y hy => hparent y ?_, fun y hy hne => ?_⟩
  · exact Revision.revise_of_bottomUp? (hyields c)
  · exact hacyclic root .refl
  · exact fun hbelow => hy hbelow.to_reflTransGen
  · have hbelow : Relation.TransGen s.Child root y :=
      (Relation.reflTransGen_iff_eq_or_transGen.mp hy).resolve_left hne
    -- the parent is a node that has it, and the only one if there is only one way
    obtain ⟨p, hp, hreach, hchild⟩ := hlinked.inside y hbelow
    refine ⟨p, parent_eq_ok_iff.mpr hp, hchild.of_unlinked (by rw [hlinked.same]), hreach, ?_⟩
    exact fun hunique q hq hqy => eq_of_follow_unique hunique hq hqy hreach hchild

end Store

namespace Sample

/-- The item that a group holds three times, also given to another group. -/
def borrowed : Store :=
  after (Store.constructNamed "group" [.value (.str "other"), .one none, .many [⟨0, 0⟩]]) noted

theorem reachable_borrowed : Reachable schema borrowed := by
  obtain ⟨others, hrun⟩ := reachable_noted
  exact ⟨others, hrun.trans (.operation (.constructNamed _ _) _ _)⟩

/-- The group unfolds as before, whoever else has its item. -/
theorem unfolds_borrowed : borrowed.Unfolds ⟨1, 0⟩ tree := by
  have hs : borrowed.schema = schema := reachable_borrowed.schema_eq
  have hpart : borrowed.Unfolds ⟨0, 0⟩ part :=
    unfolds_part hs (p := some ⟨2, 0⟩) (by decide +kernel)
  exact unfolds_group hs (by decide +kernel) hpart hpart hpart

/-- The revision of the first group makes it the parent of the item again. -/
theorem relinks_borrowed :
    borrowed.parent ⟨0, 0⟩ = .ok (some ⟨2, 0⟩) ∧
      ∃ s', Store.revise .inPlace Revision.keep ⟨1, 0⟩ (borrowed, ()) = .ok (some ⟨1, 0⟩) (s', ()) ∧
        s'.unlinked = borrowed.unlinked ∧ s'.parent ⟨0, 0⟩ = .ok (some ⟨1, 0⟩) := by
  refine ⟨by decide +kernel, ?_⟩
  obtain ⟨s', hrevise, hsame, -⟩ := Store.revise_keep_relinks reachable_borrowed
    unfolds_borrowed.isAlive unfolds_borrowed.acyclic ()
  have hparent : (after (Store.revise .inPlace Revision.keep ⟨1, 0⟩) (borrowed, ())).1.parent ⟨0, 0⟩
      = .ok (some ⟨1, 0⟩) := by
    have hends :
        (Revision.bottomUpTo .inPlace Revision.keep 2 ⟨1, 0⟩ (borrowed, ())).isSome = true := by
      decide +kernel
    rw [after, Revision.revise_eq_bottomUpTo 2 hends]
    decide +kernel
  rw [Store.after_of_ok hrevise] at hparent
  exact ⟨s', hrevise, hsame, hparent⟩

end Sample

end TypedForest
