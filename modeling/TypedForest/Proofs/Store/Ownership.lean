import TypedForest.Proofs.Store.Adding
import TypedForest.Proofs.Store.Descent
import TypedForest.Proofs.Wire.Recovery

namespace TypedForest

/-!
# Exclusive ownership

A node may stand in several slots, and its parent may have let go of it.  Neither comes up if a
slot is written to only while it is empty, and only with nodes that no other node has.  The store
is then a forest: parents and children say the same, and every node stands in one place.

* `Store.Forest` : what a store looks like in which every node has at most one owner;
* `Store.Forest.gives`, `Store.Forest.trims`, `Store.Forest.sprouts` : how that is kept up, when a
  node gets children that nobody has, when nodes go, and when trees grow;
* `Revision.revise_keep_inPlace` : a revision in place that keeps what it is given writes to
  slots that are not empty, but only what is in them;
* `Store.Forest.nodup_preorder` : under a node of a forest no node is met twice;
* `Owning.forest` : a run that gives away only what nobody has keeps a forest.
-/

namespace Store

/-- Every node has at most one owner: who stands in a slot has the node with the slot as its
    parent, and stands there once. -/
structure Forest (s : Store) : Prop extends s.Descending where
  exact : ∀ p c, s.Child p c → s.link c = some (some p)
  once : ∀ h, (s.childrenOf h).Nodup

/-- The nodes are different, and none of them has a parent. -/
structure Unowned (s : Store) (cs : List Handle) : Prop where
  nodup : cs.Nodup
  parentless : ∀ c ∈ cs, ∀ p, ¬ s.HasParent c p

/-- An empty store is a forest. -/
theorem forest_empty (schema : Schema) : (Store.empty schema).Forest := by
  have hnone : ∀ h, (Store.empty schema).childrenOf h = [] := by
    intro h
    simp [childrenOf, node?, Store.empty]
  refine ⟨descending_empty schema, fun p c hc => ?_, fun h => ?_⟩
  · rw [child_iff_mem_childrenOf, hnone] at hc
    cases hc
  · rw [hnone]
    exact List.nodup_nil

/-- In a forest the children of a node are those whose parent it is. -/
theorem Forest.child_iff {s : Store} (hs : s.Forest) {p c : Handle} :
    s.Child p c ↔ s.parent c = .ok (some p) := by
  rw [parent_eq_ok_iff]
  exact ⟨hs.exact p c, hs.held c p⟩

/-! ### Keeping up a forest -/

/-- What is left of a forest is one. -/
theorem Forest.trims {s s' : Store} (hs : s.Forest) (hwf' : s'.WellFormed) (h : Trims s s') :
    s'.Forest := by
  refine ⟨hs.toDescending.trims h, fun p c hc => ?_, fun x => ?_⟩
  · obtain ⟨hp, hold⟩ := h.child_iff.mp hc
    exact (h.links c p).mpr ⟨hs.exact p c hold, hwf'.isAlive_of_child hc, hp⟩
  · rw [childrenOf]
    cases hx : s'.node? x with
    | none => exact List.nodup_nil
    | some n' =>
      obtain ⟨n, hn, hsame⟩ := h.nodes x n' hx
      have honce := hs.once x
      rw [childrenOf, hn] at honce
      show n'.childNodes.Nodup
      rw [hsame]
      exact honce

/-- Upkeep keeps a forest. -/
theorem Forest.tendings {s s' : Store} (hs : s.Forest) (hwf : s.WellFormed) (h : Tendings s s') :
    s'.Forest := by
  induction h with
  | refl => exact hs
  | tail hbefore hstep ih =>
    have hwf₁ := hwf.steps (Tendings.steps hbefore)
    exact ih.trims (hwf₁.step hstep.step) (hstep.trims hwf₁)

/-- Children that nobody has, and from which no way leads to the node that gets them. -/
theorem Forest.gives {s s' : Store} {h : Handle} {cs : List Handle} (hs : s.Forest)
    (hg : Gives s s' h cs) (hcs : s.Unowned cs) (hbelow : ∀ c ∈ cs, ¬ s.Reaches c h) :
    s'.Forest := by
  have hnot : ∀ p c, c ∈ cs → ¬ s.Child p c := by
    intro p c hmem hc
    exact hcs.parentless c hmem p (hs.child_iff.mp hc)
  refine ⟨hs.toDescending.gives hg hbelow, fun p c hc => ?_, fun x => ?_⟩
  · rw [hg.links]
    rcases hg.child_iff.mp hc with ⟨hp, hmem⟩ | hold
    · exact .inl ⟨hmem, hp⟩
    · exact .inr ⟨fun hmem => hnot p c hmem hold, hs.exact p c hold⟩
  · by_cases hx : x = h
    · rw [hx, hg.children.nodup_iff]
      refine hcs.nodup.append (hs.once h) fun c hmem hold => ?_
      exact hnot h c hmem (child_iff_mem_childrenOf.mpr hold)
    · rw [hg.others x hx]
      exact hs.once x

/-- A node over children without parents keeps a forest. -/
theorem Forest.construct {s : Store} (hs : s.Forest) (hwf : s.WellFormed) (k : KindId)
    {args : List Filling} (hargs : s.Unowned (args.flatMap Filling.nodes)) :
    (after (Store.construct k args) s).Forest := by
  unfold after
  cases hc : Store.construct k args s with
  | error e s' =>
    rw [construct_eq_error hc]
    exact hs
  | ok h s' =>
    obtain ⟨hgives, hbelow⟩ := gives_construct hwf hc
    exact hs.gives hgives hargs hbelow

/-- New trees stand beside the old ones. -/
theorem Forest.sprouts {s s' : Store} {roots : List Handle} (hs : s.Forest)
    (h : Sprouts s s' roots) (hs' : s'.Descending) : s'.Forest := by
  refine ⟨hs', ?_, fun x => ?_⟩
  · rintro p c ⟨n, hn, hmem⟩
    cases hold : s.node? p with
    | none =>
      -- a new node, whose children are new too and know it
      obtain ⟨-, -, m, hm, hparent⟩ := (h.inner p n hold hn).2 c hmem
      rw [link, hm, Option.map_some, hparent]
    | some n' =>
      rw [h.keeps p n' hold, Option.some.injEq] at hn
      subst hn
      obtain ⟨m, hm, hparent⟩ := Option.map_eq_some_iff.mp (hs.exact p c ⟨n', hold, hmem⟩)
      rw [link, h.keeps c m hm, Option.map_some, hparent]
  · rw [childrenOf]
    cases hx : s'.node? x with
    | none => exact List.nodup_nil
    | some n =>
      cases hold : s.node? x with
      | none => exact (h.inner x n hold hx).1
      | some n' =>
        rw [h.keeps x n' hold, Option.some.injEq] at hx
        have honce := hs.once x
        rw [childrenOf, hold, hx] at honce
        exact honce

/-! ### Writing to an empty slot -/

/-- What is put into an empty slot comes in, and nothing goes. -/
theorem flatMap_nodes_set_perm {ds : List Content} {i : Nat} {d : Content} (hd : ds[i]? = some d)
    (hempty : d.nodes = []) (c : Content) :
    ((ds.set i c).flatMap Content.nodes).Perm (c.nodes ++ ds.flatMap Content.nodes) := by
  induction ds generalizing i with
  | nil => cases hd
  | cons e ds ih =>
    cases i with
    | zero =>
      rw [List.getElem?_cons_zero, Option.some.injEq] at hd
      rw [List.set_cons_zero, List.flatMap_cons, List.flatMap_cons, hd, hempty, List.nil_append]
    | succ i =>
      rw [List.set_cons_succ, List.flatMap_cons, List.flatMap_cons]
      refine ((ih (by simpa using hd)).append_left e.nodes).trans ?_
      rw [← List.append_assoc, ← List.append_assoc]
      exact List.perm_append_comm.append_right _

/-- Adopting changes parents, and no children. -/
theorem childrenOf_adopt (s : Store) (p : Handle) (cs : List Handle) (x : Handle) :
    (s.adopt p cs).childrenOf x = s.childrenOf x := by
  rw [childrenOf, childrenOf, node?_adopt]
  cases s.node? x with
  | none => rfl
  | some n =>
    show (if x ∈ cs then { n with parent := some p } else n).childNodes = n.childNodes
    split <;> rfl

/-- A slot that was empty gives its node the new content. -/
theorem gives_setChildAt {s s' : Store} (hwf : s.WellFormed) {h : Handle} {n : Node}
    (hn : s.node? h = some n) {i : Nat} (hempty : (n.children[i]?.getD default).nodes = [])
    {arg : Filling} (hw : setChildAt h i arg s = .ok () s') : s' = s ∨ Gives s s' h arg.nodes := by
  obtain ⟨m, hm, ⟨-, hsame⟩ | ⟨slot, c, hslot, rfl, -, hs'⟩⟩ := setChildAt_eq_ok (id hw)
  · exact .inl hsame
  · rw [hn, Option.some.injEq] at hm
    subst hm
    -- a proper node has something in each slot of its kind
    obtain ⟨d, hd⟩ : ∃ d, n.children[i]? = some d := by
      have hlength := (hwf.nodes h n hn).children.length_eq
      have hlt := (List.getElem?_eq_some_iff.mp hslot).1
      exact ⟨_, List.getElem?_eq_getElem (hlength ▸ hlt)⟩
    rw [hd, Option.getD_some] at hempty
    rw [Content.nodes_toFilling]
    refine .inr ⟨?_, fun x hx => ?_, fun x p => ?_⟩
    · rw [hs', childrenOf_adopt, childrenOf, childrenOf, node?_modifyNode_self hn, hn]
      exact flatMap_nodes_set_perm hd hempty c
    · rw [hs', childrenOf_adopt, childrenOf, childrenOf, node?_modifyNode, if_neg hx]
    · cases effect_setChildAt hn hslot hw with
      | assign _ _ links =>
        rw [links, Content.nodes_toFilling]
        by_cases hmem : x ∈ c.nodes <;> simp [hmem, eq_comm]

/-! ### Ways in a forest -/

section

variable {s : Store} (hs : s.Forest)
include hs

/-- Of two nodes above a third, one is above the other. -/
theorem Forest.reaches_total {a b x : Handle} (ha : s.Reaches a x) (hb : s.Reaches b x) :
    s.Reaches a b ∨ s.Reaches b a := by
  have hunique : Relator.RightUnique (Function.swap s.Child) := by
    intro c p q hp hq
    have hlink := hs.exact p c hp
    rw [hs.exact q c hq] at hlink
    cases hlink
    rfl
  have htotal := Relation.ReflTransGen.total_of_right_unique hunique
    (Relation.reflTransGen_swap.mpr ha) (Relation.reflTransGen_swap.mpr hb)
  exact htotal.symm.imp Relation.reflTransGen_swap.mp Relation.reflTransGen_swap.mp

/-- There is nothing above a node without parent. -/
theorem Forest.eq_of_reaches {a c : Handle} (hc : ∀ p, ¬ s.HasParent c p) (ha : s.Reaches a c) :
    a = c := by
  rcases Relation.ReflTransGen.cases_tail ha with rfl | ⟨p, -, hlast⟩
  · rfl
  · exact absurd (hs.child_iff.mp hlast) (hc p)

/-- A node without parent that is above another is its root. -/
theorem Forest.root_eq (hwf : s.WellFormed) {c h : Handle} (hc : ∀ p, ¬ s.HasParent c p)
    (halive : s.isAlive h = true) (hway : s.Reaches c h) : s.root h = .ok c := by
  obtain ⟨r, hr, hparent, hreach, -⟩ := hs.exists_root hwf halive
  have hnone : ∀ p, ¬ s.HasParent r p := by
    intro p hp
    rw [HasParent, hparent] at hp
    cases hp
  rcases hs.reaches_total hway hreach with hcr | hrc
  · rw [hs.eq_of_reaches hnone hcr]
    exact hr
  · rw [← hs.eq_of_reaches hc hrc]
    exact hr

/-- Two children of a node have nothing below them in common. -/
theorem Forest.eq_of_reaches_of_child {h a b x : Handle} (ha : s.Child h a) (hb : s.Child h b)
    (hax : s.Reaches a x) (hbx : s.Reaches b x) : a = b := by
  -- who is below a child of `h`, and is a child of `h`, would have `h` below that child
  have heq : ∀ a b, s.Child h a → s.Child h b → s.Reaches a b → a = b := by
    intro a b ha hb hway
    rcases Relation.ReflTransGen.cases_tail hway with rfl | ⟨p, hbefore, hlast⟩
    · rfl
    · have hlink := hs.exact p b hlast
      rw [hs.exact h b hb] at hlink
      cases hlink
      exact absurd (Relation.TransGen.head' ha hbefore) (hs.acyclic h)
  rcases hs.reaches_total hax hbx with hab | hba
  · exact heq a b ha hb hab
  · exact (heq b a hb ha hba).symm

/-- Under a node of a forest no node is met twice. -/
theorem Forest.nodup_preorder {n : Nat} {h : Handle} (hh : s.HeightLe n h) :
    (s.preorder n h).Nodup := by
  induction n generalizing h with
  | zero => exact absurd hh (s.not_heightLe_zero h)
  | succ n ih =>
    have hbelow : ∀ c ∈ s.childrenOf h, ∀ x ∈ s.preorder n c, s.Reaches c x := by
      intro c hc x hx
      exact (mem_preorder_iff (hh.of_mem_childrenOf hc)).mp hx
    show (h :: (s.childrenOf h).flatMap (s.preorder n)).Nodup
    refine List.nodup_cons.mpr ⟨fun hmem => ?_, List.nodup_flatMap.mpr ⟨fun c hc => ?_, ?_⟩⟩
    · obtain ⟨c, hc, hx⟩ := List.mem_flatMap.mp hmem
      exact hs.acyclic h (.head' (child_iff_mem_childrenOf.mpr hc) (hbelow c hc h hx))
    · exact ih (hh.of_mem_childrenOf hc)
    · refine (hs.once h).imp_of_mem fun {a b} ha hb hne x hxa hxb => hne ?_
      exact hs.eq_of_reaches_of_child (child_iff_mem_childrenOf.mpr ha)
        (child_iff_mem_childrenOf.mpr hb) (hbelow a ha x hxa) (hbelow b hb x hxb)

/-- All slots of all nodes together hold every node once at most. -/
theorem Forest.nodup_children : (s.handles.flatMap s.childrenOf).Nodup := by
  refine List.nodup_flatMap.mpr ⟨fun h _ => hs.once h, ?_⟩
  refine s.nodup_handles.imp fun {p q} hne c hp hq => hne ?_
  have hlink := hs.exact p c (child_iff_mem_childrenOf.mpr hp)
  rw [hs.exact q c (child_iff_mem_childrenOf.mpr hq)] at hlink
  cases hlink
  rfl

end

/-- Writing into an empty slot nodes that nobody has.  A node without parent has no way to the
    written one unless it is its root. -/
theorem Forest.set {s : Store} (hs : s.Forest) (hwf : s.WellFormed) {h : Handle} {name : String}
    {arg : Filling} (hempty : ∀ f, s.slot h name = .ok f → f.nodes = [])
    (harg : s.Unowned arg.nodes) (hroot : ∀ r, s.root h = .ok r → r ∉ arg.nodes) :
    (after (Store.set h name arg) s).Forest := by
  rcases set_cases s h name arg with htouch | ⟨n, i, hn, hheld, hset⟩
  · exact hs.tendings hwf htouch.tendings
  · have hvacant : (n.children[i]?.getD default).nodes = [] := by
      rw [← Content.nodes_toFilling]
      exact hempty _ hheld
    -- what has no parent is the root of all that is below it
    have hbelow : ∀ c ∈ arg.nodes, ¬ s.Reaches c h := by
      intro c hc hway
      have hr := hs.root_eq hwf (harg.parentless c hc) (isAlive_of_node? hn) hway
      exact hroot c hr hc
    unfold after
    rw [hset]
    cases hw : setChildAt h i arg s with
    | error e s' =>
      rw [setChildAt_eq_error hw]
      exact hs
    | ok u s' =>
      rcases gives_setChildAt hwf hn hvacant hw with rfl | hgives
      · exact hs
      · exact hs.gives hgives harg hbelow

/-! ### Writing back what is there -/

/-- Adopting what was adopted before changes nothing. -/
theorem adopt_eq_self {s : Store} {h : Handle} {cs : List Handle}
    (hcs : ∀ c ∈ cs, s.link c = some (some h)) : s.adopt h cs = s := by
  induction cs with
  | nil => rfl
  | cons c cs ih =>
    obtain ⟨hfirst, hrest⟩ := List.forall_mem_cons.mp hcs
    have hsame : (s.modifyNode c fun n => { n with parent := some h }) = s := by
      refine modifyNode_eq_self fun n hn => ?_
      rw [link, hn, Option.map_some, Option.some.injEq] at hfirst
      rw [← hfirst]
    rw [adopt, List.foldl_cons, hsame]
    exact ih hrest

/-- In a forest the nodes in a slot have the parent that they get when they are written to it
    again. -/
theorem Forest.setChildAt_same {s : Store} (hs : s.Forest) {h : Handle} {n : Node}
    (hn : s.node? h = some n) {i : Nat} {c : Content} (hc : n.children[i]? = some c) :
    setChildAt h i c.toFilling s = .ok () s ∨ ∃ e, setChildAt h i c.toFilling s = .error e s := by
  cases hw : setChildAt h i c.toFilling s with
  | error e s' =>
    rw [setChildAt_eq_error hw]
    exact .inr ⟨e, rfl⟩
  | ok u s' =>
    refine .inl ?_
    obtain ⟨m, hm, ⟨-, rfl⟩ | ⟨slot, d, -, hd, -, rfl⟩⟩ := setChildAt_eq_ok hw
    · rfl
    · obtain rfl : c = d := Content.toFilling_injective hd
      rw [modifyNode_set_self hn hc, adopt_eq_self]
      intro x hx
      exact hs.exact h x ⟨n, hn, List.mem_flatMap.mpr ⟨c, List.mem_of_getElem? hc, hx⟩⟩

end Store

namespace Revision

section

variable {τ α β : Type} {s : Store}

/-- On the store `s` an operation changes nothing, and returns `a` unless it fails. -/
def Idles (s : Store) (x : Attempt τ α) (a : α) : Prop :=
  ∀ c r, x (s, c) = some r → r = .ok a (s, c) ∨ ∃ e, r = .error e (s, c)

/-- A step that only returns idles. -/
theorem idles_pure (a : α) : Idles s (pure a : Attempt τ α) a := by
  intro c r hr
  cases hr
  exact .inl rfl

/-- Steps that idle one after the other. -/
theorem Idles.bind {x : Attempt τ α} {a : α} {f : α → Attempt τ β} {b : β} (hx : Idles s x a)
    (hf : Idles s (f a) b) : Idles s (x >>= f) b := by
  intro c r hr
  rw [attempt_bind_apply] at hr
  obtain ⟨q, hq, hfollow⟩ := Option.bind_eq_some_iff.mp hr
  rcases hx c q hq with rfl | ⟨e, rfl⟩
  · exact hf c r hfollow
  · cases hfollow
    exact .inr ⟨e, rfl⟩

/-- An operation that leaves the store alone idles. -/
theorem idles_onStore {x : Edit α} {a : α} (hx : x s = .ok a s ∨ ∃ e, x s = .error e s) :
    Idles s (perform (onStore x) : Attempt τ α) a := by
  intro c r hr
  cases hr
  rcases hx with hx | ⟨e, hx⟩
  · exact .inl (by rw [onStore, hx])
  · exact .inr ⟨e, by rw [onStore, hx]⟩

/-- A step for each item idles if all of them do. -/
theorem idles_mapM {f : α → Attempt τ β} {g : α → β} {xs : List α}
    (hf : ∀ x ∈ xs, Idles s (f x) (g x)) : Idles s (xs.mapM f) (xs.map g) := by
  induction xs with
  | nil => exact idles_pure []
  | cons x xs ih =>
    obtain ⟨hfirst, hrest⟩ := List.forall_mem_cons.mp hf
    rw [List.mapM_cons]
    exact hfirst.bind ((ih hrest).bind (idles_pure _))

variable {visit : Handle → Attempt τ (Option Handle)}
  (hvisit : ∀ h, Idles s (visit h) (some h))
include hvisit

/-- Visits that keep their nodes keep them all. -/
theorem idles_filterMapM (hs : List Handle) : Idles s (hs.filterMapM visit) hs := by
  induction hs with
  | nil => exact idles_pure []
  | cons h hs ih =>
    rw [List.filterMapM_cons]
    exact (hvisit h).bind (ih.bind (idles_pure _))

/-- A content whose nodes are kept is kept. -/
theorem idles_reviseContent (c : Content) : Idles s (reviseContent visit c) c.toFilling := by
  cases c with
  | one node =>
    cases node with
    | none => exact idles_pure _
    | some h => exact (hvisit h).bind (idles_pure _)
  | many hs => exact (idles_filterMapM hvisit hs).bind (idles_pure _)

/-- In a forest a node that gets its old children back stays as it was. -/
theorem idles_reviseNode (hs : s.Forest) (h : Handle) :
    Idles s (reviseNode .inPlace keep visit h) (some h) := by
  rw [reviseNode]
  cases hn : s.node? h with
  | none =>
    intro c r hr
    have hread : onStore (readNode h) (s, c) = .error (.staleNode h) (s, c) := by
      simp [onStore, readNode, Store.get, hn]
    rw [attempt_bind_apply, perform, hread] at hr
    cases hr
    exact .inr ⟨_, rfl⟩
  | some n =>
    have hread : readNode h s = .ok n s := by
      simp [readNode, Store.get, hn]
    refine (idles_onStore (.inl hread)).bind ?_
    -- every slot is written to, with what is in it
    refine (idles_mapM (g := fun p => p.1.toFilling) fun p hp => ?_).bind fun c r hr => ?_
    · obtain ⟨d, i⟩ := p
      have hd : n.children[i]? = some d := List.mem_zipIdx_iff_getElem?.mp hp
      have hwrite := hs.setChildAt_same hn hd
      exact (idles_reviseContent hvisit d).bind ((idles_onStore hwrite).bind (idles_pure _))
    · cases hr
      exact .inl rfl

end

/-- A revision in place that keeps what it is given changes nothing in a forest. -/
theorem revise_keep_inPlace {τ : Type} {s : Store} (hs : s.Forest) (root : Handle) (c : τ) :
    after (Store.revise .inPlace keep root) (s, c) = (s, c) := by
  have hidles : ∀ h, Idles s (bottomUp .inPlace keep h : Attempt τ (Option Handle)) (some h) := by
    intro h c r hr
    refine bottomUp?.partial_correctness .inPlace keep (fun h st r => st.1 = s →
      r = .ok (some h) st ∨ ∃ e, r = .error e st) ?_ h (s, c) r hr rfl
    rintro visit hvisit x ⟨s', d⟩ q hq rfl
    exact idles_reviseNode (fun y e p hp => hvisit y (_, e) p hp rfl) hs x d q hq
  unfold after Store.revise
  rw [outcome?_eq_bottomUp?]
  cases hr : bottomUp? .inPlace keep root (s, c) with
  | none => rfl
  | some r =>
    rcases hidles root c r hr with rfl | ⟨e, rfl⟩
    · rfl
    · rfl

end Revision

/-! ### Runs with exclusive ownership -/

/-- An operation on a store over a schema that gives away only nodes without parent, each once and
    not to a node below it, and writes to child slots only while they are empty.
    Values, notes, sweeps, reading, restoring, and revisions that keep what they are given are
    free.  Operations and revisions count whether they succeed or fail. -/
inductive Owning (schema : Schema) (s : Store) : Store → Prop
  | construct {k : KindId} (hk : k.index < schema.size) {args : List Filling}
      (hargs : s.Unowned (args.flatMap Filling.nodes)) :
      Owning schema s (after (Store.construct k args) s)
  | constructNamed (kind : String) {args : List Filling}
      (hargs : s.Unowned (args.flatMap Filling.nodes)) :
      Owning schema s (after (Store.constructNamed kind args) s)
  | set {h : Handle} {name : String} {arg : Filling}
      (hempty : ∀ f, s.slot h name = .ok f → f.nodes = []) (harg : s.Unowned arg.nodes)
      (hroot : ∀ r, s.root h = .ok r → r ∉ arg.nodes) :
      Owning schema s (after (Store.set h name arg) s)
  | upkeep {ε α : Type} {x : EStateM ε Store α} (hx : s.Upkeep x) : Owning schema s (after x s)
  | decode (data : List UInt8) : Owning schema s (after (Store.decode data) s)
  | restore (snap : Snapshot) : Owning schema s (after (Store.restore snap) s)
  | revise {τ : Type} (mode : Revision.Mode) (root : Handle) (c : τ) :
      Owning schema s (after (Store.revise mode Revision.keep root) (s, c)).1

namespace Owning

variable {schema : Schema} {s s' : Store}

/-- What owners do are steps of the store. -/
theorem steps (h : Owning schema s s') (hschema : s.schema = schema) (hwf : s.WellFormed)
    (hs : s.Forest) : Store.Steps s s' := by
  cases h with
  | construct hk => exact (Store.Growths.construct (.inl (hschema ▸ hk)) _).steps
  | constructNamed kind => exact (Store.Growths.constructNamed s kind _).steps
  | set => exact Store.Steps.set s _ _ _
  | upkeep hx => exact hx.tendings.steps
  | decode data => exact (Store.Growths.decode data s).steps
  | restore snap => exact (Store.Growths.restore snap s).steps
  | revise mode root c =>
    cases mode with
    | copy =>
      have hbuilding : Building schema s (after (Store.revise .copy Revision.keep root) (s, c)).1 :=
        .revise (fun _ st _ _ => .refl st.1) root (s, c)
      exact (hbuilding.growths hschema hwf).steps
    | inPlace => rw [Revision.revise_keep_inPlace hs]

/-- Each operation keeps a forest a forest. -/
theorem forest (h : Owning schema s s') (hschema : s.schema = schema) (hwf : s.WellFormed)
    (hs : s.Forest) : s'.Forest := by
  -- what only adds nodes makes no cycles
  have hgrown : ∀ {u roots}, Building schema s u → s.Sprouts u roots → u.Forest := by
    intro u roots hbuilding hsprouts
    exact hs.sprouts hsprouts (hs.growths hwf (hbuilding.growths hschema hwf))
  cases h with
  | construct hk hargs => exact hs.construct hwf _ hargs
  | constructNamed kind hargs =>
    unfold after Store.constructNamed
    cases s.schema.kindByName? kind with
    | none => exact hs
    | some k => exact hs.construct hwf k hargs
  | set hempty harg hroot => exact hs.set hwf hempty harg hroot
  | upkeep hx => exact hs.tendings hwf hx.tendings
  | decode data =>
    obtain ⟨roots, hsprouts⟩ := Store.exists_sprouts_decode hwf data
    exact hgrown (.decode data s) hsprouts
  | restore snap =>
    obtain ⟨roots, hsprouts⟩ := Store.exists_sprouts_restore hwf snap
    exact hgrown (.restore snap s) hsprouts
  | revise mode root c =>
    cases mode with
    | copy =>
      obtain ⟨roots, hsprouts⟩ := Revision.exists_sprouts_revise hwf root c
      exact hgrown (.revise (fun _ st _ _ => .refl st.1) root (s, c)) hsprouts
    | inPlace =>
      rw [Revision.revise_keep_inPlace hs]
      exact hs

end Owning

/-- A run of such operations leads from forest to forest. -/
theorem Owning.run {schema : Schema} {s : Store}
    (h : Relation.ReflTransGen (Owning schema) (Store.empty schema) s) :
    s.schema = schema ∧ s.WellFormed ∧ s.Forest := by
  induction h with
  | refl => exact ⟨rfl, Store.wellFormed_empty schema, Store.forest_empty schema⟩
  | tail _ hstep ih =>
    obtain ⟨hschema, hwf, hs⟩ := ih
    have hsteps := hstep.steps hschema hwf hs
    exact ⟨hsteps.schema.trans hschema, hwf.steps hsteps, hstep.forest hschema hwf hs⟩

/-- **Exclusive ownership makes a forest.**  As long as only nodes without parent are given away,
    all slots of all live nodes together hold every node at most once, a node is the parent of
    another exactly if it holds it, and every live node has a root, from which each of the three
    traversals meets it exactly once. -/
theorem Owning.exact_links {schema : Schema} {s : Store}
    (h : Relation.ReflTransGen (Owning schema) (Store.empty schema) s) :
    (s.handles.flatMap s.childrenOf).Nodup ∧
      (∀ c p, s.parent c = .ok (some p) ↔ s.Child p c) ∧
      ∀ n, s.isAlive n = true → ∃ r, s.root n = .ok r ∧ ∀ order, ∃ visited : List Handle,
        (∀ limit, s.traverse order r limit = visited.take limit) ∧ visited.count n = 1 := by
  obtain ⟨-, hwf, hs⟩ := Owning.run h
  refine ⟨hs.nodup_children, fun c p => hs.child_iff.symm, fun n halive => ?_⟩
  obtain ⟨r, hr, hparent, hway, -⟩ := hs.exists_root hwf halive
  obtain ⟨t, ht⟩ := hs.exists_unfolds hwf (h := r) <| by
    rw [← Store.isSome_link, Store.parent_eq_ok_iff.mp hparent, Option.isSome_some]
  have hheight : s.HeightLe t.height r := ⟨t, ht, Nat.le_refl _⟩
  refine ⟨r, hr, fun order => ⟨s.inOrder order t.height r, ?_, ?_⟩⟩
  · exact Store.traverse_eq_take hheight order
  · rw [(s.inOrder_perm order t.height r).count_eq]
    exact List.count_eq_one_of_mem (hs.nodup_preorder hheight)
      ((Store.mem_preorder_iff hheight).mpr hway)

/-! ### A part that gets a part of its own -/

namespace Sample

/-- Two items. -/
def pair : Store :=
  after (Store.constructNamed "item" [.value (.str "second")]) <|
  after (Store.constructNamed "item" [.value (.str "first")]) (Store.empty schema)

/-- A group has the second one as its part. -/
def crate : Store :=
  after (Store.constructNamed "group" [.value (.str "all"), .one none, .many [⟨1, 0⟩]]) pair

/-- The part gets the first one as its next item. -/
def chained : Store := after (Store.set ⟨1, 0⟩ "next" (.one (some ⟨0, 0⟩))) crate

/-- A node whose parent is none is not owned. -/
theorem unowned_singleton {s : Store} {h : Handle} (hh : s.parent h = .ok none) :
    s.Unowned [h] := by
  refine ⟨List.nodup_singleton h, List.forall_mem_singleton.mpr fun p hp => ?_⟩
  rw [Store.HasParent, hh] at hp
  cases hp

theorem owning_chained :
    Relation.ReflTransGen (Owning schema) (Store.empty schema) chained := by
  have hnothing : ∀ s : Store, s.Unowned [] := fun s => ⟨List.nodup_nil, by simp⟩
  have hpart : pair.Unowned [⟨1, 0⟩] := unowned_singleton (by decide +kernel)
  have hnext : crate.Unowned [⟨0, 0⟩] := unowned_singleton (by decide +kernel)
  have hslot : crate.slot ⟨1, 0⟩ "next" = .ok (.one none) := by decide +kernel
  have hroot : crate.root ⟨1, 0⟩ = .ok ⟨2, 0⟩ := by decide +kernel
  refine (((Relation.ReflTransGen.single (.constructNamed "item" (hnothing _))).tail
    (.constructNamed "item" (hnothing _))).tail (.constructNamed "group" hpart)).tail
    (.set ?_ hnext ?_)
  · intro f hf
    rw [hslot, Except.ok.injEq] at hf
    rw [← hf]
    rfl
  · intro r hr
    rw [hroot, Except.ok.injEq] at hr
    rw [← hr]
    decide

/-- The item that was given away last is met once from the group. -/
theorem exact_links_chained :
    chained.parent ⟨0, 0⟩ = .ok (some ⟨1, 0⟩) ∧ chained.Child ⟨1, 0⟩ ⟨0, 0⟩ ∧
      ∃ r, chained.root ⟨0, 0⟩ = .ok r ∧ ∀ order, ∃ visited : List Handle,
        (∀ limit, chained.traverse order r limit = visited.take limit) ∧
          visited.count ⟨0, 0⟩ = 1 := by
  have hparent : chained.parent ⟨0, 0⟩ = .ok (some ⟨1, 0⟩) := by decide +kernel
  obtain ⟨-, hlinks, hroots⟩ := Owning.exact_links owning_chained
  exact ⟨hparent, (hlinks _ _).mp hparent, hroots ⟨0, 0⟩ (by decide +kernel)⟩

end Sample

end TypedForest
