import TypedForest.Proofs.Revision.Relinking
import TypedForest.Proofs.Store.Staleness
import TypedForest.Proofs.Tree.Pruning

namespace TypedForest

/-!
# Revisions that prune

A callback that keeps or drops every node by what is left of its tree makes a revision prune the
tree, whether the revision copies the nodes or changes them where they are.  For the latter it
matters that no node is in two places: what is done below one node must not be seen below another.

* `Store.ProperBelow` : only one way leads from the root to each node;
* `Revision.Judges` : a callback that decides by the tree of a node;
* `Revision.Moved`, `Revision.Within` : what a part of the revision changes, and which nodes its
  result is made of;
* `Revision.prunes_of_unfolds` : the recursion prunes, in both modes;
* `Store.revise_prunes` : the two revisions give the same tree.

Both modes are treated at once.  Coming to a node changes at most the nodes below it and makes new
nodes, and what is left of its tree is made of these two.
-/

/-! ### Trees in a store -/

namespace Store

/-- Only one way leads from the root to each node that it reaches. -/
def ProperBelow (s : Store) (root : Handle) : Prop :=
  ∀ y, s.Reaches root y → ∃! way, s.follow root way = some y

/-- No node is reached from both. -/
def Apart (s : Store) (x y : Handle) : Prop := ∀ z, s.Reaches x z → ¬ s.Reaches y z

section

variable {s : Store} {root : Handle}

/-- What is reached from several nodes is reached from the first or from the others. -/
theorem reachedFrom_cons {x y : Handle} {xs : List Handle} :
    s.ReachedFrom (x :: xs) y ↔ s.Reaches x y ∨ s.ReachedFrom xs y := by
  simp [ReachedFrom]

/-- Or from the nodes of one list or the other. -/
theorem reachedFrom_append {y : Handle} {xs xs' : List Handle} :
    s.ReachedFrom (xs ++ xs') y ↔ s.ReachedFrom xs y ∨ s.ReachedFrom xs' y := by
  simp [ReachedFrom, or_and_right, exists_or]

/-- What is reached from the children of a node is reached from it. -/
theorem ReachedFrom.of_childNodes {x y : Handle} {n : Node}
    (hy : s.ReachedFrom n.childNodes y) (hn : s.node? x = some n) : s.Reaches x y := by
  obtain ⟨c, hc, hcy⟩ := hy
  exact .head ⟨n, hn, hc⟩ hcy

/-- A tree is proper if a traversal meets no node twice. -/
theorem properBelow_of_nodup {n : Nat} (hheight : s.HeightLe n root)
    (hnodup : (s.preorder n root).Nodup) : s.ProperBelow root := by
  intro y hy
  have hcount : (s.preorder n root).count y = 1 :=
    List.count_eq_one_of_mem hnodup ((mem_preorder_iff hheight).mpr hy)
  have hways := encard_follow_eq hheight y
  rw [hcount, Nat.cast_one, Set.encard_eq_one] at hways
  obtain ⟨way, hway⟩ := hways
  have hiff : ∀ w, s.follow root w = some y ↔ w = way := fun w => Set.ext_iff.mp hway w
  exact ⟨way, (hiff way).mpr rfl, fun w hw => (hiff w).mp hw⟩

/-- With only one way to each node there are no cycles, which would be second ways. -/
theorem ProperBelow.acyclic (hproper : s.ProperBelow root) : s.Acyclic root := by
  intro x hx hcycle
  obtain ⟨c, hchild, hback⟩ := Relation.TransGen.head'_iff.mp hcycle
  obtain ⟨way, hway⟩ := hx.exists_follow
  obtain ⟨i, hi⟩ := List.getElem?_of_mem (child_iff_mem_childrenOf.mp hchild)
  obtain ⟨way', hway'⟩ := Reaches.exists_follow hback
  -- once around the cycle is another way
  have hsame : way ++ i :: way' = way := (hproper x hx).unique (follow_through hway hi hway') hway
  simp at hsame

/-- Nothing is below two children of a node. -/
theorem ProperBelow.pairwise (hproper : s.ProperBelow root) {x : Handle} (hx : s.Reaches root x) :
    (s.childrenOf x).Pairwise s.Apart := by
  refine List.pairwise_iff_getElem.mpr fun i j hi hj hij y hc hd => ?_
  obtain ⟨way, hway⟩ := hx.exists_follow
  obtain ⟨wayc, hwayc⟩ := hc.exists_follow
  obtain ⟨wayd, hwayd⟩ := hd.exists_follow
  have hyc := follow_through hway (List.getElem?_eq_getElem hi) hwayc
  have hyd := follow_through hway (List.getElem?_eq_getElem hj) hwayd
  have hy : s.Reaches root y :=
    (hx.tail (child_iff_mem_childrenOf.mpr (List.getElem_mem hi))).trans hc
  -- the two ways part where they leave `x`
  have hsame := List.append_cancel_left ((hproper y hy).unique hyc hyd)
  rw [List.cons.injEq] at hsame
  omega

/-- The tree under a node is seen in another store if the nodes in it are the same there. -/
theorem Unfolds.of_unlinked {s' : Store} (hschema : s'.schema = s.schema) {h : Handle} {t : Tree}
    (ht : s.Unfolds h t)
    (hsame : ∀ y, s.Reaches h y → s'.unlinked.node? y = s.unlinked.node? y) :
    s'.Unfolds h t := by
  induction t generalizing h with
  | node l ts ih =>
    obtain ⟨n, hn, rfl, hts⟩ := unfolds_node_iff.mp ht
    obtain ⟨p, hm⟩ := exists_node?_of_same (hsame h .refl) hn
    refine unfolds_node_iff.mpr ⟨_, hm, by rw [label, label, hschema], ?_⟩
    refine forall₂_imp_of_mem (forall₂_mem_left hts) fun c u hu hcu => ih u hu hcu.2 fun y hy => ?_
    exact hsame y (.head ⟨n, hn, hcu.1⟩ hy)

/-- Nodes that are the same but for their parents reach the same. -/
theorem Reaches.of_unlinked {s' : Store} {h y : Handle}
    (hsame : ∀ y, s.Reaches h y → s'.unlinked.node? y = s.unlinked.node? y)
    (hy : s'.Reaches h y) : s.Reaches h y := by
  induction hy with
  | refl => exact .refl
  | tail _ hchild ih => exact ih.tail (hchild.of_unlinked (hsame _ ih).symm)

end

end Store

namespace Revision

theorem optionRel_imp {α β : Type} {R S : α → β → Prop} {o : Option α} {p : Option β}
    (h : Option.Rel R o p) (hRS : ∀ a b, R a b → S a b) : Option.Rel S o p := by
  cases h with
  | some hab => exact .some (hRS _ _ hab)
  | none => exact .none

/-! ### The callback -/

/-- The callback changes nothing in a store over the schema, and keeps a node or drops it by the
    tree that it unfolds to. -/
def Judges {τ : Type} (schema : Schema) (keep : Tree → Bool)
    (callback : Handle → Action τ (Option Handle)) : Prop :=
  ∀ h s c t, s.schema = schema → s.WellFormed → s.Unfolds h t →
    ∃ c', callback h (s, c) = .ok (if keep t then some h else none) (s, c')

/-! ### What a part of the revision does -/

/-- An operation succeeds with this result. -/
def Returns {τ α : Type} (x : Attempt τ α) (st : Store × τ) (r : α) (st' : Store × τ) : Prop :=
  x st = some (.ok r st')

/-- Operations that return, one after the other, return. -/
theorem Returns.bind {τ α β : Type} {x : Attempt τ α} {f : α → Attempt τ β}
    {st st₁ st₂ : Store × τ} {r : α} {q : β} (hx : Returns x st r st₁)
    (hf : Returns (f r) st₁ q st₂) : Returns (x >>= f) st q st₂ := by
  rw [Returns, attempt_bind_apply, hx]
  exact hf

theorem Returns.bind_pure {τ α β : Type} {x : Attempt τ α} {st st₁ : Store × τ} {r : α}
    (hx : Returns x st r st₁) (f : α → β) : Returns (x >>= fun a => pure (f a)) st (f r) st₁ :=
  hx.bind rfl

/-- From `s` to `s'` at most `k` nodes are new, and of the others at most those in `changed` say
    something else than before.  All stay alive and have their kinds. -/
structure Moved (s s' : Store) (changed : Handle → Prop) (k : Nat) : Prop where
  wellFormed : s'.WellFormed
  retains : s.Retains s'
  live : s'.live ≤ s.live + k
  outside : ∀ y, s.isAlive y = true → ¬ changed y → s'.unlinked.node? y = s.unlinked.node? y

/-- A store that stays as it is has not moved. -/
theorem moved_self {s : Store} (hs : s.WellFormed) (changed : Handle → Prop) (k : Nat) :
    Moved s s changed k :=
  ⟨hs, ⟨rfl, fun _ n hn => ⟨n, hn, rfl⟩⟩, Nat.le_add_right _ _, fun _ _ _ => rfl⟩

/-- More nodes may change, and more may be added. -/
theorem Moved.mono {s s' : Store} {F G : Handle → Prop} {k l : Nat} (h : Moved s s' F k)
    (hFG : ∀ y, F y → G y) (hkl : k ≤ l) : Moved s s' G l :=
  ⟨h.wellFormed, h.retains, h.live.trans (Nat.add_le_add_left hkl _),
    fun y halive hy => h.outside y halive (mt (hFG y) hy)⟩

/-- What changes in two moves is what changes in one or the other. -/
theorem Moved.trans {s s₁ s₂ : Store} {F G : Handle → Prop} {j k : Nat} (h₁ : Moved s s₁ F j)
    (h₂ : Moved s₁ s₂ G k) : Moved s s₂ (fun y => F y ∨ G y) (j + k) := by
  refine ⟨h₂.wellFormed, h₁.retains.trans h₂.retains, ?_, fun y halive hy => ?_⟩
  · have hlive₁ := h₁.live
    have hlive₂ := h₂.live
    omega
  · rw [not_or] at hy
    rw [h₂.outside y (h₁.retains.isAlive halive) hy.2, h₁.outside y halive hy.1]

/-- The node unfolds to the tree, and of the nodes of `a` the tree is made of those in `F` only. -/
structure Within (a s : Store) (F : Handle → Prop) (h : Handle) (t : Tree) : Prop where
  unfolds : s.Unfolds h t
  within : ∀ y, s.Reaches h y → a.isAlive y = true → F y

/-- A tree within some nodes is within more of them. -/
theorem Within.mono {a s : Store} {F G : Handle → Prop} {h : Handle} {t : Tree}
    (hw : Within a s F h t) (hFG : ∀ y, F y → G y) : Within a s G h t :=
  ⟨hw.unfolds, fun y hy halive => hFG y (hw.within y hy halive)⟩

/-- A tree is not changed by what happens to other nodes. -/
theorem Within.moved {a s s' : Store} {F G : Handle → Prop} {h : Handle} {t : Tree} {k : Nat}
    (hw : Within a s F h t) (hmoved : Moved s s' G k) (hG : ∀ y, G y → a.isAlive y = true)
    (hFG : ∀ y, F y → ¬ G y) : Within a s' F h t := by
  have hsame : ∀ y, s.Reaches h y → s'.unlinked.node? y = s.unlinked.node? y := by
    intro y hy
    obtain ⟨u, hu⟩ := hw.unfolds.of_reaches hy
    refine hmoved.outside y hu.isAlive fun hGy => ?_
    exact hFG y (hw.within y hy (hG y hGy)) hGy
  refine ⟨hw.unfolds.of_unlinked hmoved.retains.schema hsame, fun y hy halive => ?_⟩
  exact hw.within y (.of_unlinked hsame hy) halive

/-- In `s` the nodes in `F` say what they say in `a`, nothing of `a` is gone, and there is room for
    `k` nodes. -/
structure Poised (a s : Store) (F : Handle → Prop) (k : Nat) : Prop where
  wellFormed : s.WellFormed
  retains : a.Retains s
  room : s.live + k ≤ Store.maxNodes
  intact : ∀ y, F y → s.unlinked.node? y = a.unlinked.node? y

/-- Fewer nodes to revise need less. -/
theorem Poised.mono {a s : Store} {F G : Handle → Prop} {k l : Nat} (h : Poised a s G l)
    (hFG : ∀ y, F y → G y) (hkl : k ≤ l) : Poised a s F k :=
  ⟨h.wellFormed, h.retains, (Nat.add_le_add_left hkl _).trans h.room,
    fun y hy => h.intact y (hFG y hy)⟩

/-- A move that leaves the nodes alone that are still to be revised leaves the store ready for them.
    -/
theorem Poised.moved {a s s' : Store} {F G : Handle → Prop} {j k : Nat}
    (hs : Poised a s F (j + k)) (hmoved : Moved s s' G j) (hF : ∀ y, F y → a.isAlive y = true)
    (hFG : ∀ y, F y → ¬ G y) : Poised a s' F k := by
  refine ⟨hmoved.wellFormed, hs.retains.trans hmoved.retains, ?_, fun y hy => ?_⟩
  · have hlive := hmoved.live
    have hroom := hs.room
    omega
  · rw [hmoved.outside y (hs.retains.isAlive (hF y hy)) (hFG y hy), hs.intact y hy]

/-! ### The recursion -/

section

variable {τ : Type} (a : Store) (mode : Mode) (callback : Handle → Action τ (Option Handle))
  (keep : Tree → Bool)

/-- The results `rs` of revising nodes one after the other, and the store `s'` that they leave. -/
structure Pruned (s s' : Store) (changed : Handle → Prop) (below : Handle → Prop)
    (rs : List (Option Handle)) (ts : List Tree) : Prop where
  moved : Moved s s' changed (Tree.sizeAll ts)
  results : List.Forall₂ (Option.Rel (Within a s' below)) rs (ts.map (Tree.prune keep))

/-- The recursion that comes to the node prunes its tree. -/
structure Prunes (x : Handle) (t : Tree) : Prop where
  unfolds : a.Unfolds x t
  revise : ∀ s c, Poised a s (a.Reaches x) t.size → ∃ r s' c',
    Returns (bottomUp mode callback x) (s, c) r (s', c') ∧
      Moved s s' (a.Reaches x) t.size ∧ Option.Rel (Within a s' (a.Reaches x)) r (t.prune keep)

end

section

variable {τ : Type} {a : Store} {mode : Mode} {callback : Handle → Action τ (Option Handle)}
  {keep : Tree → Bool}

/-- One part after the other, where the second leaves alone what is left of the first. -/
theorem Pruned.append {s s₁ s₂ : Store} {F F₁ F₂ B B₁ B₂ : Handle → Prop}
    {rs₁ rs₂ : List (Option Handle)} {ts₁ ts₂ : List Tree}
    (h₁ : Pruned a keep s s₁ F₁ B₁ rs₁ ts₁) (h₂ : Pruned a keep s₁ s₂ F₂ B₂ rs₂ ts₂)
    (halive : ∀ y, F₂ y → a.isAlive y = true) (hapart : ∀ y, B₁ y → ¬ F₂ y)
    (hF : ∀ y, F₁ y ∨ F₂ y → F y) (hB : ∀ y, B₁ y ∨ B₂ y → B y) :
    Pruned a keep s s₂ F B (rs₁ ++ rs₂) (ts₁ ++ ts₂) := by
  refine ⟨?_, ?_⟩
  · rw [Tree.sizeAll_append]
    exact (h₁.moved.trans h₂.moved).mono hF (Nat.le_refl _)
  · rw [List.map_append]
    refine List.rel_append (h₁.results.imp fun _ _ h => ?_) (h₂.results.imp fun _ _ h => ?_)
    · exact optionRel_imp h fun _ _ hw =>
        (hw.moved h₂.moved halive hapart).mono fun y hy => hB y (.inl hy)
    · exact optionRel_imp h fun _ _ hw => hw.mono fun y hy => hB y (.inr hy)

/-- The nodes that are to be revised are alive. -/
theorem Prunes.isAlive_of_reachedFrom {xs : List Handle} {ts : List Tree}
    (hxs : List.Forall₂ (Prunes a mode callback keep) xs ts) {y : Handle}
    (hy : a.ReachedFrom xs y) : a.isAlive y = true := by
  obtain ⟨x, hx, hreach⟩ := hy
  obtain ⟨t, -, hprunes⟩ := forall₂_exists_right hxs hx
  obtain ⟨u, hu⟩ := hprunes.unfolds.of_reaches hreach
  exact hu.isAlive

/-- Nodes that stand apart are pruned one after the other: none of them is touched while the others
    are revised. -/
theorem prunes_items {xs : List Handle} {ts : List Tree}
    (hxs : List.Forall₂ (Prunes a mode callback keep) xs ts)
    (hapart : xs.Pairwise a.Apart) {s : Store} {c : τ}
    (hs : Poised a s (a.ReachedFrom xs) (Tree.sizeAll ts)) :
    ∃ rs s' c', Returns (xs.filterMapM (bottomUp mode callback)) (s, c) rs.reduceOption (s', c') ∧
      Pruned a keep s s' (a.ReachedFrom xs) (a.ReachedFrom xs) rs ts := by
  induction hxs generalizing s c with
  | nil => exact ⟨[], s, c, rfl, moved_self hs.wellFormed _ _, .nil⟩
  | @cons x t xs ts hx hxs ih =>
    obtain ⟨hfar, hapart⟩ := List.pairwise_cons.mp hapart
    have hsplit : ∀ y, a.Reaches x y ∨ a.ReachedFrom xs y → a.ReachedFrom (x :: xs) y :=
      fun y => Store.reachedFrom_cons.mpr
    have hdisjoint : ∀ y, a.Reaches x y → ¬ a.ReachedFrom xs y := by
      rintro y hxy ⟨z, hz, hzy⟩
      exact hfar z hz y hxy hzy
    have halive : ∀ y, a.ReachedFrom xs y → a.isAlive y = true := fun y hy =>
      Prunes.isAlive_of_reachedFrom hxs hy
    obtain ⟨r, s₁, c₁, hr, hmoved, hrel⟩ :=
      hx.revise s c (hs.mono (fun y hy => hsplit y (.inl hy)) (Nat.le_add_right _ _))
    -- what was done below `x` is not seen from the others
    have hs₁ : Poised a s₁ (a.ReachedFrom xs) (Tree.sizeAll ts) := by
      refine (hs.mono (fun y hy => hsplit y (.inr hy)) (Nat.le_refl _)).moved hmoved halive ?_
      exact fun y hy hxy => hdisjoint y hxy hy
    obtain ⟨rs, s₂, c₂, hrs, hpruned⟩ := ih hapart (c := c₁) hs₁
    have hfirst : Pruned a keep s s₁ (a.Reaches x) (a.Reaches x) [r] [t] :=
      ⟨hmoved, .cons hrel .nil⟩
    refine ⟨r :: rs, s₂, c₂, ?_, hfirst.append hpruned halive hdisjoint hsplit hsplit⟩
    rw [List.filterMapM_cons]
    cases r with
    | none => exact hr.bind hrs
    | some h => exact hr.bind (hrs.bind_pure _)

/-- So are the nodes of a slot, of which those that are left fill it again. -/
theorem prunes_content {d : Content} {ts : List Tree}
    (hd : List.Forall₂ (Prunes a mode callback keep) d.nodes ts)
    (hapart : d.nodes.Pairwise a.Apart) {s : Store} {c : τ}
    (hs : Poised a s (a.ReachedFrom d.nodes) (Tree.sizeAll ts)) :
    ∃ rs s' c', Returns (reviseContent (bottomUp mode callback) d) (s, c)
        (d.thin rs).toFilling (s', c') ∧
      Pruned a keep s s' (a.ReachedFrom d.nodes) (a.ReachedFrom d.nodes) rs ts := by
  cases d with
  | one node =>
    cases node with
    | none =>
      rw [List.forall₂_nil_left_iff.mp hd]
      exact ⟨[], s, c, rfl, moved_self hs.wellFormed _ _, .nil⟩
    | some x =>
      obtain ⟨t, ts, hx, hnil, rfl⟩ := List.forall₂_cons_left_iff.mp hd
      obtain rfl := List.forall₂_nil_left_iff.mp hnil
      have hsingle : a.ReachedFrom (Content.one (some x)).nodes = a.Reaches x := by
        funext y
        simp [Store.ReachedFrom, Content.nodes]
      rw [hsingle] at hs ⊢
      obtain ⟨r, s', c', hr, hmoved, hrel⟩ := hx.revise s c hs
      refine ⟨[r], s', c', ?_, hmoved, .cons hrel .nil⟩
      cases r with
      | none => exact hr.bind_pure Filling.one
      | some h => exact hr.bind_pure Filling.one
  | many xs =>
    obtain ⟨rs, s', c', hrs, hpruned⟩ := prunes_items hd hapart (c := c) hs
    exact ⟨rs, s', c', hrs.bind_pure _, hpruned⟩

/-! ### Writing what is left -/

/-- What the slots of a node hold after a part of the revision: in place the node is written to. -/
def Mode.pick {α : Type} (mode : Mode) (before after : α) : α :=
  match mode with
  | .copy => before
  | .inPlace => after

/-- Writing to a slot of a node changes this node only. -/
theorem moved_setChildAt {s : Store} (hs : s.WellFormed) {x : Handle} {m : Node}
    (hm : s.node? x = some m) {i : Nat} {slot : ChildSlot}
    (hslot : (s.schema.kind m.kind).children[i]? = some slot) {d : Content}
    (hd : s.Admits slot d) :
    ∃ s', Store.setChildAt x i d.toFilling s = .ok () s' ∧ Moved s s' (· = x) 0 ∧
      s'.unlinked.node? x = some { m with children := m.children.set i d, parent := none } := by
  obtain ⟨s', hwrite⟩ := Store.exists_setChildAt hm hslot hd
  have hretains := Store.retains_setChildAt hwrite
  obtain ⟨m', hm', hcases⟩ := Store.setChildAt_eq_ok hwrite
  rw [hm, Option.some.injEq] at hm'
  subst hm'
  rw [hslot] at hcases
  obtain ⟨-, d', -, hdd', -, hs'⟩ := hcases.resolve_left (by simp)
  obtain rfl := Content.toFilling_injective hdd'
  have hunlinked : s'.unlinked
      = (s.modifyNode x fun n => { n with children := n.children.set i d }).unlinked := by
    rw [hs', Store.unlinked_adopt]
  refine ⟨s', hwrite, ⟨hs.setChildAt hwrite, hretains, ?_, fun y _ hy => ?_⟩, ?_⟩
  · rw [hs', Store.live_adopt, Store.live_modifyNode]
    exact Nat.le_refl _
  · rw [hunlinked, Store.node?_unlinked, Store.node?_unlinked, Store.node?_modifyNode, if_neg hy]
  · rw [hunlinked, Store.node?_unlinked, Store.node?_modifyNode_self hm]
    rfl

section

variable (ha : a.WellFormed) (hlawful : a.schema.Lawful) {x : Handle} {n : Node}
  (hn : a.node? x = some n)
include ha hlawful hn

/-- A slot of a node is pruned, and written in place. -/
theorem prunes_slot {d : Content} {i : Nat} (hd : n.children[i]? = some d) {ts : List Tree}
    (hprunes : List.Forall₂ (Prunes a mode callback keep) d.nodes ts)
    (hapart : d.nodes.Pairwise a.Apart)
    (hself : ¬ a.ReachedFrom d.nodes x) {s : Store} {c : τ} {cs : List Content}
    (hs : Poised a s (a.ReachedFrom d.nodes) (Tree.sizeAll ts))
    (hnode : s.unlinked.node? x = some (Node.unlinked { n with children := cs })) :
    ∃ rs s' c', Returns (reviseSlot mode (bottomUp mode callback) x d i) (s, c)
        (d.thin rs).toFilling (s', c') ∧
      Pruned a keep s s' (fun y => y = x ∨ a.ReachedFrom d.nodes y) (a.ReachedFrom d.nodes) rs ts ∧
      s'.unlinked.node? x
        = some (Node.unlinked { n with children := mode.pick cs (cs.set i (d.thin rs)) }) := by
  obtain ⟨rs, s₁, c₁, hcontent, hpruned⟩ := prunes_content hprunes hapart (c := c) hs
  have halive : a.isAlive x = true := Store.isAlive_of_node? hn
  have hnode₁ : s₁.unlinked.node? x = some (Node.unlinked { n with children := cs }) := by
    rw [hpruned.moved.outside x (hs.retains.isAlive halive) hself, hnode]
  cases mode with
  | copy =>
    -- nothing is written before the copy is made
    refine ⟨rs, s₁, c₁, hcontent.bind rfl, ⟨?_, hpruned.results⟩, hnode₁⟩
    exact hpruned.moved.mono (fun _ => .inr) (Nat.le_refl _)
  | inPlace =>
    obtain ⟨p, hm⟩ := Store.exists_node?_of_unlinked hnode₁
    have hschema : s₁.schema = a.schema := (hs.retains.trans hpruned.moved.retains).schema
    -- what is left in the slot is of the kinds of what was in it
    obtain ⟨slot, hslot, hadmits⟩ := (ha.nodes x n hn).exists_admits hd
    have hreplaces := Store.forall₂_replaces ha hpruned.moved.wellFormed hlawful hschema
      (hprunes.imp fun _ _ h => h.unfolds)
      (hpruned.results.imp fun _ _ h => optionRel_imp h fun _ _ hw => hw.unfolds)
    rw [← hschema] at hslot
    obtain ⟨s₂, hwrite, hmoved, hnode₂⟩ := moved_setChildAt hpruned.moved.wellFormed hm hslot
      (hadmits.thin hschema hreplaces)
    refine ⟨rs, s₂, c₁, hcontent.bind (Returns.bind_pure (yields_onStore hwrite c₁) _), ⟨?_, ?_⟩,
      hnode₂⟩
    · exact (hpruned.moved.trans hmoved).mono (fun _ hy => hy.symm) (Nat.le_refl _)
    · refine hpruned.results.imp fun _ _ h => optionRel_imp h fun _ _ hw => hw.moved hmoved ?_ ?_
      · rintro y rfl
        exact halive
      · rintro y hy rfl
        exact hself hy

/-- All slots of a node are pruned one after the other.  The slots before are `front`, and hold
    `done` by now. -/
theorem prunes_slots (front done : List Content) {ds : List Content}
    (hchildren : n.children = front ++ ds) (hdone : done.length = front.length) {ts : List Tree}
    (hprunes : List.Forall₂ (Prunes a mode callback keep) (ds.flatMap Content.nodes) ts)
    (hapart : (ds.flatMap Content.nodes).Pairwise a.Apart)
    (hself : ¬ a.ReachedFrom (ds.flatMap Content.nodes) x) {s : Store} {c : τ}
    (hs : Poised a s (a.ReachedFrom (ds.flatMap Content.nodes)) (Tree.sizeAll ts))
    (hnode : s.unlinked.node? x = some (Node.unlinked { n with children := done ++ ds })) :
    ∃ rs s' c', Returns ((ds.zipIdx front.length).mapM fun (d, i) =>
          reviseSlot mode (bottomUp mode callback) x d i) (s, c)
        ((Shape.refill (ds.map Content.shape) rs).map Content.toFilling) (s', c') ∧
      Pruned a keep s s' (fun y => y = x ∨ a.ReachedFrom (ds.flatMap Content.nodes) y)
        (a.ReachedFrom (ds.flatMap Content.nodes)) rs ts ∧
      s'.unlinked.node? x = some (Node.unlinked
        { n with children := done ++ mode.pick ds (Shape.refill (ds.map Content.shape) rs) }) := by
  induction ds generalizing front done ts s c with
  | nil =>
    obtain rfl := List.forall₂_nil_left_iff.mp hprunes
    refine ⟨[], s, c, rfl, ⟨moved_self hs.wellFormed _ _, .nil⟩, ?_⟩
    cases mode <;> exact hnode
  | cons d ds ih =>
    rw [List.flatMap_cons] at hprunes hapart hself hs ⊢
    obtain ⟨ts₁, ts₂, hprunes₁, hprunes₂, rfl⟩ := forall₂_append_left hprunes
    obtain ⟨hapart₁, hapart₂, hcross⟩ := List.pairwise_append.mp hapart
    rw [Tree.sizeAll_append] at hs
    have hsplit : ∀ y, a.ReachedFrom d.nodes y ∨ a.ReachedFrom (ds.flatMap Content.nodes) y →
        a.ReachedFrom (d.nodes ++ ds.flatMap Content.nodes) y :=
      fun y => Store.reachedFrom_append.mpr
    have halive : ∀ y, y = x ∨ a.ReachedFrom (ds.flatMap Content.nodes) y →
        a.isAlive y = true := by
      rintro y (rfl | hy)
      · exact Store.isAlive_of_node? hn
      · exact Prunes.isAlive_of_reachedFrom hprunes₂ hy
    have hdisjoint : ∀ y, a.ReachedFrom d.nodes y →
        ¬ (y = x ∨ a.ReachedFrom (ds.flatMap Content.nodes) y) := by
      rintro y hy (rfl | ⟨w, hw, hwy⟩)
      · exact hself (hsplit _ (.inl hy))
      · obtain ⟨z, hz, hzy⟩ := hy
        exact hcross z hz w hw y hzy hwy
    -- the first slot
    have hd : n.children[front.length]? = some d := by simp [hchildren]
    obtain ⟨rs₁, s₁, c₁, hslot, hpruned₁, hnode₁⟩ := prunes_slot ha hlawful hn hd hprunes₁ hapart₁
      (fun hx => hself (hsplit x (.inl hx))) (c := c)
      (hs.mono (fun y hy => hsplit y (.inl hy)) (Nat.le_add_right _ _)) hnode
    have hnext : mode.pick (done ++ d :: ds) ((done ++ d :: ds).set front.length (d.thin rs₁))
        = (done ++ [mode.pick d (d.thin rs₁)]) ++ ds := by
      cases mode <;> simp [Mode.pick, ← hdone]
    rw [hnext] at hnode₁
    -- the other slots
    have hs₁ : Poised a s₁ (a.ReachedFrom (ds.flatMap Content.nodes)) (Tree.sizeAll ts₂) := by
      refine (hs.mono (fun y hy => hsplit y (.inr hy)) (Nat.le_refl _)).moved hpruned₁.moved
        (fun y hy => halive y (.inr hy)) ?_
      rintro y hy (rfl | hyd)
      · exact hself (hsplit _ (.inr hy))
      · exact hdisjoint y hyd (.inr hy)
    have hchildren₁ : n.children = (front ++ [d]) ++ ds := by simp [hchildren]
    obtain ⟨rs₂, s₂, c₂, hslots, hpruned₂, hnode₂⟩ := ih _ _ hchildren₁ (by simp [hdone]) hprunes₂
      hapart₂ (fun hx => hself (hsplit x (.inr hx))) (c := c₁) hs₁ hnode₁
    have hlength : rs₁.length = d.nodes.length := by
      rw [hpruned₁.results.length_eq, List.length_map, hprunes₁.length_eq]
    rw [List.map_cons]
    refine ⟨rs₁ ++ rs₂, s₂, c₂, ?_, hpruned₁.append hpruned₂ halive hdisjoint ?_ hsplit, ?_⟩
    · rw [Content.refill_cons hlength, List.zipIdx_cons, List.mapM_cons]
      rw [List.length_append] at hslots
      exact hslot.bind (hslots.bind_pure _)
    · rintro y ((hy | hy) | (hy | hy))
      · exact .inl hy
      · exact .inr (hsplit y (.inl hy))
      · exact .inl hy
      · exact .inr (hsplit y (.inr hy))
    · rw [Content.refill_cons hlength, hnode₂]
      cases mode <;> simp [Mode.pick]

end

/-- A node over what is left of its children. -/
theorem within_trim {s : Store} {h : Handle} {n : Node} {rs : List (Option Handle)}
    {parent : Option Handle}
    (hn : s.node? h = some
      { n with children := Shape.refill (n.children.map Content.shape) rs, parent := parent })
    {ts : List Tree} (hts : ts.length = Shape.arities (n.children.map Content.shape))
    {F G : Handle → Prop}
    (hrs : List.Forall₂ (Option.Rel (Within a s F)) rs (ts.map (Tree.prune keep)))
    (hh : a.isAlive h = true → G h) (hFG : ∀ y, F y → G y) :
    Within a s G h (Tree.trim keep (.node (s.label n) ts)) := by
  refine ⟨Store.unfolds_trim hn hts ?_, fun y hy halive => ?_⟩
  · exact hrs.imp fun _ _ h => optionRel_imp h fun _ _ hw => hw.unfolds
  · rcases Relation.ReflTransGen.cases_head hy with rfl | ⟨d, ⟨m, hm, hmem⟩, hdy⟩
    · exact hh halive
    · rw [hn, Option.some.injEq] at hm
      subst hm
      have hlength : rs.length = Shape.arities (n.children.map Content.shape) := by
        rw [hrs.length_eq, List.length_map, hts]
      rw [Node.childNodes, Shape.nodes_refill hlength, List.reduceOption_mem_iff] at hmem
      obtain ⟨u, -, hu⟩ := forall₂_exists_right hrs hmem
      cases hu with
      | some hw => exact hFG y (hw.within y hdy halive)

/-- The callback keeps or drops a node by what is left of its tree. -/
theorem Judges.exists_rel (hjudges : Judges a.schema keep callback) {s : Store}
    (hschema : s.schema = a.schema) (hs : s.WellFormed) {F : Handle → Prop} {h : Handle} {t : Tree}
    (hw : Within a s F h (t.trim keep)) (c : τ) :
    ∃ r c', callback h (s, c) = .ok r (s, c') ∧ Option.Rel (Within a s F) r (t.prune keep) := by
  obtain ⟨c', hc'⟩ := hjudges h s c _ hschema hs hw.unfolds
  refine ⟨_, c', hc', ?_⟩
  rw [Tree.prune]
  split
  · exact .some hw
  · exact .none

/-- A copy of a node with other contents that fit. -/
theorem moved_copyNode {s : Store} (hs : s.WellFormed) (hroom : s.live + 1 ≤ Store.maxNodes)
    {x : Handle} {m : Node} (hm : s.node? x = some m) {cs : List Content}
    (hcs : List.Forall₂ s.Admits (s.schema.kind m.kind).children cs) :
    ∃ h s', Yields (perform (onStore (copyNode x m.values (cs.map Content.toFilling))) :
        Attempt τ Handle) s h s' ∧
      Moved s s' (fun _ => False) 1 ∧ s.node? h = none ∧
      s'.node? h = some { m with children := cs, parent := none } := by
  have hfit := hs.nodes x m hm
  have hfree := hs.booked.freePlaces
  have hfill := Store.fill_of_forall₂ hfit.values hcs
  have hspace : s.hasRoom = true := by
    rw [hs.booked.hasRoom_iff]
    omega
  obtain ⟨h, s₁, hconstruct⟩ : ∃ h s₁, Store.construct m.kind
      (m.values.map .value ++ cs.map Content.toFilling) s = .ok h s₁ :=
    ⟨_, _, Store.construct_eq_ok_iff.mpr ⟨_, hfill, hspace, rfl, rfl⟩⟩
  obtain ⟨hfresh, hlive, -⟩ := Store.node?_construct hfree hfill hconstruct
  have hview := Store.node?_construct_notes hfree hfill hconstruct m.notes
  have hwf := (hs.construct hfit.kind hconstruct).annotate h fun _ => m.notes
  have hschema : s₁.schema = s.schema := by
    obtain ⟨_, -, -, -, rfl⟩ := Store.construct_eq_ok_iff.mp hconstruct
    rw [Store.schema_adopt, Store.schema_insert]
  have hpreserves : Store.Preserves s (s₁.modifyNode h fun k => { k with notes := m.notes }) :=
    Store.preserves_of_view hschema hfresh hview
  refine ⟨h, _, yields_copyNode hm hconstruct,
    ⟨hwf, ⟨hpreserves.schema, fun y k hk => ?_⟩, ?_, fun y halive _ => ?_⟩, hfresh, ?_⟩
  · obtain ⟨p, hp⟩ := hpreserves.nodes y k hk
    exact ⟨_, hp, rfl⟩
  · rw [Store.live_modifyNode, hlive]
  · obtain ⟨k, hk⟩ := Store.isAlive_iff.mp halive
    obtain ⟨p, hp⟩ := hpreserves.nodes y k hk
    rw [Store.unlinked_of_node? hp, Store.unlinked_of_node? hk]
    rfl
  · rw [hview, if_pos rfl]

/-- When the slots have been pruned, the copy is made of what is left, and judged. -/
theorem prunes_copy (ha : a.WellFormed) (hlawful : a.schema.Lawful)
    (hjudges : Judges a.schema keep callback) {x : Handle} {n : Node} (hn : a.node? x = some n)
    {ts : List Tree} (hts : List.Forall₂ a.Unfolds n.childNodes ts) {s : Store}
    (hs : s.WellFormed) (hretains : a.Retains s) (hroom : s.live + 1 ≤ Store.maxNodes)
    {p : Option Handle} (hm : s.node? x = some { n with parent := p }) {rs : List (Option Handle)}
    (hrs : List.Forall₂ (Option.Rel (Within a s (a.ReachedFrom n.childNodes))) rs
      (ts.map (Tree.prune keep))) (c : τ) :
    ∃ r s' c', Returns (perform (onStore (copyNode x n.values
        ((Shape.refill (n.children.map Content.shape) rs).map Content.toFilling)) >>= callback))
        (s, c) r (s', c') ∧
      Moved s s' (fun _ => False) 1 ∧
      Option.Rel (Within a s' (a.Reaches x)) r (Tree.prune keep (.node (a.label n) ts)) := by
  have hschema := hretains.schema
  -- what is left of the children is of their kinds, so it fits
  have hreplaces := Store.forall₂_replaces ha hs hlawful hschema hts
    (hrs.imp fun _ _ h => optionRel_imp h fun _ _ hw => hw.unfolds)
  have hcs : List.Forall₂ s.Admits (s.schema.kind n.kind).children
      (Shape.refill (n.children.map Content.shape) rs) := by
    rw [hschema]
    exact Store.forall₂_admits_refill hschema (ha.nodes x n hn).children hreplaces
  obtain ⟨h, s', hcopy, hmoved, hfresh, hnode⟩ := moved_copyNode (τ := τ) hs hroom hm hcs
  have hw : Within a s' (a.Reaches x) h (Tree.trim keep (.node (s'.label n) ts)) := by
    refine within_trim hnode (Store.length_of_unfolds hts) (hrs.imp fun _ _ h =>
      optionRel_imp h fun _ _ hw => hw.moved hmoved (fun _ => False.elim) fun _ _ => id)
      (fun halive => ?_) (fun y hy => ?_)
    · obtain ⟨k, hk⟩ := Store.isAlive_iff.mp (hretains.isAlive halive)
      rw [hfresh] at hk
      cases hk
    · exact hy.of_childNodes hn
  have hschema' : s'.schema = a.schema := hmoved.retains.schema.trans hschema
  rw [show s'.label n = a.label n by rw [Store.label, Store.label, hschema']] at hw
  obtain ⟨r, c', hcallback, hrel⟩ := hjudges.exists_rel hschema' hmoved.wellFormed hw c
  refine ⟨r, s', c', ?_, hmoved, hrel⟩
  rw [perform_bind]
  refine Returns.bind (hcopy c) ?_
  rw [Returns, perform, hcallback]

/-- **The recursion prunes.**  It does so from every node of a proper tree, whether it copies the
    nodes or changes them. -/
theorem prunes_of_unfolds (ha : a.WellFormed) (hlawful : a.schema.Lawful)
    (hjudges : Judges a.schema keep callback) {root : Handle} (hproper : a.ProperBelow root)
    {x : Handle} {t : Tree} (ht : a.Unfolds x t) (hx : a.Reaches root x) :
    Prunes a mode callback keep x t := by
  induction t generalizing x with
  | node l ts ih =>
    obtain ⟨n, hn, rfl, hts⟩ := Store.unfolds_node_iff.mp ht
    have hprunes : List.Forall₂ (Prunes a mode callback keep) n.childNodes ts :=
      forall₂_imp_of_mem (forall₂_mem_left hts) fun c u hu hcu =>
        ih u hu hcu.2 (hx.tail ⟨n, hn, hcu.1⟩)
    have hapart : n.childNodes.Pairwise a.Apart := by
      have hpairwise := hproper.pairwise hx
      rw [Store.childrenOf, hn] at hpairwise
      exact hpairwise
    have hself : ¬ a.ReachedFrom n.childNodes x := by
      rintro ⟨c, hc, hcx⟩
      exact hproper.acyclic x hx (.head' ⟨n, hn, hc⟩ hcx)
    have hchanged : ∀ y, y = x ∨ a.ReachedFrom n.childNodes y → a.Reaches x y := by
      rintro y (rfl | hy)
      · exact .refl
      · exact hy.of_childNodes hn
    have hsize : (Tree.node (a.label n) ts).size = Tree.sizeAll ts + 1 := by
      rw [Tree.size, Nat.add_comm]
    refine ⟨ht, fun s c hs => ?_⟩
    have hnode : s.unlinked.node? x = some n.unlinked :=
      (hs.intact x .refl).trans (Store.unlinked_of_node? hn)
    obtain ⟨p, hm⟩ := Store.exists_node?_of_unlinked hnode
    obtain ⟨rs, s₁, c₁, hslots, hpruned, hnode₁⟩ := prunes_slots ha hlawful hn [] [] rfl rfl hprunes
      hapart hself (c := c) (hs.mono (fun y hy => hy.of_childNodes hn) (by omega)) hnode
    have hretains := hs.retains.trans hpruned.moved.retains
    obtain ⟨p₁, hm₁⟩ := Store.exists_node?_of_unlinked hnode₁
    rw [bottomUp_eq, reviseNode]
    cases mode with
    | copy =>
      -- the room was for the nodes below and for this one
      have hroom : s₁.live + 1 ≤ Store.maxNodes := by
        have hlive := hpruned.moved.live
        have hroom := hs.room
        omega
      obtain ⟨r, s₂, c₂, hfinish, hmoved, hrel⟩ := prunes_copy ha hlawful hjudges hn hts
        hpruned.moved.wellFormed hretains hroom hm₁ hpruned.results c₁
      refine ⟨r, s₂, c₂, Returns.bind (yields_readNode hm c) (hslots.bind hfinish), ?_, hrel⟩
      refine (hpruned.moved.trans hmoved).mono (fun y hy => ?_) hsize.ge
      exact hchanged y (hy.resolve_right id)
    | inPlace =>
      -- the node has been written to slot by slot, so it is over what is left already
      have hw : Within a s₁ (a.Reaches x) x (Tree.trim keep (.node (s₁.label n) ts)) :=
        within_trim hm₁ (Store.length_of_unfolds hts) hpruned.results (fun _ => .refl)
          fun y hy => hy.of_childNodes hn
      rw [show s₁.label n = a.label n by rw [Store.label, Store.label, hretains.schema]] at hw
      obtain ⟨r, c₂, hcallback, hrel⟩ :=
        hjudges.exists_rel hretains.schema hpruned.moved.wellFormed hw c₁
      have hfinish : Returns (perform (callback x)) (s₁, c₁) r (s₁, c₂) := by
        rw [Returns, perform, hcallback]
      exact ⟨r, s₁, c₂, Returns.bind (yields_readNode hm c) (hslots.bind hfinish),
        hpruned.moved.mono hchanged (by omega), hrel⟩

end

end Revision

/-! ### Both revisions -/

/-- **Copying and changing prune alike.**  Let no node be in two places below the root, and let the
    callback keep or drop each node by the tree that it unfolds to, without changing the store.
    If there is room for the copies, the revision that copies and the one in place both succeed.
    Either nothing is left of the tree for both of them, or both return nodes that unfold to what is
    left of it. -/
theorem Store.revise_prunes {schema : Schema} (hbuilt : schema.Built) {s : Store}
    (hs : Reachable schema s) {root : Handle} (halive : s.isAlive root = true)
    (hproper : s.ProperBelow root) {τ : Type} {keep : Tree → Bool}
    {callback : Handle → Revision.Action τ (Option Handle)}
    (hjudges : Revision.Judges schema keep callback) :
    ∃ t, s.Unfolds root t ∧ (s.live + t.size ≤ maxNodes → ∀ c d : τ, ∃ q u c' r v d',
      revise .copy callback root (s, c) = .ok q (u, c') ∧
      revise .inPlace callback root (s, d) = .ok r (v, d') ∧
      Option.Rel u.Unfolds q (t.prune keep) ∧ Option.Rel v.Unfolds r (t.prune keep)) := by
  have hwf := hs.wellFormed_store
  rw [← hs.schema_eq] at hjudges
  obtain ⟨t, ht⟩ := exists_unfolds hwf halive hproper.acyclic
  refine ⟨t, ht, fun hroom c d => ?_⟩
  have hrevise : ∀ mode (c : τ), ∃ r u c',
      revise mode callback root (s, c) = .ok r (u, c') ∧
      Option.Rel u.Unfolds r (t.prune keep) := by
    intro mode c
    have hprunes : Revision.Prunes s mode callback keep root t :=
      Revision.prunes_of_unfolds hwf (hs.lawful hbuilt) hjudges hproper ht .refl
    obtain ⟨r, u, c', hreturns, -, hrel⟩ := hprunes.revise s c
      ⟨hwf, ⟨rfl, fun _ n hn => ⟨n, hn, rfl⟩⟩, hroom, fun _ _ => rfl⟩
    exact ⟨r, u, c', Revision.revise_of_bottomUp? hreturns,
      Revision.optionRel_imp hrel fun _ _ hw => hw.unfolds⟩
  obtain ⟨q, u, c', hcopy, hq⟩ := hrevise .copy c
  obtain ⟨r, v, d', hinPlace, hr⟩ := hrevise .inPlace d
  exact ⟨q, u, c', r, v, d', hcopy, hinPlace, hq, hr⟩

namespace Sample

/-- Groups stay, and items with something in their slots. -/
def worthy : Tree → Bool
  | .node l ts => l.kind == "group" || !ts.isEmpty

/-- The callback for this: it reads the kind of the node and what is in its slots. -/
def judge (h : Handle) : Revision.Action Unit (Option Handle) := fun (s, c) =>
  match s.node? h with
  | none => .error (.staleNode h) (s, c)
  | some n =>
    .ok (if s.schema.kindName n.kind == "group" || !n.childNodes.isEmpty then some h else none)
      (s, c)

/-- The callback judges a node by the tree that it is the root of. -/
theorem judges_judge : Revision.Judges schema worthy judge := by
  rintro h s c ⟨l, ts⟩ - - ht
  obtain ⟨n, hn, rfl, hts⟩ := Store.unfolds_node_iff.mp ht
  have hempty : n.childNodes.isEmpty = ts.isEmpty := by
    rw [Bool.eq_iff_iff, List.isEmpty_iff_length_eq_zero, List.isEmpty_iff_length_eq_zero,
      hts.length_eq]
  refine ⟨c, ?_⟩
  simp only [judge, hn, hempty]
  rfl

theorem reachable_chained : Reachable schema chained :=
  ⟨[], (((Run.operation (.constructNamed _ _) _ _).trans
    (.operation (.constructNamed _ _) _ _)).trans
    (.operation (.constructNamed _ _) _ _)).trans (.operation (.set _ _ _) _ _)⟩

/-- The tree of the group: its part has a next item. -/
def ladder : Tree :=
  .node ⟨"group", [.str "all"], Notes.empty, [.vacant, .many 1]⟩
    [.node ⟨"item", [.str "second"], Notes.empty, [.one, .many 0]⟩
      [.node ⟨"item", [.str "first"], Notes.empty, [.vacant, .many 0]⟩ []]]

/-- The group unfolds to a chain of two items. -/
theorem unfolds_chained : chained.Unfolds ⟨2, 0⟩ ladder := by
  have hs : chained.schema = schema := reachable_chained.schema_eq
  have hitem : schema.kindName ⟨0⟩ = "item" := by decide +kernel
  have hgroup : schema.kindName ⟨1⟩ = "group" := by decide +kernel
  have hfirst : chained.node? ⟨0, 0⟩
      = some ⟨⟨0⟩, [.str "first"], [.one none, .many []], some ⟨1, 0⟩, Notes.empty⟩ := by rfl
  have hsecond : chained.node? ⟨1, 0⟩
      = some ⟨⟨0⟩, [.str "second"], [.one (some ⟨0, 0⟩), .many []], some ⟨2, 0⟩, Notes.empty⟩ := by
    rfl
  have hall : chained.node? ⟨2, 0⟩
      = some ⟨⟨1⟩, [.str "all"], [.one none, .many [⟨1, 0⟩]], none, Notes.empty⟩ := by rfl
  refine Store.unfolds_node_iff.mpr ⟨_, hall, by rw [Store.label, hs, hgroup]; rfl, .cons ?_ .nil⟩
  refine Store.unfolds_node_iff.mpr ⟨_, hsecond, by rw [Store.label, hs, hitem]; rfl, .cons ?_ .nil⟩
  exact Store.unfolds_node_iff.mpr ⟨_, hfirst, by rw [Store.label, hs, hitem]; rfl, .nil⟩

/-- There is one way to each of the items. -/
theorem properBelow_chained : chained.ProperBelow ⟨2, 0⟩ := by
  have hvisited : chained.preorder ladder.height ⟨2, 0⟩ = [⟨2, 0⟩, ⟨1, 0⟩, ⟨0, 0⟩] := by rfl
  refine Store.properBelow_of_nodup ⟨ladder, unfolds_chained, Nat.le_refl _⟩ ?_
  rw [hvisited]
  decide

/-- What is left of the group.  The item at the end has nothing in its slots, and when it is gone
    the other has nothing in its slots either. -/
def stump : Tree := .node ⟨"group", [.str "all"], Notes.empty, [.vacant, .many 0]⟩ []

/-- The lower item has no children and goes; then the upper one has none and goes too. -/
theorem revise_prunes_chained :
    ∃ q u r v, Store.revise .copy judge ⟨2, 0⟩ (chained, ()) = .ok (some q) (u, ()) ∧
      Store.revise .inPlace judge ⟨2, 0⟩ (chained, ()) = .ok (some r) (v, ()) ∧
      u.Unfolds q stump ∧ v.Unfolds r stump := by
  obtain ⟨t, ht, hrevise⟩ := Store.revise_prunes built reachable_chained unfolds_chained.isAlive
    properBelow_chained judges_judge
  rw [ht.unique unfolds_chained] at hrevise
  obtain ⟨q, u, _, r, v, _, hcopy, hinPlace, hq, hr⟩ := hrevise (by decide +kernel) () ()
  have hleft : ladder.prune worthy = some stump := by rfl
  rw [hleft] at hq hr
  cases hq with
  | some hq =>
    cases hr with
    | some hr => exact ⟨_, u, _, v, hcopy, hinPlace, hq, hr⟩

end Sample

end TypedForest
