import TypedForest.Proofs.Store.History
import TypedForest.Proofs.Store.Recursion
import TypedForest.Proofs.Tree.Orders

namespace TypedForest

/-!
# Building without cycles

A new node has children that were there before it, so as long as no child slot is written again,
ways down lead to older and older nodes.  The ages are not in the store: places are used again,
and a sweep frees them in any order.  What is kept up instead is that no way down comes back to
where it was, and that a node which is the parent of another also holds it
(`Store.Descending`).  Then following parents leads upwards, and ends.

* `Store.Trims`, `Store.Gives` : what values, notes and sweeps do to the links between nodes, and
  what new children do;
* `Store.Descending.growths` : all changes that write to no child slot keep `Store.Descending`;
* `Store.Descending.exists_root` : following parents ends;
* `Building.no_cycles` : both hold of all that can be built.
-/

namespace Store

/-- The node `p` is the parent of the node `c`. -/
def HasParent (s : Store) (c p : Handle) : Prop := s.parent c = .ok (some p)

/-- Parents hold their children, and no way down comes back to where it was. -/
structure Descending (s : Store) : Prop where
  held : ∀ c p, s.link c = some (some p) → s.Child p c
  acyclic : ∀ h, ¬ Relation.TransGen s.Child h h

/-- In an empty store there is nothing to go wrong. -/
theorem descending_empty (schema : Schema) : (Store.empty schema).Descending := by
  have hnone : ∀ h, (Store.empty schema).node? h = none := by
    intro h
    simp [node?, Store.empty]
  refine ⟨fun c p hlink => ?_, fun h hcycle => ?_⟩
  · rw [link, hnone] at hlink
    cases hlink
  · obtain ⟨c, ⟨n, hn, -⟩, -⟩ := Relation.TransGen.head'_iff.mp hcycle
    rw [hnone] at hn
    cases hn

/-! ### Following parents -/

/-- A child and its parent are alive. -/
theorem WellFormed.isAlive_of_link {s : Store} (hs : s.WellFormed) {c p : Handle}
    (hlink : s.link c = some (some p)) : s.isAlive c = true ∧ s.isAlive p = true := by
  obtain ⟨n, hn, hparent⟩ := Option.map_eq_some_iff.mp hlink
  exact ⟨isAlive_of_node? hn, (hs.nodes c n hn).parent p hparent⟩

section

variable {s : Store} (hs : s.Descending) (hwf : s.WellFormed)
include hs hwf

/-- Without cycles every live node has a tree. -/
theorem Descending.exists_unfolds {h : Handle} (halive : s.isAlive h = true) :
    ∃ t, s.Unfolds h t :=
  Store.exists_unfolds hwf halive fun x _ => hs.acyclic x

/-- A climb gets to ever higher trees, and no tree is higher than the store. -/
theorem Descending.climb (start : Handle) {n : Nat} {h : Handle} {t : Tree} (ht : s.Unfolds h t)
    (hn : s.entries.size < n + t.height) :
    ∃ r, s.climb start n h = .ok r ∧ s.parent r = .ok none ∧ s.Reaches r h ∧
      Relation.ReflTransGen s.HasParent h r := by
  induction n generalizing h t with
  | zero =>
    have hheight := ht.height_le
    omega
  | succ n ih =>
    obtain ⟨parent, hlink⟩ : ∃ parent, s.link h = some parent :=
      Option.isSome_iff_exists.mp (by rw [isSome_link, ht.isAlive])
    have hparent := parent_eq_ok_iff.mpr hlink
    cases parent with
    | none => exact ⟨h, by rw [Store.climb, hparent], hparent, .refl, .refl⟩
    | some p =>
      have hchild : s.Child p h := hs.held h p hlink
      obtain ⟨u, hu⟩ := hs.exists_unfolds hwf hchild.isAlive
      -- the tree of the parent is higher, by at least as much as the climb is shorter
      have hlt : t.height < u.height := by
        obtain ⟨v, hv, hlt⟩ := hu.height_lt_of_child hchild
        rwa [hv.unique ht] at hlt
      obtain ⟨r, hr, hroot, hreach, hway⟩ := ih hu (by omega)
      refine ⟨r, ?_, hroot, hreach.tail hchild, .head hparent hway⟩
      rw [Store.climb, hparent]
      exact hr

/-- Following parents from a live node ends at a node without parent, from which a way leads
    down to the node. -/
theorem Descending.exists_root {h : Handle} (halive : s.isAlive h = true) :
    ∃ r, s.root h = .ok r ∧ s.parent r = .ok none ∧ s.Reaches r h ∧
      Relation.ReflTransGen s.HasParent h r := by
  obtain ⟨t, ht⟩ := hs.exists_unfolds hwf halive
  exact hs.climb hwf h ht (by omega)

end

/-! ### Values, notes and sweeps -/

/-- From `s` to `s'` some nodes may have gone.  Those that are left have the children that they
    had, and the parents that they had as long as these are left too. -/
structure Trims (s s' : Store) : Prop where
  nodes : ∀ h n', s'.node? h = some n' → ∃ n, s.node? h = some n ∧ n'.childNodes = n.childNodes
  links : ∀ c p, s'.link c = some (some p) ↔
    s.link c = some (some p) ∧ s'.isAlive c = true ∧ s'.isAlive p = true

/-- The nodes that are left have the children that they had. -/
theorem Trims.child_iff {s s' : Store} (h : Trims s s') {p c : Handle} :
    s'.Child p c ↔ s'.isAlive p = true ∧ s.Child p c := by
  constructor
  · rintro ⟨n', hn', hmem⟩
    obtain ⟨n, hn, hsame⟩ := h.nodes p n' hn'
    exact ⟨isAlive_of_node? hn', n, hn, hsame ▸ hmem⟩
  · rintro ⟨halive, n, hn, hmem⟩
    obtain ⟨n', hn'⟩ := isAlive_iff.mp halive
    obtain ⟨m, hm, hsame⟩ := h.nodes p n' hn'
    rw [hn, Option.some.injEq] at hm
    subst hm
    exact ⟨n', hn', hsame ▸ hmem⟩

/-- A change to each node by itself that leaves its children and its parent alone. -/
theorem trims_of_map {s s' : Store} (hs : s.WellFormed) {g : Handle → Node → Node}
    (hview : ∀ h, s'.node? h = (s.node? h).map (g h))
    (hchildren : ∀ h n, (g h n).childNodes = n.childNodes)
    (hparent : ∀ h n, (g h n).parent = n.parent) : Trims s s' := by
  have halive : ∀ h, s'.isAlive h = s.isAlive h := by
    intro h
    rw [isAlive, isAlive, hview, Option.isSome_map]
  have hlink : ∀ h, s'.link h = s.link h := by
    intro h
    rw [link, link, hview, Option.map_map]
    exact congrArg (Option.map · (s.node? h)) (funext (hparent h))
  refine ⟨fun h n' hn' => ?_, fun c p => ?_⟩
  · rw [hview, Option.map_eq_some_iff] at hn'
    obtain ⟨n, hn, rfl⟩ := hn'
    exact ⟨n, hn, hchildren h n⟩
  · rw [hlink, halive, halive]
    constructor
    · intro hl
      exact ⟨hl, hs.isAlive_of_link hl⟩
    · exact And.left

/-- A change to one node that keeps its children and its parent trims the store. -/
theorem trims_modifyNode {s : Store} (hs : s.WellFormed) (h : Handle) {f : Node → Node}
    (hchildren : ∀ n, (f n).childNodes = n.childNodes) (hparent : ∀ n, (f n).parent = n.parent) :
    Trims s (s.modifyNode h f) := by
  refine trims_of_map hs (g := fun x n => if x = h then f n else n) ?_ ?_ ?_
  · intro x
    rw [node?_modifyNode]
    by_cases hx : x = h <;> simp [hx]
  · intro x n
    by_cases hx : x = h <;> simp [hx, hchildren]
  · intro x n
    by_cases hx : x = h <;> simp [hx, hparent]

/-- A sweep trims the store. -/
theorem trims_sweep {s s' : Store} {roots : List Handle} {n : Nat}
    (hr : sweep roots s = .ok n s') : Trims s s' := by
  constructor
  · intro h n' hn'
    obtain ⟨m, hm, hm'⟩ := node?_sweep hr (isAlive_of_node? hn')
    rw [hn', Option.some.injEq] at hm'
    exact ⟨m, hm, by rw [hm']; rfl⟩
  · intro c p
    by_cases hc : s'.isAlive c = true
    · obtain ⟨m, hm, hm'⟩ := node?_sweep hr hc
      simp [link, hm, hm', hc, Option.filter_eq_some_iff]
    · have hlink : s'.link c = none := link_eq_none_iff.mpr (by simpa using hc)
      simp [hlink, hc]

/-- So does each small change. -/
theorem Touch.trims {s s' : Store} (h : Touch s s') (hs : s.WellFormed) : Trims s s' := by
  cases h with
  | setValueAt hw =>
    rcases setValueAt_eq_ok hw with rfl | ⟨n, slot, v, -, -, -, rfl⟩
    · refine trims_of_map hs (g := fun _ n => n) ?_ (fun _ _ => rfl) fun _ _ => rfl
      intro x
      exact Option.map_id'.symm
    · exact trims_modifyNode hs _ (fun _ => rfl) fun _ => rfl
  | annotate h f => exact trims_modifyNode hs _ (fun _ => rfl) fun _ => rfl
  | dropNotes key marks =>
    refine trims_of_map hs (node?_dropNotes s key marks) ?_ ?_
    · intro x n
      by_cases hm : isMarked marks x.index = true
      · rw [if_pos hm]
        rfl
      · rw [if_neg hm]
    · intro x n
      by_cases hm : isMarked marks x.index = true
      · rw [if_pos hm]
        rfl
      · rw [if_neg hm]

/-- So does each operation of upkeep. -/
theorem Tending.trims {s s' : Store} (h : Tending s s') (hs : s.WellFormed) : Trims s s' := by
  cases h with
  | touch h => exact h.trims hs
  | sweep hr => exact trims_sweep hr

/-- A store that is trimmed gets no cycles. -/
theorem Descending.trims {s s' : Store} (hs : s.Descending) (h : Trims s s') :
    s'.Descending := by
  refine ⟨fun c p hlink => ?_, fun x hcycle => ?_⟩
  · obtain ⟨hold, -, halive⟩ := (h.links c p).mp hlink
    exact h.child_iff.mpr ⟨halive, hs.held c p hold⟩
  · exact hs.acyclic x (Relation.TransGen.mono (fun p c hc => (h.child_iff.mp hc).2) _ _ hcycle)

/-! ### More children -/

/-- What it does to the links that the node `h` gets the children `cs`, beside those that it has:
    they have it as their parent, and no other link is different. -/
structure Gives (s s' : Store) (h : Handle) (cs : List Handle) : Prop where
  children : (s'.childrenOf h).Perm (cs ++ s.childrenOf h)
  others : ∀ x, x ≠ h → s'.childrenOf x = s.childrenOf x
  links : ∀ c p, s'.link c = some (some p) ↔
    c ∈ cs ∧ p = h ∨ c ∉ cs ∧ s.link c = some (some p)

/-- From a node that was there, no way leads to one that is yet to be made. -/
theorem WellFormed.not_reaches_of_fresh {s : Store} (hs : s.WellFormed) {h c : Handle}
    (hfresh : s.isAlive h = false) (hc : s.isAlive c = true) : ¬ s.Reaches c h := by
  intro hway
  have halive : s.isAlive h = true := by
    cases hway with
    | refl => exact hc
    | tail _ hlast => exact hs.isAlive_of_child hlast
  rw [hfresh] at halive
  cases halive

/-- A new node is given its children, and there is no way from them to it. -/
theorem gives_construct {s s' : Store} (hs : s.WellFormed) {k : KindId} {args : List Filling}
    {h : Handle} (hc : construct k args s = .ok h s') :
    Gives s s' h (args.flatMap Filling.nodes) ∧
      ∀ c ∈ args.flatMap Filling.nodes, ¬ s.Reaches c h := by
  obtain ⟨n, hfill, -⟩ := construct_eq_ok_iff.mp hc
  obtain ⟨hnone, -, hview⟩ := node?_construct hs.booked.freePlaces hfill hc
  cases effect_construct hs hc with
  | make fresh _ alive _ links =>
    refine ⟨⟨?_, fun x hx => ?_, fun c p => ?_⟩, fun c hmem => ?_⟩
    · -- the place was free, and now holds the node that was made
      have hold : s.childrenOf h = [] := by
        rw [childrenOf, hnone]
        rfl
      have hnew : s'.childrenOf h = n.childNodes := by
        rw [childrenOf, hview, if_pos rfl]
        rfl
      rw [hold, hnew, List.append_nil, childNodes_of_fill hfill]
    · rw [childrenOf, childrenOf, hview, if_neg hx]
      cases s.node? x with
      | none => rfl
      | some m =>
        -- another node has at most a new parent
        show (if x ∈ n.childNodes then { m with parent := some h } else m).childNodes
          = m.childNodes
        split <;> rfl
    · rw [links]
      by_cases hch : c = h
      · -- the new node has no parent, and had no link
        have hnot : c ∉ args.flatMap Filling.nodes := by
          intro hmem
          rw [hch] at hmem
          rw [alive h hmem] at fresh
          cases fresh
        simp [hch ▸ hnot, hch, link_eq_none_iff.mpr fresh]
      · by_cases hmem : c ∈ args.flatMap Filling.nodes <;> simp [hch, hmem, eq_comm]
    · exact hs.not_reaches_of_fresh fresh (alive c hmem)

section

variable {s s' : Store} {h : Handle} {cs : List Handle} (hg : Gives s s' h cs)
include hg

/-- The children are those that there were, and those that were given. -/
theorem Gives.child_iff {p c : Handle} :
    s'.Child p c ↔ p = h ∧ c ∈ cs ∨ s.Child p c := by
  rw [child_iff_mem_childrenOf, child_iff_mem_childrenOf]
  by_cases hp : p = h
  · rw [hp, hg.children.mem_iff, List.mem_append]
    simp
  · rw [hg.others p hp]
    simp [hp]

/-- A new way down goes through the node to one of the children that it was given. -/
theorem Gives.transGen {a b : Handle} (hway : Relation.TransGen s'.Child a b) :
    Relation.TransGen s.Child a b ∨ s.Reaches a h ∧ ∃ c ∈ cs, s.Reaches c b := by
  induction hway with
  | single hb =>
    rcases hg.child_iff.mp hb with ⟨rfl, hmem⟩ | hold
    · exact .inr ⟨.refl, _, hmem, .refl⟩
    · exact .inl (.single hold)
  | tail _ hc ih =>
    rcases ih with hway | ⟨htop, y, hy, hway⟩
    · rcases hg.child_iff.mp hc with ⟨rfl, hmem⟩ | hold
      · exact .inr ⟨hway.to_reflTransGen, _, hmem, .refl⟩
      · exact .inl (hway.tail hold)
    · rcases hg.child_iff.mp hc with ⟨-, hmem⟩ | hold
      · exact .inr ⟨htop, _, hmem, .refl⟩
      · exact .inr ⟨htop, y, hy, hway.tail hold⟩

/-- No cycle comes about if the node is not below any of the children that it is given. -/
theorem Descending.gives (hs : s.Descending) (hbelow : ∀ c ∈ cs, ¬ s.Reaches c h) :
    s'.Descending := by
  refine ⟨fun c p hlink => ?_, fun x hcycle => ?_⟩
  · rw [hg.child_iff]
    rcases (hg.links c p).mp hlink with ⟨hmem, rfl⟩ | ⟨-, hold⟩
    · exact .inl ⟨rfl, hmem⟩
    · exact .inr (hs.held c p hold)
  · rcases hg.transGen hcycle with hold | ⟨htop, c, hmem, hway⟩
    · exact hs.acyclic x hold
    · exact hbelow c hmem (hway.trans htop)

end

/-- A change that writes to no child slot keeps parents above their children. -/
theorem Descending.growth {s s' : Store} (hs : s.Descending) (hwf : s.WellFormed)
    (h : Growth s s') : s'.Descending := by
  cases h with
  | construct hk hc =>
    obtain ⟨hgives, hbelow⟩ := gives_construct hwf hc
    exact hs.gives hgives hbelow
  | tend h => exact hs.trims (h.trims hwf)

/-- Growing keeps a store without cycles. -/
theorem Descending.growths {s s' : Store} (hs : s.Descending) (hwf : s.WellFormed)
    (h : Growths s s') : s'.Descending := by
  induction h with
  | refl => exact hs
  | tail hbefore hstep ih => exact ih.growth (hwf.steps (Growths.steps hbefore)) hstep

/-- The operations that leave the children of all nodes alone.  A slot that is written to by its
    name is a value slot, if there is one. -/
inductive Upkeep (s : Store) : {ε α : Type} → EStateM ε Store α → Prop
  | set {h : Handle} {name : String} (hslot : ∀ f, s.slot h name = .ok f → f.shape = .value)
      (arg : Filling) : Upkeep s (Store.set h name arg)
  | setValues (h : Handle) (bulk : Bulk Value) : Upkeep s (Store.setValues h bulk)
  | setNote (h : Handle) (key : String) (v : Value) : Upkeep s (Store.setNote h key v)
  | deleteNote (h : Handle) (key : String) (recursive : Bool) :
      Upkeep s (Store.deleteNote h key recursive)
  | sweep (roots : List Handle) : Upkeep s (Store.sweep roots)

/-- Each operation of upkeep is made up of tendings. -/
theorem Upkeep.tendings {s : Store} {ε α : Type} {x : EStateM ε Store α} (hx : Upkeep s x) :
    Tendings s (after x s) := by
  cases hx with
  | set hslot arg => exact Tendings.set hslot arg
  | setValues h bulk => exact (Touches.setValues s h bulk).tendings
  | setNote h key v => exact (Touches.setNote s h key v).tendings
  | deleteNote h key recursive => exact (Touches.deleteNote s h key recursive).tendings
  | sweep roots => exact Tendings.sweep s roots

end Store

/-! ### All that can be built -/

/-- All that can be done with one store over a schema without writing to a child slot of a node
    that is there.  Nodes may be given to any number of others, and the callback of a revision
    that makes copies may return any node.  It has a state of its own, and on every store that
    satisfies the invariant it does what can be done in this way.  Operations and revisions
    count whether they succeed or fail. -/
inductive Building (schema : Schema) : Store → Store → Prop
  | refl (s : Store) : Building schema s s
  | trans {s t u : Store} (hst : Building schema s t) (htu : Building schema t u) :
      Building schema s u
  | construct {k : KindId} (hk : k.index < schema.size) (args : List Filling) (s : Store) :
      Building schema s (after (Store.construct k args) s)
  | constructNamed (kind : String) (args : List Filling) (s : Store) :
      Building schema s (after (Store.constructNamed kind args) s)
  | upkeep {s : Store} {ε α : Type} {x : EStateM ε Store α} (hx : s.Upkeep x) :
      Building schema s (after x s)
  | decode (data : List UInt8) (s : Store) : Building schema s (after (Store.decode data) s)
  | restore (snap : Snapshot) (s : Store) : Building schema s (after (Store.restore snap) s)
  | revise {τ : Type} {callback : Handle → Revision.Action τ (Option Handle)}
      (hcallback : ∀ h st, st.1.schema = schema → st.1.WellFormed →
        Building schema st.1 (after (callback h) st).1) (root : Handle) (st : Store × τ) :
      Building schema st.1 (after (Store.revise .copy callback root) st).1

/-- Building writes to no child slot. -/
theorem Building.growths {schema : Schema} {s s' : Store} (h : Building schema s s')
    (hs : s.schema = schema) (hwf : s.WellFormed) : Store.Growths s s' := by
  induction h with
  | refl s => exact .refl
  | trans _ _ ih₁ ih₂ =>
    have hfirst := ih₁ hs hwf
    exact hfirst.trans (ih₂ (hfirst.schema.trans hs) (hwf.steps hfirst.steps))
  | construct hk args s => exact Store.Growths.construct (.inl (hs ▸ hk)) args
  | constructNamed kind args s => exact Store.Growths.constructNamed s kind args
  | upkeep hx => exact hx.tendings.growths
  | decode data s => exact Store.Growths.decode data s
  | restore snap s => exact Store.Growths.restore snap s
  | revise hcallback root st ih =>
    -- what can be grown from the first store stays so, also through the callback
    refine Store.keeps_revise_copy (P := fun st' => Store.Growths st.1 st'.1) ?_ ?_ root st .refl
    · intro s₁ s₂ t hgrowths hst
      exact hst.trans hgrowths
    · intro h st' hst'
      have hschema := hst'.schema.trans hs
      have hwf' := hwf.steps hst'.steps
      exact hst'.trans (ih h st' hschema hwf' hschema hwf')

/-- What was built is well formed and has no cycles. -/
theorem Building.descending {schema : Schema} {s : Store}
    (h : Building schema (Store.empty schema) s) : s.WellFormed ∧ s.Descending := by
  have hempty := Store.wellFormed_empty schema
  have hgrowths := h.growths rfl hempty
  exact ⟨hempty.steps hgrowths.steps, (Store.descending_empty schema).growths hempty hgrowths⟩

/-- **Building makes no cycles.**  As long as no child slot of a node that is there is written to,
    no live node can be reached from itself through one or more child slots.  Following parents
    from a live node ends at a live node without parent, which is the root that is found for
    it. -/
theorem Building.no_cycles {schema : Schema} {s : Store}
    (h : Building schema (Store.empty schema) s) :
    (∀ x, s.isAlive x = true → ¬ Relation.TransGen s.Child x x) ∧
      ∀ x, s.isAlive x = true → ∃ r, s.root x = .ok r ∧ s.isAlive r = true ∧
        s.parent r = .ok none ∧ Relation.ReflTransGen s.HasParent x r := by
  obtain ⟨hwf, hs⟩ := h.descending
  refine ⟨fun x _ => hs.acyclic x, fun x halive => ?_⟩
  obtain ⟨r, hr, hparent, -, hway⟩ := hs.exists_root hwf halive
  have hlink := Store.parent_eq_ok_iff.mp hparent
  refine ⟨r, hr, ?_, hparent, hway⟩
  rw [← Store.isSome_link, hlink, Option.isSome_some]

/-! ### A copy over old nodes -/

namespace Sample

/-- A callback that puts the first item in the place of whatever it is given. -/
def reuse (_ : Handle) : Revision.Action Unit (Option Handle) := pure (some ⟨0, 0⟩)

/-- A copy of an item. -/
def copyItem (s : Store) : Store :=
  after (Store.construct ⟨0⟩ [.value (.str "part"), .one none, .many []]) s

/-- Copies of the item that are put to no use, and a copy of the group that holds the item. -/
def recopied : Store :=
  after (Store.construct ⟨1⟩
    [.value (.str "all"), .one (some ⟨0, 0⟩), .many [⟨0, 0⟩, ⟨0, 0⟩]])
    (copyItem (copyItem (copyItem shared)))

/-- The same node may be returned for every node. -/
theorem revise_reuse :
    Store.revise .copy reuse ⟨1, 0⟩ (shared, ()) = .ok (some ⟨0, 0⟩) (recopied, ()) :=
  (Revision.revise_eq_bottomUpTo 2 (by decide +kernel)).trans (by decide +kernel)

theorem building_recopied : Building schema (Store.empty schema) recopied := by
  have hshared : Building schema (Store.empty schema) shared :=
    (Building.constructNamed _ _ _).trans (.constructNamed _ _ _)
  have hreuse : ∀ h (st : Store × Unit), st.1.schema = schema → st.1.WellFormed →
      Building schema st.1 (after (reuse h) st).1 :=
    fun _ st _ _ => .refl st.1
  have hrevise := Building.revise hreuse ⟨1, 0⟩ (shared, ())
  rw [Store.after_of_ok revise_reuse] at hrevise
  exact hshared.trans hrevise

/-- The item has the copy of the group as its parent, which is newer, and has itself no parent. -/
theorem no_cycles_recopied :
    recopied.parent ⟨0, 0⟩ = .ok (some ⟨5, 0⟩) ∧
      (∃ r, recopied.root ⟨0, 0⟩ = .ok r ∧ recopied.parent r = .ok none) ∧
      ¬ Relation.TransGen recopied.Child ⟨0, 0⟩ ⟨0, 0⟩ := by
  have halive : recopied.isAlive ⟨0, 0⟩ = true := by decide +kernel
  obtain ⟨hcycles, hroots⟩ := building_recopied.no_cycles
  obtain ⟨r, hr, -, hparent, -⟩ := hroots ⟨0, 0⟩ halive
  exact ⟨by decide +kernel, ⟨r, hr, hparent⟩, hcycles ⟨0, 0⟩ halive⟩

end Sample

end TypedForest
