import Mathlib.Data.Fintype.Card
import Mathlib.Data.Fintype.EquivFin
import Mathlib.Logic.Relation
import TypedForest.Proofs.Store.WellFormed
import TypedForest.Proofs.Tree.Basic

namespace TypedForest

/-!
# The tree under a node

`Store.Unfolds s h t` says that `t` is what the node `h` of the store `s` and everything below
it look like as a tree.  A node that is shared by several others occurs in the tree once for
each way that leads to it, and a node that can be reached from itself unfolds to no tree.

* `Store.Unfolds.unique` : a node unfolds to one tree at most;
* `Store.exists_unfolds` : in a well-formed store it does unless there is a cycle below it;
* `Store.Unfolds.mono` : what later happens to other nodes, and to parents, does not matter;
* `Store.Unfolds.height_le` : no way down is longer than the store;
* `Store.HeightLe` : the tree is not higher than a bound, told level by level;
* `Store.Unfolds.all_iff` : the labels of the tree are those of the nodes that can be reached.
-/

section

variable {α β : Type} {R : α → β → Prop}

theorem forall₂_exists_right {as : List α} {bs : List β} (h : List.Forall₂ R as bs) {a : α}
    (ha : a ∈ as) : ∃ b ∈ bs, R a b := by
  induction h with
  | nil => cases ha
  | cons hab _ ih =>
    rcases List.mem_cons.mp ha with rfl | ha
    · exact ⟨_, List.mem_cons_self, hab⟩
    · obtain ⟨b, hb, hab⟩ := ih ha
      exact ⟨b, List.mem_cons_of_mem _ hb, hab⟩

theorem forall₂_exists_left {as : List α} {bs : List β} (h : List.Forall₂ R as bs) {b : β}
    (hb : b ∈ bs) : ∃ a ∈ as, R a b :=
  forall₂_exists_right (R := fun b a => R a b) h.flip hb

theorem exists_forall₂ {as : List α} (h : ∀ a ∈ as, ∃ b, R a b) :
    ∃ bs, List.Forall₂ R as bs := by
  induction as with
  | nil => exact ⟨[], .nil⟩
  | cons a as ih =>
    obtain ⟨b, hab⟩ := h a List.mem_cons_self
    obtain ⟨bs, hbs⟩ := ih fun x hx => h x (List.mem_cons_of_mem _ hx)
    exact ⟨b :: bs, .cons hab hbs⟩

/-- A relation may be weakened where it is used. -/
theorem forall₂_imp_of_mem {S : α → β → Prop} {as : List α} {bs : List β}
    (h : List.Forall₂ R as bs) (hRS : ∀ a, ∀ b ∈ bs, R a b → S a b) : List.Forall₂ S as bs := by
  induction h with
  | nil => exact .nil
  | cons hab _ ih =>
    obtain ⟨hfirst, hrest⟩ := forall_and.mp fun a => List.forall_mem_cons.mp (hRS a)
    exact .cons (hfirst _ hab) (ih hrest)

theorem forall₂_mem_left {as : List α} {bs : List β} (h : List.Forall₂ R as bs) :
    List.Forall₂ (fun a b => a ∈ as ∧ R a b) as bs :=
  (List.forall₂_and_left as bs).mpr ⟨fun _ ha => ha, h⟩

/-- Partners that are determined one by one are determined as a list. -/
theorem forall₂_right_unique {S : α → β → Prop} {as : List α} {bs cs : List β}
    (hb : List.Forall₂ R as bs) (hc : List.Forall₂ S as cs)
    (hRS : ∀ b ∈ bs, ∀ a c, R a b → S a c → b = c) : bs = cs := by
  induction hb generalizing cs with
  | nil => exact (List.forall₂_nil_left_iff.mp hc).symm
  | cons hab _ ih =>
    obtain ⟨c, cs, hac, hcs, rfl⟩ := List.forall₂_cons_left_iff.mp hc
    obtain ⟨hfirst, hrest⟩ := List.forall_mem_cons.mp hRS
    rw [hfirst _ _ hab hac, ih hcs hrest]

/-- What goes together with two lists falls into two parts. -/
theorem forall₂_append_left {as bs : List α} {cs : List β}
    (h : List.Forall₂ R (as ++ bs) cs) :
    ∃ cs₁ cs₂, List.Forall₂ R as cs₁ ∧ List.Forall₂ R bs cs₂ ∧ cs = cs₁ ++ cs₂ := by
  have hfirst := List.forall₂_take as.length h
  have hrest := List.forall₂_drop as.length h
  rw [List.take_left] at hfirst
  rw [List.drop_left] at hrest
  exact ⟨_, _, hfirst, hrest, (List.take_append_drop _ _).symm⟩

/-- Lists with the same partners go together. -/
theorem forall₂_join {γ : Type} {S : γ → β → Prop} {as : List α} {bs : List β} {cs : List γ}
    (ha : List.Forall₂ R as bs) (hc : List.Forall₂ S cs bs) :
    List.Forall₂ (fun a c => ∃ b, R a b ∧ S c b) as cs := by
  induction ha generalizing cs with
  | nil =>
    rw [List.forall₂_nil_right_iff.mp hc]
    exact .nil
  | cons hab _ ih =>
    obtain ⟨c, cs, hcb, hcs, rfl⟩ := List.forall₂_cons_right_iff.mp hc
    exact .cons ⟨_, hab, hcb⟩ (ih hcs)

/-- And lists that go together through partners have them in a list. -/
theorem exists_of_forall₂_join {γ : Type} {S : γ → β → Prop} {as : List α} {cs : List γ}
    (h : List.Forall₂ (fun a c => ∃ b, R a b ∧ S c b) as cs) :
    ∃ bs, List.Forall₂ R as bs ∧ List.Forall₂ S cs bs := by
  induction h with
  | nil => exact ⟨[], .nil, .nil⟩
  | cons hac _ ih =>
    obtain ⟨b, hab, hcb⟩ := hac
    obtain ⟨bs, has, hcs⟩ := ih
    exact ⟨b :: bs, .cons hab has, .cons hcb hcs⟩

end

namespace Store

/-! ### Links -/

/-- What a node says by itself. -/
def label (s : Store) (n : Node) : Label :=
  ⟨s.schema.kindName n.kind, n.values, n.notes, n.children.map Content.shape⟩

/-- `c` stands in a child slot of `h`. -/
def Child (s : Store) (h c : Handle) : Prop := ∃ n, s.node? h = some n ∧ c ∈ n.childNodes

/-- Only live nodes have children. -/
theorem Child.isAlive {s : Store} {h c : Handle} (hc : s.Child h c) : s.isAlive h = true := by
  obtain ⟨n, hn, -⟩ := hc
  exact isAlive_of_node? hn

/-- In a well-formed store the children are alive too. -/
theorem WellFormed.isAlive_of_child {s : Store} (hs : s.WellFormed) {h c : Handle}
    (hc : s.Child h c) : s.isAlive c = true := by
  obtain ⟨n, hn, hmem⟩ := hc
  obtain ⟨m, hm⟩ := (hs.nodes h n hn).childNodes hmem
  exact isAlive_of_node? hm

/-- A way leads from one node down to another. -/
abbrev Reaches (s : Store) : Handle → Handle → Prop := Relation.ReflTransGen s.Child

/-- No way below a node comes back to where it was. -/
def Acyclic (s : Store) (root : Handle) : Prop :=
  ∀ h, s.Reaches root h → ¬ Relation.TransGen s.Child h h

/-! ### Unfolding -/

mutual

/-- The node `h` and everything below it, as a tree. -/
def Unfolds (s : Store) : Handle → Tree → Prop
  | h, .node l ts => ∃ n, s.node? h = some n ∧ s.label n = l ∧ UnfoldsAll s n.childNodes ts

/-- Nodes and everything below them, as trees. -/
def UnfoldsAll (s : Store) : List Handle → List Tree → Prop
  | [], [] => True
  | h :: hs, t :: ts => Unfolds s h t ∧ UnfoldsAll s hs ts
  | _, _ => False

end

/-- Nodes have trees one by one. -/
theorem unfoldsAll_iff {s : Store} {hs : List Handle} {ts : List Tree} :
    s.UnfoldsAll hs ts ↔ List.Forall₂ s.Unfolds hs ts := by
  induction ts generalizing hs with
  | nil => cases hs <;> simp [UnfoldsAll]
  | cons t ts ih =>
    cases hs with
    | nil => simp [UnfoldsAll]
    | cons h hs => rw [UnfoldsAll, ih, List.forall₂_cons]

/-- A node has the tree with its label over those of its children. -/
theorem unfolds_node_iff {s : Store} {h : Handle} {l : Label} {ts : List Tree} :
    s.Unfolds h (.node l ts) ↔
      ∃ n, s.node? h = some n ∧ s.label n = l ∧ List.Forall₂ s.Unfolds n.childNodes ts := by
  simp only [Unfolds, unfoldsAll_iff]

/-- The same for a node that is known. -/
theorem unfolds_iff_of_node? {s : Store} {h : Handle} {n : Node} (hn : s.node? h = some n)
    {l : Label} {ts : List Tree} :
    s.Unfolds h (.node l ts) ↔ s.label n = l ∧ List.Forall₂ s.Unfolds n.childNodes ts := by
  rw [unfolds_node_iff]
  constructor
  · rintro ⟨m, hm, hl, hts⟩
    rw [hn, Option.some.injEq] at hm
    subst hm
    exact ⟨hl, hts⟩
  · rintro ⟨hl, hts⟩
    exact ⟨n, hn, hl, hts⟩

/-- There is one tree for each place in the slots. -/
theorem length_of_unfolds {s : Store} {n : Node} {ts : List Tree}
    (hts : List.Forall₂ s.Unfolds n.childNodes ts) :
    ts.length = Shape.arities (n.children.map Content.shape) := by
  rw [← hts.length_eq]
  exact Shape.length_flatMap_nodes n.children

/-- What has a tree is alive. -/
theorem Unfolds.isAlive {s : Store} {h : Handle} {t : Tree} (ht : s.Unfolds h t) :
    s.isAlive h = true := by
  obtain ⟨l, ts⟩ := t
  obtain ⟨n, hn, -, -⟩ := unfolds_node_iff.mp ht
  exact isAlive_of_node? hn

/-- The children have the subtrees. -/
theorem Unfolds.child {s : Store} {h c : Handle} {l : Label} {ts : List Tree}
    (ht : s.Unfolds h (.node l ts)) (hc : s.Child h c) : ∃ u ∈ ts, s.Unfolds c u := by
  obtain ⟨n, hn, hmem⟩ := hc
  exact forall₂_exists_right ((unfolds_iff_of_node? hn).mp ht).2 hmem

/-- A node unfolds to one tree at most. -/
theorem Unfolds.unique {s : Store} {h : Handle} {t u : Tree} (ht : s.Unfolds h t)
    (hu : s.Unfolds h u) : t = u := by
  induction t generalizing h u with
  | node l ts ih =>
    obtain ⟨k, us⟩ := u
    obtain ⟨n, hn, rfl, hts⟩ := unfolds_node_iff.mp ht
    obtain ⟨rfl, hus⟩ := (unfolds_iff_of_node? hn).mp hu
    rw [forall₂_right_unique hts hus fun t ht a c => ih t ht]

/-! ### What does not matter -/

/-- Every node of `s` is in `s'` and says the same there, except possibly who its parent
    is. -/
structure Preserves (s s' : Store) : Prop where
  schema : s'.schema = s.schema
  nodes : ∀ h n, s.node? h = some n → ∃ p, s'.node? h = some { n with parent := p }

/-- What is reached stays so if nodes are kept. -/
theorem Preserves.reaches {s s' : Store} (hp : Preserves s s') {h x : Handle}
    (hx : s.Reaches h x) : s'.Reaches h x := by
  refine Relation.ReflTransGen.mono (fun a c => ?_) _ _ hx
  rintro ⟨n, hn, hc⟩
  obtain ⟨p, hn'⟩ := hp.nodes a n hn
  exact ⟨_, hn', hc⟩

/-- A tree stays the same if nodes are kept. -/
theorem Unfolds.mono {s s' : Store} (hp : Preserves s s') {h : Handle} {t : Tree}
    (ht : s.Unfolds h t) : s'.Unfolds h t := by
  induction t generalizing h with
  | node l ts ih =>
    obtain ⟨n, hn, rfl, hts⟩ := unfolds_node_iff.mp ht
    obtain ⟨p, hn'⟩ := hp.nodes h n hn
    refine unfolds_node_iff.mpr ⟨_, hn', ?_, ?_⟩
    · rw [label, label, hp.schema]
    · exact forall₂_imp_of_mem hts fun c u hu hcu => ih u hu hcu

/-! ### Unfolding exists exactly without cycles -/

/-- A node of a well-formed store unfolds unless there is a cycle below it. -/
theorem exists_unfolds {s : Store} (hs : s.WellFormed) {root : Handle}
    (hroot : s.isAlive root = true) (hacyclic : s.Acyclic root) : ∃ t, s.Unfolds root t := by
  -- the nodes below the root are finitely many, and "further down" is a strict order on them
  let Below := { h : Handle // s.Reaches root h ∧ s.isAlive h = true }
  have hfinite : Finite Below := by
    refine Finite.of_injective (β := Fin s.entries.size) (fun h => ⟨h.1.index, ?_⟩) ?_
    · obtain ⟨n, hn⟩ := isAlive_iff.mp h.2.2
      exact index_lt_of_node? hn
    · intro a b hab
      obtain ⟨m, hm⟩ := isAlive_iff.mp a.2.2
      obtain ⟨n, hn⟩ := isAlive_iff.mp b.2.2
      exact Subtype.ext (eq_of_index_eq hm hn (congrArg Fin.val hab))
  let deeper (a b : Below) : Prop := Relation.TransGen s.Child b.1 a.1
  have htrans : IsTrans Below deeper := ⟨fun _ _ _ hab hbc => hbc.trans hab⟩
  have hirrefl : Std.Irrefl deeper := ⟨fun a ha => hacyclic a.1 a.2.1 ha⟩
  have hwf : WellFounded deeper := Finite.wellFounded_of_trans_of_irrefl deeper
  suffices h : ∀ x : Below, ∃ t, s.Unfolds x.1 t from h ⟨root, .refl, hroot⟩
  intro x
  induction x using hwf.induction with
  | _ x ih =>
    obtain ⟨n, hn⟩ := isAlive_iff.mp x.2.2
    have hchildren : ∀ c ∈ n.childNodes, ∃ t, s.Unfolds c t := by
      intro c hc
      obtain ⟨m, hm⟩ := (hs.nodes x.1 n hn).childNodes hc
      have hchild : s.Child x.1 c := ⟨n, hn, hc⟩
      exact ih ⟨c, x.2.1.tail hchild, isAlive_of_node? hm⟩ (.single hchild)
    obtain ⟨ts, hts⟩ := exists_forall₂ hchildren
    exact ⟨.node (s.label n) ts, unfolds_node_iff.mpr ⟨n, hn, rfl, hts⟩⟩

/-- A child has a lower tree. -/
theorem Unfolds.height_lt_of_child {s : Store} {h c : Handle} {t : Tree} (ht : s.Unfolds h t)
    (hc : s.Child h c) : ∃ u, s.Unfolds c u ∧ u.height < t.height := by
  obtain ⟨l, ts⟩ := t
  obtain ⟨u, hu, hcu⟩ := ht.child hc
  exact ⟨u, hcu, Tree.height_lt_of_mem hu⟩

/-- The trees below a node are lower than its own. -/
theorem Unfolds.height_lt_of_transGen {s : Store} {h x : Handle} {t : Tree}
    (ht : s.Unfolds h t) (hx : Relation.TransGen s.Child h x) :
    ∃ u, s.Unfolds x u ∧ u.height < t.height := by
  induction hx with
  | single hc => exact ht.height_lt_of_child hc
  | tail _ hc ih =>
    obtain ⟨u, hu, hlt⟩ := ih
    obtain ⟨v, hv, hlt'⟩ := hu.height_lt_of_child hc
    exact ⟨v, hv, hlt'.trans hlt⟩

/-- What is reached from a node with a tree has one. -/
theorem Unfolds.of_reaches {s : Store} {h x : Handle} {t : Tree} (ht : s.Unfolds h t)
    (hx : s.Reaches h x) : ∃ u, s.Unfolds x u := by
  rcases Relation.reflTransGen_iff_eq_or_transGen.mp hx with rfl | hx
  · exact ⟨t, ht⟩
  · obtain ⟨u, hu, -⟩ := ht.height_lt_of_transGen hx
    exact ⟨u, hu⟩

/-- A node that unfolds has no cycle below it. -/
theorem Unfolds.acyclic {s : Store} {root : Handle} {t : Tree} (ht : s.Unfolds root t) :
    s.Acyclic root := by
  intro h hh hcycle
  obtain ⟨u, hu⟩ := ht.of_reaches hh
  obtain ⟨v, hv, hlt⟩ := hu.height_lt_of_transGen hcycle
  rw [hu.unique hv] at hlt
  exact Nat.lt_irrefl _ hlt

/-! ### The height of the tree and the size of the store -/

/-- Below a node there are trees of all smaller heights. -/
theorem Unfolds.exists_height_eq {s : Store} {h : Handle} {t : Tree} (ht : s.Unfolds h t)
    {k : Nat} (hk : k < t.height) : ∃ x u, s.Unfolds x u ∧ u.height = k + 1 := by
  induction t generalizing h with
  | node l ts ih =>
    by_cases htop : k + 1 = (Tree.node l ts).height
    · exact ⟨h, _, ht, htop.symm⟩
    · -- some tree right below is high enough
      obtain ⟨u, hu, hku⟩ : ∃ u ∈ ts, k < u.height := by
        by_contra hnone
        push Not at hnone
        have hle := Tree.height_le_succ_iff (l := l) |>.mpr hnone
        omega
      obtain ⟨n, -, -, hts⟩ := unfolds_node_iff.mp ht
      obtain ⟨c, -, hc⟩ := forall₂_exists_left hts hu
      exact ih u hu hc hku

/-- No way down is longer than the store: nodes with trees of different heights stand in
    different places. -/
theorem Unfolds.height_le {s : Store} {h : Handle} {t : Tree} (ht : s.Unfolds h t) :
    t.height ≤ s.entries.size := by
  -- there is a node of each height, and they have places of their own
  have hwitness : ∀ k : Fin t.height, ∃ i : Fin s.entries.size, ∃ x u,
      s.Unfolds x u ∧ u.height = k + 1 ∧ x.index = i := by
    intro k
    obtain ⟨x, u, hu, hheight⟩ := ht.exists_height_eq k.2
    obtain ⟨n, hn⟩ := isAlive_iff.mp hu.isAlive
    exact ⟨⟨x.index, index_lt_of_node? hn⟩, x, u, hu, hheight, rfl⟩
  choose place x u hu hheight hplace using hwitness
  have hinj : Function.Injective place := by
    intro a b hab
    have hx : x a = x b := by
      obtain ⟨m, hm⟩ := isAlive_iff.mp (hu a).isAlive
      obtain ⟨n, hn⟩ := isAlive_iff.mp (hu b).isAlive
      exact eq_of_index_eq hm hn (by rw [hplace, hplace, hab])
    have hub : s.Unfolds (x a) (u b) := hx ▸ hu b
    have hsame : (u a).height = (u b).height := congrArg Tree.height ((hu a).unique hub)
    rw [hheight, hheight] at hsame
    exact Fin.ext (by omega)
  simpa using Fintype.card_le_of_injective place hinj

/-- The node has a tree with at most `n` nodes below each other. -/
def HeightLe (s : Store) (n : Nat) (h : Handle) : Prop := ∃ t, s.Unfolds h t ∧ t.height ≤ n

theorem not_heightLe_zero (s : Store) (h : Handle) : ¬ s.HeightLe 0 h := by
  rintro ⟨t, -, ht⟩
  have := t.height_pos
  omega

/-- A bound on the height may be raised. -/
theorem HeightLe.mono {s : Store} {m n : Nat} {h : Handle} (hm : s.HeightLe m h) (hmn : m ≤ n) :
    s.HeightLe n h := by
  obtain ⟨t, ht, hheight⟩ := hm
  exact ⟨t, ht, hheight.trans hmn⟩

/-- A node is within a height if its children are within one level less. -/
theorem heightLe_succ_iff {s : Store} {n : Nat} {h : Handle} :
    s.HeightLe (n + 1) h ↔ ∃ m, s.node? h = some m ∧ ∀ c ∈ m.childNodes, s.HeightLe n c := by
  constructor
  · rintro ⟨⟨l, ts⟩, ht, hheight⟩
    obtain ⟨m, hm, -, hts⟩ := unfolds_node_iff.mp ht
    refine ⟨m, hm, fun c hc => ?_⟩
    obtain ⟨u, hu, hcu⟩ := forall₂_exists_right hts hc
    exact ⟨u, hcu, Tree.height_le_succ_iff.mp hheight u hu⟩
  · rintro ⟨m, hm, hchildren⟩
    obtain ⟨ts, hts⟩ := exists_forall₂ hchildren
    refine ⟨.node (s.label m) ts, unfolds_node_iff.mpr ⟨m, hm, rfl, ?_⟩, ?_⟩
    · exact hts.imp fun _ _ hu => hu.1
    · refine Tree.height_le_succ_iff.mpr fun u hu => ?_
      obtain ⟨c, -, hcu⟩ := forall₂_exists_left hts hu
      exact hcu.2

/-! ### The labels of the tree -/

/-- A property of labels holds in the whole tree when it holds of all nodes that can be
    reached. -/
theorem Unfolds.all_iff {s : Store} {P : Label → Prop} {h : Handle} {t : Tree}
    (ht : s.Unfolds h t) :
    t.All P ↔ ∀ x n, s.Reaches h x → s.node? x = some n → P (s.label n) := by
  constructor
  · intro hall x n hx hn
    -- every node on the way down has a tree in which all labels have the property
    have hway : ∃ u, s.Unfolds x u ∧ u.All P := by
      induction hx generalizing n with
      | refl => exact ⟨t, ht, hall⟩
      | tail _ hc ih =>
        obtain ⟨m, hm, -⟩ := id hc
        obtain ⟨⟨l, ts⟩, hu, hall⟩ := ih m hm
        obtain ⟨v, hv, hcv⟩ := hu.child hc
        exact ⟨v, hcv, (Tree.all_node_iff.mp hall).2 v hv⟩
    obtain ⟨⟨l, ts⟩, hu, hall⟩ := hway
    obtain ⟨rfl, -⟩ := (unfolds_iff_of_node? hn).mp hu
    exact (Tree.all_node_iff.mp hall).1
  · intro hall
    induction t generalizing h with
    | node l ts ih =>
      obtain ⟨n, hn, rfl, hts⟩ := unfolds_node_iff.mp ht
      refine Tree.all_node_iff.mpr ⟨hall h n .refl hn, fun u hu => ?_⟩
      obtain ⟨c, hc, hcu⟩ := forall₂_exists_left hts hu
      exact ih u hu hcu fun x m hx hm => hall x m (.head ⟨n, hn, hc⟩ hx) hm

end Store

end TypedForest
