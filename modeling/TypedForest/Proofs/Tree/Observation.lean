import TypedForest.Proofs.Tree.Planting
import TypedForest.Store.Equality
import TypedForest.Store.Traversal

namespace TypedForest

/-!
# What a tree shows

What comparing and walking find out about a node depends only on the tree that it unfolds to.

* `Store.equalTrees_of_unfolds` : nodes with the same tree are found equal;
* `Store.traverse_pre_of_unfolds` : a walk that visits nodes before their children meets nodes
  with the labels of the tree, in the order of `Tree.preorder`.
-/

/-! ### Comparing -/

namespace Equality

/-- Rows of slots of the same shapes are compared node by node. -/
theorem pairs_eq_zip {cs ds : List Content} (h : cs.map Content.shape = ds.map Content.shape) :
    pairs cs ds = some ((cs.flatMap Content.nodes).zip (ds.flatMap Content.nodes)) := by
  induction cs generalizing ds with
  | nil =>
    obtain rfl := List.map_eq_nil_iff.mp h.symm
    rfl
  | cons c cs ih =>
    obtain ⟨d, ds, rfl, hd, hds⟩ := List.map_eq_cons_iff.mp h.symm
    have hlength : c.nodes.length = d.nodes.length := by
      rw [c.length_nodes, d.length_nodes, hd]
    rw [List.flatMap_cons, List.flatMap_cons, List.zip_append hlength]
    have hrest := ih hds.symm
    match c, d, hd with
    | .one none, .one none, _ => simpa [pairs, Content.nodes] using hrest
    | .one (some a), .one (some b), _ => simp [pairs, Content.nodes, hrest]
    | .many as, .many bs, _ =>
      have hsame : as.length = bs.length := hlength
      simp [pairs, Content.nodes, hrest, hsame]

/-- The comparison finds no difference if each pair in a set has all pairs below it in the
    set, where ways may be one step shorter. -/
theorem agree_eq_true {α : Type} {next : α → Option (List α)} {R : Nat → α → Prop}
    (hzero : ∀ p, ¬ R 0 p)
    (hstep : ∀ n p, R (n + 1) p → ∃ ps, next p = some ps ∧ ∀ q ∈ ps, R n q)
    {todo : List (Nat × α)} (htodo : ∀ e ∈ todo, R e.1 e.2) :
    agree next todo = some true := by
  fun_induction agree next todo with
  | case1 => rfl
  | case2 p rest => exact absurd (htodo (0, p) List.mem_cons_self) (hzero p)
  | case3 n p rest hnone =>
    obtain ⟨ps, hps, -⟩ := hstep n p (htodo (n + 1, p) List.mem_cons_self)
    rw [hnone] at hps
    cases hps
  | case4 n p rest ps hps ih =>
    -- the pairs below are within one level less
    obtain ⟨ps', hps', hbelow⟩ := hstep n p (htodo (n + 1, p) List.mem_cons_self)
    rw [hps, Option.some.injEq] at hps'
    subst hps'
    refine ih fun e he => ?_
    rcases List.mem_append.mp he with he | he
    · obtain ⟨q, hq, rfl⟩ := List.mem_map.mp he
      exact hbelow q (List.mem_reverse.mp hq)
    · exact htodo e (List.mem_cons_of_mem _ he)

end Equality

namespace Store

/-- A pair of nodes with the same tree differs nowhere, and the pairs below it have the same
    trees again. -/
theorem below_of_unfolds {s t : Store} (hs : s.WellFormed) (ht : t.WellFormed)
    (hlawful : s.schema.Lawful) (hschema : t.schema = s.schema) (how : KindMatch)
    {a b : Handle} {u : Tree} (ha : s.Unfolds a u) (hb : t.Unfolds b u) :
    ∃ ps, Equality.below how s t (a, b) = some ps ∧
      ∀ q ∈ ps, ∃ v, s.Unfolds q.1 v ∧ t.Unfolds q.2 v ∧ v.height < u.height := by
  obtain ⟨l, us⟩ := u
  obtain ⟨m, hm, hml, hmus⟩ := unfolds_node_iff.mp ha
  obtain ⟨n, hn, hnl, hnus⟩ := unfolds_node_iff.mp hb
  -- one tree has one label at its root, and all agreement follows from it
  have hlabel : s.label m = t.label n := hml.trans hnl.symm
  have hvalues : m.values = n.values := congrArg Label.values hlabel
  have hname : s.schema.kindName m.kind = t.schema.kindName n.kind := congrArg Label.kind hlabel
  have hshapes : m.children.map Content.shape = n.children.map Content.shape :=
    congrArg Label.shapes hlabel
  have hkind : n.kind = m.kind := Alike.kind_eq hs ht hlawful hschema ⟨_, ha, hb⟩ hm hn
  have hsame : Equality.sameKind how s t m.kind n.kind = true := by
    cases how with
    | byPlace => exact decide_eq_true hkind.symm
    | byName => exact beq_iff_eq.mpr hname
  refine ⟨m.childNodes.zip n.childNodes, ?_, ?_⟩
  · simp only [Equality.below, hm, hn, hsame, hvalues, decide_true, Bool.and_self, if_true]
    exact Equality.pairs_eq_zip hshapes
  · rintro ⟨c, d⟩ hcd
    obtain ⟨v, hcv, hdv⟩ := List.forall₂_zip (forall₂_join hmus hnus) hcd
    obtain ⟨w, hcw, hlt⟩ := ha.height_lt_of_child ⟨m, hm, (List.of_mem_zip hcd).1⟩
    exact ⟨v, hcv, hdv, hcv.unique hcw ▸ hlt⟩

/-- Nodes with the same tree are found equal, however kinds are compared. -/
theorem equalTrees_of_unfolds {s t : Store} (hs : s.WellFormed) (ht : t.WellFormed)
    (hlawful : s.schema.Lawful) (hschema : t.schema = s.schema) (how : KindMatch)
    {a b : Handle} {u : Tree} (ha : s.Unfolds a u) (hb : t.Unfolds b u) :
    equalTrees how s a t b = some true := by
  let Same (n : Nat) (p : Handle × Handle) : Prop :=
    ∃ v, s.Unfolds p.1 v ∧ t.Unfolds p.2 v ∧ v.height ≤ n
  have hzero : ∀ p, ¬ Same 0 p := by
    rintro p ⟨v, -, -, hv⟩
    have := v.height_pos
    omega
  have hstep : ∀ n p, Same (n + 1) p →
      ∃ ps, Equality.below how s t p = some ps ∧ ∀ q ∈ ps, Same n q := by
    rintro n ⟨a, b⟩ ⟨v, hav, hbv, hv⟩
    obtain ⟨ps, hps, hbelow⟩ := below_of_unfolds hs ht hlawful hschema how hav hbv
    refine ⟨ps, hps, fun q hq => ?_⟩
    obtain ⟨w, hw₁, hw₂, hlt⟩ := hbelow q hq
    exact ⟨w, hw₁, hw₂, by omega⟩
  -- no way down is longer than either store, so the comparison may go far enough
  have hroom : u.height ≤ s.entries.size * t.entries.size + 1 := by
    have hpos : 0 < t.entries.size := Nat.lt_of_lt_of_le u.height_pos hb.height_le
    have := Nat.le_mul_of_pos_right s.entries.size hpos
    have := ha.height_le
    omega
  refine Equality.agree_eq_true hzero hstep ?_
  rw [List.forall_mem_singleton]
  exact ⟨u, ha, hb, hroom⟩

end Store

/-! ### Walking -/

namespace Tree

mutual

/-- The labels of a tree, each before those below it. -/
def preorder : Tree → List Label
  | node l ts => l :: preorderAll ts

/-- The labels of trees one after the other. -/
def preorderAll : List Tree → List Label
  | [] => []
  | t :: ts => t.preorder ++ preorderAll ts

end

/-- The labels of two lists of trees come one after the other. -/
theorem preorderAll_append (ts us : List Tree) :
    preorderAll (ts ++ us) = preorderAll ts ++ preorderAll us := by
  induction ts with
  | nil => rfl
  | cons t ts ih => rw [List.cons_append, preorderAll, preorderAll, ih, List.append_assoc]

end Tree

namespace Store

/-- The node is alive and has this label. -/
def Says (s : Store) (h : Handle) (l : Label) : Prop := ∃ n, s.node? h = some n ∧ s.label n = l

/-- A walk over nodes to visit adds nodes with the labels of their trees, in order. -/
theorem visit_pre_of_unfolds {s : Store} (limit : Nat) {todo : List Handle} {ts : List Tree}
    (htodo : List.Forall₂ s.Unfolds todo ts) (visited : Array Handle) :
    ∃ hs, (s.visit limit (.pre todo) visited).toList = visited.toList ++ hs ∧
      List.Forall₂ s.Says hs ((Tree.preorderAll ts).take limit) := by
  induction limit generalizing todo ts visited with
  | zero => exact ⟨[], by simp [visit], .nil⟩
  | succ limit ih =>
    cases htodo with
    | nil => exact ⟨[], by simp [visit, next?], .nil⟩
    | @cons h t todo ts hht hrest =>
      obtain ⟨l, us⟩ := t
      obtain ⟨n, hn, hl, hus⟩ := unfolds_node_iff.mp hht
      have hchildren : s.childrenOf h = n.childNodes := by rw [childrenOf, hn]; rfl
      obtain ⟨hs, hvisit, hsays⟩ := ih (List.rel_append hus hrest) (visited.push h)
      refine ⟨h :: hs, ?_, ?_⟩
      · rw [visit, next?, hchildren]
        simp only [hvisit, Array.toList_push, List.append_assoc, List.cons_append,
          List.nil_append]
      · rw [Tree.preorderAll, Tree.preorder, List.cons_append, List.take_succ_cons,
          ← Tree.preorderAll_append]
        exact .cons ⟨n, hn, hl⟩ hsays

/-- Walking a tree, nodes before their children, meets its labels in order. -/
theorem traverse_pre_of_unfolds {s : Store} {h : Handle} {t : Tree} (ht : s.Unfolds h t)
    (limit : Nat) : List.Forall₂ s.Says (s.traverse .pre h limit) (t.preorder.take limit) := by
  obtain ⟨hs, hvisit, hsays⟩ := visit_pre_of_unfolds limit (.cons ht .nil) #[]
  rw [Tree.preorderAll, Tree.preorderAll, List.append_nil] at hsays
  rw [traverse, frontier, ht.isAlive]
  simp only [if_true, hvisit]
  exact hsays

end Store

end TypedForest
