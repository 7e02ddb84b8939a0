import Mathlib.Data.List.ReduceOption
import TypedForest.Proofs.Tree.Planting

namespace TypedForest

/-!
# Pruning trees

A tree is pruned from the leaves up.  Whether a node stays is decided when all below it have been
pruned, so the decision sees what is left of them.  A node that goes takes what is left below it
along; it leaves a slot for one node vacant, and is left out of a list.

* `Tree.trim`, `Tree.prune` : the tree with all below the root pruned, and with the root too;
* `Shape.thinAll`, `Content.thin`, `Shape.refill` : the slots when some of their nodes are gone;
* `Store.unfolds_trim` : a node over what is left of its children unfolds to what is left of
  its tree;
* `Store.forall₂_admits_refill` : the slots admit what is left in them.
-/

/-- Lists with gaps that go together do so without them. -/
theorem forall₂_reduceOption {α β : Type} {R : α → β → Prop} {rs : List (Option α)}
    {qs : List (Option β)} (h : List.Forall₂ (Option.Rel R) rs qs) :
    List.Forall₂ R rs.reduceOption qs.reduceOption := by
  induction h with
  | nil => exact .nil
  | cons hrq _ ih =>
    cases hrq with
    | some hab => exact .cons hab ih
    | none => exact ih

/-! ### Slots that lose nodes -/

namespace Shape

/-- The shape of a slot when so many of its nodes are left. -/
def thin : Shape → Nat → Shape
  | vacant, _ => vacant
  | one, 0 => vacant
  | one, _ + 1 => one
  | many _, left => many left

/-- The shapes of a row of slots when for each node in them there is a result, and the nodes
    without one are gone. -/
def thinAll {α : Type} : List Shape → List (Option α) → List Shape
  | [], _ => []
  | s :: shapes, rs =>
    s.thin (rs.take s.arity).reduceOption.length :: thinAll shapes (rs.drop s.arity)

/-- What is in the slots then. -/
def refill (shapes : List Shape) (rs : List (Option Handle)) : List Content :=
  regroup (thinAll shapes rs) rs.reduceOption

/-- A shape is thinned to what is left. -/
theorem arity_thin {s : Shape} {left : Nat} (h : left ≤ s.arity) : (s.thin left).arity = left := by
  cases s with
  | vacant => exact (Nat.le_zero.mp h).symm
  | one =>
    cases left with
    | zero => rfl
    | succ k => exact (Nat.le_antisymm h (Nat.le_add_left 1 k)).symm
  | many n => rfl

section

variable {α : Type} {s : Shape} {shapes : List Shape} {rs : List (Option α)}

/-- So it has room for all results that are there. -/
theorem arity_thin_reduceOption (h : rs.length = s.arity) :
    (s.thin rs.reduceOption.length).arity = rs.reduceOption.length :=
  arity_thin (h ▸ rs.reduceOption_length_le)

/-- The nodes that are left fit into the shapes that are left. -/
theorem arities_thinAll (h : rs.length = arities shapes) :
    arities (thinAll shapes rs) = rs.reduceOption.length := by
  induction shapes generalizing rs with
  | nil =>
    rw [List.length_eq_zero_iff.mp h]
    rfl
  | cons s shapes ih =>
    have hsplit : rs.reduceOption
        = (rs.take s.arity).reduceOption ++ (rs.drop s.arity).reduceOption := by
      rw [← List.reduceOption_append, List.take_append_drop]
    rw [hsplit, List.length_append, ← ih (length_drop_arity h),
      ← arity_thin_reduceOption (length_take_arity h)]
    rfl

end

/-- Which shapes are left depends only on which nodes have results. -/
theorem thinAll_congr {α β : Type} {R : α → β → Prop} {rs : List (Option α)}
    {qs : List (Option β)} (h : List.Forall₂ (Option.Rel R) rs qs) (shapes : List Shape) :
    thinAll shapes rs = thinAll shapes qs := by
  induction shapes generalizing rs qs with
  | nil => rfl
  | cons s shapes ih =>
    have hleft := (forall₂_reduceOption (List.forall₂_take s.arity h)).length_eq
    rw [thinAll, thinAll, hleft, ih (List.forall₂_drop s.arity h)]

section

variable {shapes : List Shape} {rs : List (Option Handle)}

/-- Refilled contents have the thinned shapes. -/
theorem map_shape_refill (h : rs.length = arities shapes) :
    (refill shapes rs).map Content.shape = thinAll shapes rs :=
  map_shape_regroup (arities_thinAll h).symm

/-- And the results in them. -/
theorem nodes_refill (h : rs.length = arities shapes) :
    (refill shapes rs).flatMap Content.nodes = rs.reduceOption :=
  flatMap_nodes_regroup (arities_thinAll h).symm

end

end Shape

namespace Content

/-- What is left in a slot when for each node in it there is a result. -/
def thin (c : Content) (rs : List (Option Handle)) : Content :=
  (c.shape.thin rs.reduceOption.length).content rs.reduceOption

variable {c : Content} {rs : List (Option Handle)}

/-- A thinned content has the results that are there. -/
theorem nodes_thin (h : rs.length = c.nodes.length) : (c.thin rs).nodes = rs.reduceOption := by
  rw [c.length_nodes] at h
  exact Shape.nodes_content (Shape.arity_thin_reduceOption h).symm

/-- A slot for a list stays one. -/
theorem isMany_thin (c : Content) (rs : List (Option Handle)) :
    (c.thin rs).isMany = c.isMany := by
  unfold thin
  cases c with
  | one o =>
    cases o with
    | none => rfl
    | some x => cases rs.reduceOption.length <;> rfl
  | many xs => rfl

/-- The first slot gets what is left of its nodes, the others get the rest. -/
theorem refill_cons {shapes : List Shape} {rs' : List (Option Handle)}
    (h : rs.length = c.nodes.length) :
    Shape.refill (c.shape :: shapes) (rs ++ rs') = c.thin rs :: Shape.refill shapes rs' := by
  rw [c.length_nodes] at h
  rw [Shape.refill, Shape.thinAll, ← h, List.take_left, List.drop_left, List.reduceOption_append,
    Shape.regroup, Shape.arity_thin_reduceOption h, List.take_left, List.drop_left]
  rfl

end Content

/-! ### The trees that are left -/

namespace Tree

mutual

/-- The tree with all below the root pruned: of the nodes below only those stay that `keep` accepts
    when all below them has been pruned. -/
def trim (keep : Tree → Bool) : Tree → Tree
  | node l ts =>
    node { l with shapes := Shape.thinAll l.shapes (pruneAll keep ts) }
      (pruneAll keep ts).reduceOption

/-- What is left of each tree. -/
def pruneAll (keep : Tree → Bool) : List Tree → List (Option Tree)
  | [] => []
  | t :: ts => (if keep (t.trim keep) then some (t.trim keep) else none) :: pruneAll keep ts

end

/-- What is left of a tree, if anything is. -/
def prune (keep : Tree → Bool) (t : Tree) : Option Tree :=
  if keep (t.trim keep) then some (t.trim keep) else none

theorem pruneAll_eq_map (keep : Tree → Bool) (ts : List Tree) :
    pruneAll keep ts = ts.map (prune keep) := by
  induction ts with
  | nil => rfl
  | cons t ts ih =>
    rw [pruneAll, ih]
    rfl

/-- The children are pruned, and their slots are thinned. -/
theorem trim_node (keep : Tree → Bool) (l : Label) (ts : List Tree) :
    (node l ts).trim keep = node { l with shapes := Shape.thinAll l.shapes (ts.map (prune keep)) }
      (ts.map (prune keep)).reduceOption := by
  rw [trim, pruneAll_eq_map]

end Tree

namespace Store

/-- A node over what is left of its children unfolds to what is left of its tree. -/
theorem unfolds_trim {s : Store} {h : Handle} {n : Node} {rs : List (Option Handle)}
    {parent : Option Handle}
    (hn : s.node? h = some
      { n with children := Shape.refill (n.children.map Content.shape) rs, parent := parent })
    {keep : Tree → Bool} {ts : List Tree}
    (hts : ts.length = Shape.arities (n.children.map Content.shape))
    (hrs : List.Forall₂ (Option.Rel s.Unfolds) rs (ts.map (Tree.prune keep))) :
    s.Unfolds h (Tree.trim keep (.node (s.label n) ts)) := by
  have hlength : rs.length = Shape.arities (n.children.map Content.shape) := by
    rw [hrs.length_eq, List.length_map, hts]
  rw [Tree.trim_node]
  refine unfolds_node_iff.mpr ⟨_, hn, ?_, ?_⟩
  · simp only [label, Shape.map_shape_refill hlength, Shape.thinAll_congr hrs]
  · rw [Node.childNodes, Shape.nodes_refill hlength]
    exact forall₂_reduceOption hrs

/-! ### Slots that admit what is left -/

/-- What takes the place of a node of `s` in `s'`, if anything does, is a node of its kind. -/
def Replaces (s s' : Store) (a : Handle) (r : Option Handle) : Prop :=
  ∀ b ∈ r, ∀ m, s.node? a = some m → ∃ n, s'.node? b = some n ∧ n.kind = m.kind

/-- What is left of the tree of a node has the kind of the node. -/
theorem replaces_of_prune {s s' : Store} (hs : s.WellFormed) (hs' : s'.WellFormed)
    (hlawful : s.schema.Lawful) (hschema : s'.schema = s.schema) {a : Handle} {t : Tree}
    (ha : s.Unfolds a t) {keep : Tree → Bool} {r : Option Handle}
    (hr : Option.Rel s'.Unfolds r (t.prune keep)) : Replaces s s' a r := by
  rintro b rfl m hm
  obtain ⟨l, ts⟩ := t
  rw [Tree.prune, Tree.trim_node] at hr
  split at hr
  · cases hr with
    | some hb =>
      obtain ⟨n, hn, hlabel, -⟩ := unfolds_node_iff.mp hb
      obtain ⟨rfl, -⟩ := (unfolds_iff_of_node? hm).mp ha
      refine ⟨n, hn, kind_eq_of_kindName hs hs' hlawful hschema hm hn ?_⟩
      exact congrArg Label.kind hlabel
  · cases hr

/-- The results stand for the children with nodes of their kinds. -/
theorem forall₂_replaces {s s' : Store} (hs : s.WellFormed) (hs' : s'.WellFormed)
    (hlawful : s.schema.Lawful) (hschema : s'.schema = s.schema) {as : List Handle}
    {ts : List Tree} (hts : List.Forall₂ s.Unfolds as ts) {keep : Tree → Bool}
    {rs : List (Option Handle)}
    (hrs : List.Forall₂ (Option.Rel s'.Unfolds) rs (ts.map (Tree.prune keep))) :
    List.Forall₂ (Replaces s s') as rs := by
  refine (forall₂_join hts (List.forall₂_map_right_iff.mp hrs)).imp ?_
  rintro a r ⟨t, ha, hr⟩
  exact replaces_of_prune hs hs' hlawful hschema ha hr

section

variable {s s' : Store} (hschema : s'.schema = s.schema)
include hschema

/-- A slot admits the results of its nodes. -/
theorem Admits.thin {slot : ChildSlot} {c : Content} (hc : s.Admits slot c)
    {rs : List (Option Handle)} (hrs : List.Forall₂ (Replaces s s') c.nodes rs) :
    s'.Admits slot (c.thin rs) := by
  refine ⟨(c.isMany_thin rs).trans hc.shape, fun b hb => ?_⟩
  rw [Content.nodes_thin hrs.length_eq.symm, List.reduceOption_mem_iff] at hb
  obtain ⟨a, ha, hab⟩ := forall₂_exists_left hrs hb
  obtain ⟨m, hm, hsub⟩ := hc.nodes a ha
  obtain ⟨n, hn, hkind⟩ := hab b rfl m hm
  exact ⟨n, hn, by rw [hschema, hkind]; exact hsub⟩

/-- What a row of slots admits, it also admits when some nodes are gone and the others replaced. -/
theorem forall₂_admits_refill {slots : List ChildSlot} {cs : List Content}
    (hcs : List.Forall₂ s.Admits slots cs) {rs : List (Option Handle)}
    (hrs : List.Forall₂ (Replaces s s') (cs.flatMap Content.nodes) rs) :
    List.Forall₂ s'.Admits slots (Shape.refill (cs.map Content.shape) rs) := by
  induction hcs generalizing rs with
  | nil => exact .nil
  | @cons slot c slots cs hc _ ih =>
    rw [List.flatMap_cons] at hrs
    obtain ⟨rs₁, rs₂, hfirst, hrest, rfl⟩ := forall₂_append_left hrs
    rw [List.map_cons, Content.refill_cons hfirst.length_eq.symm]
    exact .cons (hc.thin hschema hfirst) (ih hrest)

end

end Store

end TypedForest
