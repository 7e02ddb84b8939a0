import Mathlib.Algebra.GroupWithZero.Nat
import Mathlib.Data.List.Forall2
import TypedForest.Store.Construct

namespace TypedForest

/-!
# Trees

The tree under a node, without a store: what the node says by itself is its `Label`, and the
trees below it follow in the order of the slots.  How many of them belong to each slot is part
of the label, as the row of `Shape`s of the slots.

* `Content.shape`, `Shape.regroup` : what a row of slots holds, taken apart into shapes and
  nodes and put together again;
* `Content.Rel` : slots of the same shape with related nodes in them;
* `Tree.size`, `Tree.height` : the number of nodes, and of nodes on the longest way down;
* `Tree.All` : a property of all labels in a tree.
-/

/-! ### Shapes of slots -/

/-- What a child slot holds, without saying which nodes. -/
inductive Shape
  /-- No node, in a slot for one. -/
  | vacant
  /-- One node, in a slot for one. -/
  | one
  /-- So many nodes, in a slot for a list. -/
  | many (length : Nat)
deriving DecidableEq, Repr

namespace Shape

/-- The number of nodes. -/
def arity : Shape → Nat
  | vacant => 0
  | one => 1
  | many length => length

/-- The contents of a slot of this shape with the given nodes. -/
def content : Shape → List Handle → Content
  | vacant, _ => .one none
  | one, hs => .one hs.head?
  | many _, hs => .many hs

/-- The number of nodes in a row of slots. -/
def arities (shapes : List Shape) : Nat := (shapes.map arity).sum

/-- The contents of a row of slots from the nodes of all of them, in order. -/
def regroup : List Shape → List Handle → List Content
  | [], _ => []
  | s :: shapes, hs => s.content (hs.take s.arity) :: regroup shapes (hs.drop s.arity)

end Shape

/-- The shape of contents. -/
def Content.shape : Content → Shape
  | one none => .vacant
  | one (some _) => .one
  | many nodes => .many nodes.length

/-- A content has as many nodes as its shape says. -/
theorem Content.length_nodes (c : Content) : c.nodes.length = c.shape.arity := by
  cases c with
  | one o => cases o <;> rfl
  | many hs => rfl

namespace Shape

/-- Nodes that are put into a shape have it. -/
theorem shape_content {s : Shape} {hs : List Handle} (h : hs.length = s.arity) :
    (s.content hs).shape = s := by
  cases s with
  | vacant => rfl
  | one =>
    obtain ⟨x, rfl⟩ := List.length_eq_one_iff.mp h
    rfl
  | many n => exact congrArg many h

/-- And they are the nodes of the content. -/
theorem nodes_content {s : Shape} {hs : List Handle} (h : hs.length = s.arity) :
    (s.content hs).nodes = hs := by
  cases s with
  | vacant => exact (List.length_eq_zero_iff.mp h).symm
  | one =>
    obtain ⟨x, rfl⟩ := List.length_eq_one_iff.mp h
    rfl
  | many n => rfl

section

variable {α : Type} {s : Shape} {shapes : List Shape} {xs : List α}

/-- The first slot gets as many as its shape says. -/
theorem length_take_arity (h : xs.length = arities (s :: shapes)) :
    (xs.take s.arity).length = s.arity := by
  have hsum : arities (s :: shapes) = s.arity + arities shapes := rfl
  rw [List.length_take]
  omega

/-- The other slots get the rest. -/
theorem length_drop_arity (h : xs.length = arities (s :: shapes)) :
    (xs.drop s.arity).length = arities shapes := by
  have hsum : arities (s :: shapes) = s.arity + arities shapes := rfl
  rw [List.length_drop]
  omega

end

/-- Grouping nodes gives each slot its shape. -/
theorem map_shape_regroup {shapes : List Shape} {hs : List Handle}
    (h : hs.length = arities shapes) : (regroup shapes hs).map Content.shape = shapes := by
  induction shapes generalizing hs with
  | nil => rfl
  | cons s shapes ih =>
    rw [regroup, List.map_cons, shape_content (length_take_arity h), ih (length_drop_arity h)]

/-- Grouping nodes keeps them all, in order. -/
theorem flatMap_nodes_regroup {shapes : List Shape} {hs : List Handle}
    (h : hs.length = arities shapes) : (regroup shapes hs).flatMap Content.nodes = hs := by
  induction shapes generalizing hs with
  | nil => exact (List.length_eq_zero_iff.mp h).symm
  | cons s shapes ih =>
    rw [regroup, List.flatMap_cons, nodes_content (length_take_arity h),
      ih (length_drop_arity h), List.take_append_drop]

/-- Contents have as many nodes as their shapes say. -/
theorem length_flatMap_nodes (cs : List Content) :
    (cs.flatMap Content.nodes).length = arities (cs.map Content.shape) := by
  induction cs with
  | nil => rfl
  | cons c cs ih =>
    rw [List.flatMap_cons, List.length_append, c.length_nodes, ih]
    rfl

end Shape

/-! ### Slots compared -/

/-- Two slots have the same shape, and the nodes in the same places are related. -/
inductive Content.Rel (R : Handle → Handle → Prop) : Content → Content → Prop
  | vacant : Rel R (.one none) (.one none)
  | one {a b : Handle} (hab : R a b) : Rel R (.one (some a)) (.one (some b))
  | many {as bs : List Handle} (h : List.Forall₂ R as bs) : Rel R (.many as) (.many bs)

/-- Contents are related if they have one shape and related nodes. -/
theorem Content.rel_iff {R : Handle → Handle → Prop} {c d : Content} :
    c.Rel R d ↔ c.shape = d.shape ∧ List.Forall₂ R c.nodes d.nodes := by
  constructor
  · rintro (_ | hab | h)
    · exact ⟨rfl, .nil⟩
    · exact ⟨rfl, .cons hab .nil⟩
    · exact ⟨congrArg Shape.many h.length_eq, h⟩
  · rintro ⟨hshape, hnodes⟩
    match c, d, hshape with
    | .one none, .one none, _ => exact .vacant
    | .one (some a), .one (some b), _ => exact .one (List.forall₂_cons.mp hnodes).1
    | .many as, .many bs, _ => exact .many hnodes

/-- Rows of slots are related exactly if their shapes are the same and all nodes in them are
    related. -/
theorem forall₂_rel_iff {R : Handle → Handle → Prop} {cs ds : List Content} :
    List.Forall₂ (Content.Rel R) cs ds ↔ cs.map Content.shape = ds.map Content.shape ∧
      List.Forall₂ R (cs.flatMap Content.nodes) (ds.flatMap Content.nodes) := by
  induction cs generalizing ds with
  | nil => cases ds <;> simp
  | cons c cs ih =>
    cases ds with
    | nil => simp
    | cons d ds =>
      simp only [List.forall₂_cons, Content.rel_iff, ih, List.map_cons, List.cons.injEq,
        List.flatMap_cons]
      constructor
      · rintro ⟨⟨hshape, hnodes⟩, hshapes, hrest⟩
        exact ⟨⟨hshape, hshapes⟩, List.rel_append hnodes hrest⟩
      · rintro ⟨⟨hshape, hshapes⟩, hall⟩
        -- one shape means as many nodes, and so the lists fall apart in the same place
        have hlength : c.nodes.length = d.nodes.length := by
          rw [c.length_nodes, d.length_nodes, hshape]
        have hfirst := List.forall₂_take c.nodes.length hall
        have hrest := List.forall₂_drop c.nodes.length hall
        rw [List.take_left, hlength, List.take_left] at hfirst
        rw [List.drop_left, hlength, List.drop_left] at hrest
        exact ⟨⟨hshape, hfirst⟩, hshapes, hrest⟩

/-- Values that are identical one by one are equal. -/
theorem Value.forall₂_identical_iff {vs ws : List Value} :
    List.Forall₂ (fun v w => v.identical w = true) vs ws ↔ vs = ws := by
  simp only [Value.identical_iff]
  exact List.forall₂_eq_eq_eq ▸ Iff.rfl

/-! ### Trees -/

/-- What a node says by itself: the name of its kind, its values, its notes, and the shapes of
    its child slots. -/
structure Label where
  kind : String
  values : List Value
  notes : Notes
  shapes : List Shape
deriving DecidableEq, Repr

/-- A label, and the trees in the child slots in order. -/
inductive Tree
  | node (label : Label) (children : List Tree)

namespace Tree

/-- Induction over a tree: a property that a tree has whenever the trees right below it have it
    is a property of all trees. -/
@[elab_as_elim, induction_eliminator]
theorem induct {P : Tree → Prop} (node : ∀ l ts, (∀ t ∈ ts, P t) → P (.node l ts)) (t : Tree) :
    P t :=
  match t with
  | .node l ts => node l ts fun u hu =>
    have : sizeOf u < 1 + sizeOf l + sizeOf ts := by
      have := List.sizeOf_lt_of_mem hu
      omega
    induct node u

mutual

/-- The number of nodes. -/
def size : Tree → Nat
  | node _ ts => 1 + sizeAll ts

/-- The number of nodes of several trees. -/
def sizeAll : List Tree → Nat
  | [] => 0
  | t :: ts => t.size + sizeAll ts

end

/-- Sizes add up. -/
theorem sizeAll_append (ts us : List Tree) : sizeAll (ts ++ us) = sizeAll ts + sizeAll us := by
  induction ts with
  | nil => rw [List.nil_append, sizeAll, Nat.zero_add]
  | cons t ts ih => rw [List.cons_append, sizeAll, sizeAll, ih, Nat.add_assoc]

mutual

/-- The number of nodes on the longest way down. -/
def height : Tree → Nat
  | node _ ts => 1 + heightAll ts

/-- The greatest height of several trees. -/
def heightAll : List Tree → Nat
  | [] => 0
  | t :: ts => max t.height (heightAll ts)

end

/-- Trees are within a height if each of them is. -/
theorem heightAll_le_iff {ts : List Tree} {n : Nat} :
    heightAll ts ≤ n ↔ ∀ t ∈ ts, t.height ≤ n := by
  induction ts with
  | nil => simp [heightAll]
  | cons t ts ih => rw [heightAll, Nat.max_le, ih, List.forall_mem_cons]

/-- A tree is one level higher than its highest child. -/
theorem height_le_succ_iff {l : Label} {ts : List Tree} {n : Nat} :
    (node l ts).height ≤ n + 1 ↔ ∀ t ∈ ts, t.height ≤ n := by
  rw [height, ← heightAll_le_iff]
  omega

/-- A child is lower than the tree. -/
theorem height_lt_of_mem {l : Label} {ts : List Tree} {t : Tree} (ht : t ∈ ts) :
    t.height < (node l ts).height := by
  have hle := heightAll_le_iff.mp (Nat.le_refl (heightAll ts)) t ht
  rw [height]
  omega

theorem height_pos (t : Tree) : 0 < t.height := by
  induction t with
  | node l ts _ =>
    rw [height]
    omega

mutual

/-- Every label in a tree has a property. -/
def All (P : Label → Prop) : Tree → Prop
  | node l ts => P l ∧ AllIn P ts

/-- Every label in several trees has a property. -/
def AllIn (P : Label → Prop) : List Tree → Prop
  | [] => True
  | t :: ts => t.All P ∧ AllIn P ts

end

/-- What is so for trees is so for each of them. -/
theorem allIn_iff {P : Label → Prop} {ts : List Tree} : AllIn P ts ↔ ∀ t ∈ ts, t.All P := by
  induction ts with
  | nil => simp [AllIn]
  | cons t ts ih => rw [AllIn, ih, List.forall_mem_cons]

/-- What is so for all labels of a tree is so for its root and for its children. -/
theorem all_node_iff {P : Label → Prop} {l : Label} {ts : List Tree} :
    (node l ts).All P ↔ P l ∧ ∀ t ∈ ts, t.All P := by
  rw [All, allIn_iff]

end Tree

end TypedForest
