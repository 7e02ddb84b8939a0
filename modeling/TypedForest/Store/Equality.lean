import TypedForest.Store.Basic

namespace TypedForest

/-!
# Equality of trees

Two trees, possibly in different stores, are equal when their roots have the same
kind and the same values and their child slots hold equal trees in the same shape.
Notes and parents do not count, nor does how often a node is shared.

The comparison works through a list of pairs of nodes, the last found first.  Each
pair comes with the length that a way below it may still have; a way through more
pairs than there are pairs of places has come back to a pair, and the comparison
would never end.
-/

/-- How kinds are compared: by their place, when both stores have the same schema, or
    by their name. -/
inductive KindMatch
  | byPlace
  | byName
deriving DecidableEq, Repr

namespace Equality

/-- Whether two kinds are the same. -/
def sameKind (how : KindMatch) (s t : Store) (a b : KindId) : Bool :=
  match how with
  | .byPlace => decide (a = b)
  | .byName => s.schema.kindName a == t.schema.kindName b

/-- The pairs of nodes in two rows of child slots, if the slots agree in shape. -/
def pairs : List Content → List Content → Option (List (Handle × Handle))
  | [], [] => some []
  | .one none :: cs, .one none :: ds => pairs cs ds
  | .one (some a) :: cs, .one (some b) :: ds => (pairs cs ds).map ((a, b) :: ·)
  | .many as :: cs, .many bs :: ds =>
    if as.length = bs.length then (pairs cs ds).map (as.zip bs ++ ·) else none
  | _, _ => none

/-- The pairs below a pair of nodes; `none` if the two nodes differ by themselves or one
    is not alive. -/
def below (how : KindMatch) (s t : Store) (p : Handle × Handle) :
    Option (List (Handle × Handle)) :=
  match s.node? p.1, t.node? p.2 with
  | some a, some b =>
    if sameKind how s t a.kind b.kind && decide (a.values = b.values) then
      pairs a.children b.children
    else none
  | _, _ => none

/-- All that may come up below `p` within `n` steps, `p` itself first. -/
def upcoming {α : Type} (next : α → Option (List α)) : Nat → α → List α
  | 0, p => [p]
  | n + 1, p => p :: ((next p).getD []).flatMap (upcoming next n)

/-- Whether no pair differs, among those listed and all pairs below them; `none` if a way
    is longer than it may be. -/
def agree {α : Type} (next : α → Option (List α)) (todo : List (Nat × α)) : Option Bool :=
  match todo with
  | [] => some true
  | (0, _) :: _ => none
  | (n + 1, p) :: rest =>
    match _h : next p with
    | none => some false
    | some ps => agree next (ps.reverse.map (n, ·) ++ rest)
termination_by (todo.flatMap fun e => upcoming next e.1 e.2).length
decreasing_by
  simp only [List.flatMap_append, List.flatMap_cons, upcoming, _h, Option.getD_some,
    List.length_append, List.length_cons, List.length_flatMap, List.map_reverse, List.sum_reverse,
    List.map_map, Function.comp_def]
  omega

end Equality

namespace Store

/-- Whether the tree under `a` in `s` equals the tree under `b` in `t`; `none` if both
    never end and no difference is found. -/
def equalTrees (how : KindMatch) (s : Store) (a : Handle) (t : Store) (b : Handle) :
    Option Bool :=
  Equality.agree (Equality.below how s t) [(s.entries.size * t.entries.size + 1, (a, b))]

end Store

end TypedForest
