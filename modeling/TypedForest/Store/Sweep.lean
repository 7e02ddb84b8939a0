import TypedForest.Store.Error

namespace TypedForest

/-!
# Reclaiming nodes

`Store.sweep` keeps the nodes that can be reached from given roots through child
slots and frees all others.  It marks first (`Store.mark`) and then frees every
place without a mark.

Marking ends on every store, also on one whose links form cycles: each step marks
one more place or takes a handle off the list of those still to visit.
-/

namespace Store

/-- Whether the place `i` is marked. -/
def isMarked (marks : Array Bool) (i : Nat) : Bool := marks[i]?.getD false

/-- Setting an unset mark leaves fewer marks unset. -/
theorem count_false_setIfInBounds_lt {marks : Array Bool} {i : Nat}
    (h : marks[i]? = some false) :
    (marks.setIfInBounds i true).count false < marks.count false := by
  obtain ⟨hi, hget⟩ := Array.getElem?_eq_some_iff.mp h
  have hpos : 0 < marks.count false :=
    Array.count_pos_iff.mpr (hget ▸ Array.getElem_mem hi)
  rw [Array.setIfInBounds_def, dif_pos hi, Array.count_set, hget]
  show marks.count false - 1 + 0 < marks.count false
  omega

/-- Marks what can be reached from the handles in `todo`. -/
def mark (s : Store) (todo : List Handle) (marks : Array Bool) : Array Bool :=
  match todo with
  | [] => marks
  | h :: rest =>
    match s.node? h with
    | none => mark s rest marks
    | some n =>
      if _hm : marks[h.index]? = some false then
        mark s (n.childNodes ++ rest) (marks.setIfInBounds h.index true)
      else mark s rest marks
termination_by (marks.count false, todo.length)
decreasing_by
  · exact Prod.Lex.right _ (by simp)
  · exact Prod.Lex.left _ _ (count_false_setIfInBounds_lt _hm)
  · exact Prod.Lex.right _ (by simp)

/-- The marks of all places that can be reached from `roots`. -/
def reachable (s : Store) (roots : List Handle) : Array Bool :=
  s.mark roots (Array.replicate s.entries.size false)

/-- Refuses the first handle that is not alive. -/
def checkAlive (s : Store) : List Handle → Except NodeError Unit
  | [] => .ok ()
  | h :: hs => if s.isAlive h then checkAlive s hs else .error (.staleNode h)

/-- The places that hold a node and have no mark, in ascending order. -/
def garbage (s : Store) (marks : Array Bool) : List Nat :=
  (List.range s.entries.size).filter fun i =>
    (s.entries[i]?.bind Entry.node).isSome && !isMarked marks i

/-- An entry after the sweep: a marked node stays, without its parent if that one is
    not marked; a node without mark goes, and the generation of its place moves on. -/
def sweptEntry (s : Store) (marks : Array Bool) (i : Nat) (e : Entry) : Entry :=
  match e.node with
  | none => e
  | some n =>
    if isMarked marks i then
      { e with node := some { n with
          parent := n.parent.filter fun p => s.isAlive p && isMarked marks p.index } }
    else ⟨e.generation + 1, none⟩

/-- Frees every node that cannot be reached from `roots`, and returns how many there
    were.  Of the freed places the last is the first to be used again. -/
def sweep (roots : List Handle) : Edit Nat := fun s =>
  match s.checkAlive roots with
  | .error e => .error e s
  | .ok () =>
    let marks := s.reachable roots
    let freed := s.garbage marks
    .ok freed.length
      { s with
        entries := s.entries.mapIdx (s.sweptEntry marks)
        free := freed.reverse ++ s.free
        live := s.live - freed.length }

end Store

end TypedForest
