import TypedForest.Notes

namespace TypedForest

/-!
# Snapshots

A snapshot is a tree on its own, without a store: every node with the names of its kind
and of its slots.  Slots may be missing or repeated, since a snapshot can also come from
a text.
-/

mutual

/-- A node and everything below it. -/
inductive Snapshot
  | mk (kind : String) (values : List (String × Value))
      (children : List (String × Snapshot.Child)) (notes : Notes)

/-- What a child slot holds. -/
inductive Snapshot.Child
  | absent
  | node (t : Snapshot)
  | list (items : List Snapshot)

end

namespace Snapshot

instance : Inhabited Snapshot := ⟨.mk "" [] [] Notes.empty⟩

/-! ### Numeric equality -/

/-- Whether two rows of named values are equal when floating-point numbers are compared
    as numbers. -/
def numEqEntries : List (String × Value) → List (String × Value) → Bool
  | [], [] => true
  | (k, v) :: es, (l, w) :: fs => k == l && v.numEq w && numEqEntries es fs
  | _, _ => false

mutual

/-- Whether two snapshots are equal when floating-point numbers are compared as
    numbers. -/
def numEq : Snapshot → Snapshot → Bool
  | .mk kind values children notes, .mk kind' values' children' notes' =>
    kind == kind' && numEqEntries values values' && numEqChildren children children'
      && numEqEntries notes.entries notes'.entries

/-- `numEq` slot by slot. -/
def numEqChildren : List (String × Child) → List (String × Child) → Bool
  | [], [] => true
  | (k, c) :: cs, (l, d) :: ds => k == l && numEqChild c d && numEqChildren cs ds
  | _, _ => false

/-- `numEq` for one slot. -/
def numEqChild : Child → Child → Bool
  | .absent, .absent => true
  | .node t, .node u => numEq t u
  | .list ts, .list us => numEqAll ts us
  | _, _ => false

/-- `numEq` item by item. -/
def numEqAll : List Snapshot → List Snapshot → Bool
  | [], [] => true
  | t :: ts, u :: us => numEq t u && numEqAll ts us
  | _, _ => false

end

end Snapshot

end TypedForest
