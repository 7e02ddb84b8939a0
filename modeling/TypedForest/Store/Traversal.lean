import TypedForest.Store.Basic

namespace TypedForest

/-!
# Walking a tree

A traversal visits a node and everything below it, in one of three orders.  It is a
sequence of steps on a frontier, each of which visits one node, so that the first
nodes of a tree without end can be visited too.  A node with several parents is
visited once for each way that leads to it.
-/

/-- The order in which nodes are visited. -/
inductive Order
  /-- A node before its children. -/
  | pre
  /-- A node after its children. -/
  | post
  /-- Nodes nearer to the start first. -/
  | level
deriving DecidableEq, Repr

/-- What a traversal has still to visit. -/
inductive Frontier
  /-- Nodes to visit with everything below them, the next one first. -/
  | pre (todo : List Handle)
  /-- Nodes to visit, the next one first, each with whether its children are done. -/
  | post (todo : List (Handle × Bool))
  /-- A queue of nodes: the next ones in order, and the last ones in reverse. -/
  | level (front back : List Handle)
deriving DecidableEq, Repr

namespace Store

/-- The children of a node; a stale handle has none. -/
def childrenOf (s : Store) (h : Handle) : List Handle :=
  (s.node? h).elim [] Node.childNodes

/-- What a traversal from a node visits at first: nothing if the node is not alive. -/
def frontier (s : Store) (order : Order) (root : Handle) : Frontier :=
  let start := if s.isAlive root then [root] else []
  match order with
  | .pre => .pre start
  | .post => .post (start.map (·, false))
  | .level => .level start []

/-- Descends to the next node whose children are done, through at most `n` nodes. -/
def descend (s : Store) :
    (n : Nat) → List (Handle × Bool) → Option (Handle × List (Handle × Bool))
  | 0, _ => none
  | _ + 1, [] => none
  | _ + 1, (h, true) :: rest => some (h, rest)
  | n + 1, (h, false) :: rest =>
    descend s n ((s.childrenOf h).map (·, false) ++ (h, true) :: rest)

/-- The next node and what is left after it.  A descent through more nodes than there
    are places has come back to a node and never reaches one whose children are done;
    it ends the traversal. -/
def next? (s : Store) : Frontier → Option (Handle × Frontier)
  | .pre [] => none
  | .pre (h :: rest) => some (h, .pre (s.childrenOf h ++ rest))
  | .post todo => (s.descend (s.entries.size + 2) todo).map fun (h, rest) => (h, .post rest)
  | .level [] back =>
    match back.reverse with
    | [] => none
    | h :: rest => some (h, .level rest (s.childrenOf h).reverse)
  | .level (h :: rest) back => some (h, .level rest ((s.childrenOf h).reverse ++ back))

/-- The first `limit` nodes of a frontier, after those in `visited`. -/
def visit (s : Store) : (limit : Nat) → Frontier → (visited : Array Handle) → Array Handle
  | 0, _, visited => visited
  | limit + 1, f, visited =>
    match s.next? f with
    | none => visited
    | some (h, f) => visit s limit f (visited.push h)

/-- The first `limit` nodes that a traversal from `root` visits. -/
def traverse (s : Store) (order : Order) (root : Handle) (limit : Nat) : List Handle :=
  (s.visit limit (s.frontier order root) #[]).toList

end Store

end TypedForest
