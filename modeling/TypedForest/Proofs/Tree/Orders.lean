import TypedForest.Proofs.Tree.Unfolding
import TypedForest.Store.Traversal

namespace TypedForest

/-!
# The orders of a traversal

A traversal is a sequence of steps on a frontier.  On a tree that ends it visits the nodes in the
order that a recursion lists them in: a node before or after everything below it, or level by
level.

* `Store.preorder`, `Store.postorder`, `Store.levels` : the recursions, through a bounded number
  of nodes below each other;
* `Store.Visits` : the nodes that a traversal visits until nothing is left;
* `Store.visits_frontier` : it visits the nodes of these lists, and the first of them
  (`Store.traverse_eq_take`) if it is stopped before;
* `Store.inOrder_perm` : the lists differ in their order alone.

For each form of frontier one lemma says what is still to be visited, for every frontier that can
come up: a stack of nodes, a stack on which the children of some nodes are done, and a queue in
which the rest of one level stands before the beginning of the next.
-/

/-- Whether nothing is left to visit. -/
def Frontier.isEmpty : Frontier → Bool
  | pre todo => todo.isEmpty
  | post todo => todo.isEmpty
  | level front back => front.isEmpty && back.isEmpty

namespace Store

theorem child_iff_mem_childrenOf {s : Store} {p c : Handle} :
    s.Child p c ↔ c ∈ s.childrenOf p := by
  unfold Child childrenOf
  cases s.node? p with
  | none => simp
  | some n => simp

/-- The children have one level less. -/
theorem HeightLe.of_mem_childrenOf {s : Store} {n : Nat} {h : Handle} (hh : s.HeightLe (n + 1) h)
    {c : Handle} (hc : c ∈ s.childrenOf h) : s.HeightLe n c := by
  obtain ⟨m, hm, hchildren⟩ := heightLe_succ_iff.mp hh
  rw [childrenOf, hm] at hc
  exact hchildren c hc

/-- So they are within the height of their parent. -/
theorem HeightLe.childrenOf {s : Store} {n : Nat} {h : Handle} (hh : s.HeightLe n h) :
    ∀ c ∈ s.childrenOf h, s.HeightLe n c := by
  intro c hc
  obtain ⟨m, hm, hchildren⟩ := heightLe_succ_iff.mp (hh.mono (Nat.le_succ n))
  rw [Store.childrenOf, hm] at hc
  exact hchildren c hc

theorem HeightLe.exists_eq_succ {s : Store} {n : Nat} {h : Handle} (hh : s.HeightLe n h) :
    ∃ k, n = k + 1 := by
  cases n with
  | zero => exact absurd hh (s.not_heightLe_zero h)
  | succ k => exact ⟨k, rfl⟩

/-! ### Recursive orders -/

/-- Lists what is under a node by `join`ing the node with the lists of its children, through at
    most `n` nodes below each other. -/
def collect (s : Store) (join : Handle → List Handle → List Handle) :
    (n : Nat) → Handle → List Handle
  | 0, _ => []
  | n + 1, h => join h ((s.childrenOf h).flatMap (collect s join n))

/-- The nodes under a node, each before those below it. -/
def preorder (s : Store) : (n : Nat) → Handle → List Handle :=
  s.collect fun h below => h :: below

/-- The nodes under a node, each after those below it. -/
def postorder (s : Store) : (n : Nat) → Handle → List Handle :=
  s.collect fun h below => below ++ [h]

/-- The given nodes, then their children in order, and so on through `n` levels. -/
def levels (s : Store) : (n : Nat) → List Handle → List Handle
  | 0, _ => []
  | n + 1, hs => hs ++ levels s n (hs.flatMap s.childrenOf)

/-- The nodes under a node in an order, through at most `n` nodes below each other. -/
def inOrder (s : Store) (order : Order) (n : Nat) (h : Handle) : List Handle :=
  match order with
  | .pre => s.preorder n h
  | .post => s.postorder n h
  | .level => s.levels n [h]

section

variable {s : Store} {join : Handle → List Handle → List Handle}

/-- A bound that is high enough may be higher. -/
theorem collect_eq_of_le {m n : Nat} {h : Handle} (hh : s.HeightLe m h) (hmn : m ≤ n) :
    s.collect join n h = s.collect join m h := by
  induction m generalizing n h with
  | zero => exact absurd hh (s.not_heightLe_zero h)
  | succ m ih =>
    obtain ⟨k, rfl⟩ : ∃ k, n = k + 1 := ⟨n - 1, by omega⟩
    rw [collect, collect]
    congr 1
    refine List.flatMap_congr fun c hc => ?_
    exact ih (hh.of_mem_childrenOf hc) (by omega)

/-- If the bound is high enough, the lists of the children are complete too. -/
theorem collect_eq {n : Nat} {h : Handle} (hh : s.HeightLe n h) :
    s.collect join n h = join h ((s.childrenOf h).flatMap (s.collect join n)) := by
  obtain ⟨k, rfl⟩ := hh.exists_eq_succ
  rw [collect]
  congr 1
  refine List.flatMap_congr fun c hc => ?_
  exact (collect_eq_of_le (hh.of_mem_childrenOf hc) (Nat.le_succ k)).symm

end

/-- In preorder a node comes before what is below it. -/
theorem preorder_eq {s : Store} {n : Nat} {h : Handle} (hh : s.HeightLe n h) :
    s.preorder n h = h :: (s.childrenOf h).flatMap (s.preorder n) := collect_eq hh

/-- In postorder it comes after that. -/
theorem postorder_eq {s : Store} {n : Nat} {h : Handle} (hh : s.HeightLe n h) :
    s.postorder n h = (s.childrenOf h).flatMap (s.postorder n) ++ [h] := collect_eq hh

/-- There is no level below nothing. -/
theorem levels_nil (s : Store) (n : Nat) : s.levels n [] = [] := by
  induction n with
  | zero => rfl
  | succ n ih =>
    rw [levels, List.flatMap_nil, ih]
    rfl

/-- Postorder visits the same nodes as preorder. -/
theorem postorder_perm (s : Store) (n : Nat) (h : Handle) :
    (s.postorder n h).Perm (s.preorder n h) := by
  induction n generalizing h with
  | zero => exact .refl _
  | succ n ih =>
    show (((s.childrenOf h).flatMap (s.postorder n)) ++ [h]).Perm
      (h :: (s.childrenOf h).flatMap (s.preorder n))
    refine (List.perm_append_singleton _ _).trans (.cons h ?_)
    exact List.Perm.flatMap_left _ fun c _ => ih c

/-- So does going level by level. -/
theorem levels_perm (s : Store) (n : Nat) (hs : List Handle) :
    (s.levels n hs).Perm (hs.flatMap (s.preorder n)) := by
  induction n generalizing hs with
  | zero =>
    have hnil : hs.flatMap (s.preorder 0) = [] := List.flatMap_eq_nil_iff.mpr fun _ _ => rfl
    rw [hnil]
    exact .refl _
  | succ n ih =>
    have hsplit : (hs ++ (hs.flatMap s.childrenOf).flatMap (s.preorder n)).Perm
        (hs.flatMap (s.preorder (n + 1))) := by
      have happend := List.flatMap_append_perm hs (fun h => [h])
        fun h => (s.childrenOf h).flatMap (s.preorder n)
      rw [List.flatMap_assoc]
      rw [List.flatMap_singleton'] at happend
      exact happend
    exact ((ih _).append_left hs).trans hsplit

/-- The three orders list the same nodes, each as often. -/
theorem inOrder_perm (s : Store) (order : Order) (n : Nat) (h : Handle) :
    (s.inOrder order n h).Perm (s.preorder n h) := by
  cases order with
  | pre => exact .refl _
  | post => exact s.postorder_perm n h
  | level => simpa [inOrder] using s.levels_perm n [h]

/-- The nodes under a node are those that can be reached from it. -/
theorem mem_preorder_iff {s : Store} {n : Nat} {h x : Handle} (hh : s.HeightLe n h) :
    x ∈ s.preorder n h ↔ s.Reaches h x := by
  induction n generalizing h with
  | zero => exact absurd hh (s.not_heightLe_zero h)
  | succ n ih =>
    show x ∈ h :: (s.childrenOf h).flatMap (s.preorder n) ↔ Relation.ReflTransGen s.Child h x
    rw [Relation.ReflTransGen.cases_head_iff, List.mem_cons, List.mem_flatMap, eq_comm]
    refine or_congr Iff.rfl (exists_congr fun c => ?_)
    rw [child_iff_mem_childrenOf]
    exact and_congr_right fun hc => ih (hh.of_mem_childrenOf hc)

/-! ### Traversals that end -/

/-- From a frontier on, a traversal visits these nodes one after the other, and then nothing is
    left to visit. -/
inductive Visits (s : Store) : Frontier → List Handle → Prop
  | done {f : Frontier} (hf : f.isEmpty = true) : Visits s f []
  | step {f g : Frontier} {h : Handle} {l : List Handle} (hnext : s.next? f = some (h, g))
      (hrest : Visits s g l) : Visits s f (h :: l)

/-- With nothing to do there is no next node. -/
theorem next?_of_isEmpty (s : Store) {f : Frontier} (hf : f.isEmpty = true) :
    s.next? f = none := by
  match f with
  | .pre [] => rfl
  | .post [] => rfl
  | .level [] [] => rfl

/-- The first nodes of a traversal that ends are the first of those that it visits. -/
theorem Visits.visit_eq {s : Store} {f : Frontier} {l : List Handle} (h : s.Visits f l)
    (limit : Nat) (visited : Array Handle) :
    (s.visit limit f visited).toList = visited.toList ++ l.take limit := by
  induction h generalizing limit visited with
  | done hf => cases limit <;> simp [visit, next?_of_isEmpty s hf]
  | step hnext _ ih => cases limit <;> simp [visit, hnext, ih]

/-! ### Nodes before their children -/

/-- The nodes that wait are visited in preorder, one tree after the other. -/
theorem visits_pre {s : Store} {n : Nat} {todo : List Handle}
    (htodo : ∀ h ∈ todo, s.HeightLe n h) :
    s.Visits (.pre todo) (todo.flatMap (s.preorder n)) := by
  -- by induction on what is still to be visited, which gets shorter with each node
  generalize hl : todo.flatMap (s.preorder n) = l
  induction l generalizing todo with
  | nil =>
    cases todo with
    | nil => exact .done rfl
    | cons h rest =>
      rw [List.flatMap_cons, preorder_eq (htodo h List.mem_cons_self)] at hl
      cases hl
  | cons x l ih =>
    cases todo with
    | nil => cases hl
    | cons h rest =>
      obtain ⟨hh, hrest⟩ := List.forall_mem_cons.mp htodo
      rw [List.flatMap_cons, preorder_eq hh, List.cons_append, ← List.flatMap_append] at hl
      obtain ⟨rfl, htail⟩ := List.cons.inj hl
      exact .step rfl (ih (List.forall_mem_append.mpr ⟨hh.childrenOf, hrest⟩) htail)

/-! ### Nodes after their children -/

/-- What is visited for an entry of the stack: the node alone if its children are done. -/
def unwind (s : Store) (n : Nat) (entry : Handle × Bool) : List Handle :=
  if entry.2 then [entry.1] else s.postorder n entry.1

/-- Each entry that waits gives a node. -/
theorem unwind_ne_nil {s : Store} {n : Nat} {entry : Handle × Bool}
    (h : entry.2 = false → s.HeightLe n entry.1) : s.unwind n entry ≠ [] := by
  unfold unwind
  split
  · exact List.cons_ne_nil _ _
  · next hfalse =>
    rw [postorder_eq (h (Bool.eq_false_iff.mpr hfalse))]
    exact List.append_ne_nil_of_right_ne_nil _ (List.cons_ne_nil _ _)

/-- The descent from a node on top of the stack finds the first node to be visited. -/
theorem descend_eq_some {s : Store} {n k fuel : Nat} (hk : k ≤ n) (hfuel : k < fuel)
    {h : Handle} (hh : s.HeightLe k h) {rest : List (Handle × Bool)}
    (hrest : ∀ e ∈ rest, e.2 = false → s.HeightLe n e.1) :
    ∃ x left, s.descend fuel ((h, false) :: rest) = some (x, left) ∧
      ((h, false) :: rest).flatMap (s.unwind n) = x :: left.flatMap (s.unwind n) ∧
      ∀ e ∈ left, e.2 = false → s.HeightLe n e.1 := by
  induction k generalizing fuel h rest with
  | zero => exact absurd hh (s.not_heightLe_zero h)
  | succ k ih =>
    obtain ⟨fuel, rfl⟩ : ∃ m, fuel = m + 1 := ⟨fuel - 1, by omega⟩
    -- an entry unwinds into its children and then itself
    have hexpand : ((h, false) :: rest).flatMap (s.unwind n)
        = ((s.childrenOf h).map (·, false) ++ (h, true) :: rest).flatMap (s.unwind n) := by
      simp [unwind, postorder_eq (hh.mono hk), List.flatMap_map]
    rw [hexpand, descend]
    cases hc : s.childrenOf h with
    | nil =>
      obtain ⟨fuel, rfl⟩ : ∃ m, fuel = m + 1 := ⟨fuel - 1, by omega⟩
      exact ⟨h, rest, by simp [descend], by simp [unwind], hrest⟩
    | cons c cs =>
      have hbelow : ∀ d ∈ c :: cs, s.HeightLe k d := by
        intro d hd
        exact hh.of_mem_childrenOf (hc ▸ hd)
      have hlater : ∀ e ∈ cs.map (·, false) ++ (h, true) :: rest, e.2 = false →
          s.HeightLe n e.1 := by
        intro e he hfalse
        simp only [List.mem_append, List.mem_map, List.mem_cons] at he
        rcases he with ⟨d, hd, rfl⟩ | rfl | he
        · exact (hbelow d (List.mem_cons_of_mem c hd)).mono (by omega)
        · cases hfalse
        · exact hrest e he hfalse
      exact ih (by omega) (by omega) (hbelow c List.mem_cons_self) hlater

/-- The next step goes to the first node to be visited. -/
theorem next?_post {s : Store} {n : Nat} (hn : n ≤ s.entries.size)
    {entry : Handle × Bool} {rest : List (Handle × Bool)}
    (htodo : ∀ e ∈ entry :: rest, e.2 = false → s.HeightLe n e.1) :
    ∃ x left, s.next? (.post (entry :: rest)) = some (x, .post left) ∧
      (entry :: rest).flatMap (s.unwind n) = x :: left.flatMap (s.unwind n) ∧
      ∀ e ∈ left, e.2 = false → s.HeightLe n e.1 := by
  obtain ⟨hentry, hrest⟩ := List.forall_mem_cons.mp htodo
  obtain ⟨h, expanded⟩ := entry
  cases expanded with
  | true => exact ⟨h, rest, rfl, by simp [unwind], hrest⟩
  | false =>
    obtain ⟨x, left, hdescend, hlist, hleft⟩ :=
      descend_eq_some (Nat.le_refl n) (show n < s.entries.size + 2 by omega) (hentry rfl) hrest
    exact ⟨x, left, by rw [next?, hdescend, Option.map_some], hlist, hleft⟩

/-- The entries that wait are unwound one after the other. -/
theorem visits_post {s : Store} {n : Nat} (hn : n ≤ s.entries.size)
    {todo : List (Handle × Bool)} (htodo : ∀ e ∈ todo, e.2 = false → s.HeightLe n e.1) :
    s.Visits (.post todo) (todo.flatMap (s.unwind n)) := by
  generalize hl : todo.flatMap (s.unwind n) = l
  induction l generalizing todo with
  | nil =>
    cases todo with
    | nil => exact .done rfl
    | cons entry rest =>
      have hnil := List.flatMap_eq_nil_iff.mp hl entry List.mem_cons_self
      exact absurd hnil (unwind_ne_nil (htodo entry List.mem_cons_self))
  | cons x l ih =>
    cases todo with
    | nil => cases hl
    | cons entry rest =>
      obtain ⟨y, left, hnext, hlist, hleft⟩ := next?_post hn htodo
      rw [hlist] at hl
      obtain ⟨rfl, htail⟩ := List.cons.inj hl
      exact .step hnext (ih hleft htail)

/-! ### Level by level -/

/-- The next node of a queue goes, and its children come in behind. -/
theorem next?_level {s : Store} {front back rest : List Handle} {h : Handle}
    (hqueue : front ++ back.reverse = h :: rest) :
    ∃ front' back', s.next? (.level front back) = some (h, .level front' back') ∧
      front' ++ back'.reverse = rest ++ s.childrenOf h := by
  cases front with
  | nil =>
    rw [List.nil_append] at hqueue
    exact ⟨rest, (s.childrenOf h).reverse, by rw [next?, hqueue], by rw [List.reverse_reverse]⟩
  | cons x front =>
    obtain ⟨rfl, rfl⟩ := List.cons.inj hqueue
    exact ⟨front, (s.childrenOf x).reverse ++ back, rfl, by simp⟩

/-- The queue holds the rest of a level, and the children so far for the `next` one. -/
theorem visits_level {s : Store} {n : Nat} {front back level next : List Handle}
    (hqueue : front ++ back.reverse = level ++ next) (hlevel : ∀ h ∈ level, s.HeightLe (n + 1) h)
    (hnext : ∀ h ∈ next, s.HeightLe n h) :
    s.Visits (.level front back) (level ++ s.levels n (next ++ level.flatMap s.childrenOf)) := by
  generalize hl : level ++ s.levels n (next ++ level.flatMap s.childrenOf) = l
  induction l generalizing n front back level next with
  | nil =>
    -- nothing is left of this level, nor of the next one
    obtain ⟨rfl, hlater⟩ := List.append_eq_nil_iff.mp hl
    cases next with
    | nil =>
      obtain ⟨rfl, hback⟩ := List.append_eq_nil_iff.mp hqueue
      exact .done (by simpa [Frontier.isEmpty] using hback)
    | cons h next =>
      obtain ⟨k, rfl⟩ := (hnext h List.mem_cons_self).exists_eq_succ
      simp [levels] at hlater
  | cons x l ih =>
    match level, next with
    | [], [] => simp [levels_nil] at hl
    | h :: level, next =>
      obtain ⟨hh, hlevel⟩ := List.forall_mem_cons.mp hlevel
      rw [List.cons_append] at hqueue hl
      obtain ⟨rfl, htail⟩ := List.cons.inj hl
      obtain ⟨front', back', hstep, hqueue'⟩ := next?_level (s := s) hqueue
      rw [List.append_assoc] at hqueue'
      have hbehind : ∀ c ∈ next ++ s.childrenOf h, s.HeightLe n c :=
        List.forall_mem_append.mpr ⟨hnext, fun c => hh.of_mem_childrenOf⟩
      refine .step hstep (ih hqueue' hlevel hbehind ?_)
      rw [← htail, List.flatMap_cons, List.append_assoc]
    | [], h :: next =>
      -- the next level begins
      obtain ⟨hh, hnext⟩ := List.forall_mem_cons.mp hnext
      obtain ⟨k, rfl⟩ := hh.exists_eq_succ
      rw [List.flatMap_nil, List.append_nil, List.nil_append, levels, List.cons_append] at hl
      obtain ⟨rfl, htail⟩ := List.cons.inj hl
      obtain ⟨front', back', hstep, hqueue'⟩ := next?_level (s := s) hqueue
      refine .step hstep (ih hqueue' hnext (fun c => hh.of_mem_childrenOf) ?_)
      rw [← htail, List.flatMap_cons]

/-! ### Whole traversals -/

/-- A traversal of a tree that ends visits what the recursion for its order lists. -/
theorem visits_frontier {s : Store} {n : Nat} {h : Handle} (hh : s.HeightLe n h) (order : Order) :
    s.Visits (s.frontier order h) (s.inOrder order n h) := by
  obtain ⟨t, ht, hheight⟩ := id hh
  have hall : ∀ x ∈ [h], s.HeightLe n x := List.forall_mem_singleton.mpr hh
  unfold frontier
  rw [if_pos ht.isAlive]
  cases order with
  | pre => simpa [inOrder] using visits_pre hall
  | post =>
    have htodo : ∀ e ∈ [(h, false)], e.2 = false → s.HeightLe t.height e.1 := by
      simpa using ⟨t, ht, Nat.le_refl _⟩
    have hvisits := visits_post ht.height_le htodo
    simpa [inOrder, unwind, postorder,
      collect_eq_of_le ⟨t, ht, Nat.le_refl t.height⟩ hheight] using hvisits
  | level =>
    -- no level has begun, and the root is the next one
    have hqueue : [h] ++ ([] : List Handle).reverse = [] ++ [h] := rfl
    simpa [inOrder] using visits_level hqueue (by simp) hall

/-- **Traversals follow the recursions.**  A traversal of a tree that ends visits the first nodes
    of the list that the recursion for its order gives. -/
theorem traverse_eq_take {s : Store} {n : Nat} {h : Handle} (hh : s.HeightLe n h) (order : Order)
    (limit : Nat) : s.traverse order h limit = (s.inOrder order n h).take limit := by
  rw [traverse, (visits_frontier hh order).visit_eq limit #[]]
  rfl

end Store

end TypedForest
