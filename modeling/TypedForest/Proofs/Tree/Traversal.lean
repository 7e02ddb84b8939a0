import Mathlib.Data.Set.Card
import TypedForest.Proofs.Store.Descent
import TypedForest.Proofs.Tree.Orders

namespace TypedForest

/-!
# Traversals and the ways through a tree

What a traversal is to visit is said without a bound: `Store.Listed` is the recursion that joins a
node with the lists of its children, and a level consists of the children of the level before it
(`Store.level`).  A way down from a node says at each node at which place to go on
(`Store.follow`).

* `Store.Textbook` : the nodes under a node in the order of the recursion, or level by level;
* `Store.encard_follow_eq` : a node stands in such a list as often as ways lead to it;
* `Store.traverse_textbook` : all three traversals end, and visit the nodes of these lists.

A node with several parents is met on several ways, so the ways are counted together with their
ends (`Store.trails`): they are all different, and their ends are the nodes in order.
-/

namespace Store

/-! ### The orders without a bound -/

/-- `l` joins a node with the lists of its children, one after the other. -/
inductive Listed (s : Store) (join : Handle → List Handle → List Handle) :
    Handle → List Handle → Prop
  | node {h : Handle} {below : List (List Handle)}
      (hbelow : List.Forall₂ (Listed s join) (s.childrenOf h) below) :
      Listed s join h (join h below.flatten)

/-- The nodes that are `n` steps below a node, in order. -/
def level (s : Store) (root : Handle) : (n : Nat) → List Handle
  | 0 => [root]
  | n + 1 => (level s root n).flatMap s.childrenOf

/-- `l` lists the nodes under a node: each before those below it, each after them, or level by
    level until a level is empty. -/
def Textbook (s : Store) (order : Order) (root : Handle) (l : List Handle) : Prop :=
  match order with
  | .pre => s.Listed (fun h below => h :: below) root l
  | .post => s.Listed (fun h below => below ++ [h]) root l
  | .level => ∃ depth, s.level root depth = [] ∧ l = (List.range depth).flatMap (s.level root)

/-- What is collected is the list of the textbook. -/
theorem listed_collect {s : Store} (join : Handle → List Handle → List Handle) {n : Nat}
    {h : Handle} (hh : s.HeightLe n h) : s.Listed join h (s.collect join n h) := by
  induction n generalizing h with
  | zero => exact absurd hh (s.not_heightLe_zero h)
  | succ n ih =>
    rw [collect, List.flatMap_def]
    refine .node ?_
    rw [List.forall₂_map_right_iff, List.forall₂_same]
    exact fun c hc => ih (hh.of_mem_childrenOf hc)

/-- What is `k` steps below has at most the height that is left. -/
theorem heightLe_of_mem_level {s : Store} {n k : Nat} {root x : Handle}
    (hroot : s.HeightLe (n + k) root) (hx : x ∈ s.level root k) : s.HeightLe n x := by
  induction k generalizing n x with
  | zero =>
    rw [level, List.mem_singleton] at hx
    exact hx ▸ hroot
  | succ k ih =>
    obtain ⟨p, hp, hc⟩ := List.mem_flatMap.mp hx
    exact (ih (n := n + 1) (by rwa [Nat.add_right_comm]) hp).of_mem_childrenOf hc

/-- Below the height of the root there are no levels. -/
theorem level_eq_nil {s : Store} {n : Nat} {root : Handle} (hroot : s.HeightLe n root) :
    s.level root n = [] := by
  refine List.eq_nil_iff_forall_not_mem.mpr fun x hx => s.not_heightLe_zero x ?_
  exact heightLe_of_mem_level (by rwa [Nat.zero_add]) hx

/-- The levels from the `k`-th on, one after the other. -/
theorem levels_level (s : Store) (root : Handle) (n k : Nat) :
    s.levels n (s.level root k) = (List.range' k n).flatMap (s.level root) := by
  induction n generalizing k with
  | zero => rfl
  | succ n ih => rw [levels, List.range'_succ, List.flatMap_cons, ← ih (k + 1), level]

/-- The bounded recursions list what they should, if the bound is high enough. -/
theorem textbook_inOrder {s : Store} {n : Nat} {root : Handle} (hroot : s.HeightLe n root)
    (order : Order) : s.Textbook order root (s.inOrder order n root) := by
  cases order with
  | pre => exact listed_collect _ hroot
  | post => exact listed_collect _ hroot
  | level =>
    refine ⟨n, level_eq_nil hroot, ?_⟩
    rw [List.range_eq_range', ← levels_level]
    rfl

/-! ### Ways down -/

/-- Follows a way down from a node: it says at which place among the children to go on. -/
def follow (s : Store) : Handle → (way : List Nat) → Option Handle
  | h, [] => some h
  | h, i :: way => (s.childrenOf h)[i]?.bind fun c => follow s c way

/-- The ways down from a node through at most `n` nodes, each with the node that it leads to. -/
def trails (s : Store) : (n : Nat) → Handle → List (List Nat × Handle)
  | 0, _ => []
  | n + 1, h => ([], h) :: (s.childrenOf h).zipIdx.flatMap fun (c, i) =>
    (trails s n c).map fun (way, x) => (i :: way, x)

/-- The ends of the ways are the nodes, each before those below it. -/
theorem map_snd_trails (s : Store) (n : Nat) (h : Handle) :
    (s.trails n h).map Prod.snd = s.preorder n h := by
  induction n generalizing h with
  | zero => rfl
  | succ n ih =>
    have hends : ∀ ci : Handle × Nat,
        ((s.trails n ci.1).map fun (way, x) => (ci.2 :: way, x)).map Prod.snd
          = s.preorder n ci.1 := by
      intro ci
      rw [List.map_map, ← ih ci.1]
      rfl
    have hfst : ∀ l : List Handle, l.zipIdx.flatMap (fun ci => s.preorder n ci.1)
        = l.flatMap (s.preorder n) := by
      intro l
      rw [← List.flatMap_map, List.zipIdx_map_fst]
    show h :: List.map Prod.snd (List.flatMap _ _) = h :: (s.childrenOf h).flatMap (s.preorder n)
    rw [List.map_flatMap, ← hfst]
    simp only [hends]

/-- No way is met twice: those through different children begin with different places. -/
theorem nodup_map_fst_trails (s : Store) (n : Nat) (h : Handle) :
    ((s.trails n h).map Prod.fst).Nodup := by
  induction n generalizing h with
  | zero => exact List.nodup_nil
  | succ n ih =>
    have hways : ∀ ci : Handle × Nat,
        ((s.trails n ci.1).map fun (way, x) => (ci.2 :: way, x)).map Prod.fst
          = ((s.trails n ci.1).map Prod.fst).map (List.cons ci.2) := by
      intro ci
      rw [List.map_map, List.map_map]
      rfl
    show ([] :: List.map Prod.fst (List.flatMap _ _)).Nodup
    rw [List.map_flatMap]
    simp only [hways]
    refine List.nodup_cons.mpr ⟨by simp, List.nodup_flatMap.mpr ⟨fun ci _ => ?_, ?_⟩⟩
    · exact (ih ci.1).map List.cons_injective
    · -- ways into two children differ in their first step
      have hplaces : ((s.childrenOf h).zipIdx.map Prod.snd).Nodup := by
        rw [List.zipIdx_map_snd]
        exact List.nodup_range'
      refine (List.pairwise_map.mp hplaces).imp fun {a b} hab way ha hb => hab ?_
      obtain ⟨w, -, rfl⟩ := List.mem_map.mp ha
      obtain ⟨v, -, hv⟩ := List.mem_map.mp hb
      exact (List.cons.inj hv).1.symm

/-- The ways with their ends are those that can be followed, if the bound is high enough. -/
theorem mem_trails_iff {s : Store} {n : Nat} {h x : Handle} {way : List Nat}
    (hh : s.HeightLe n h) : (way, x) ∈ s.trails n h ↔ s.follow h way = some x := by
  induction n generalizing h way with
  | zero => exact absurd hh (s.not_heightLe_zero h)
  | succ n ih =>
    rw [trails, List.mem_cons, List.mem_flatMap]
    cases way with
    | nil => simp [follow, eq_comm]
    | cons i way =>
      simp only [follow, Option.bind_eq_some_iff, Prod.mk.injEq, reduceCtorEq, false_and,
        false_or, List.mem_map, List.cons.injEq, Prod.exists, List.mem_zipIdx_iff_getElem?]
      -- the first step leads into a child, and the rest of the way is one below it
      constructor
      · rintro ⟨c, i, hc, w, y, hmem, ⟨rfl, rfl⟩, rfl⟩
        exact ⟨c, hc, (ih (hh.of_mem_childrenOf (List.mem_of_getElem? hc))).mp hmem⟩
      · rintro ⟨c, hc, hway⟩
        have hmem := (ih (hh.of_mem_childrenOf (List.mem_of_getElem? hc))).mpr hway
        exact ⟨c, i, hc, way, x, hmem, ⟨rfl, rfl⟩, rfl⟩

/-- A node is listed as often as there are ways that lead to it. -/
theorem encard_follow_eq {s : Store} {n : Nat} {root : Handle} (hroot : s.HeightLe n root)
    (x : Handle) :
    {way | s.follow root way = some x}.encard = (s.preorder n root).count x := by
  let found := ((s.trails n root).filter fun e => e.2 == x).map Prod.fst
  have hset : {way | s.follow root way = some x} = (found.toFinset : Set (List Nat)) := by
    ext way
    simp [found, mem_trails_iff hroot]
  have hnodup : found.Nodup := (nodup_map_fst_trails s n root).sublist (List.filter_sublist.map _)
  rw [hset, Set.encard_coe_eq_coe_finsetCard, List.toFinset_card_of_nodup hnodup,
    List.length_map, ← map_snd_trails, List.count, List.countP_map, List.countP_eq_length_filter]
  rfl

/-! ### Traversals -/

/-- **Traversals visit the nodes in the textbook orders.**  Under a live node without cycles below
    it, each of the three traversals visits the nodes in its order and then has nothing left to
    visit; one that is stopped before has visited the first of them.  The three differ in their
    order alone, and each meets a node as often as there are different ways down to it. -/
theorem traverse_textbook {schema : Schema} {s : Store} (hs : Reachable schema s) {root : Handle}
    (halive : s.isAlive root = true) (hacyclic : s.Acyclic root) :
    ∃ visited : Order → List Handle, ∀ order,
      s.Visits (s.frontier order root) (visited order) ∧
      s.Textbook order root (visited order) ∧
      (∀ limit, s.traverse order root limit = (visited order).take limit) ∧
      (∀ other, (visited order).Perm (visited other)) ∧
      ∀ x, {way | s.follow root way = some x}.encard = (visited order).count x := by
  obtain ⟨t, ht⟩ := exists_unfolds hs.wellFormed_store halive hacyclic
  have hroot : s.HeightLe t.height root := ⟨t, ht, Nat.le_refl _⟩
  have hperm := fun order => s.inOrder_perm order t.height root
  refine ⟨fun order => s.inOrder order t.height root, fun order => ⟨visits_frontier hroot order,
    textbook_inOrder hroot order, traverse_eq_take hroot order, fun other => ?_, fun x => ?_⟩⟩
  · exact (hperm order).trans (hperm other).symm
  · rw [encard_follow_eq hroot, (hperm order).count_eq]

end Store

/-! ### A shared item to look at -/

namespace Sample

/-- An item, another one that has it as its next item, and a group with the second one as its next
    item and as its part. -/
def rungs : Store :=
  after (Store.constructNamed "group"
    [.value (.str "all"), .one (some ⟨1, 0⟩), .many [⟨1, 0⟩]]) <|
  after (Store.constructNamed "item" [.value (.str "upper"), .one (some ⟨0, 0⟩)]) <|
  after (Store.constructNamed "item" [.value (.str "lower")]) (Store.empty schema)

theorem reachable_rungs : Reachable schema rungs :=
  ⟨[], ((Run.operation (.constructNamed _ _) _ _).trans
    (.operation (.constructNamed _ _) _ _)).trans (.operation (.constructNamed _ _) _ _)⟩

theorem building_rungs : Building schema (Store.empty schema) rungs :=
  ((Building.constructNamed _ _ _).trans (.constructNamed _ _ _)).trans (.constructNamed _ _ _)

/-- Level by level, both places of the second item come before the two of the first one, to which
    two ways lead. -/
theorem visits_rungs :
    rungs.Visits (rungs.frontier .level ⟨2, 0⟩) [⟨2, 0⟩, ⟨1, 0⟩, ⟨1, 0⟩, ⟨0, 0⟩, ⟨0, 0⟩] ∧
      {way | rungs.follow ⟨2, 0⟩ way = some ⟨0, 0⟩}.encard = 2 := by
  have halive : rungs.isAlive ⟨2, 0⟩ = true := by decide +kernel
  obtain ⟨visited, hvisited⟩ := Store.traverse_textbook reachable_rungs halive
    fun h _ => building_rungs.descending.2.acyclic h
  obtain ⟨hvisits, -, htake, -, hways⟩ := hvisited .level
  have hfirst : rungs.traverse .level ⟨2, 0⟩ 9
      = [⟨2, 0⟩, ⟨1, 0⟩, ⟨1, 0⟩, ⟨0, 0⟩, ⟨0, 0⟩] := by decide +kernel
  have hlength := congrArg List.length ((htake 9).symm.trans hfirst)
  simp only [List.length_take, List.length_cons, List.length_nil] at hlength
  -- nine are more than there are, so this is the whole list
  have hall : visited .level = [⟨2, 0⟩, ⟨1, 0⟩, ⟨1, 0⟩, ⟨0, 0⟩, ⟨0, 0⟩] := by
    rw [← hfirst, htake, List.take_of_length_le (by omega)]
  rw [hall] at hvisits
  refine ⟨hvisits, ?_⟩
  rw [hways, hall]
  rfl

end Sample

end TypedForest
