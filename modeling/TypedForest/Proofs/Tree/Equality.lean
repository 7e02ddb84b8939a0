import TypedForest.Proofs.Store.Run
import TypedForest.Proofs.Tree.Observation

namespace TypedForest

/-!
# Comparing is equality of trees

The comparison of two nodes takes pairs of nodes from a list, in an order that has nothing to do
with the trees, and stops at the first pair that differs.  It finds out whether the trees under
the two nodes are equal, and it comes to an end as soon as one of them is finite.

* `Equality.Ends` : the comparison as an unbounded loop, when it ends and with which answer;
* `Equality.Sound` : a pair without a difference at it or anywhere below it;
* `Equality.Ends.eq_true_iff` : the answer says whether all listed pairs are sound;
* `Store.SameTree` : the trees under two nodes agree node by node, notes aside;
* `Store.equalTrees_exact` : what the comparison of any two nodes gives.
-/

/-! ### The loop -/

namespace Equality

section

variable {α : Type} {next : α → Option (List α)}

/-- The loop over a list of pairs ends with this answer.  There is no bound on its length. -/
inductive Ends (next : α → Option (List α)) : List α → Bool → Prop
  | done : Ends next [] true
  | differ {p : α} {rest : List α} (h : next p = none) : Ends next (p :: rest) false
  | step {p : α} {ps rest : List α} {answer : Bool} (h : next p = some ps)
      (hrest : Ends next (ps.reverse ++ rest) answer) : Ends next (p :: rest) answer

/-- An answer of the bounded comparison is the answer of the loop. -/
theorem ends_of_agree {todo : List (Nat × α)} {answer : Bool}
    (h : agree next todo = some answer) : Ends next (todo.map Prod.snd) answer := by
  fun_induction agree next todo with
  | case1 =>
    cases h
    exact .done
  | case2 => cases h
  | case3 n p rest hnone =>
    cases h
    exact .differ hnone
  | case4 n p rest ps hps ih =>
    refine .step hps ?_
    have hlist := ih h
    rw [List.map_append, List.map_map] at hlist
    simpa [Function.comp_def] using hlist

/-- The pair does not differ by itself, and neither does any pair below it. -/
inductive Sound (next : α → Option (List α)) : α → Prop
  | intro {p : α} {ps : List α} (h : next p = some ps) (hbelow : ∀ q ∈ ps, Sound next q) :
      Sound next p

/-- A pair is sound if it agrees and the pairs below it are sound. -/
theorem sound_iff {p : α} : Sound next p ↔ ∃ ps, next p = some ps ∧ ∀ q ∈ ps, Sound next q := by
  constructor
  · rintro ⟨h, hbelow⟩
    exact ⟨_, h, hbelow⟩
  · rintro ⟨ps, h, hbelow⟩
    exact .intro h hbelow

/-- The answer says whether all pairs on the list are sound, whatever the order in which the
    loop comes to them. -/
theorem Ends.eq_true_iff {todo : List α} {answer : Bool} (h : Ends next todo answer) :
    answer = true ↔ ∀ p ∈ todo, Sound next p := by
  induction h with
  | done => simp
  | differ h =>
    simp only [Bool.false_eq_true, false_iff]
    intro hall
    obtain ⟨ps, hps, -⟩ := sound_iff.mp (hall _ List.mem_cons_self)
    rw [h] at hps
    cases hps
  | @step p ps rest answer h _ ih =>
    -- `p` is sound exactly if the pairs are that take its place on the list
    have hp : Sound next p ↔ ∀ q ∈ ps, Sound next q := by
      rw [sound_iff]
      constructor
      · rintro ⟨qs, hqs, hbelow⟩
        rw [h, Option.some.injEq] at hqs
        exact hqs ▸ hbelow
      · exact fun hbelow => ⟨ps, h, hbelow⟩
    rw [ih, List.forall_mem_cons, hp, List.forall_mem_append]
    simp only [List.mem_reverse]

/-- The bounded comparison gives an answer if the room for each way shrinks with the way and
    is never used up. -/
theorem exists_agree {R : Nat → α → Prop} (hzero : ∀ p, ¬ R 0 p)
    (hstep : ∀ n p ps, R (n + 1) p → next p = some ps → ∀ q ∈ ps, R n q)
    {todo : List (Nat × α)} (htodo : ∀ e ∈ todo, R e.1 e.2) :
    ∃ answer, agree next todo = some answer := by
  fun_induction agree next todo with
  | case1 => exact ⟨true, rfl⟩
  | case2 p rest => exact absurd (htodo (0, p) List.mem_cons_self) (hzero p)
  | case3 n p rest hnone => exact ⟨false, rfl⟩
  | case4 n p rest ps hps ih =>
    obtain ⟨hp, hrest⟩ := List.forall_mem_cons.mp htodo
    refine ih (List.forall_mem_append.mpr ⟨fun e he => ?_, hrest⟩)
    obtain ⟨q, hq, rfl⟩ := List.mem_map.mp he
    exact hstep n p ps hp hps q (List.mem_reverse.mp hq)

end

/-! ### One pair of nodes -/

/-- Rows of slots can be compared exactly if their shapes are the same. -/
theorem pairs_eq_some_iff {cs ds : List Content} {ps : List (Handle × Handle)} :
    pairs cs ds = some ps ↔ cs.map Content.shape = ds.map Content.shape ∧
      ps = (cs.flatMap Content.nodes).zip (ds.flatMap Content.nodes) := by
  constructor
  · intro h
    -- pairs are made slot by slot, and only where the shapes agree
    have hshapes : cs.map Content.shape = ds.map Content.shape := by
      fun_induction pairs cs ds generalizing ps with
      | case1 => rfl
      | case2 cs ds ih => rw [List.map_cons, List.map_cons, ih h]
      | case3 a cs b ds ih =>
        obtain ⟨qs, hqs, -⟩ := Option.map_eq_some_iff.mp h
        rw [List.map_cons, List.map_cons, ih hqs]
        rfl
      | case4 as cs bs ds hlength ih =>
        obtain ⟨qs, hqs, -⟩ := Option.map_eq_some_iff.mp h
        rw [List.map_cons, List.map_cons, ih hqs, Content.shape, Content.shape, hlength]
      | case5 => cases h
      | case6 => cases h
    rw [pairs_eq_zip hshapes, Option.some.injEq] at h
    exact ⟨hshapes, h.symm⟩
  · rintro ⟨hshapes, rfl⟩
    exact pairs_eq_zip hshapes

/-- Two nodes do not differ by themselves if they are alive, have the same kind and values, and
    their slots have the same shapes; the pairs below them are the nodes in the same places. -/
theorem below_eq_some_iff {how : KindMatch} {s t : Store} {a b : Handle}
    {ps : List (Handle × Handle)} :
    below how s t (a, b) = some ps ↔ ∃ m n, s.node? a = some m ∧ t.node? b = some n ∧
      sameKind how s t m.kind n.kind = true ∧ m.values = n.values ∧
      m.children.map Content.shape = n.children.map Content.shape ∧
      ps = m.childNodes.zip n.childNodes := by
  unfold below
  cases s.node? a with
  | none => simp
  | some m =>
    cases t.node? b with
    | none => simp
    | some n =>
      by_cases hsame : sameKind how s t m.kind n.kind = true ∧ m.values = n.values
      · simp [hsame.1, hsame.2, pairs_eq_some_iff, Node.childNodes]
      · simp only [Bool.and_eq_true, decide_eq_true_eq, if_neg hsame]
        simp only [reduceCtorEq, Option.some.injEq, false_iff]
        rintro ⟨m', n', rfl, rfl, hkind, hvalues, -⟩
        exact hsame ⟨hkind, hvalues⟩

end Equality

/-! ### Trees that agree -/

namespace Store

/-- The trees under two nodes agree node by node: in the names of the kinds, the values, and the
    shapes of the slots and what is in them. -/
inductive SameTree (s t : Store) : Handle → Handle → Prop
  | node {a b : Handle} {m n : Node} (hm : s.node? a = some m) (hn : t.node? b = some n)
      (kind : s.schema.kindName m.kind = t.schema.kindName n.kind)
      (values : List.Forall₂ (fun v w => v.identical w = true) m.values n.values)
      (children : List.Forall₂ (Content.Rel (SameTree s t)) m.children n.children) :
      SameTree s t a b

/-- Two nodes say the same by themselves: kind, values, and shapes of the slots. -/
structure Resembles (s t : Store) (m n : Node) : Prop where
  kind : s.schema.kindName m.kind = t.schema.kindName n.kind
  values : m.values = n.values
  shapes : m.children.map Content.shape = n.children.map Content.shape

/-- Nodes resemble each other. -/
theorem Resembles.symm {s t : Store} {m n : Node} (h : Resembles s t m n) : Resembles t s n m :=
  ⟨h.kind.symm, h.values.symm, h.shapes.symm⟩

/-- What resembles the same node resembles each other. -/
theorem Resembles.trans {s t u : Store} {m n o : Node} (h : Resembles s t m n)
    (h' : Resembles t u n o) : Resembles s u m o :=
  ⟨h.kind.trans h'.kind, h.values.trans h'.values, h.shapes.trans h'.shapes⟩

namespace SameTree

variable {s t u : Store} {a b c : Handle}

/-- Nodes that resemble each other over the same trees have the same tree. -/
theorem of_resembles {m n : Node} (hm : s.node? a = some m) (hn : t.node? b = some n)
    (h : Resembles s t m n) (hnodes : List.Forall₂ (SameTree s t) m.childNodes n.childNodes) :
    SameTree s t a b :=
  .node hm hn h.kind (Value.forall₂_identical_iff.mpr h.values)
    (forall₂_rel_iff.mpr ⟨h.shapes, hnodes⟩)

/-- Induction over trees that agree: a property of two nodes that holds whenever it holds of the
    nodes right below them, place by place. -/
@[elab_as_elim]
theorem induct {P : Handle → Handle → Prop}
    (node : ∀ a b m n, s.node? a = some m → t.node? b = some n → Resembles s t m n →
      List.Forall₂ (fun c d => SameTree s t c d ∧ P c d) m.childNodes n.childNodes → P a b)
    (h : SameTree s t a b) : P a b := by
  -- the row of slots, the slot and the row of nodes in it carry the property along
  refine @SameTree.rec s t (fun a b _ => P a b)
    (fun cs ds _ => List.Forall₂ (Content.Rel fun c d => SameTree s t c d ∧ P c d) cs ds)
    (fun c d _ => c.Rel (fun c d => SameTree s t c d ∧ P c d) d)
    (fun as bs _ => List.Forall₂ (fun c d => SameTree s t c d ∧ P c d) as bs)
    ?_ ?_ ?_ ?_ ?_ ?_ ?_ ?_ a b h
  · intro a b m n hm hn hkind hvalues _ ih
    obtain ⟨hshapes, hnodes⟩ := forall₂_rel_iff.mp ih
    exact node a b m n hm hn ⟨hkind, Value.forall₂_identical_iff.mp hvalues, hshapes⟩ hnodes
  · exact .nil
  · exact fun _ _ hslot hslots => .cons hslot hslots
  · exact .vacant
  · exact fun hab ih => .one ⟨hab, ih⟩
  · exact fun _ ih => .many ih
  · exact .nil
  · exact fun hab _ ih ihs => .cons ⟨hab, ih⟩ ihs

/-- The same tree is so from either side. -/
theorem symm (h : SameTree s t a b) : SameTree t s b a := by
  refine h.induct (P := fun a b => SameTree t s b a) fun a b m n hm hn hmn hnodes => ?_
  refine of_resembles hn hm hmn.symm (List.Forall₂.flip ?_)
  exact hnodes.imp fun _ _ hcd => hcd.2

/-- Nodes with the same tree resemble each other, and so do their children. -/
theorem inv (h : SameTree s t a b) {m : Node} (hm : s.node? a = some m) :
    ∃ n, t.node? b = some n ∧ Resembles s t m n ∧
      List.Forall₂ (SameTree s t) m.childNodes n.childNodes := by
  cases h with
  | @node _ _ m' n hm' hn hkind hvalues hchildren =>
    rw [hm, Option.some.injEq] at hm'
    subst hm'
    obtain ⟨hshapes, hnodes⟩ := forall₂_rel_iff.mp hchildren
    exact ⟨n, hn, ⟨hkind, Value.forall₂_identical_iff.mp hvalues, hshapes⟩, hnodes⟩

/-- Trees that are the same as a third one are the same. -/
theorem trans (h : SameTree s t a b) (h' : SameTree t u b c) : SameTree s u a c := by
  refine h.induct (P := fun a b => ∀ c, SameTree t u b c → SameTree s u a c) ?_ c h'
  intro a b m n hm hn hmn hnodes c hbc
  obtain ⟨o, ho, hno, hnodes'⟩ := hbc.inv hn
  refine of_resembles hm ho (hmn.trans hno) ?_
  -- the nodes in the same place of all three rows
  refine (forall₂_join hnodes hnodes'.flip).imp ?_
  rintro x z ⟨y, ⟨-, hxy⟩, hyz⟩
  exact hxy z hyz

/-- A node with a tree has the same tree as itself. -/
theorem refl_of_unfolds {v : Tree} (hv : s.Unfolds a v) : SameTree s s a a := by
  induction v generalizing a with
  | node l ts ih =>
    obtain ⟨m, hm, -, hts⟩ := unfolds_node_iff.mp hv
    refine of_resembles hm hm ⟨rfl, rfl, rfl⟩ (List.forall₂_same.mpr fun c hc => ?_)
    obtain ⟨w, hw, hcw⟩ := forall₂_exists_right hts hc
    exact ih w hw hcw

end SameTree

/-! ### The comparison of two nodes -/

/-- A comparison with a stale node ends at once. -/
theorem equalTrees_of_stale {how : KindMatch} {s t : Store} {a b : Handle}
    (h : s.isAlive a = false ∨ t.isAlive b = false) : equalTrees how s a t b = some false := by
  have hbelow : Equality.below how s t (a, b) = none := by
    refine Option.eq_none_iff_forall_ne_some.mpr fun ps hps => ?_
    obtain ⟨m, n, hm, hn, -⟩ := Equality.below_eq_some_iff.mp hps
    rw [isAlive_of_node? hm, isAlive_of_node? hn] at h
    simp at h
  rw [equalTrees, Equality.agree]
  split
  · rfl
  · next ps hps =>
    rw [hbelow] at hps
    cases hps

/-- The pairs below a pair of nodes are pairs of children. -/
theorem child_of_below {how : KindMatch} {s t : Store} {p q : Handle × Handle}
    {ps : List (Handle × Handle)} (hps : Equality.below how s t p = some ps) (hq : q ∈ ps) :
    s.Child p.1 q.1 ∧ t.Child p.2 q.2 := by
  obtain ⟨m, n, hm, hn, -, -, -, rfl⟩ := Equality.below_eq_some_iff.mp hps
  obtain ⟨hq₁, hq₂⟩ := List.of_mem_zip hq
  exact ⟨⟨m, hm, hq₁⟩, ⟨n, hn, hq₂⟩⟩

/-- The comparison gives an answer when the tree on one side is finite: no way that it follows is
    longer than the tree is high. -/
theorem exists_agree_of_unfolds {how : KindMatch} {s t u : Store} (side : Handle × Handle → Handle)
    (hside : ∀ p ps q, Equality.below how s t p = some ps → q ∈ ps → u.Child (side p) (side q))
    {p : Handle × Handle} {v : Tree} (hv : u.Unfolds (side p) v) {room : Nat}
    (hroom : v.height ≤ room) :
    ∃ answer, Equality.agree (Equality.below how s t) [(room, p)] = some answer := by
  refine Equality.exists_agree (R := fun k p => ∃ w, u.Unfolds (side p) w ∧ w.height ≤ k) ?_ ?_ ?_
  · rintro p ⟨w, -, hw⟩
    have := w.height_pos
    omega
  · rintro k p ps ⟨w, hw, hheight⟩ hps q hq
    obtain ⟨x, hx, hlt⟩ := hw.height_lt_of_child (hside p ps q hps hq)
    exact ⟨x, hx, by omega⟩
  · rw [List.forall_mem_singleton]
    exact ⟨v, hv, hroom⟩

/-- The comparison ends if a node is stale or has no cycle below it. -/
theorem exists_equalTrees (how : KindMatch) {s t : Store} (hs : s.WellFormed) (ht : t.WellFormed)
    {a b : Handle}
    (hends : s.isAlive a = false ∨ s.Acyclic a ∨ t.isAlive b = false ∨ t.Acyclic b) :
    ∃ answer, equalTrees how s a t b = some answer := by
  by_cases hstale : s.isAlive a = false ∨ t.isAlive b = false
  · exact ⟨false, equalTrees_of_stale hstale⟩
  obtain ⟨ha, hb⟩ : s.isAlive a = true ∧ t.isAlive b = true := by simpa using hstale
  obtain ⟨m, hm⟩ := isAlive_iff.mp ha
  obtain ⟨n, hn⟩ := isAlive_iff.mp hb
  have hspos : 0 < s.entries.size := Nat.zero_lt_of_lt (index_lt_of_node? hm)
  have htpos : 0 < t.entries.size := Nat.zero_lt_of_lt (index_lt_of_node? hn)
  have hacyclic : s.Acyclic a ∨ t.Acyclic b := by simpa [ha, hb] using hends
  -- one side without cycles is enough: its tree bounds the depth of the pairs
  rcases hacyclic with hacyclic | hacyclic
  · obtain ⟨v, hv⟩ := exists_unfolds hs ha hacyclic
    have := Nat.le_mul_of_pos_right s.entries.size htpos
    have := hv.height_le
    exact exists_agree_of_unfolds Prod.fst (p := (a, b))
      (fun _ _ _ hps hq => (child_of_below hps hq).1) hv (by omega)
  · obtain ⟨v, hv⟩ := exists_unfolds ht hb hacyclic
    have := Nat.le_mul_of_pos_left t.entries.size hspos
    have := hv.height_le
    exact exists_agree_of_unfolds Prod.snd (p := (a, b))
      (fun _ _ _ hps hq => (child_of_below hps hq).2) hv (by omega)

section

variable {schema schema' : Schema} {s t : Store} {how : KindMatch}

/-- Kinds of live nodes are the same if their names are, by place only within one schema. -/
theorem sameKind_iff (hbuilt : schema.Built) (hs : Reachable schema s) (ht : Reachable schema' t)
    (hhow : how = .byPlace → schema = schema') {a b : Handle} {m n : Node}
    (hm : s.node? a = some m) (hn : t.node? b = some n) :
    Equality.sameKind how s t m.kind n.kind = true ↔
      s.schema.kindName m.kind = t.schema.kindName n.kind := by
  cases how with
  | byName => exact beq_iff_eq
  | byPlace =>
    have hsame : t.schema = s.schema := by rw [ht.schema_eq, hs.schema_eq, hhow rfl]
    have hmk := (hs.wellFormed_store.nodes a m hm).kind
    have hnk := (ht.wellFormed_store.nodes b n hn).kind
    rw [Equality.sameKind, decide_eq_true_eq, hsame]
    rw [hsame] at hnk
    exact ⟨fun h => by rw [h], (hs.lawful hbuilt).kindName_inj hmk hnk⟩

/-- A pair of nodes differs nowhere exactly if the trees under the nodes agree. -/
theorem sound_iff_sameTree (hbuilt : schema.Built) (hs : Reachable schema s)
    (ht : Reachable schema' t) (hhow : how = .byPlace → schema = schema') {a b : Handle} :
    Equality.Sound (Equality.below how s t) (a, b) ↔ SameTree s t a b := by
  constructor
  · intro h
    -- the induction is over pairs
    suffices hpair : ∀ p, Equality.Sound (Equality.below how s t) p → SameTree s t p.1 p.2 from
      hpair (a, b) h
    intro p hp
    induction hp with
    | @intro p ps hps _ ih =>
      obtain ⟨m, n, hm, hn, hkind, hvalues, hshapes, rfl⟩ := Equality.below_eq_some_iff.mp hps
      have hname := (sameKind_iff hbuilt hs ht hhow hm hn).mp hkind
      refine .of_resembles hm hn ⟨hname, hvalues, hshapes⟩ (List.forall₂_iff_zip.mpr ⟨?_, ?_⟩)
      · rw [Node.childNodes, Node.childNodes, Shape.length_flatMap_nodes,
          Shape.length_flatMap_nodes, hshapes]
      · exact fun hcd => ih _ hcd
  · intro h
    refine h.induct fun a b m n hm hn hmn hnodes => ?_
    have hkind := (sameKind_iff hbuilt hs ht hhow hm hn).mpr hmn.kind
    refine .intro (Equality.below_eq_some_iff.mpr
      ⟨m, n, hm, hn, hkind, hmn.values, hmn.shapes, rfl⟩) ?_
    rintro ⟨c, d⟩ hcd
    exact (List.forall₂_zip hnodes hcd).2

/-- Within one schema it does not matter how kinds are compared. -/
theorem equalTrees_byPlace_eq_byName (hbuilt : schema.Built) (hs : Reachable schema s)
    (ht : Reachable schema t) (a b : Handle) :
    equalTrees .byPlace s a t b = equalTrees .byName s a t b := by
  have hbelow : Equality.below .byPlace s t = Equality.below .byName s t := by
    funext ⟨x, y⟩
    refine Option.ext fun ps => ?_
    rw [Equality.below_eq_some_iff, Equality.below_eq_some_iff]
    refine exists_congr fun m => exists_congr fun n => and_congr_right fun hm =>
      and_congr_right fun hn => and_congr_left' ?_
    exact (sameKind_iff hbuilt hs ht (fun _ => rfl) hm hn).trans
      (sameKind_iff hbuilt hs ht (fun _ => rfl) hm hn).symm
  rw [equalTrees, equalTrees, hbelow]

/-- The comparison is true exactly if the trees under the nodes agree, provided that it ends. -/
theorem equalTrees_eq_true_iff (hbuilt : schema.Built) (hs : Reachable schema s)
    (ht : Reachable schema' t) (hhow : how = .byPlace → schema = schema') {a b : Handle}
    (hends : s.isAlive a = false ∨ s.Acyclic a ∨ t.isAlive b = false ∨ t.Acyclic b) :
    ∃ answer, equalTrees how s a t b = some answer ∧
      Equality.Ends (Equality.below how s t) [(a, b)] answer ∧
      (answer = true ↔ SameTree s t a b) := by
  obtain ⟨answer, hanswer⟩ := exists_equalTrees how hs.wellFormed_store ht.wellFormed_store
    hends
  have hloop := Equality.ends_of_agree hanswer
  refine ⟨answer, hanswer, hloop, ?_⟩
  rw [hloop.eq_true_iff, List.map_singleton, List.forall_mem_singleton]
  exact sound_iff_sameTree hbuilt hs ht hhow

end

end Store

/-- A live node without a cycle below it, in a store that a run leads to. -/
structure Rooted where
  schema : Schema
  built : schema.Built
  store : Store
  reachable : Reachable schema store
  root : Handle
  alive : store.isAlive root = true
  acyclic : store.Acyclic root

namespace Rooted

/-- The trees under two nodes are found equal, when their kinds are compared in this way. -/
def Equals (how : Rooted → Rooted → KindMatch) (x y : Rooted) : Prop :=
  Store.equalTrees (how x y) x.store x.root y.store y.root = some true

variable {how : Rooted → Rooted → KindMatch}
  (hhow : ∀ x y, how x y = .byPlace → x.schema = y.schema)
include hhow

/-- The comparison says whether two roots have the same tree. -/
theorem equals_iff {x y : Rooted} :
    x.Equals how y ↔ Store.SameTree x.store y.store x.root y.root := by
  obtain ⟨answer, hanswer, -, htrue⟩ := Store.equalTrees_eq_true_iff x.built x.reachable
    y.reachable (hhow x y) (.inr (.inl x.acyclic) : _ ∨ _ ∨ _ ∨ y.store.Acyclic y.root)
  rw [Equals, hanswer, Option.some.injEq, htrue]

/-- Among live nodes without cycles, of any stores, comparing is an equivalence. -/
theorem equivalence_equals : Equivalence (Equals how) where
  refl x := by
    obtain ⟨v, hv⟩ := Store.exists_unfolds x.reachable.wellFormed_store x.alive x.acyclic
    exact (equals_iff hhow).mpr (.refl_of_unfolds hv)
  symm h := (equals_iff hhow).mpr ((equals_iff hhow).mp h).symm
  trans h h' := (equals_iff hhow).mpr (((equals_iff hhow).mp h).trans ((equals_iff hhow).mp h'))

end Rooted

/-- **Comparing is equality of trees.**  For stores that can be reached, over one schema or over
    two, and any two handles of which one is stale or has no cycle below it, the loop of the
    comparison ends, and its answer is yes exactly if both are alive and the trees under them
    agree in kinds, values and slots.  Within one schema the answer does not depend on how kinds
    are compared; and among live nodes without cycles, in any stores, comparing is an
    equivalence. -/
theorem Store.equalTrees_exact {schema schema' : Schema} {s t : Store} (hbuilt : schema.Built)
    (hs : Reachable schema s) (ht : Reachable schema' t) {how : KindMatch}
    (hhow : how = .byPlace → schema = schema') {a b : Handle}
    (hends : s.isAlive a = false ∨ s.Acyclic a ∨ t.isAlive b = false ∨ t.Acyclic b) :
    (∃ answer, equalTrees how s a t b = some answer ∧
      Equality.Ends (Equality.below how s t) [(a, b)] answer ∧
      (answer = true ↔ s.isAlive a = true ∧ t.isAlive b = true ∧ SameTree s t a b)) ∧
    (schema = schema' → equalTrees .byPlace s a t b = equalTrees .byName s a t b) ∧
    ∀ pick : Rooted → Rooted → KindMatch,
      (∀ x y, pick x y = .byPlace → x.schema = y.schema) → Equivalence (Rooted.Equals pick) := by
  refine ⟨?_, ?_, fun pick hpick => Rooted.equivalence_equals hpick⟩
  · obtain ⟨answer, hanswer, hloop, htrue⟩ := equalTrees_eq_true_iff hbuilt hs ht hhow hends
    refine ⟨answer, hanswer, hloop, htrue.trans ⟨fun h => ?_, fun h => h.2.2⟩⟩
    obtain ⟨hm, hn⟩ : (∃ m, s.node? a = some m) ∧ ∃ n, t.node? b = some n := by
      cases h with
      | node hm hn => exact ⟨⟨_, hm⟩, ⟨_, hn⟩⟩
    exact ⟨isAlive_iff.mpr hm, isAlive_iff.mpr hn, h⟩
  · rintro rfl
    exact equalTrees_byPlace_eq_byName hbuilt hs ht a b

/-! ### A finite tree against an infinite one -/

namespace Sample

/-- An item after which another one of the same label comes. -/
def chain : Store :=
  after (Store.constructNamed "item" [.value (.str "x"), .one (some ⟨0, 0⟩)]) <|
  after (Store.constructNamed "item" [.value (.str "x")]) (Store.empty schema)

/-- An item of that label that comes after itself. -/
def ring : Store :=
  after (Store.set ⟨0, 0⟩ "next" (.one (some ⟨0, 0⟩))) <|
  after (Store.constructNamed "item" [.value (.str "x")]) (Store.empty schema)

theorem reachable_chain : Reachable schema chain :=
  ⟨[], (Run.operation (.constructNamed _ _) _ _).trans (.operation (.constructNamed _ _) _ _)⟩

theorem reachable_ring : Reachable schema ring :=
  ⟨[], (Run.operation (.constructNamed _ _) _ _).trans (.operation (.set _ _ _) _ _)⟩

theorem acyclic_chain : chain.Acyclic ⟨1, 0⟩ := by
  have hlast : chain.node? ⟨0, 0⟩
      = some ⟨⟨0⟩, [.str "x"], [.one none, .many []], some ⟨1, 0⟩, Notes.empty⟩ := by
    decide +kernel
  have hfirst : chain.node? ⟨1, 0⟩
      = some ⟨⟨0⟩, [.str "x"], [.one (some ⟨0, 0⟩), .many []], none, Notes.empty⟩ := by
    decide +kernel
  have hleaf := Store.unfolds_node_iff.mpr ⟨_, hlast, rfl, .nil⟩
  exact (Store.unfolds_node_iff.mpr ⟨_, hfirst, rfl, .cons hleaf .nil⟩).acyclic

/-- The chain and the ring agree at the first item and differ at the second. -/
theorem chain_ne_ring : Store.equalTrees .byName chain ⟨1, 0⟩ ring ⟨0, 0⟩ = some false ∧
    ¬ Store.SameTree chain ring ⟨1, 0⟩ ⟨0, 0⟩ := by
  have hhow : KindMatch.byName = .byPlace → schema = schema := fun _ => rfl
  obtain ⟨⟨answer, hanswer, -, htrue⟩, -⟩ := Store.equalTrees_exact built reachable_chain
    reachable_ring hhow (a := ⟨1, 0⟩) (b := ⟨0, 0⟩) (.inr (.inl acyclic_chain))
  have hfalse : Store.equalTrees .byName chain ⟨1, 0⟩ ring ⟨0, 0⟩ = some false := by decide +kernel
  rw [hfalse, Option.some.injEq] at hanswer
  subst hanswer
  refine ⟨hfalse, fun h => Bool.false_ne_true (htrue.mpr ?_)⟩
  exact ⟨by decide +kernel, by decide +kernel, h⟩

end Sample

end TypedForest
