import TypedForest.Proofs.Revision.Logging
import TypedForest.Proofs.Revision.Pruning

namespace TypedForest

/-!
# The order of the calls

A revision keeps a list of frames, a traversal in post-order a stack on which each node stands
before its children are visited and once more after them.  Both go through the nodes in the same
order.  For a revision this takes some care of the callback, which is called in the middle of it:
it must not change what is still to be read.  Of a tree that is copied this is everything but the
parents; of one that is revised itself it is what the child slots hold.

* `Revision.toEnter`, `Revision.toCall` : the nodes that a revision has yet to come to, and the
  calls that it has yet to make, read off the open frames;
* `Revision.Scheduled` : the calls so far and those to come make up the traversal;
* `Revision.Tracks.step` : so it stays, step by step;
* `Store.revise_postorder` : the calls of whole revisions, and of those that fail.
-/

/-- Nodes that differ in their parents alone. -/
theorem Node.eq_of_unlinked {n m : Node} (h : m.unlinked = n.unlinked) :
    m.kind = n.kind ∧ m.values = n.values ∧ m.children = n.children ∧ m.notes = n.notes := by
  obtain ⟨hkind, hvalues, hchildren, -, hnotes⟩ := Node.mk.inj h
  exact ⟨hkind, hvalues, hchildren, hnotes⟩

namespace Revision

/-! ### What is still to come -/

/-- What a frame has to do: contents to revise, and its node. -/
abbrev Task := List Content × Handle

/-- The tasks of open frames, of which all but the innermost wait for a result. -/
def tasks : List Frame → List Task
  | [] => []
  | f :: outer => (f.pending, f.node) :: outer.map fun g => (g.waiting, g.node)

section

variable (a : Store) (n : Nat)

/-- The nodes in contents and below, each after those below it. -/
def under (todo : List Content) : List Handle :=
  (todo.flatMap Content.nodes).flatMap (a.postorder n)

/-- The nodes that the revision has yet to come to. -/
def toEnter (ts : List Task) : List Handle := ts.flatMap fun t => under a n t.1

/-- The nodes that have yet to be handed to the callback, in this order. -/
def toCall (ts : List Task) : List Handle := ts.flatMap fun t => under a n t.1 ++ [t.2]

/-- The steps for a node: one to come to it, one for each slot, and one to be done with it. -/
def weight (x : Handle) : Nat := 2 + (a.node? x).elim 0 fun m => m.children.length

/-- The steps that are left. -/
def stepsLeft (ts : List Task) : Nat :=
  (ts.map fun t => 1 + t.1.length + ((under a n t.1).map (weight a)).sum).sum

/-- There is a call for each node that is still to be entered and for each that has been. -/
theorem toCall_perm (ts : List Task) :
    (toCall a n ts).Perm (toEnter a n ts ++ ts.map Prod.snd) := by
  have happend := List.flatMap_append_perm ts (fun t => under a n t.1) fun t => [t.2]
  rw [← List.map_eq_flatMap] at happend
  exact happend.symm

variable {a n}

/-- Contents with the same nodes have the same nodes below them. -/
theorem under_congr {todo todo' : List Content}
    (h : todo'.flatMap Content.nodes = todo.flatMap Content.nodes) :
    under a n todo' = under a n todo := by
  rw [under, under, h]

/-- The nodes below the first of several, and then those below the others. -/
theorem under_cons {todo todo' : List Content} {x : Handle}
    (h : todo.flatMap Content.nodes = x :: todo'.flatMap Content.nodes) :
    under a n todo = a.postorder n x ++ under a n todo' := by
  rw [under, under, h, List.flatMap_cons]

/-- A node comes after all that is in its slots. -/
theorem postorder_eq_under {x : Handle} {m : Node} (hx : a.HeightLe n x)
    (hm : a.node? x = some m) : a.postorder n x = under a n m.children ++ [x] := by
  rw [Store.postorder_eq hx, Store.childrenOf, hm]
  rfl

end

/-! ### What must not change -/

/-- What matters of a node is the same. -/
def Mode.Same : Mode → Node → Node → Prop
  | .copy, n, m => m.unlinked = n.unlinked
  | .inPlace, n, m => m.children = n.children

/-- What stays the same twice stays the same. -/
theorem Mode.Same.trans {mode : Mode} {n m o : Node} (hnm : mode.Same n m) (hmo : mode.Same m o) :
    mode.Same n o := by
  cases mode with
  | copy => exact Eq.trans hmo hnm
  | inPlace => exact Eq.trans hmo hnm

/-- The children stay in either mode. -/
theorem Mode.Same.children {mode : Mode} {n m : Node} (h : mode.Same n m) :
    m.children = n.children := by
  cases mode with
  | copy => exact (Node.eq_of_unlinked h).2.2.1
  | inPlace => exact h

/-- Setting a parent changes nothing that matters. -/
theorem Mode.same_parent (mode : Mode) (n : Node) (p : Option Handle) :
    mode.Same n { n with parent := p } := by
  cases mode <;> rfl

/-- A call of the callback leaves what matters of the nodes of `a` as it is. -/
structure Heeds {τ : Type} (mode : Mode) (a : Store)
    (callback : Handle → Action τ (Option Handle)) (h : Handle) (st : Store × τ) : Prop where
  wellFormed : (after (callback h) st).1.WellFormed
  same : ∀ x m, a.isAlive x = true → st.1.node? x = some m →
    ∃ m', (after (callback h) st).1.node? x = some m' ∧ mode.Same m m'

/-- The call was given a new node with the kind, the values and the notes of `x`. -/
def Copied (a : Store) (x : Handle) (call : Handle × Store) : Prop :=
  a.isAlive call.1 = false ∧ ∃ n m, a.node? x = some n ∧ call.2.node? call.1 = some m ∧
    m.kind = n.kind ∧ m.values = n.values ∧ m.notes = n.notes

/-- The call is the one for `x`. -/
def Noted (mode : Mode) (a : Store) (x : Handle) (call : Handle × Store) : Prop :=
  match mode with
  | .copy => Copied a x call
  | .inPlace => x = call.1

/-- What matters is in `s` as it is in `a`: of all nodes if they are copied, and of those that are
    still `ahead` if they are revised themselves. -/
structure Holds (mode : Mode) (a : Store) (ahead : List Handle) (s : Store) : Prop where
  wellFormed : s.WellFormed
  same : ∀ x n, a.node? x = some n → (mode = .inPlace → x ∈ ahead) →
    ∃ m, s.node? x = some m ∧ mode.Same n m

/-- A frame of a copying revision has the values of its node. -/
def Frame.Reads (mode : Mode) (a : Store) (f : Frame) : Prop :=
  mode = .copy → ∃ n, a.node? f.node = some n ∧ f.values = n.values

section

variable {τ : Type} {mode : Mode} {a : Store} {ahead : List Handle} {f : Frame}

/-- Fewer nodes ahead are easier to keep. -/
theorem Holds.mono {s : Store} (hs : Holds mode a ahead s) {ahead' : List Handle}
    (hsub : ∀ x ∈ ahead', x ∈ ahead) : Holds mode a ahead' s :=
  ⟨hs.wellFormed, fun x n hn hx => hs.same x n hn fun hmode => hsub x (hx hmode)⟩

/-- A node that is come to is read as it was. -/
theorem Holds.enter (st : Store × τ) (hst : Holds mode a ahead st.1) {x : Handle} {n : Node}
    (hn : a.node? x = some n) (hx : mode = .inPlace → x ∈ ahead) :
    ∃ f : Frame, Frame.enter x st = .ok f st ∧ f.node = x ∧ f.pending = n.children ∧
      f.Reads mode a := by
  obtain ⟨s, c⟩ := st
  obtain ⟨m, hm, hsame⟩ := hst.same x n hn hx
  refine ⟨⟨x, m.values, 0, m.children, [], []⟩, ?_, rfl, hsame.children, fun hmode => ⟨n, hn, ?_⟩⟩
  · simp only [Frame.enter, Store.get_eq_ok_iff.mpr hm]
  · subst hmode
    exact (Node.eq_of_unlinked hsame).2.1

/-- A slot is finished by writing it, if at all, and going on to the next. -/
theorem close_eq (f : Frame) (filling : Filling) :
    (f.close mode filling : Action τ Frame)
      = f.write mode filling >>= fun _ => pure (f.closed mode filling) := by
  cases mode <;> rfl

/-- Finishing a slot changes the child slots of no node that is ahead. -/
theorem Holds.write {st : Store × τ} (hst : Holds mode a ahead st.1)
    (hf : mode = .inPlace → f.node ∉ ahead) (filling : Filling) :
    match (f.write mode filling : Action τ Unit) st with
    | .error _ st' => st'.2 = st.2
    | .ok _ st' => Holds mode a ahead st'.1 ∧ st'.2 = st.2 := by
  obtain ⟨s, c⟩ := st
  cases mode with
  | copy => exact ⟨hst, rfl⟩
  | inPlace =>
    simp only [Frame.write, onStore]
    cases hw : Store.setChildAt f.node f.slot filling s with
    | error e s' => rfl
    | ok u s' =>
      refine ⟨⟨hst.wellFormed.setChildAt hw, fun x n hn hx => ?_⟩, rfl⟩
      obtain ⟨m, hm, hsame⟩ := hst.same x n hn hx
      -- the node that is written to has been come to, so it is not among those ahead
      have hne : x ≠ f.node := by
        rintro rfl
        exact hf rfl (hx rfl)
      obtain ⟨-, -, ⟨-, rfl⟩ | ⟨slot, d, -, -, -, rfl⟩⟩ := Store.setChildAt_eq_ok hw
      · exact ⟨m, hm, hsame⟩
      · rw [Store.node?_adopt, Store.node?_modifyNode, if_neg hne, hm]
        refine ⟨_, rfl, ?_⟩
        split
        · exact hsame.trans (Mode.same_parent _ _ _)
        · exact hsame

/-- A frame that has finished a slot goes on with the next one. -/
theorem Holds.close {st : Store × τ} (hst : Holds mode a ahead st.1)
    (hf : mode = .inPlace → f.node ∉ ahead) (filling : Filling) :
    match (f.close mode filling : Action τ Frame) st with
    | .error _ st' => st'.2 = st.2
    | .ok g st' => Holds mode a ahead st'.1 ∧ st'.2 = st.2 ∧ g = f.closed mode filling := by
  have hwrite := hst.write hf filling
  rw [close_eq, Store.bind_apply]
  cases hw : (f.write mode filling : Action τ Unit) st with
  | error e st' =>
    rw [hw] at hwrite
    exact hwrite
  | ok u st' =>
    rw [hw] at hwrite
    exact ⟨hwrite.1, hwrite.2, rfl⟩

/-- A copy has the values that it is given. -/
theorem values_of_fill {s : Store} {k : KindId} {vs : List Value} {fs : List Filling} {n : Node}
    (hvs : (s.schema.kind k).values.length = vs.length)
    (h : s.fill k (vs.map .value ++ fs) = .ok n) : n.values = vs := by
  unfold Store.fill at h
  dsimp only at h
  split at h
  · cases h
  · split at h
    · cases h
    · next ws left hvalues =>
      obtain ⟨rfl, -⟩ := Store.fillValues_eq_ok_of_length hvs hvalues
      split at h
      · cases h
      · cases h
        rfl

/-- A node that is not in the store was not there before, if nothing has gone. -/
theorem Holds.ne_of_fresh {s : Store} (hs : Holds .copy a ahead s) {h : Handle}
    (hfresh : s.node? h = none) {x : Handle} {q : Node} (hq : a.node? x = some q) : x ≠ h := by
  rintro rfl
  obtain ⟨_, hfound, -⟩ := hs.same x q hq fun hmode => absurd hmode (by decide)
  rw [hfresh] at hfound
  cases hfound

/-- The node for a call is the one of the frame, or a new copy of it. -/
theorem Holds.subject {st : Store × τ} (hst : Holds mode a ahead st.1) (hf : f.Reads mode a) :
    match (f.subject mode : Action τ Handle) st with
    | .error _ st' => st'.2 = st.2
    | .ok h st' => Holds mode a ahead st'.1 ∧ st'.2 = st.2 ∧ Noted mode a f.node (h, st'.1) := by
  cases mode with
  | inPlace => exact ⟨hst, rfl, rfl⟩
  | copy =>
    obtain ⟨s, c⟩ := st
    show match (f.copy : Action τ Handle) (s, c) with
      | .error _ st' => st'.2 = c
      | .ok h st' => Holds .copy a ahead st'.1 ∧ st'.2 = c ∧ Noted .copy a f.node (h, st'.1)
    rcases copy_cases f s c with ⟨e, herror⟩ | ⟨n, h, s', hn, hc, hcopy⟩
    · rw [herror]
    · rw [hcopy]
      -- the frame read its node at first, the copy reads it again: nothing changed in between
      obtain ⟨n₀, hn₀, hvalues⟩ := hf rfl
      obtain ⟨n₁, hn₁, hsame⟩ := hst.same f.node n₀ hn₀ fun hmode => absurd hmode (by decide)
      obtain rfl : n = n₁ := Option.some.inj (hn.symm.trans hn₁)
      obtain ⟨hkind, hvalues', -, hnotes⟩ := Node.eq_of_unlinked hsame
      obtain ⟨m, hfill, -⟩ := Store.construct_eq_ok_iff.mp hc
      have hwf := hst.wellFormed
      have hfit := hwf.nodes f.node n hn
      have hfree := hwf.booked.freePlaces
      have hnew : ∀ {x q}, a.node? x = some q → x ≠ h :=
        hst.ne_of_fresh (Store.node?_construct hfree hfill hc).1
      have hview := Store.node?_construct_notes hfree hfill hc n.notes
      refine ⟨⟨(hwf.construct hfit.kind hc).annotate h fun _ => n.notes, fun x q hq hx => ?_⟩, rfl,
        ?_, n₀, _, hn₀, by rw [hview, if_pos rfl], ?_, ?_, ?_⟩
      · obtain ⟨q', hq', hsame'⟩ := hst.same x q hq hx
        refine ⟨_, by rw [hview, if_neg (hnew hq), hq']; rfl, ?_⟩
        split
        · exact hsame'.trans (Mode.same_parent _ _ _)
        · exact hsame'
      · exact Store.isAlive_eq_false_iff.mpr
          (Option.eq_none_iff_forall_ne_some.mpr fun q hq => hnew hq rfl)
      · exact (Store.fill_eq_ok hfill).1.trans hkind
      · have hlength : (s.schema.kind n.kind).values.length = f.values.length := by
          rw [hfit.values.length_eq, hvalues, hvalues']
        exact (values_of_fill hlength hfill).trans hvalues
      · exact hnotes

/-- A call that heeds what matters. -/
theorem Holds.call {s : Store} (hs : Holds mode a ahead s) {c : τ}
    {callback : Handle → Action τ (Option Handle)} {h : Handle}
    (hheeds : Heeds mode a callback h (s, c)) :
    Holds mode a ahead (after (callback h) (s, c)).1 := by
  refine ⟨hheeds.wellFormed, fun x n hn hx => ?_⟩
  obtain ⟨m, hm, hsame⟩ := hs.same x n hn hx
  obtain ⟨m', hm', hsame'⟩ := hheeds.same x m (Store.isAlive_of_node? hn) hm
  exact ⟨m', hm', hsame.trans hsame'⟩

/-- `g` is the frame `f` when it has got the result that it waited for. -/
structure Frame.Resumes (f g : Frame) : Prop where
  node : g.node = f.node
  values : g.values = f.values
  nodes : g.pending.flatMap Content.nodes = f.waiting.flatMap Content.nodes
  length : g.pending.length ≤ f.waiting.length

/-- A frame that takes over a result has the same nodes left. -/
theorem Holds.receive {st : Store × τ} (hst : Holds mode a ahead st.1)
    (hf : mode = .inPlace → f.node ∉ ahead) (result : Option Handle) :
    match (f.receive mode result : Action τ Frame) st with
    | .error _ st' => st'.2 = st.2
    | .ok g st' => Holds mode a ahead st'.1 ∧ st'.2 = st.2 ∧ f.Resumes g := by
  -- but for a list, the slot is finished with the result
  have hclose : f.Resumes (f.closed mode (.one result)) →
      match (f.close mode (.one result) : Action τ Frame) st with
      | .error _ st' => st'.2 = st.2
      | .ok g st' => Holds mode a ahead st'.1 ∧ st'.2 = st.2 ∧ f.Resumes g := by
    intro hresumes
    have hclosed := hst.close hf (.one result)
    cases hg : (f.close mode (.one result) : Action τ Frame) st with
    | error e st' =>
      rw [hg] at hclosed
      exact hclosed
    | ok g st' =>
      rw [hg] at hclosed
      obtain ⟨hst', hlog, rfl⟩ := hclosed
      exact ⟨hst', hlog, hresumes⟩
  -- in a list the result is only gathered
  unfold Frame.receive
  match hp : f.pending with
  | [] => exact hclose ⟨rfl, rfl, by simp [Frame.waiting, Frame.closed, hp], by
      simp [Frame.waiting, Frame.closed, hp]⟩
  | .one none :: later => exact hclose ⟨rfl, rfl, by
      simp [Frame.waiting, Frame.closed, hp, Content.nodes], by
      simp [Frame.waiting, Frame.closed, hp]⟩
  | .one (some x) :: later => exact hclose ⟨rfl, rfl, by
      simp [Frame.waiting, Frame.closed, hp, Content.nodes], by
      simp [Frame.waiting, Frame.closed, hp]⟩
  | .many xs :: later => exact ⟨hst, rfl, rfl, rfl, by simp [Frame.waiting, hp], by
      simp [Frame.waiting, hp]⟩

end

/-! ### The schedule -/

/-- The calls so far and those that are left make up `visited`, and what is still to be read is in
    the store as it was.  At most `k` steps are left. -/
structure Scheduled {τ : Type} (mode : Mode) (a : Store) (n : Nat) (visited : List Handle) (k : Nat)
    (ts : List Task) (st : Store × τ × Log) : Prop where
  calls : ∃ made, visited = made ++ toCall a n ts ∧ List.Forall₂ (Noted mode a) made st.2.2
  heights : ∀ t ∈ ts, ∀ x ∈ t.1.flatMap Content.nodes, a.HeightLe n x
  store : Holds mode a (toEnter a n ts) st.1
  steps : stepsLeft a n ts ≤ k

/-- A revision has made the calls for the first nodes of `visited`, or for all of them if it did
    not fail. -/
def Logs {τ : Type} (mode : Mode) (a : Store) (visited : List Handle) : Outcome (τ × Log) → Prop
  | .error _ st => ∃ made, made <+: visited ∧ List.Forall₂ (Noted mode a) made st.2.2
  | .ok _ st => List.Forall₂ (Noted mode a) visited st.2.2

section

variable {τ : Type} {mode : Mode} {a : Store} {n : Nat} {visited : List Handle} {k : Nat}
  {ts : List Task} {st : Store × τ × Log}

/-- If the revision fails here, the calls so far are the first of the postorder. -/
theorem Scheduled.logs_error (h : Scheduled mode a n visited k ts st) {st' : Store × τ × Log}
    (hlog : st'.2 = st.2) (e : NodeError) : Logs mode a visited (.error e st') := by
  obtain ⟨made, rfl, hmade⟩ := h.calls
  exact ⟨made, List.prefix_append _ _, by rw [hlog]; exact hmade⟩

/-- A step without a call may change the store, but not the schedule. -/
theorem Scheduled.withStore (h : Scheduled mode a n visited k ts st) {st' : Store × τ × Log}
    (hst : Holds mode a (toEnter a n ts) st'.1) (hlog : st'.2 = st.2) :
    Scheduled mode a n visited k ts st' :=
  ⟨by rw [hlog]; exact h.calls, h.heights, hst, h.steps⟩

/-- A node that is in hand is not come to again, if no node is to be visited twice. -/
theorem Scheduled.not_mem (h : Scheduled mode a n visited k ts st) (hnodup : visited.Nodup)
    {t : Task} (ht : t ∈ ts) : t.2 ∉ toEnter a n ts := by
  obtain ⟨made, rfl, -⟩ := h.calls
  have hparts := (toCall_perm a n ts).nodup_iff.mp hnodup.of_append_right
  intro hmem
  exact List.disjoint_of_nodup_append hparts hmem (List.mem_map_of_mem ht)

/-- Contents of the task in hand that have no nodes may be dropped. -/
theorem Scheduled.shorten {todo todo' : List Content} {x : Handle} {j : Nat}
    (h : Scheduled mode a n visited k ((todo, x) :: ts) st)
    (hnodes : todo'.flatMap Content.nodes = todo.flatMap Content.nodes)
    (hlength : todo'.length + j ≤ todo.length) :
    ∃ k', k' + j ≤ k ∧ Scheduled mode a n visited k' ((todo', x) :: ts) st := by
  have hunder := under_congr (a := a) (n := n) hnodes
  have hsteps := h.steps
  simp only [stepsLeft, List.map_cons, List.sum_cons] at hsteps
  refine ⟨k - j, by omega, ⟨?_, ?_, ?_, ?_⟩⟩
  · simpa only [toCall, List.flatMap_cons, hunder] using h.calls
  · have hheights := h.heights
    rw [List.forall_mem_cons] at hheights ⊢
    exact ⟨by rw [hnodes]; exact hheights.1, hheights.2⟩
  · simpa only [toEnter, List.flatMap_cons, hunder] using h.store
  · simp only [stepsLeft, List.map_cons, List.sum_cons, hunder]
    omega

/-- The next node is come to: its own task stands before what is left of the one in hand. -/
theorem Scheduled.push {todo todo' : List Content} {x y : Handle}
    (h : Scheduled mode a n visited k ((todo, x) :: ts) st)
    (hnodes : todo.flatMap Content.nodes = y :: todo'.flatMap Content.nodes)
    (hlength : todo'.length = todo.length) :
    ∃ m k', a.node? y = some m ∧ y ∈ toEnter a n ((todo, x) :: ts) ∧ k' < k ∧
      Scheduled mode a n visited k' ((m.children, y) :: (todo', x) :: ts) st := by
  obtain ⟨hhead, htail⟩ := List.forall_mem_cons.mp h.heights
  rw [hnodes] at hhead
  obtain ⟨hy, hlater⟩ := List.forall_mem_cons.mp hhead
  obtain ⟨m, hm, hbelow⟩ := Store.heightLe_succ_iff.mp (hy.mono (Nat.le_succ n))
  have hunder : under a n todo = under a n m.children ++ [y] ++ under a n todo' := by
    rw [under_cons hnodes, postorder_eq_under hy hm]
  have hweight : weight a y = 2 + m.children.length := by
    rw [weight, hm]
    rfl
  -- of the steps for `y`, the one to come to it is made now
  have hsteps := h.steps
  simp only [stepsLeft, List.map_cons, List.sum_cons, hunder, List.map_append, List.sum_append,
    List.map_nil, List.sum_nil, hweight] at hsteps
  refine ⟨m, k - 1, hm, ?_, by omega, ⟨?_, ?_, h.store.mono ?_, ?_⟩⟩
  · simp [toEnter, hunder]
  · simpa [toCall, hunder] using h.calls
  · exact List.forall_mem_cons.mpr ⟨hbelow, List.forall_mem_cons.mpr ⟨hlater, htail⟩⟩
  · intro z hz
    simp only [toEnter, List.flatMap_cons, hunder, List.mem_append] at hz ⊢
    tauto
  · simp only [stepsLeft, List.map_cons, List.sum_cons]
    omega

/-- The node in hand is handed to the callback. -/
theorem Scheduled.pop {x : Handle} (h : Scheduled mode a n visited k (([], x) :: ts) st)
    {call : Handle × Store} (hcall : Noted mode a x call) (st' : Store × τ × Log)
    (hst : Holds mode a (toEnter a n ts) st'.1) (hlog : st'.2.2 = st.2.2 ++ [call]) :
    ∃ k', k' < k ∧ Scheduled mode a n visited k' ts st' := by
  obtain ⟨made, hvisited, hmade⟩ := h.calls
  have hsteps := h.steps
  simp only [stepsLeft, List.map_cons, List.sum_cons] at hsteps
  refine ⟨k - 1, by omega, ⟨⟨made ++ [x], ?_, ?_⟩, (List.forall_mem_cons.mp h.heights).2, hst, ?_⟩⟩
  · simpa [toCall, under] using hvisited
  · rw [hlog]
    exact List.rel_append hmade (.cons hcall .nil)
  · simp only [stepsLeft]
    omega

end

/-! ### Step by step -/

/-- What is true of a logged revision all the time. -/
structure Tracks {τ : Type} (mode : Mode) (a : Store) (n : Nat) (visited : List Handle) (k : Nat)
    (frames : List Frame) (st : Store × τ × Log) : Prop where
  scheduled : Scheduled mode a n visited k (tasks frames) st
  reads : ∀ f ∈ frames, f.Reads mode a

section

variable {τ : Type} {mode : Mode} {a : Store} {n : Nat} {visited : List Handle}
  {callback : Handle → Action τ (Option Handle)} {k : Nat} {f : Frame} {outer : List Frame}
  {st : Store × τ × Log} (hst : Tracks mode a n visited k (f :: outer) st)
include hst

/-- A slot without nodes to come to is finished. -/
theorem Tracks.close (hnodup : mode = .inPlace → visited.Nodup) {d : Content}
    {later : List Content} (hp : f.pending = d :: later) (hd : d.nodes = []) (filling : Filling)
    (hstep : step mode (logged callback) (f :: outer) st
      = (f.close mode filling >>= fun g => pure (.more (g :: outer)) : Action _ Progress) st) :
    Proceeds (Tracks mode a n visited) (Logs mode a visited) k
      (step mode (logged callback) (f :: outer) st) := by
  have hclosed := hst.scheduled.store.close (f := f)
    (fun hmode => hst.scheduled.not_mem (hnodup hmode) List.mem_cons_self) filling
  rw [hstep, Store.bind_apply]
  cases hg : (f.close mode filling : Action (τ × Log) Frame) st with
  | error e st' =>
    rw [hg] at hclosed
    exact hst.scheduled.logs_error hclosed e
  | ok g st' =>
    rw [hg] at hclosed
    obtain ⟨hheld, hlog, rfl⟩ := hclosed
    -- a slot without nodes has no calls to come
    have hnodes : later.flatMap Content.nodes = f.pending.flatMap Content.nodes := by
      rw [hp, List.flatMap_cons, hd, List.nil_append]
    obtain ⟨k', hk', hscheduled⟩ := (hst.scheduled.withStore hheld hlog).shorten (j := 1) hnodes
      (by rw [hp, List.length_cons])
    refine ⟨k', hk', ?_, ?_⟩
    · show Scheduled mode a n visited k' ((f.pending.tail, f.node) :: _) st'
      rw [hp, List.tail_cons]
      exact hscheduled
    · obtain ⟨hf, houter⟩ := List.forall_mem_cons.mp hst.reads
      exact List.forall_mem_cons.mpr ⟨hf, houter⟩

/-- The next node is come to, and the frame waits for it as `f'`. -/
theorem Tracks.enter (f' : Frame) (x : Handle) (hnode : f'.node = f.node)
    (hvalues : f'.values = f.values) (hlength : f'.waiting.length = f.pending.length)
    (hnodes : f.pending.flatMap Content.nodes = x :: f'.waiting.flatMap Content.nodes)
    (hstep : ∀ g, Frame.enter x st = .ok g st →
      step mode (logged callback) (f :: outer) st = .ok (.more (g :: f' :: outer)) st) :
    Proceeds (Tracks mode a n visited) (Logs mode a visited) k
      (step mode (logged callback) (f :: outer) st) := by
  obtain ⟨m, k', hm, hmem, hk', hscheduled⟩ := hst.scheduled.push hnodes hlength
  obtain ⟨g, henter, rfl, hpending, hreads⟩ := hst.scheduled.store.enter st hm fun _ => hmem
  obtain ⟨hf, houter⟩ := List.forall_mem_cons.mp hst.reads
  rw [hstep g henter]
  refine ⟨k', hk', ?_, ?_⟩
  · rw [tasks, List.map_cons, hpending, hnode]
    exact hscheduled
  · refine List.forall_mem_cons.mpr ⟨hreads, List.forall_mem_cons.mpr ⟨?_, houter⟩⟩
    intro hmode
    rw [hnode, hvalues]
    exact hf hmode

/-- A node is done: it is handed to the callback, or its copy is. -/
theorem Tracks.finish (hnodup : mode = .inPlace → visited.Nodup) (hp : f.pending = [])
    (hheeds : ∀ h st', f.subject mode st = .ok h st' → st'.1.WellFormed →
      Heeds mode a callback h (unlogged st')) :
    Proceeds (Tracks mode a n visited) (Logs mode a visited) k
      (step mode (logged callback) (f :: outer) st) := by
  obtain ⟨hf, houter⟩ := List.forall_mem_cons.mp hst.reads
  have hscheduled := hst.scheduled
  rw [tasks, hp] at hscheduled
  have hsubject := hscheduled.store.subject hf
  rw [step]
  simp only [hp, finish_eq, Store.bind_apply]
  cases hsub : (f.subject mode : Action (τ × Log) Handle) st with
  | error e st' =>
    rw [hsub] at hsubject
    exact hscheduled.logs_error hsubject e
  | ok h st' =>
    rw [hsub] at hsubject
    obtain ⟨hheld, hlog, hnoted⟩ := hsubject
    have hcall := hheeds h st' hsub hheld.wellFormed
    obtain ⟨s, c, log⟩ := st'
    have hafter := hheld.call hcall
    simp only [logged]
    cases hr : callback h (s, c) with
    | error e st₂ =>
      -- the call that fails has been made, and is in the log
      rw [Store.after_of_error hr] at hafter
      obtain ⟨k', -, hpop⟩ := hscheduled.pop hnoted (st₂.1, st₂.2, log ++ [(h, s)]) hafter
        (by rw [← hlog])
      exact hpop.logs_error rfl e
    | ok result st₂ =>
      rw [Store.after_of_ok hr] at hafter
      obtain ⟨k', hk', hpop⟩ := hscheduled.pop hnoted (st₂.1, st₂.2, log ++ [(h, s)]) hafter
        (by rw [← hlog])
      -- the result goes to the frame outside, or is that of the revision
      cases outer with
      | nil =>
        obtain ⟨made, hvisited, hmade⟩ := hpop.calls
        rw [toCall, List.map_nil, List.flatMap_nil, List.append_nil] at hvisited
        rw [hvisited]
        exact hmade
      | cons g outer =>
        have hreceive := hpop.store.receive (f := g)
          (fun hmode => hpop.not_mem (hnodup hmode) List.mem_cons_self) result
        dsimp only
        rw [Store.bind_apply]
        cases hg : (g.receive mode result : Action (τ × Log) Frame)
            (st₂.1, st₂.2, log ++ [(h, s)]) with
        | error e st₃ =>
          rw [hg] at hreceive
          exact hpop.logs_error hreceive e
        | ok g' st₃ =>
          rw [hg] at hreceive
          obtain ⟨hheld₃, hlog₃, hresumes⟩ := hreceive
          obtain ⟨k'', hk'', hnext⟩ := (hpop.withStore hheld₃ hlog₃).shorten (j := 0)
            hresumes.nodes hresumes.length
          refine ⟨k'', by omega, ?_, ?_⟩
          · rw [tasks, hresumes.node]
            exact hnext
          · obtain ⟨hgreads, hrest⟩ := List.forall_mem_cons.mp houter
            refine List.forall_mem_cons.mpr ⟨fun hmode => ?_, hrest⟩
            rw [hresumes.node, hresumes.values]
            exact hgreads hmode

end

/-- **Step by step.**  Each step of a logged revision keeps to the schedule and leaves less to do,
    if the callback heeds what matters. -/
theorem Tracks.step {τ : Type} {mode : Mode} {a : Store} {n : Nat} {visited : List Handle}
    {callback : Handle → Action τ (Option Handle)} {root : Handle} {st₀ : Store × τ × Log}
    (hnodup : mode = .inPlace → visited.Nodup)
    (hheeds : ∀ h st, Calls mode callback root (unlogged st₀) h st → st.1.WellFormed →
      Heeds mode a callback h st)
    {k : Nat} {frames : List Frame} {st : Store × τ × Log}
    (hcomes : Comes mode (logged callback) root st₀ frames st)
    (hst : Tracks mode a n visited k frames st) :
    Proceeds (Tracks mode a n visited) (Logs mode a visited) k
      (Revision.step mode (logged callback) frames st) := by
  cases frames with
  | nil =>
    obtain ⟨made, hvisited, hmade⟩ := hst.scheduled.calls
    rw [tasks, toCall, List.flatMap_nil, List.append_nil] at hvisited
    rw [hvisited]
    exact hmade
  | cons f outer =>
    match hp : f.pending with
    | [] =>
      refine hst.finish hnodup hp fun h st' hsubject hwf => ?_
      exact hheeds h (unlogged st') (Calls.of_logged ⟨f, outer, st, hcomes, hp, hsubject⟩) hwf
    | .one none :: later =>
      refine hst.close hnodup hp rfl (.one none) ?_
      simp only [Revision.step, hp]
    | .one (some x) :: later =>
      refine hst.enter f x rfl rfl ?_ ?_ fun g henter => ?_
      · simp only [Frame.waiting, hp, List.length_cons]
      · simp only [Frame.waiting, hp]
        rfl
      · simp only [Revision.step, hp, Store.bind_apply, henter]
        rfl
    | .many [] :: later =>
      refine hst.close hnodup hp rfl (.many f.results.reverse) ?_
      simp only [Revision.step, hp]
    | .many (x :: rest) :: later =>
      refine hst.enter { f with pending := .many rest :: later } x rfl rfl ?_ ?_ fun g henter => ?_
      · rw [hp]
        rfl
      · rw [hp]
        rfl
      · simp only [Revision.step, hp, Store.bind_apply, henter]
        rfl

/-! ### Whole revisions -/

/-- A logged revision ends, and has made the calls in the order of the recursion. -/
theorem exists_logs {τ : Type} {mode : Mode} {a : Store} (hwf : a.WellFormed) {n : Nat}
    {root : Handle} (hroot : a.HeightLe n root) {callback : Handle → Action τ (Option Handle)}
    {c : τ} (hnodup : mode = .inPlace → (a.postorder n root).Nodup)
    (hheeds : ∀ h st, Calls mode callback root (a, c) h st → st.1.WellFormed →
      Heeds mode a callback h st) :
    ∃ r, outcome? mode (logged callback) root (a, c, []) = some r ∧
      Store.revise mode callback root (a, c) = forget r ∧
      Logs mode a (a.postorder n root) r := by
  obtain ⟨m, hm, hbelow⟩ := Store.heightLe_succ_iff.mp (hroot.mono (Nat.le_succ n))
  have hvisited := postorder_eq_under hroot hm
  have hholds : ∀ ahead, Holds mode a ahead a :=
    fun ahead => ⟨hwf, fun x q hq _ => ⟨q, hq, by cases mode <;> rfl⟩⟩
  obtain ⟨f, henter, rfl, hpending, hreads⟩ := Holds.enter (a, c, ([] : Log)) (hholds [root]) hm
    fun _ => List.mem_singleton_self root
  have hstart : Tracks mode a n (a.postorder n f.node)
      (stepsLeft a n [(m.children, f.node)]) [f] (a, c, []) := by
    refine ⟨?_, List.forall_mem_singleton.mpr hreads⟩
    rw [tasks, List.map_nil, hpending]
    refine ⟨⟨[], ?_, .nil⟩, List.forall_mem_singleton.mpr hbelow, hholds _, Nat.le_refl _⟩
    simpa [toCall] using hvisited
  obtain ⟨r, hr, hlogs⟩ := exists_outcome
    (fun _ _ _ hcomes hst => Tracks.step hnodup hheeds hcomes hst) henter hstart
  refine ⟨r, hr, ?_, hlogs⟩
  have hplain := outcome?_of_logged hr
  rw [Store.revise, show (a, c) = unlogged (a, c, ([] : Log)) from rfl, hplain, Option.getD_some]

/-- Each call is for the node at its place. -/
theorem exists_of_forall₂ {α β : Type} {R : α → β → Prop} {made visited : List α} {log : List β}
    (h : List.Forall₂ R made log) (hmade : made <+: visited) {k : Nat} {call : β}
    (hcall : log[k]? = some call) : ∃ x, visited[k]? = some x ∧ R x call := by
  obtain ⟨hk, rfl⟩ := List.getElem?_eq_some_iff.mp hcall
  have hk' : k < made.length := by
    rw [h.length_eq]
    exact hk
  obtain ⟨rest, rfl⟩ := hmade
  exact ⟨made[k], by rw [List.getElem?_append_left hk', List.getElem?_eq_getElem hk'],
    (List.forall₂_iff_get.mp h).2 k hk' hk⟩

/-- In place the calls are for the nodes themselves. -/
theorem map_fst_of_noted {a : Store} {made : List Handle} {log : Log}
    (h : List.Forall₂ (Noted .inPlace a) made log) : log.map Prod.fst = made := by
  have heq : List.Forall₂ Eq made (log.map Prod.fst) := List.forall₂_map_right_iff.mpr h
  rw [List.forall₂_eq_eq_eq] at heq
  exact heq.symm

end Revision

/-- **Calls come in post-order.**  Take the traversal in post-order of what is under a live node,
    without cycles, before it is revised.

    If it is copied, and no call of the callback frees a node that was there or changes its kind,
    its values, its slots or its notes, the calls are for new nodes, and the k-th of these has the
    kind, the values and the notes of the k-th node of the traversal.  If the revision does not
    fail, there is a call for each node of the traversal.

    If it is revised itself, no node occurs twice, and no call frees a node or changes a child
    slot, the calls of a revision that does not fail are for the nodes of the traversal. -/
theorem Store.revise_postorder {schema : Schema} {a : Store} (hs : Reachable schema a)
    {root : Handle} (halive : a.isAlive root = true) (hacyclic : a.Acyclic root) {τ : Type}
    (callback : Handle → Revision.Action τ (Option Handle)) (c : τ) :
    ∃ visited, a.Visits (a.frontier .post root) visited ∧
      (∀ limit, a.traverse .post root limit = visited.take limit) ∧
      ((∀ h st, Revision.Calls .copy callback root (a, c) h st → st.1.WellFormed →
          Revision.Heeds .copy a callback h st) →
        ∃ r, Revision.outcome? .copy (Revision.logged callback) root (a, c, []) = some r ∧
          revise .copy callback root (a, c) = Revision.forget r ∧
          (∀ (k : Nat) call, (Revision.logOf r)[k]? = some call →
            ∃ x, visited[k]? = some x ∧ Revision.Copied a x call) ∧
          ∀ result st, revise .copy callback root (a, c) = .ok result st →
            (Revision.logOf r).length = visited.length) ∧
      (visited.Nodup →
        (∀ h st, Revision.Calls .inPlace callback root (a, c) h st → st.1.WellFormed →
          Revision.Heeds .inPlace a callback h st) →
        ∃ r, Revision.outcome? .inPlace (Revision.logged callback) root (a, c, []) = some r ∧
          revise .inPlace callback root (a, c) = Revision.forget r ∧
          (Revision.logOf r).map Prod.fst <+: visited ∧
          ∀ result st, revise .inPlace callback root (a, c) = .ok result st →
            (Revision.logOf r).map Prod.fst = visited) := by
  have hwf := hs.wellFormed_store
  obtain ⟨t, ht⟩ := exists_unfolds hwf halive hacyclic
  have hroot : a.HeightLe t.height root := ⟨t, ht, Nat.le_refl _⟩
  refine ⟨a.postorder t.height root, visits_frontier hroot .post, traverse_eq_take hroot .post,
    fun hheeds => ?_, fun hnodup hheeds => ?_⟩
  · obtain ⟨r, hr, hplain, hlogs⟩ := Revision.exists_logs hwf hroot
      (fun hmode => absurd hmode (by decide)) hheeds
    refine ⟨r, hr, hplain, fun k call hcall => ?_, fun result st hok => ?_⟩
    · cases r with
      | error e st =>
        obtain ⟨made, hmade, hnoted⟩ := hlogs
        exact Revision.exists_of_forall₂ hnoted hmade hcall
      | ok result st => exact Revision.exists_of_forall₂ hlogs (List.prefix_refl _) hcall
    · cases r with
      | error e st' =>
        rw [hplain] at hok
        cases hok
      | ok result' st' => exact (List.Forall₂.length_eq hlogs).symm
  · -- in place the nodes must not come twice, since the second call would see what the first one
    -- did
    obtain ⟨r, hr, hplain, hlogs⟩ := Revision.exists_logs hwf hroot (fun _ => hnodup) hheeds
    refine ⟨r, hr, hplain, ?_, fun result st hok => ?_⟩
    · cases r with
      | error e st =>
        obtain ⟨made, hmade, hnoted⟩ := hlogs
        rw [Revision.logOf, Revision.map_fst_of_noted hnoted]
        exact hmade
      | ok result st =>
        rw [Revision.logOf, Revision.map_fst_of_noted hlogs]
    · cases r with
      | error e st' =>
        rw [hplain] at hok
        cases hok
      | ok result' st' => exact Revision.map_fst_of_noted hlogs

/-- A list is known from its first items if there are fewer than were asked for. -/
theorem eq_of_take_lt {α : Type} {n : Nat} {xs ys : List α} (h : xs.take n = ys)
    (hlength : ys.length < n) : xs = ys := by
  rw [← h, List.length_take] at hlength
  rw [← h, List.take_of_length_le (by omega)]

namespace Sample

/-- Putting a copy into a new group changes at most the parents of other nodes. -/
theorem heeds_wrap {a : Store} {h : Handle} {st : Store × Unit} (hwf : st.1.WellFormed) :
    Revision.Heeds .copy a wrap h st := by
  rcases wrap_cases h hwf with ⟨e, herror⟩ | ⟨r, st', m, hok, hwf', hfresh, -, hview⟩
  · have hafter : after (wrap h) st = st := Store.after_of_error herror
    refine ⟨by rwa [hafter], fun x n _ hn => ⟨n, ?_, rfl⟩⟩
    rw [hafter, hn]
  · have hafter : after (wrap h) st = st' := Store.after_of_ok hok
    refine ⟨by rwa [hafter], fun x n _ hn => ?_⟩
    have hne : x ≠ r := by
      rintro rfl
      rw [hfresh] at hn
      cases hn
    rw [hafter, hview, if_neg hne, hn]
    refine ⟨_, rfl, ?_⟩
    split <;> rfl

/-- The callback that judges a node changes nothing. -/
theorem heeds_judge {a : Store} {h : Handle} {st : Store × Unit} (hwf : st.1.WellFormed) :
    Revision.Heeds .inPlace a judge h st := by
  have hafter : after (judge h) st = st := by
    obtain ⟨s, c⟩ := st
    unfold after judge
    dsimp only
    cases s.node? h <;> rfl
  refine ⟨by rwa [hafter], fun x n _ hn => ⟨n, ?_, rfl⟩⟩
  rw [hafter, hn]

/-- When the group with its three items is copied, the third call is for another copy of the item,
    although the copies before were put into groups.  When the chain of items is revised, there is a
    call for the second item also when the first is gone. -/
theorem calls_in_postorder :
    (∃ r, Revision.outcome? .copy (Revision.logged wrap) ⟨1, 0⟩ (noted, (), []) = some r ∧
      (Revision.logOf r).length = 4 ∧
      ∃ call, (Revision.logOf r)[2]? = some call ∧ Revision.Copied noted ⟨0, 0⟩ call) ∧
    ∃ r, Revision.outcome? .inPlace (Revision.logged judge) ⟨2, 0⟩ (chained, (), []) = some r ∧
      (Revision.logOf r).map Prod.fst = [⟨0, 0⟩, ⟨1, 0⟩, ⟨2, 0⟩] := by
  constructor
  · obtain ⟨visited, -, htake, hcopy, -⟩ := Store.revise_postorder reachable_noted
      unfolds_noted.isAlive unfolds_noted.acyclic wrap ()
    have hfirst : noted.traverse .post ⟨1, 0⟩ 9 = [⟨0, 0⟩, ⟨0, 0⟩, ⟨0, 0⟩, ⟨1, 0⟩] := by
      decide +kernel
    have hvisited := eq_of_take_lt ((htake 9).symm.trans hfirst) (by decide)
    obtain ⟨r, hr, -, hcalls, hlength⟩ := hcopy fun _ _ _ hwf => heeds_wrap hwf
    have hfour : (Revision.logOf r).length = 4 := by
      rw [hlength _ _ revise_wrap_noted.1, hvisited]
      rfl
    have hthird := List.getElem?_eq_getElem (l := Revision.logOf r) (i := 2) (by omega)
    obtain ⟨x, hx, hcopied⟩ := hcalls 2 _ hthird
    rw [hvisited] at hx
    cases hx
    exact ⟨r, hr, hfour, _, hthird, hcopied⟩
  · obtain ⟨visited, -, htake, -, hinPlace⟩ := Store.revise_postorder reachable_chained
      unfolds_chained.isAlive unfolds_chained.acyclic judge ()
    have hfirst : chained.traverse .post ⟨2, 0⟩ 9 = [⟨0, 0⟩, ⟨1, 0⟩, ⟨2, 0⟩] := by decide +kernel
    have hvisited := eq_of_take_lt ((htake 9).symm.trans hfirst) (by decide)
    obtain ⟨r, hr, -, -, hcalls⟩ := hinPlace (by rw [hvisited]; decide)
      fun _ _ _ hwf => heeds_judge hwf
    have hok : Store.revise .inPlace judge ⟨2, 0⟩ (chained, ())
        = .ok (some ⟨2, 0⟩) (after (Store.revise .inPlace judge ⟨2, 0⟩) (chained, ())) := by
      have hends : (Revision.bottomUpTo .inPlace judge 3 ⟨2, 0⟩ (chained, ())).isSome = true := by
        decide +kernel
      rw [after, Revision.revise_eq_bottomUpTo 3 hends]
      decide +kernel
    exact ⟨r, hr, (hcalls _ _ hok).trans hvisited⟩

end Sample

end TypedForest
