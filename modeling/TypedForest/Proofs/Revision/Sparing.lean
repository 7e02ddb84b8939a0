import TypedForest.Proofs.Store.Adding

namespace TypedForest

/-!
# What a copying revision leaves alone

A revision that makes copies reads the tree that it copies from the store that it changes, and
calls a callback that may change it too.  Nothing that was there before is touched, as long as
the callback does not touch it: the copies are made over new nodes only, since new nodes are all
that the frames ever hold.

* `Revision.Comes`, `Revision.Calls` : the states that a revision comes to, and the calls of the
  callback that it makes on the way;
* `Revision.exists_outcome` : a revision ends if each of its steps leaves less to do;
* `Revision.Spared`, `Revision.Underway` : what is true of the store and of the open frames all
  the time;
* `Store.revise_copy_spares` : the old nodes are as they were, wherever the revision stops.

How much is left to do is counted in steps, `Tree.work` for a tree that the revision has yet to
come to.  This is where it matters that there are no cycles.
-/

namespace Tree

mutual

/-- The steps that a revision needs for a tree: it comes to every node and is done with it, and
    in between it finishes the slots. -/
def work : Tree → Nat
  | node l ts => 2 + l.shapes.length + workAll ts

/-- The steps that a revision needs for trees one after the other. -/
def workAll : List Tree → Nat
  | [] => 0
  | t :: ts => t.work + workAll ts

end

end Tree

namespace Revision

/-! ### The way of a revision -/

/-- The node that a finished frame hands to the callback: its own or the copy of it. -/
def Frame.subject {τ : Type} (mode : Mode) (f : Frame) : Action τ Handle :=
  match mode with
  | .copy => f.copy
  | .inPlace => pure f.node

section

variable {τ : Type} (mode : Mode) (callback : Handle → Action τ (Option Handle))

/-- A node is finished by handing it or its copy to the callback. -/
theorem finish_eq (f : Frame) : f.finish mode callback = f.subject mode >>= callback := by
  cases mode <;> rfl

variable (root : Handle) (st : Store × τ)

/-- A revision comes to these open frames in this state. -/
inductive Comes : List Frame → Store × τ → Prop
  | enter {f : Frame} {st' : Store × τ} (henter : Frame.enter root st = .ok f st') : Comes [f] st'
  | step {frames frames' : List Frame} {st₁ st₂ : Store × τ} (hbefore : Comes frames st₁)
      (hstep : step mode callback frames st₁ = .ok (.more frames') st₂) : Comes frames' st₂

/-- A revision calls the callback for the node `h` in this state. -/
def Calls (h : Handle) (st' : Store × τ) : Prop :=
  ∃ f outer st₁, Comes mode callback root st (f :: outer) st₁ ∧ f.pending = [] ∧
    f.subject mode st₁ = .ok h st'

end

/-- The outcome of a revision. -/
abbrev Outcome (τ : Type) := EStateM.Result NodeError (Store × τ) (Option Handle)

/-- What a step leads to: an end, or frames for which a smaller number does. -/
def Proceeds {τ : Type} (Inv : Nat → List Frame → Store × τ → Prop) (Ends : Outcome τ → Prop)
    (k : Nat) : EStateM.Result NodeError (Store × τ) Progress → Prop
  | .error e st => Ends (.error e st)
  | .ok (.done result) st => Ends (.ok result st)
  | .ok (.more frames) st => ∃ j, j < k ∧ Inv j frames st

section

variable {τ : Type} {mode : Mode} {callback : Handle → Action τ (Option Handle)} {root : Handle}
  {st : Store × τ} {Inv : Nat → List Frame → Store × τ → Prop} {Ends : Outcome τ → Prop}

/-- The loop ends, and as it should, if each step from where it comes leaves less to do. -/
theorem exists_loop
    (hstep : ∀ k frames st', Comes mode callback root st frames st' → Inv k frames st' →
      Proceeds Inv Ends k (step mode callback frames st'))
    {k : Nat} {frames : List Frame} {st' : Store × τ}
    (hcomes : Comes mode callback root st frames st') (hinv : Inv k frames st') :
    ∃ r, loop mode callback frames st' = some r ∧ Ends r := by
  -- on what is left to do: the frames may grow when a node is come to, the number never does
  induction k using Nat.strong_induction_on generalizing frames st' with
  | _ k ih =>
    have hnext := hstep k frames st' hcomes hinv
    rw [loop]
    cases hs : step mode callback frames st' with
    | error e st₂ =>
      rw [hs] at hnext
      exact ⟨_, rfl, hnext⟩
    | ok progress st₂ =>
      rw [hs] at hnext
      cases progress with
      | done result => exact ⟨_, rfl, hnext⟩
      | more frames' =>
        obtain ⟨j, hj, hinv'⟩ := hnext
        exact ih j hj (hcomes.step hs) hinv'

/-- The same for a whole revision. -/
theorem exists_outcome
    (hstep : ∀ k frames st', Comes mode callback root st frames st' → Inv k frames st' →
      Proceeds Inv Ends k (step mode callback frames st'))
    {f : Frame} {st' : Store × τ} (henter : Frame.enter root st = .ok f st') {k : Nat}
    (hinv : Inv k [f] st') : ∃ r, outcome? mode callback root st = some r ∧ Ends r := by
  rw [outcome?, henter]
  exact exists_loop hstep (.enter henter) hinv

end

/-! ### What is left to do -/

/-- What a frame has to do when it gets the result that it waits for. -/
def Frame.waiting (f : Frame) : List Content :=
  match f.pending with
  | .one (some _) :: later => .one none :: later
  | pending => pending

/-- A frame that holds new nodes only.  What it has to do is in the trees of `a`, and takes `k`
    steps. -/
structure Frame.Ahead (a : Store) (f : Frame) (todo : List Content) (k : Nat) : Prop where
  held : ∀ x ∈ f.held, a.isAlive x = false
  steps : ∃ ts, List.Forall₂ a.Unfolds (todo.flatMap Content.nodes) ts ∧
    k = 1 + todo.length + Tree.workAll ts

/-- The frames outside the one in hand have `k` steps to do. -/
inductive Waiting (a : Store) : List Frame → Nat → Prop
  | nil : Waiting a [] 0
  | cons {f : Frame} {outer : List Frame} {j k : Nat} (hf : f.Ahead a f.waiting j)
      (houter : Waiting a outer k) : Waiting a (f :: outer) (j + k)

section

variable {a : Store} {f : Frame} {k : Nat}

/-- A frame that finishes a slot with new nodes holds new nodes still. -/
theorem Frame.held_closed (hheld : ∀ x ∈ f.held, a.isAlive x = false) {filling : Filling}
    (hnew : ∀ x ∈ filling.nodes, a.isAlive x = false) :
    ∀ x ∈ (f.closed .copy filling).held, a.isAlive x = false := by
  intro x hx
  simp only [Frame.held, Frame.closed, List.flatMap_cons, List.nil_append, List.mem_append] at hx
  rcases hx with hx | hx
  · exact hnew x hx
  · exact hheld x (List.mem_append_right _ hx)

/-- A slot without nodes to come to is finished in one step. -/
theorem Frame.Ahead.closed {d : Content} {later : List Content} (hf : f.Ahead a (d :: later) k)
    (hd : d.nodes = []) (hpending : f.pending.tail = later) (filling : Filling)
    (hnew : ∀ x ∈ filling.nodes, a.isAlive x = false) :
    ∃ j, j < k ∧ (f.closed .copy filling).Ahead a (f.closed .copy filling).pending j := by
  obtain ⟨ts, hts, rfl⟩ := hf.steps
  rw [List.flatMap_cons, hd, List.nil_append] at hts
  refine ⟨1 + later.length + Tree.workAll ts, ?_, Frame.held_closed hf.held hnew, ts, ?_, ?_⟩
  · rw [List.length_cons]
    omega
  · rw [Frame.closed, hpending]
    exact hts
  · rw [Frame.closed, hpending]

end

/-! ### What is true all the time -/

/-- The nodes of `a` are in `s` as they were, and if the new nodes stay `apart`, they hold only
    each other. -/
structure Spared (a : Store) (apart : Prop) (s : Store) : Prop where
  wellFormed : s.WellFormed
  keeps : ∀ x n, a.node? x = some n → s.node? x = some n
  secluded : apart → ∀ x y, a.isAlive x = false → s.Child x y → a.isAlive y = false

/-- A revision that has `k` steps to do. -/
inductive Underway {τ : Type} (a : Store) (apart : Prop) : Nat → List Frame → Store × τ → Prop
  | mk {f : Frame} {outer : List Frame} {j k : Nat} {st : Store × τ} (hf : f.Ahead a f.pending j)
      (houter : Waiting a outer k) (hst : Spared a apart st.1) :
      Underway a apart (j + k) (f :: outer) st

/-- A revision has left the old nodes alone, and returns a new one if any. -/
def Ended {τ : Type} (a : Store) (apart : Prop) : Outcome τ → Prop
  | .error _ st => Spared a apart st.1
  | .ok result st => Spared a apart st.1 ∧ ∀ h ∈ result, a.isAlive h = false

section

variable {τ : Type} {a : Store} {apart : Prop}

/-- With a new node `h`, what a node holds is in the new node or was held before. -/
theorem child_of_grow {s s' : Store} {h : Handle} {m : Node}
    (hview : ∀ x, s'.node? x = if x = h then some m else
      (s.node? x).map fun n => if x ∈ m.childNodes then { n with parent := some h } else n)
    {x y : Handle} (hchild : s'.Child x y) : (x = h ∧ y ∈ m.childNodes) ∨ s.Child x y := by
  obtain ⟨n, hn, hmem⟩ := hchild
  rw [hview] at hn
  split at hn
  · next hx =>
    cases hn
    exact .inl ⟨hx, hmem⟩
  · obtain ⟨n, hbefore, rfl⟩ := Option.map_eq_some_iff.mp hn
    refine .inr ⟨n, hbefore, ?_⟩
    split at hmem
    · exact hmem
    · exact hmem

/-- Coming to a node takes one of the steps for its tree. -/
theorem enter_of_unfolds {x : Handle} {t : Tree} (hx : a.Unfolds x t) (st : Store × τ)
    (hst : Spared a apart st.1) :
    ∃ g j, Frame.enter x st = .ok g st ∧ j < t.work ∧ g.Ahead a g.pending j := by
  obtain ⟨l, ts⟩ := t
  obtain ⟨n, hn, rfl, hts⟩ := Store.unfolds_node_iff.mp hx
  obtain ⟨s, c⟩ := st
  have hget : s.get x = .ok n := Store.get_eq_ok_iff.mpr (hst.keeps x n hn)
  refine ⟨⟨x, n.values, 0, n.children, [], []⟩, 1 + n.children.length + Tree.workAll ts, ?_, ?_,
    ?_, ts, hts, rfl⟩
  · simp only [Frame.enter, hget]
  · rw [Tree.work, Store.label, List.length_map]
    omega
  · simp [Frame.held]

/-- A new node over new nodes leaves the nodes of `a` alone. -/
theorem Spared.grow {s s' : Store} (hs : Spared a apart s) (hwf : s'.WellFormed) {h : Handle}
    {m : Node} (hfresh : s.node? h = none) (hm : ∀ x ∈ m.childNodes, a.isAlive x = false)
    (hview : ∀ x, s'.node? x = if x = h then some m else
      (s.node? x).map fun n => if x ∈ m.childNodes then { n with parent := some h } else n) :
    Spared a apart s' ∧ a.isAlive h = false := by
  have hold : ∀ x n, a.node? x = some n → x ≠ h := by
    rintro x n hn rfl
    rw [hs.keeps x n hn] at hfresh
    cases hfresh
  refine ⟨⟨hwf, fun x n hn => ?_, fun hapart x y hx hchild => ?_⟩, ?_⟩
  · have hnot : x ∉ m.childNodes := by
      intro hmem
      rw [Store.isAlive_eq_false_iff.mp (hm x hmem)] at hn
      cases hn
    rw [hview, if_neg (hold x n hn), hs.keeps x n hn, Option.map_some, if_neg hnot]
  · rcases child_of_grow hview hchild with ⟨-, hmem⟩ | hbefore
    · exact hm y hmem
    · exact hs.secluded hapart x y hx hbefore
  · refine Store.isAlive_eq_false_iff.mpr (Option.eq_none_iff_forall_ne_some.mpr ?_)
    exact fun n hn => hold h n hn rfl

/-- Copying a node fails and leaves all as it was, or makes a new node with the notes of the old
    one. -/
theorem copy_cases (f : Frame) (s : Store) (c : τ) :
    (∃ e, f.copy (s, c) = .error e (s, c)) ∨ ∃ n h s', s.node? f.node = some n ∧
      Store.construct n.kind (f.values.map .value ++ f.fillings.reverse) s = .ok h s' ∧
      f.copy (s, c) = .ok h (s'.modifyNode h fun m => { m with notes := n.notes }, c) := by
  cases hget : s.get f.node with
  | error e => exact .inl ⟨e, by simp only [Frame.copy, hget]⟩
  | ok n =>
    cases hc : Store.construct n.kind (f.values.map .value ++ f.fillings.reverse) s with
    | error e s' =>
      refine .inl ⟨e, ?_⟩
      simp only [Frame.copy, hget, hc]
      rw [Store.construct_eq_error hc]
    | ok h s' =>
      refine .inr ⟨n, h, s', Store.get_eq_ok_iff.mp hget, hc, ?_⟩
      simp only [Frame.copy, hget, hc]

/-- A copy of a node is a new node over new nodes, and without a copy nothing changes. -/
theorem Spared.copy {f : Frame} (hf : ∀ x ∈ f.held, a.isAlive x = false) {st : Store × τ}
    (hst : Spared a apart st.1) :
    (∃ e, f.copy st = .error e st) ∨
      ∃ h st', f.copy st = .ok h st' ∧ Spared a apart st'.1 ∧ a.isAlive h = false := by
  obtain ⟨s, c⟩ := st
  rcases copy_cases f s c with ⟨e, herror⟩ | ⟨n, h, s', hn, hc, hcopy⟩
  · exact .inl ⟨e, herror⟩
  · refine .inr ⟨h, _, hcopy, ?_⟩
    obtain ⟨m, hfill, -⟩ := Store.construct_eq_ok_iff.mp hc
    have hwf := hst.wellFormed
    have hfree := hwf.booked.freePlaces
    refine hst.grow ((hwf.construct (hwf.nodes _ n hn).kind hc).annotate h fun _ => n.notes)
      (Store.node?_construct hfree hfill hc).1 (fun x hx => ?_)
      (Store.node?_construct_notes hfree hfill hc n.notes)
    -- what the copy is given was held by the frame
    have hmem : x ∈ m.childNodes := hx
    rw [Store.childNodes_of_fill hfill] at hmem
    refine hf x (List.mem_append_right _ ?_)
    simpa [List.flatMap_map, Filling.nodes] using hmem

end

/-! ### The callback -/

/-- A call finds the nodes of `a` as they were and is given a new node. -/
structure Finds {τ : Type} (a : Store) (h : Handle) (st : Store × τ) : Prop where
  wellFormed : st.1.WellFormed
  keeps : ∀ x n, a.node? x = some n → st.1.node? x = some n
  fresh : a.isAlive h = false

/-- A call of the callback leaves the store well formed and the nodes of `a` as they were, and
    does not return one of them. -/
structure Spares {τ : Type} (a : Store) (callback : Handle → Action τ (Option Handle)) (h : Handle)
    (st : Store × τ) : Prop where
  wellFormed : (after (callback h) st).1.WellFormed
  untouched : ∀ x, a.isAlive x = true → (after (callback h) st).1.node? x = st.1.node? x
  fresh : ∀ r st', callback h st = .ok (some r) st' → a.isAlive r = false

/-- What a call of the callback puts into a node beside those of `a` is not a node of `a`. -/
def Secludes {τ : Type} (a : Store) (callback : Handle → Action τ (Option Handle)) (h : Handle)
    (st : Store × τ) : Prop :=
  ∀ x y, a.isAlive x = false → (after (callback h) st).1.Child x y →
    st.1.Child x y ∨ a.isAlive y = false

section

variable {τ : Type} {a : Store} {apart : Prop} {callback : Handle → Action τ (Option Handle)}

/-- A call that spares the nodes of `a` keeps what is true all the time. -/
theorem Spared.call {h : Handle} {st : Store × τ} (hst : Spared a apart st.1)
    (hspares : Spares a callback h st) (hsecludes : apart → Secludes a callback h st) :
    Ended a apart (callback h st) := by
  have hafter : Spared a apart (after (callback h) st).1 := by
    refine ⟨hspares.wellFormed, fun x n hn => ?_, fun hapart x y hx hchild => ?_⟩
    · rw [hspares.untouched x (Store.isAlive_of_node? hn)]
      exact hst.keeps x n hn
    · rcases hsecludes hapart x y hx hchild with hbefore | hnew
      · exact hst.secluded hapart x y hx hbefore
      · exact hnew
  cases hr : callback h st with
  | error e st' =>
    rw [Store.after_of_error hr] at hafter
    exact hafter
  | ok result st' =>
    rw [Store.after_of_ok hr] at hafter
    refine ⟨hafter, ?_⟩
    rintro r rfl
    exact hspares.fresh r st' hr

/-- A frame takes over a result that is new. -/
theorem Frame.Ahead.receive {g : Frame} {k : Nat} (hg : g.Ahead a g.waiting k)
    {result : Option Handle} (hnew : ∀ h ∈ result, a.isAlive h = false) (st : Store × τ) :
    ∃ g' j, (g.receive .copy result : Action τ Frame) st = .ok g' st ∧ j ≤ k ∧
      g'.Ahead a g'.pending j := by
  have hfilling : ∀ x ∈ (Filling.one result).nodes, a.isAlive x = false := by
    intro x hx
    exact hnew x (Option.mem_toList.mp hx)
  unfold Frame.waiting at hg
  unfold Frame.receive
  match hp : g.pending with
  | [] =>
    -- no frame waits without a child to wait for, but the step is defined here too
    rw [hp] at hg
    obtain ⟨ts, hts, rfl⟩ := hg.steps
    refine ⟨g.closed .copy (.one result), _, rfl, Nat.le_refl _,
      Frame.held_closed hg.held hfilling, ts, ?_, ?_⟩
    · rw [Frame.closed, hp]
      exact hts
    · rw [Frame.closed, hp]
      rfl
  | .one none :: later =>
    rw [hp] at hg
    obtain ⟨j, hj, hahead⟩ := hg.closed rfl (by rw [hp]; rfl) (.one result) hfilling
    exact ⟨_, j, rfl, hj.le, hahead⟩
  | .one (some x) :: later =>
    rw [hp] at hg
    obtain ⟨j, hj, hahead⟩ := hg.closed rfl (by rw [hp]; rfl) (.one result) hfilling
    exact ⟨_, j, rfl, hj.le, hahead⟩
  | .many xs :: later =>
    -- the slot stays open, so the same steps are left
    rw [hp] at hg
    refine ⟨_, k, rfl, Nat.le_refl k, fun x hx => ?_, ?_⟩
    · simp only [Frame.held, List.append_assoc, List.mem_append, Option.mem_toList] at hx
      rcases hx with hx | hx
      · exact hnew x hx
      · exact hg.held x (List.mem_append.mpr hx)
    · simpa only [hp] using hg.steps

/-- A node is done: its copy is handed to the callback. -/
theorem Underway.finish {f : Frame} {outer : List Frame} {st : Store × τ} {j k : Nat}
    (hp : f.pending = []) (hf : f.Ahead a f.pending j) (houter : Waiting a outer k)
    (hst : Spared a apart st.1)
    (hcall : ∀ h st', f.subject .copy st = .ok h st' → Spared a apart st'.1 →
      a.isAlive h = false → Ended a apart (callback h st')) :
    Proceeds (Underway a apart) (Ended a apart) (j + k) (step .copy callback (f :: outer) st) := by
  rw [step]
  simp only [hp, finish_eq, Store.bind_apply]
  rcases hst.copy hf.held with ⟨e, herror⟩ | ⟨h, st₁, hcopy, hst₁, hnew⟩
  · have hsubject : f.subject .copy st = .error e st := herror
    rw [hsubject]
    exact hst
  · have hsubject : f.subject .copy st = .ok h st₁ := hcopy
    rw [hsubject]
    have hended := hcall h st₁ hsubject hst₁ hnew
    dsimp only
    cases hr : callback h st₁ with
    | error e st₂ =>
      rw [hr] at hended
      exact hended
    | ok result st₂ =>
      rw [hr] at hended
      obtain ⟨hst₂, hresult⟩ := hended
      cases houter with
      | nil => exact ⟨hst₂, hresult⟩
      | @cons g outer i k hg houter =>
        obtain ⟨g', i', hreceive, hle, hg'⟩ := hg.receive hresult st₂
        dsimp only
        rw [Store.bind_apply, hreceive]
        refine ⟨i' + k, ?_, .mk hg' houter hst₂⟩
        obtain ⟨ts, -, rfl⟩ := hf.steps
        omega

section

variable {f : Frame} {outer : List Frame} {st : Store × τ} {j k : Nat}
  (hf : f.Ahead a f.pending j) (houter : Waiting a outer k) (hst : Spared a apart st.1)
include hf houter hst

/-- A slot without nodes to come to is finished. -/
theorem Underway.close {d : Content} {later : List Content} (hp : f.pending = d :: later)
    (hd : d.nodes = []) (filling : Filling) (hnew : ∀ x ∈ filling.nodes, a.isAlive x = false)
    (hstep : step .copy callback (f :: outer) st
      = .ok (.more (f.closed .copy filling :: outer)) st) :
    Proceeds (Underway a apart) (Ended a apart) (j + k) (step .copy callback (f :: outer) st) := by
  rw [hp] at hf
  obtain ⟨i, hi, hahead⟩ := hf.closed hd (by rw [hp]; rfl) filling hnew
  rw [hstep]
  exact ⟨i + k, by omega, .mk hahead houter hst⟩

/-- The next node is come to, and the frame waits for it as `f'`. -/
theorem Underway.enter (f' : Frame) (x : Handle) (hheld : f'.held = f.held)
    (hlength : f'.waiting.length = f.pending.length)
    (hnodes : f.pending.flatMap Content.nodes = x :: f'.waiting.flatMap Content.nodes)
    (hstep : ∀ g, Frame.enter x st = .ok g st →
      step .copy callback (f :: outer) st = .ok (.more (g :: f' :: outer)) st) :
    Proceeds (Underway a apart) (Ended a apart) (j + k) (step .copy callback (f :: outer) st) := by
  obtain ⟨ts, hts, rfl⟩ := hf.steps
  rw [hnodes] at hts
  obtain ⟨t, ts, hx, hlater, rfl⟩ := List.forall₂_cons_left_iff.mp hts
  obtain ⟨g, i, henter, hi, hg⟩ := enter_of_unfolds hx st hst
  -- the steps for the tree of `x` go to the new frame, and the rest stays with the one that waits
  have hwaiting : f'.Ahead a f'.waiting (1 + f.pending.length + Tree.workAll ts) := by
    refine ⟨?_, ts, hlater, by rw [hlength]⟩
    rw [hheld]
    exact hf.held
  rw [hstep g henter]
  refine ⟨i + (_ + k), ?_, .mk hg (.cons hwaiting houter) hst⟩
  rw [Tree.workAll]
  omega

end

end

/-- **Step by step.**  Each step of a copying revision leaves the nodes of `a` alone and leaves
    less to do, if the callback leaves them alone. -/
theorem Underway.step {τ : Type} {a : Store} {apart : Prop}
    {callback : Handle → Action τ (Option Handle)} {root : Handle} {st : Store × τ}
    (hcalls : ∀ h st', Calls .copy callback root st h st' → Spared a apart st'.1 →
      a.isAlive h = false → Ended a apart (callback h st'))
    {k : Nat} {frames : List Frame} {st' : Store × τ}
    (hcomes : Comes .copy callback root st frames st') (hinv : Underway a apart k frames st') :
    Proceeds (Underway a apart) (Ended a apart) k (Revision.step .copy callback frames st') := by
  obtain @⟨f, outer, j, k, _, hf, houter, hst⟩ := hinv
  match hp : f.pending with
  | [] =>
    refine Underway.finish hp hf houter hst fun h st₁ hsubject => ?_
    exact hcalls h st₁ ⟨f, outer, st', hcomes, hp, hsubject⟩
  | .one none :: later =>
    refine Underway.close hf houter hst hp rfl (.one none) (fun x hx => by cases hx) ?_
    simp only [Revision.step, hp]
    rfl
  | .one (some x) :: later =>
    refine Underway.enter hf houter hst f x rfl ?_ ?_ fun g henter => ?_
    · simp only [Frame.waiting, hp, List.length_cons]
    · simp only [Frame.waiting, hp]
      rfl
    · simp only [Revision.step, hp, Store.bind_apply, henter]
      rfl
  | .many [] :: later =>
    refine Underway.close hf houter hst hp rfl (.many f.results.reverse) (fun x hx => ?_) ?_
    · exact hf.held x (List.mem_append_left _ (List.mem_reverse.mp hx))
    · simp only [Revision.step, hp]
      rfl
  | .many (x :: rest) :: later =>
    refine Underway.enter hf houter hst { f with pending := .many rest :: later } x rfl ?_ ?_
      fun g henter => ?_
    · rw [hp]
      rfl
    · rw [hp]
      rfl
    · simp only [Revision.step, hp, Store.bind_apply, henter]
      rfl

end Revision

/-- **A copying revision spares what was there.**  If there are no cycles below the root and no
    call of the callback changes, frees or returns a node that was there before, the revision
    ends; and wherever it stops, every node that was there is as it was, with its parent and its
    notes.  If moreover the calls put only new nodes into new nodes, nothing that can be reached
    from a returned node was there before.  Of a call this is asked for a new node in a store in
    which the old nodes are as they were, since the revision makes no other. -/
theorem Store.revise_copy_spares {schema : Schema} {a : Store} (hs : Reachable schema a)
    {root : Handle} (halive : a.isAlive root = true) (hacyclic : a.Acyclic root) {τ : Type}
    (callback : Handle → Revision.Action τ (Option Handle)) (c : τ)
    (hspares : ∀ h st, Revision.Calls .copy callback root (a, c) h st → Revision.Finds a h st →
      Revision.Spares a callback h st) :
    (∃ r, Revision.outcome? .copy callback root (a, c) = some r) ∧
      (∀ x n, a.node? x = some n →
        (after (revise .copy callback root) (a, c)).1.node? x = some n) ∧
      ((∀ h st, Revision.Calls .copy callback root (a, c) h st → Revision.Finds a h st →
          Revision.Secludes a callback h st) →
        ∀ r st, revise .copy callback root (a, c) = .ok (some r) st →
          ∀ x, st.1.Reaches r x → a.isAlive x = false) := by
  have hwf := hs.wellFormed_store
  obtain ⟨t, ht⟩ := exists_unfolds hwf halive hacyclic
  let apart : Prop := ∀ h st, Revision.Calls .copy callback root (a, c) h st →
    Revision.Finds a h st → Revision.Secludes a callback h st
  have hstart : Revision.Spared a apart a := by
    refine ⟨hwf, fun _ _ hn => hn, fun _ x y hx hchild => ?_⟩
    obtain ⟨n, hn, -⟩ := hchild
    rw [isAlive_of_node? hn] at hx
    cases hx
  -- each call finds the old nodes as they were, and leaves them so
  have hcalls : ∀ h st, Revision.Calls .copy callback root (a, c) h st →
      Revision.Spared a apart st.1 → a.isAlive h = false →
      Revision.Ended a apart (callback h st) := by
    intro h st hcall hst hnew
    have hfinds : Revision.Finds a h st := ⟨hst.wellFormed, hst.keeps, hnew⟩
    exact hst.call (hspares h st hcall hfinds) fun hapart => hapart h st hcall hfinds
  obtain ⟨f, k, henter, -, hf⟩ := Revision.enter_of_unfolds ht (a, c) hstart
  obtain ⟨r, hr, hended⟩ := Revision.exists_outcome
    (fun _ _ _ hcomes hinv => Revision.Underway.step hcalls hcomes hinv) henter (.mk hf .nil hstart)
  have hrevise : revise .copy callback root (a, c) = r := by
    rw [revise, hr, Option.getD_some]
  refine ⟨⟨r, hr⟩, ?_, fun hapart r' st hr' => ?_⟩
  · cases r with
    | error e st =>
      rw [after_of_error hrevise]
      exact hended.keeps
    | ok result st =>
      rw [after_of_ok hrevise]
      exact hended.1.keeps
  · rw [hrevise] at hr'
    subst hr'
    obtain ⟨hst, hnew⟩ := hended
    intro x hx
    -- along the way from the returned node every node is new
    induction hx with
    | refl => exact hnew r' rfl
    | tail _ hchild ih => exact hst.secluded hapart _ _ ih hchild

namespace Sample

/-- A callback that puts every copy into a new group. -/
def wrap (h : Handle) : Revision.Action Unit (Option Handle) := do
  let r ← Revision.onStore
    (Store.constructNamed "group" [.value (.str "wrap"), .one (some h), .many []])
  return some r

/-- It makes a new group that holds the copy, or leaves the store as it was. -/
theorem wrap_cases (h : Handle) {st : Store × Unit} (hs : st.1.WellFormed) :
    (∃ e, wrap h st = .error e st) ∨
    ∃ r st' m, wrap h st = .ok (some r) st' ∧ st'.1.WellFormed ∧ st.1.node? r = none ∧
      m.childNodes = [h] ∧
      ∀ x, st'.1.node? x = if x = r then some m else
        (st.1.node? x).map fun n =>
          if x ∈ m.childNodes then { n with parent := some r } else n := by
  obtain ⟨s, c⟩ := st
  cases hk : s.schema.kindByName? "group" with
  | none =>
    refine .inl ⟨.unknownKind "group", ?_⟩
    simp only [wrap, Store.bind_apply, Revision.onStore, Store.constructNamed, hk]
  | some k =>
    cases hc : Store.construct k [.value (.str "wrap"), .one (some h), .many []] s with
    | error e s' =>
      refine .inl ⟨e, ?_⟩
      simp only [wrap, Store.bind_apply, Revision.onStore, Store.constructNamed, hk, hc]
      rw [Store.construct_eq_error hc]
    | ok r s' =>
      obtain ⟨m, hfill, -⟩ := Store.construct_eq_ok_iff.mp hc
      obtain ⟨hfresh, -, hview⟩ := Store.node?_construct hs.booked.freePlaces hfill hc
      refine .inr ⟨r, (s', c), m, ?_, hs.construct (Schema.kindByName?_eq_some hk).1 hc, hfresh,
        Store.childNodes_of_fill hfill, hview⟩
      simp only [wrap, Store.bind_apply, Revision.onStore, Store.constructNamed, hk, hc]
      rfl

/-- The callback that wraps a node makes one node more, over the one it was given. -/
theorem spares_wrap {a : Store} {h : Handle} {st : Store × Unit} (hfinds : Revision.Finds a h st) :
    Revision.Spares a wrap h st ∧ Revision.Secludes a wrap h st := by
  rcases wrap_cases h hfinds.wellFormed with
    ⟨e, herror⟩ | ⟨r, st', m, hok, hwf, hfresh, hchildren, hview⟩
  · have hafter : after (wrap h) st = st := Store.after_of_error herror
    refine ⟨⟨?_, fun x _ => ?_, fun r st' hr => ?_⟩, fun x y _ hchild => .inl ?_⟩
    · rw [hafter]
      exact hfinds.wellFormed
    · rw [hafter]
    · rw [herror] at hr
      cases hr
    · rw [hafter] at hchild
      exact hchild
  · have hafter : after (wrap h) st = st' := Store.after_of_ok hok
    have hnew : ∀ x ∈ m.childNodes, a.isAlive x = false := by
      intro x hx
      rw [hchildren, List.mem_singleton] at hx
      rw [hx]
      exact hfinds.fresh
    have hspared : Revision.Spared a False st.1 := ⟨hfinds.wellFormed, hfinds.keeps, False.elim⟩
    obtain ⟨hspared', hr⟩ := hspared.grow hwf hfresh hnew hview
    refine ⟨⟨?_, fun x hx => ?_, fun r' st₁ hr' => ?_⟩, fun x y _ hchild => ?_⟩
    · rw [hafter]
      exact hwf
    · obtain ⟨n, hn⟩ := Store.isAlive_iff.mp hx
      rw [hafter, hspared'.keeps x n hn, hfinds.keeps x n hn]
    · rw [hok] at hr'
      cases hr'
      exact hr
    · rw [hafter] at hchild
      rcases Revision.child_of_grow hview hchild with ⟨-, hmem⟩ | hbefore
      · exact .inr (hnew y hmem)
      · exact .inl hbefore

/-- The store after the revision of a group with this callback. -/
def wrapped : Store := (after (Store.revise .copy wrap ⟨1, 0⟩) (noted, ())).1

/-- The revision and its store as they are computed. -/
theorem revise_wrap_noted :
    Store.revise .copy wrap ⟨1, 0⟩ (noted, ()) = .ok (some ⟨9, 0⟩) (wrapped, ()) ∧
      wrapped.live = 10 := by
  have hends : (Revision.bottomUpTo .copy wrap 2 ⟨1, 0⟩ (noted, ())).isSome = true := by
    decide +kernel
  rw [wrapped, after, Revision.revise_eq_bottomUpTo 2 hends]
  decide +kernel

/-- A group with a shared item is wrapped all through, over new nodes only. -/
theorem wrapped_noted :
    Store.revise .copy wrap ⟨1, 0⟩ (noted, ()) = .ok (some ⟨9, 0⟩) (wrapped, ()) ∧
      wrapped.live = 10 ∧ (∀ x n, noted.node? x = some n → wrapped.node? x = some n) ∧
      ∀ x, wrapped.Reaches ⟨9, 0⟩ x → noted.isAlive x = false := by
  obtain ⟨-, hkeeps, hapart⟩ := Store.revise_copy_spares reachable_noted unfolds_noted.isAlive
    unfolds_noted.acyclic wrap () fun _ _ _ hfinds => (spares_wrap hfinds).1
  obtain ⟨hrevise, hlive⟩ := revise_wrap_noted
  refine ⟨hrevise, hlive, hkeeps, ?_⟩
  exact hapart (fun _ _ _ hfinds => (spares_wrap hfinds).2) _ _ hrevise

end Sample

end TypedForest
