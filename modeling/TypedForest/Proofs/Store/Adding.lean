import TypedForest.Proofs.Store.Copy

namespace TypedForest

/-!
# Operations that only add nodes

Restoring a snapshot and copying a tree make nodes one after the other, and may stop after any of
them.  What was there before is left alone, and a new node is given new nodes only, each of which
it alone holds.  So wherever such an operation stops, trees have grown (`Store.Sprouts`).

Their roots are the nodes that the operation has in hand, and others that it has made in vain: a
snapshot may have several entries for one slot, of which only the last one counts.  `Store.Grown`
says this of a store and `Store.Carries` of an operation.  How an operation is put together from
others is then a matter of which nodes are handed on.

* `Store.exists_sprouts_restore` : restoring only adds nodes;
* `Revision.exists_sprouts_revise` : so does a revision that copies and keeps what it is given.
-/

namespace Store

/-- Since the store was `s₀` only trees have grown, and the given nodes are different roots of
    them. -/
structure Grown (s₀ s : Store) (held : List Handle) : Prop where
  wellFormed : s.WellFormed
  sprouts : ∃ roots, Sprouts s₀ s roots ∧ held.Subperm roots

/-- A well-formed store has grown out of itself, with nothing in hand. -/
theorem Grown.start {s : Store} (hs : s.WellFormed) : Grown s s [] :=
  ⟨hs, [], .refl s, .refl []⟩

/-- Nodes may be let go of. -/
theorem Grown.weaken {s₀ s : Store} {held fewer : List Handle} (h : Grown s₀ s held)
    (hfewer : fewer.Subperm held) : Grown s₀ s fewer := by
  obtain ⟨hwf, roots, hsprouts, hheld⟩ := h
  exact ⟨hwf, roots, hsprouts, hfewer.trans hheld⟩

/-- What is in hand may be left lying in the store. -/
theorem Grown.drop {s₀ s : Store} {held : List Handle} (h : Grown s₀ s held) : Grown s₀ s [] :=
  h.weaken (List.nil_subperm)

/-- Growing keeps the schema. -/
theorem Grown.schema {s₀ s : Store} {held : List Handle} (h : Grown s₀ s held) :
    s.schema = s₀.schema := by
  obtain ⟨-, roots, hsprouts, -⟩ := h
  exact hsprouts.schema

/-- A new node takes the place of its children among the nodes in hand. -/
theorem Grown.construct {s₀ s s' : Store} {args : List Filling} {outer : List Handle}
    (h : Grown s₀ s (args.flatMap Filling.nodes ++ outer)) {k : KindId} (hk : s.Known k)
    {r : Handle} (hc : Store.construct k args s = .ok r s') (notes : Notes) :
    Grown s₀ (s'.modifyNode r fun m => { m with notes := notes }) (r :: outer) := by
  obtain ⟨hwf, roots, hsprouts, hheld⟩ := h
  have hsteps : Steps s (s'.modifyNode r fun m => { m with notes := notes }) :=
    (Relation.ReflTransGen.single (.construct hk hc)).tail (.annotate r fun _ => notes)
  obtain ⟨n, hfill, -⟩ := construct_eq_ok_iff.mp hc
  have hfresh := (node?_construct hwf.booked.freePlaces hfill hc).1
  have hview := node?_construct_notes hwf.booked.freePlaces hfill hc notes
  -- the roots are the children, the other nodes in hand, and those that nobody waits for
  obtain ⟨held, hperm, hsub⟩ := hheld
  obtain ⟨others, hroots⟩ := hsub.exists_perm_append
  have hsplit : roots.Perm (n.childNodes ++ (outer ++ others)) := by
    rw [childNodes_of_fill hfill, ← List.append_assoc]
    exact hroots.trans (hperm.append_right others)
  refine ⟨hwf.steps hsteps, r :: (outer ++ others), ?_, ?_⟩
  · exact Sprouts.over (n := { n with notes := notes }) (hsprouts.perm hsplit) hsteps.schema hfresh
      (fill_eq_ok hfill).2.1 hview
  · exact ((List.sublist_append_left outer others).cons_cons r).subperm

/-! ### Handing nodes on -/

section

variable {ε σ α β : Type}

/-- The nodes of a result are in hand.  Of a failure all that is said is that trees have grown. -/
def Yielded (store : σ → Store) (s₀ : Store) (nodes : α → List Handle) :
    EStateM.Result ε σ α → Prop
  | .ok a st => Grown s₀ (store st) (nodes a)
  | .error _ st => Grown s₀ (store st) []

/-- From any state in which `held` are in hand, the operation leads to one in which the nodes of
    its result are. -/
def Carries (store : σ → Store) (s₀ : Store) (held : List Handle) (x : EStateM ε σ α)
    (nodes : α → List Handle) : Prop :=
  ∀ st, Grown s₀ (store st) held → Yielded store s₀ nodes (x st)

variable {store : σ → Store} {s₀ : Store} {held : List Handle}

/-- A step that makes nothing may return what is in hand. -/
theorem carries_pure {a : α} {nodes : α → List Handle} (ha : (nodes a).Subperm held) :
    Carries store s₀ held (pure a : EStateM ε σ α) nodes :=
  fun _ hst => hst.weaken ha

/-- Steps one after the other: the second starts with what the first has in hand. -/
theorem Carries.bind {x : EStateM ε σ α} {f : α → EStateM ε σ β} {mid : α → List Handle}
    {nodes : β → List Handle} (hx : Carries store s₀ held x mid)
    (hf : ∀ a, Carries store s₀ (mid a) (f a) nodes) : Carries store s₀ held (x >>= f) nodes := by
  intro st hst
  have hfirst := hx st hst
  rw [bind_apply]
  cases h : x st with
  | error e st' =>
    rw [h] at hfirst
    exact hfirst
  | ok a st' =>
    rw [h] at hfirst
    exact hf a st' hfirst

/-- Only the outcome matters. -/
theorem Carries.congr {x y : EStateM ε σ α} {nodes : α → List Handle}
    (hy : Carries store s₀ held y nodes) (hxy : ∀ st, x st = y st) :
    Carries store s₀ held x nodes := by
  intro st hst
  rw [hxy]
  exact hy st hst

/-- Wherever an operation stops that starts with empty hands, trees have grown. -/
theorem Carries.exists_sprouts {x : EStateM ε σ α} {nodes : α → List Handle} {st : σ}
    (hx : Carries store (store st) [] x nodes) (hwf : (store st).WellFormed) :
    ∃ roots, Sprouts (store st) (store (after x st)) roots := by
  have hend := hx st (.start hwf)
  unfold after
  cases h : x st with
  | error e st' =>
    rw [h] at hend
    obtain ⟨-, roots, hsprouts, -⟩ := hend
    exact ⟨roots, hsprouts⟩
  | ok a st' =>
    rw [h] at hend
    obtain ⟨-, roots, hsprouts, -⟩ := hend
    exact ⟨roots, hsprouts⟩

end

/-! ### Restoring -/

theorem nodes_settle (slot : ChildSlot) (f : Filling) : (settle slot f).nodes = f.nodes := by
  unfold settle
  split
  · next h =>
    rw [h.2]
    rfl
  · rfl

/-- Settling fillings for their slots adds no nodes. -/
theorem subperm_zipWith_settle (slots : List ChildSlot) (fs : List Filling) :
    ((List.zipWith settle slots fs).flatMap Filling.nodes).Subperm
      (fs.flatMap Filling.nodes) := by
  induction fs generalizing slots with
  | nil =>
    rw [List.zipWith_nil_right]
  | cons f fs ih =>
    cases slots with
    | nil => exact List.nil_subperm
    | cons slot slots =>
      rw [List.zipWith_cons_cons, List.flatMap_cons, List.flatMap_cons, nodes_settle]
      exact (List.subperm_append_left _).mpr (ih slots)

/-- What is put into a slot comes in, and what was in it may go. -/
theorem subperm_flatMap_set (fs : List Filling) (i : Nat) (f : Filling) :
    ((fs.set i f).flatMap Filling.nodes).Subperm (f.nodes ++ fs.flatMap Filling.nodes) := by
  induction fs generalizing i with
  | nil => exact List.nil_subperm
  | cons g fs ih =>
    refine List.subperm_ext_iff.mpr fun x _ => ?_
    cases i with
    | zero =>
      simp only [List.set_cons_zero, List.flatMap_cons, List.count_append]
      omega
    | succ i =>
      have hrest := (ih i).count_le x
      simp only [List.set_cons_succ, List.flatMap_cons, List.count_append] at hrest ⊢
      omega

/-- Fillings for value slots hold no nodes. -/
theorem flatMap_nodes_placeValues {kind : Kind} {values : List (String × Value)}
    {fs vs : List Filling} (hvs : placeValues kind values fs = .ok vs)
    (hfs : fs.flatMap Filling.nodes = []) : vs.flatMap Filling.nodes = [] := by
  induction values generalizing fs with
  | nil =>
    cases hvs
    exact hfs
  | cons entry rest ih =>
    obtain ⟨name, v⟩ := entry
    rw [placeValues] at hvs
    split at hvs
    · cases hvs
    · next i hi =>
      refine ih hvs (List.subperm_nil.mp ?_)
      have hset := subperm_flatMap_set fs i (.value v)
      rw [hfs] at hset
      exact hset

/-- A node with notes takes its arguments out of hand and comes into hand itself; if it is refused,
    nothing is in hand. -/
theorem Grown.constructAnnotated {s₀ s : Store} {args : List Filling} {outer : List Handle}
    (h : Grown s₀ s (args.flatMap Filling.nodes ++ outer)) {k : KindId} (hk : s.Known k)
    (notes : List (String × Value)) :
    Yielded id s₀ (fun r => r :: outer) (Store.constructAnnotated k args notes s) := by
  cases hc : Store.construct k args s with
  | ok r s' =>
    rw [constructAnnotated_eq h.wellFormed.booked.freePlaces hc]
    exact h.construct hk hc (Notes.ofList notes)
  | error e s' =>
    have hmake : Store.constructAnnotated k args notes s = .error e s' := by
      unfold Store.constructAnnotated
      rw [bind_apply, hc]
    rw [hmake, construct_eq_error hc]
    exact h.drop

section

variable {s₀ : Store} {restore : Snapshot → Edit Handle}
  (hrestore : ∀ t held, Carries id s₀ held (restore t) fun h => h :: held)
include hrestore

/-- Several snapshots are restored one after the other, and all of their roots are in hand. -/
theorem carries_restoreAll (ts : List Snapshot) (held : List Handle) :
    Carries id s₀ held (restoreAll restore ts) fun hs => hs ++ held := by
  induction ts generalizing held with
  | nil => exact carries_pure (.refl held)
  | cons t ts ih =>
    refine Carries.congr ?_ (restoreAll_cons restore t ts)
    refine (hrestore t held).bind fun h => (ih (h :: held)).bind fun hs => carries_pure ?_
    exact List.perm_middle.symm.subperm

/-- So it is for the content of a slot. -/
theorem carries_restoreChild (c : Snapshot.Child) (held : List Handle) :
    Carries id s₀ held (restoreChild restore c) fun f => f.nodes ++ held := by
  cases c with
  | absent => exact carries_pure (.refl held)
  | node t =>
    refine Carries.congr ?_ (restoreChild_node restore t)
    exact (hrestore t held).bind fun h => carries_pure (.refl (h :: held))
  | list ts =>
    refine Carries.congr ?_ (restoreChild_list restore ts)
    exact (carries_restoreAll hrestore ts held).bind fun hs => carries_pure (.refl (hs ++ held))

/-- And for the contents of all slots. -/
theorem carries_placeChildren (kind : Kind) (children : List (String × Snapshot.Child))
    (fs : List Filling) (held : List Handle) :
    Carries id s₀ (fs.flatMap Filling.nodes ++ held) (placeChildren restore kind children fs)
      fun fs' => fs'.flatMap Filling.nodes ++ held := by
  induction children generalizing fs with
  | nil => exact carries_pure (.refl _)
  | cons entry rest ih =>
    obtain ⟨name, c⟩ := entry
    cases hi : kind.childIndex? name with
    | none =>
      intro s hs
      rw [placeChildren, hi]
      exact hs.drop
    | some i =>
      refine Carries.congr ?_ (placeChildren_cons restore hi c rest fs)
      refine (carries_restoreChild hrestore c _).bind fun f s hs => ?_
      rw [← List.append_assoc] at hs
      refine ih (fs.set i f) s (hs.weaken ?_)
      exact (List.subperm_append_right held).mpr (subperm_flatMap_set fs i f)

end

theorem flatMap_nodes_replicate (n : Nat) {f : Filling} (hf : f.nodes = []) :
    (List.replicate n f).flatMap Filling.nodes = [] := by
  refine List.flatMap_eq_nil_iff.mpr fun g hg => ?_
  rw [List.eq_of_mem_replicate hg, hf]

/-- Rebuilding a snapshot keeps the nodes in hand, and brings in the root. -/
theorem carries_rebuild (s₀ : Store) (n : Nat) (t : Snapshot) (held : List Handle) :
    Carries id s₀ held (rebuild n t) fun h => h :: held := by
  induction n generalizing t held with
  | zero => exact fun s hs => hs.drop
  | succ n ih =>
    obtain ⟨name, values, children, notes⟩ := t
    intro s hs
    cases hk : s.schema.kindByName? name with
    -- a name that no kind has, or a value without a slot: nothing was made
    | none =>
      rw [rebuild, hk]
      exact hs.drop
    | some k =>
      cases hvs : placeValues (s.schema.kind k) values
          (List.replicate (s.schema.kind k).values.length (.value .null)) with
      | error e =>
        simp only [rebuild, hk, hvs]
        exact hs.drop
      | ok vs =>
        have hvalues := flatMap_nodes_placeValues hvs (flatMap_nodes_replicate _ rfl)
        have hplace := carries_placeChildren ih (s.schema.kind k) children
          (List.replicate (s.schema.kind k).children.length (.one none)) held s
          (by rw [flatMap_nodes_replicate _ rfl]; exact hs)
        rw [rebuild_succ hk hvs, bind_apply]
        cases hcs : placeChildren (rebuild n) (s.schema.kind k) children
            (List.replicate (s.schema.kind k).children.length (.one none)) s with
        | error e s' =>
          rw [hcs] at hplace
          exact hplace
        | ok cs s' =>
          rw [hcs] at hplace
          have hschema : s'.schema = s.schema := (Grown.schema hplace).trans (Grown.schema hs).symm
          have hknown : s'.Known k := by
            refine .inl ?_
            rw [hschema]
            exact (Schema.kindByName?_eq_some hk).1
          -- the restored children are in hand until the node takes them
          have hargs : Grown s₀ s' ((vs ++ List.zipWith settle (s.schema.kind k).children
              cs).flatMap Filling.nodes ++ held) := by
            refine hplace.weaken ?_
            rw [List.flatMap_append, hvalues, List.nil_append]
            exact (List.subperm_append_right held).mpr (subperm_zipWith_settle _ cs)
          exact hargs.constructAnnotated hknown notes.entries

/-- Restoring a snapshot only adds nodes, wherever it stops. -/
theorem exists_sprouts_restore {s : Store} (hs : s.WellFormed) (t : Snapshot) :
    ∃ roots, Sprouts s (after (restore t) s) roots := by
  have hcarries : Carries id (id s) [] (restore t) fun h => [h] :=
    carries_rebuild s Snapshot.maxDepth t []
  exact hcarries.exists_sprouts hs

end Store

/-! ### Copying -/

namespace Revision

/-- The new nodes that wait in a frame for their parent. -/
def Frame.held (f : Frame) : List Handle := f.results ++ f.fillings.flatMap Filling.nodes

/-- The new nodes that a revision has in hand. -/
def Progress.held : Progress → List Handle
  | .more frames => frames.flatMap Frame.held
  | .done result => result.toList

section

variable {τ : Type} {s₀ : Store}

/-- A frame that is entered has nothing in hand yet. -/
theorem carries_enter (h : Handle) (held : List Handle) :
    Store.Carries Prod.fst s₀ held (Frame.enter h : Action τ Frame) fun g => g.held ++ held := by
  rintro ⟨s, c⟩ hs
  unfold Frame.enter
  dsimp only
  cases s.get h with
  | error e => exact hs.drop
  | ok n => exact hs

/-- A slot that is finished holds the nodes of its filling. -/
theorem carries_close (f : Frame) {filling : Filling} {held outer : List Handle}
    (hheld : (filling.nodes ++ (f.fillings.flatMap Filling.nodes ++ outer)).Subperm held) :
    Store.Carries Prod.fst s₀ held (f.close .copy filling : Action τ Frame)
      fun g => g.held ++ outer := by
  refine Store.carries_pure ?_
  simpa [Frame.held] using hheld

/-- The copy of a node takes the place of the nodes in its slots. -/
theorem carries_copy (f : Frame) (outer : List Handle) :
    Store.Carries Prod.fst s₀ (f.held ++ outer) (f.copy : Action τ Handle) fun h => h :: outer := by
  rintro ⟨s, c⟩ hs
  unfold Frame.copy
  dsimp only
  cases hget : s.get f.node with
  | error e => exact hs.drop
  | ok n =>
    have hknown : s.Known n.kind := .inr ⟨f.node, n, Store.get_eq_ok_iff.mp hget, rfl⟩
    dsimp only
    cases hc : Store.construct n.kind (f.values.map .value ++ f.fillings.reverse) s with
    | error e s' =>
      rw [Store.construct_eq_error hc]
      exact hs.drop
    | ok h s' =>
      refine Store.Grown.construct (hs.weaken ?_) hknown hc n.notes
      -- the arguments hold the nodes of the fillings and no others
      have hvalues : (f.values.map Filling.value).flatMap Filling.nodes = [] := by
        simp [List.flatMap_map, Filling.nodes]
      rw [List.flatMap_append, hvalues, List.nil_append]
      refine (List.subperm_append_right outer).mpr ?_
      have hperm := (List.reverse_perm f.fillings).flatMap_right Filling.nodes
      exact hperm.subperm.trans (List.sublist_append_right _ _).subperm

/-- A frame takes over the result of the node below. -/
theorem carries_receive (f : Frame) (result : Option Handle) (outer : List Handle) :
    Store.Carries Prod.fst s₀ (result.toList ++ (f.held ++ outer))
      (f.receive .copy result : Action τ Frame) fun g => g.held ++ outer := by
  unfold Frame.receive
  split
  · refine Store.carries_pure ?_
    simp only [Frame.held, List.append_assoc]
    exact .refl _
  · refine carries_close f ((List.subperm_append_left _).mpr ?_)
    refine (List.subperm_append_right outer).mpr ?_
    exact (List.sublist_append_right _ _).subperm

/-- One step of a copying revision: the nodes in hand are those that the frames hold. -/
theorem carries_step (frames : List Frame) :
    Store.Carries Prod.fst s₀ (frames.flatMap Frame.held)
      (step .copy keep frames : Action τ Progress) Progress.held := by
  cases frames with
  | nil => exact Store.carries_pure (.refl _)
  | cons f outer =>
    -- the results of the open slot are held besides the fillings
    have hfillings : (f.fillings.flatMap Filling.nodes).Subperm f.held :=
      (List.sublist_append_right _ _).subperm
    rw [step, List.flatMap_cons]
    split
    · refine (carries_close f ?_).bind fun _ => Store.carries_pure (.refl _)
      exact (List.subperm_append_right _).mpr hfillings
    · exact (carries_enter _ _).bind fun _ => Store.carries_pure (.refl _)
    · refine (carries_close f ?_).bind fun _ => Store.carries_pure (.refl _)
      rw [← List.append_assoc]
      refine (List.subperm_append_right _).mpr ((List.subperm_append_right _).mpr ?_)
      exact (List.reverse_perm f.results).subperm
    · exact (carries_enter _ _).bind fun _ => Store.carries_pure (.refl _)
    · -- the copy is kept as it is
      have hfinish : Store.Carries Prod.fst s₀ (f.held ++ outer.flatMap Frame.held)
          (f.finish .copy keep : Action τ (Option Handle))
          fun result => result.toList ++ outer.flatMap Frame.held :=
        (carries_copy f _).bind fun h => Store.carries_pure (.refl _)
      refine hfinish.bind fun result => ?_
      cases outer with
      | nil =>
        refine Store.carries_pure ?_
        rw [List.flatMap_nil, List.append_nil]
        exact .refl _
      | cons g outer =>
        exact (carries_receive g result _).bind fun _ => Store.carries_pure (.refl _)

/-- Step by step, a copying revision only adds nodes. -/
theorem grown_of_loop {frames : List Frame} {st : Store × τ}
    {r : EStateM.Result NodeError (Store × τ) (Option Handle)}
    (hr : loop .copy keep frames st = some r)
    (hst : Store.Grown s₀ st.1 (frames.flatMap Frame.held)) :
    Store.Grown s₀ (after (fun _ => r) st).1 [] := by
  -- what the frames hold is in hand after each turn
  refine loop.partial_correctness .copy keep (fun frames st r =>
    Store.Grown s₀ st.1 (frames.flatMap Frame.held) → Store.Grown s₀ (after (fun _ => r) st).1 [])
    ?_ frames st r hr hst
  intro rec ih frames st r hr hst
  have hstep := carries_step frames st hst
  cases hs : step .copy keep frames st with
  | error e st' =>
    rw [hs] at hr hstep
    cases hr
    exact hstep
  | ok progress st' =>
    rw [hs] at hr hstep
    cases progress with
    | done result =>
      cases hr
      exact hstep.drop
    | more frames' => exact ih frames' st' r hr hstep

end

/-- A revision that copies and keeps what it is given only adds nodes, wherever it stops. -/
theorem exists_sprouts_revise {τ : Type} {s : Store} (hs : s.WellFormed) (root : Handle) (c : τ) :
    ∃ roots, Store.Sprouts s (after (Store.revise .copy keep root) (s, c)).1 roots := by
  suffices hgrown : Store.Grown s (after (Store.revise .copy keep root) (s, c)).1 [] by
    obtain ⟨-, roots, hsprouts, -⟩ := hgrown
    exact ⟨roots, hsprouts⟩
  have hstart : Store.Grown s s [] := .start hs
  unfold after Store.revise
  cases hr : outcome? .copy keep root (s, c) with
  | none => exact hstart
  | some r =>
    have henter := carries_enter (τ := τ) root [] (s, c) hstart
    unfold outcome? at hr
    cases he : Frame.enter root (s, c) with
    | error e st' =>
      rw [he] at hr henter
      cases hr
      exact henter
    | ok f st' =>
      rw [he] at hr henter
      exact grown_of_loop hr (by simpa [Store.Yielded] using henter)

end Revision

end TypedForest
