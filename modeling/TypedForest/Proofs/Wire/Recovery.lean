import TypedForest.Proofs.Store.Sweeping
import TypedForest.Proofs.Wire.RoundTrip

namespace TypedForest

/-!
# Reading leaves what was there alone

Reading makes nodes one after the other and may fail after any of them.  The nodes made so far
are held by the open frames until they become children, so each new node has new children only,
and no node that was there before gets another parent (`Wire.Growing`).

* `Store.Untouched` : what was there is as it was, and refers to nothing new;
* `Store.added` : the nodes that were added;
* `Store.decode_recoverable` : after every reading the old nodes are untouched; one that succeeds
  adds the tree under its root, and after one that fails a sweep gives back what was there.
-/

namespace Wire

/-! ### What the open frames hold -/

/-- The nodes that wait in a frame for their parent. -/
def Frame.held (f : Frame) : List Handle :=
  f.fillings.flatMap Filling.nodes ++ (f.list.map Prod.snd).getD []

/-- A slot that is filled holds the nodes of its filling, and the list in hand is gone. -/
theorem Frame.held_close (f : Frame) (filling : Filling) :
    (f.close filling).held = filling.nodes ++ f.fillings.flatMap Filling.nodes := by
  simp [held, close]

/-- A frame that takes over a node holds it as well. -/
theorem Frame.held_receive (f : Frame) (h : Handle) : (f.receive h).held.Perm (h :: f.held) := by
  unfold receive
  split
  · next left nodes hlist =>
    simp only [held, hlist, Option.map_some, Option.getD_some]
    exact List.perm_middle
  · next hlist =>
    rw [held_close, held, hlist]
    simp [Filling.nodes]

/-- A node that has only begun holds nothing. -/
theorem held_of_readHeader {schema : Schema} {data rest : List UInt8} {f : Frame}
    (h : readHeader schema data = .ok (f, rest)) : f.held = [] := by
  obtain ⟨-, hfillings, hlist⟩ := Store.readHeader_eq_ok h
  rw [Frame.held, hfillings, hlist]
  rfl

/-- The state of reading: since the store was `s₀`, the trees under the nodes that the open
    frames hold have grown, and nothing else. -/
structure Growing (s₀ s : Store) (frames : List Frame) : Prop where
  wellFormed : s.WellFormed
  kinds : ∀ f ∈ frames, f.kind.index < s.schema.size
  sprouts : Store.Sprouts s₀ s (frames.flatMap Frame.held)

section

variable {s₀ s : Store} {f : Frame} {outer : List Frame}

/-- The innermost frame may be replaced by one that holds the same nodes. -/
theorem Growing.replace (h : Growing s₀ s (f :: outer)) {g : Frame} (hkind : g.kind = f.kind)
    (hheld : g.held.Perm f.held) : Growing s₀ s (g :: outer) := by
  refine ⟨h.wellFormed, ?_, h.sprouts.perm ?_⟩
  · rw [List.forall_mem_cons, hkind]
    exact List.forall_mem_cons.mp h.kinds
  · rw [List.flatMap_cons, List.flatMap_cons]
    exact hheld.symm.append_right _

/-- A node may begin inside the others. -/
theorem Growing.begin {frames : List Frame} (h : Growing s₀ s frames) {data rest : List UInt8}
    {g : Frame} (hg : readHeader s.schema data = .ok (g, rest)) : Growing s₀ s (g :: frames) := by
  refine ⟨h.wellFormed, List.forall_mem_cons.mpr ⟨(Store.readHeader_eq_ok hg).1, h.kinds⟩, ?_⟩
  rw [List.flatMap_cons, held_of_readHeader hg]
  exact h.sprouts

/-- The list in hand becomes the content of its slot. -/
theorem Growing.closeList (h : Growing s₀ s (f :: outer)) {nodes : List Handle} {left : Nat}
    (hlist : f.list = some (left, nodes)) :
    Growing s₀ s (f.close (.many nodes.reverse) :: outer) := by
  refine h.replace rfl ?_
  rw [Frame.held_close, Frame.held, hlist]
  exact (List.perm_append_comm).trans ((List.reverse_perm nodes).append_left _)

/-- A slot without a node adds nothing. -/
theorem Growing.closeVacant (h : Growing s₀ s (f :: outer)) (hlist : f.list = none) :
    Growing s₀ s (f.close (.one none) :: outer) := by
  refine h.replace rfl ?_
  rw [Frame.held_close, Frame.held, hlist]
  simp [Filling.nodes]

/-- A frame that cannot be made a node leaves the store as it was. -/
theorem Growing.make_error (h : Growing s₀ s (f :: outer)) {e : WireError} {s' : Store}
    (hmake : f.make s = .error e s') : s' = s := by
  rw [Store.make_eq] at hmake
  split at hmake
  · next e' s₁ hconstruct =>
    cases hmake
    exact Store.constructAnnotated_eq_error h.wellFormed.booked.freePlaces hconstruct
  · cases hmake

/-- The node of a complete frame takes the place of the nodes that the frame held. -/
theorem Growing.make_ok (h : Growing s₀ s (f :: outer)) (hlist : f.list = none) {r : Handle}
    {s' : Store} (hmake : f.make s = .ok r s') :
    Store.Steps s s' ∧ Store.Sprouts s₀ s' (r :: outer.flatMap Frame.held) := by
  have hsteps : Store.Steps s s' := by
    rw [← Store.after_of_ok hmake]
    exact (Store.Growths.make (.inl (h.kinds f List.mem_cons_self))).steps
  rw [Store.make_eq] at hmake
  split at hmake
  · cases hmake
  · next r' s₁ hconstruct =>
    cases hmake
    obtain ⟨n, hparent, hchildren, hfresh, hview⟩ :=
      Store.node?_constructAnnotated h.wellFormed.booked.freePlaces hconstruct
    -- the children are what the frame held, in the order of its slots
    have hvalues : (f.values.map Filling.value).flatMap Filling.nodes = [] := by
      rw [List.flatMap_map]
      simp [Filling.nodes]
    have hheld : f.held.Perm n.childNodes := by
      rw [hchildren, List.flatMap_append, hvalues, Frame.held, hlist]
      simpa using ((List.reverse_perm f.fillings).flatMap_right Filling.nodes).symm
    have hsprouts := h.sprouts
    rw [List.flatMap_cons] at hsprouts
    exact ⟨hsteps, (hsprouts.perm (hheld.append_right _)).over hsteps.schema hfresh hparent hview⟩

/-- Reading goes on in the next frame, which takes over the node. -/
theorem Growing.resume {g : Frame} (h : Growing s₀ s (f :: g :: outer)) (hlist : f.list = none)
    {r : Handle} {s' : Store} (hmake : f.make s = .ok r s') :
    Growing s₀ s' (g.receive r :: outer) := by
  obtain ⟨hsteps, hsprouts⟩ := h.make_ok hlist hmake
  refine ⟨h.wellFormed.steps hsteps, ?_, hsprouts.perm ?_⟩
  · rw [List.forall_mem_cons, Store.kind_receive, hsteps.schema]
    exact List.forall_mem_cons.mp (List.forall_mem_cons.mp h.kinds).2
  · rw [List.flatMap_cons, List.flatMap_cons, ← List.cons_append]
    exact (g.held_receive r).symm.append_right _

end

/-- **Reading nodes only adds nodes.**  They all stand under the root if reading succeeds. -/
theorem sprouts_readFrames {s₀ : Store} (frames : List Frame) (data : List UInt8) (s : Store)
    (h : Growing s₀ s frames) :
    match readFrames frames data s with
    | .ok (r, _) s' => Store.Sprouts s₀ s' [r]
    | .error _ s' => ∃ hs, Store.Sprouts s₀ s' hs := by
  -- wherever reading stops, the open frames hold the roots of all that was made
  fun_induction readFrames frames data s with
  | case1 | case2 | case5 | case7 | case9 | case11 => exact ⟨_, h.sprouts⟩
  | case3 data s f outer left nodes hlist g rest hg ih =>
    have hwaits : Growing s₀ s ({ f with list := some (left, nodes) } :: outer) := by
      refine h.replace rfl ?_
      rw [Frame.held, Frame.held, hlist]
      exact .refl _
    exact ih (hwaits.begin hg)
  | case4 data s f outer nodes hlist ih =>
    simp only [List.unattach_reverse, List.unattach_attach] at ih
    exact ih (h.closeList hlist)
  | case6 s f outer hlist n hslots data ih => exact ih (h.closeVacant hlist)
  | case8 s f outer hlist n hslots data g rest hg htag ih => exact ih (h.begin hg)
  | case10 s f outer hlist n hslots data m rest hm hvacant hone ih =>
    -- a list that begins has no nodes yet
    refine ih (h.replace rfl ?_)
    rw [Frame.held, Frame.held, hlist]
    exact .refl _
  | case12 data s f outer hlist hslots e s' hmake =>
    rw [h.make_error hmake]
    exact ⟨_, h.sprouts⟩
  | case13 data s f hlist hslots r s' hmake => exact (h.make_ok hlist hmake).2
  | case14 data s f hlist hslots r s' hmake g outer ih => exact ih (h.resume hlist hmake)

end Wire

namespace Store

/-- Reading only adds nodes.  They all stand under the root if it succeeds. -/
theorem sprouts_decode {s : Store} (hs : s.WellFormed) (data : List UInt8) :
    match decode data s with
    | .ok r s' => Sprouts s s' [r]
    | .error _ s' => ∃ hs, Sprouts s s' hs := by
  rcases decode_cases data s with ⟨e, hdecode⟩ | ⟨f, start, rest, hheader, hframes⟩
  · rw [hdecode]
    exact ⟨[], .refl s⟩
  · have hstart : Wire.Growing s s [] := ⟨hs, by simp, .refl s⟩
    have hread := Wire.sprouts_readFrames [f] rest s (hstart.begin hheader)
    rcases hframes with ⟨e, s', hframes, hdecode⟩ | ⟨p, s', hframes, hdecode | ⟨e, hdecode⟩⟩
    · rw [hframes] at hread
      rw [hdecode]
      exact hread
    · rw [hframes] at hread
      rw [hdecode]
      exact hread
    · -- bytes are left over, and the whole tree is made
      rw [hframes] at hread
      rw [hdecode]
      exact ⟨_, hread⟩

/-- Wherever decoding stops, what it made is trees beside the old nodes. -/
theorem exists_sprouts_decode {s : Store} (hs : s.WellFormed) (data : List UInt8) :
    ∃ roots, Sprouts s (after (decode data) s) roots := by
  have hsprouts := sprouts_decode hs data
  unfold after
  cases hdecode : decode data s with
  | ok r s' =>
    rw [hdecode] at hsprouts
    exact ⟨[r], hsprouts⟩
  | error e s' =>
    rw [hdecode] at hsprouts
    exact hsprouts

/-! ### What was there and what was added -/

/-- All nodes of `s` are in `s'` as they were, and refer to nodes of `s` only. -/
structure Untouched (s s' : Store) : Prop where
  schema : s'.schema = s.schema
  keeps : ∀ h n, s.node? h = some n → s'.node? h = some n
  apart : ∀ h n, s.isAlive h = true → s'.node? h = some n →
    (∀ c ∈ n.childNodes, s.isAlive c = true) ∧ ∀ p, n.parent = some p → s.isAlive p = true

/-- The nodes of `s'` that are not in `s`. -/
def added (s s' : Store) : List Handle := s'.handles.filter fun h => !s.isAlive h

/-- A node is added if it is alive now and was not before. -/
theorem mem_added_iff {s s' : Store} {h : Handle} :
    h ∈ added s s' ↔ s.isAlive h = false ∧ s'.isAlive h = true := by
  rw [added, List.mem_filter, mem_handles_iff, Bool.not_eq_true', and_comm]

/-- Trees that were made beside the old nodes leave these untouched. -/
theorem Sprouts.untouched {s s' : Store} (hs : s.WellFormed) {hs' : List Handle}
    (h : Sprouts s s' hs') : Untouched s s' := by
  refine ⟨h.schema, h.keeps, fun x n halive hn => ?_⟩
  obtain ⟨m, hm⟩ := isAlive_iff.mp halive
  rw [h.keeps x m hm, Option.some.injEq] at hn
  subst hn
  have hfit := hs.nodes x m hm
  refine ⟨fun c hc => ?_, hfit.parent⟩
  obtain ⟨k, hk⟩ := hfit.childNodes hc
  exact isAlive_of_node? hk

section

variable {s s' : Store} (h : Untouched s s')
include h

/-- An old node is still there. -/
theorem Untouched.isAlive {x : Handle} (hx : s.isAlive x = true) : s'.isAlive x = true := by
  obtain ⟨n, hn⟩ := isAlive_iff.mp hx
  exact isAlive_of_node? (h.keeps x n hn)

/-- From old nodes only old nodes can be reached. -/
theorem Untouched.isAlive_of_reaches {x y : Handle} (hx : s.isAlive x = true)
    (hreach : s'.Reaches x y) : s.isAlive y = true := by
  induction hreach with
  | refl => exact hx
  | tail _ hc ih =>
    obtain ⟨n, hn, hmem⟩ := hc
    exact (h.apart _ n ih hn).1 _ hmem

/-- From all old nodes just the old nodes are reached. -/
theorem Untouched.reachedFrom_iff {old : List Handle} (hold : ∀ x, x ∈ old ↔ s.isAlive x = true)
    (x : Handle) : s'.ReachedFrom old x ↔ s.isAlive x = true := by
  constructor
  · rintro ⟨r, hr, hreach⟩
    exact h.isAlive_of_reaches ((hold r).mp hr) hreach
  · exact fun hx => ⟨x, (hold x).mpr hx, .refl⟩

end

/-- Two stores have the same nodes under the same handles. -/
structure SameNodes (s s' : Store) : Prop where
  schema : s'.schema = s.schema
  live : s'.live = s.live
  node? : ∀ h, s'.node? h = s.node? h

/-- **Taking back.**  A sweep from the old nodes takes back what was added, and nothing else. -/
theorem Untouched.sweep {s s' : Store} (h : Untouched s s') (hs : s.WellFormed)
    (hs' : s'.WellFormed) {old : List Handle} (hold : ∀ x, x ∈ old ↔ s.isAlive x = true) :
    ∃ s'', Store.sweep old s' = .ok (added s s').length s'' ∧ SameNodes s s'' := by
  have hroots : s'.checkAlive old = .ok () :=
    checkAlive_eq_ok_iff.mpr fun r hr => h.isAlive ((hold r).mp hr)
  have hsweep := sweep_eq_ok_iff.mpr ⟨hroots, rfl, rfl⟩
  have hreclaims := reclaims_of_sweep hs' hsweep
  generalize s'.swept (s'.reachable old) = s'' at hsweep hreclaims
  -- exactly the old nodes are alive in the end
  have halive : s''.isAlive = s.isAlive := by
    funext x
    rw [Bool.eq_iff_iff, hreclaims.alive, h.reachedFrom_iff hold]
  have hcount := hreclaims.count
  rw [halive] at hcount
  have hlive := hs'.booked.live_add_length_filter hs.booked fun x => h.isAlive
  refine ⟨s'', by rw [hsweep, hcount]; rfl, hreclaims.schema.trans h.schema, ?_, fun x => ?_⟩
  · have := hreclaims.live
    omega
  · cases hx : s.node? x with
    | none =>
      have hdead : s''.isAlive x = false := by rw [halive, isAlive_eq_false_iff, hx]
      exact isAlive_eq_false_iff.mp hdead
    | some n =>
      obtain ⟨m, hm, hnode⟩ := hreclaims.keeps x (by rw [halive]; exact isAlive_of_node? hx)
      rw [h.keeps x n hx, Option.some.injEq] at hm
      subst hm
      -- its parent is an old node too, so that it stays
      have hparent : n.parent.filter s''.isAlive = n.parent := by
        cases hp : n.parent with
        | none => rfl
        | some p =>
          have hpalive : s''.isAlive p = true := by
            rw [halive]
            exact (hs.nodes x n hx).parent p hp
          rw [Option.filter_some, if_pos hpalive]
      rw [hnode, hparent]

/-- **Reading touches nothing that was there.**  Whether it succeeds or fails, and wherever it
    fails, all nodes are as they were and refer to none that were added.  If it succeeds, the
    nodes that were added are those under the new root.  If it fails, a sweep from all nodes that
    were there counts those that were added, and gives back what was there. -/
theorem decode_recoverable {schema : Schema} {s : Store} (hs : Reachable schema s)
    (data : List UInt8) :
    Untouched s (after (decode data) s) ∧
      (∀ r s', decode data s = .ok r s' → ∀ h, h ∈ added s s' ↔ s'.Reaches r h) ∧
      ∀ e s', decode data s = .error e s' →
        ∀ old, (∀ h, h ∈ old ↔ s.isAlive h = true) →
          ∃ s'', sweep old s' = .ok (added s s').length s'' ∧ SameNodes s s'' := by
  have hwf := hs.wellFormed_store
  have hsprouts := sprouts_decode hwf data
  have hwf' := hwf.steps (Growths.decode data s).steps
  cases hdecode : decode data s with
  | ok r s' =>
    rw [hdecode] at hsprouts
    rw [after_of_ok hdecode] at hwf' ⊢
    refine ⟨hsprouts.untouched hwf, ?_, by simp⟩
    rintro r₁ s₁ heq h
    cases heq
    rw [mem_added_iff]
    exact ((hsprouts.grafted hwf).new h).symm
  | error e s' =>
    rw [hdecode] at hsprouts
    obtain ⟨hs', hgrown⟩ := hsprouts
    rw [after_of_error hdecode] at hwf' ⊢
    refine ⟨hgrown.untouched hwf, by simp, ?_⟩
    rintro e₁ s₁ heq old hold
    cases heq
    -- a sweep that starts from the old nodes takes the new ones away again
    exact (hgrown.untouched hwf).sweep hwf hwf' hold

end Store

/-! ### A failure to look at -/

namespace Sample

/-- An item with two parts, of which the first is complete and the second of an unknown kind. -/
def broken : List UInt8 :=
  Wire.magic ++ [Wire.version] ++
    [4, 0x69, 0x74, 0x65, 0x6d, 1, 0, 0, 2, 0, 2, 2] ++
    [5, 0x67, 0x72, 0x6f, 0x75, 0x70, 1, 4, 1, 0x78, 0, 2, 0, 2, 0] ++
    [1, 0x78]

/-- Reading this leaves the first part behind, and a sweep takes it back. -/
theorem decode_broken_recoverable :
    ∃ e s' s'', Store.decode broken tangle = .error e s' ∧ s'.live = 4 ∧
      Store.sweep tangle.handles s' = .ok 1 s'' ∧ Store.SameNodes tangle s'' := by
  have hdecode : Store.decode broken tangle
      = .error (.unknownKind "x") (after (Store.decode broken) tangle) := by decide +kernel
  have hadded : (Store.added tangle (after (Store.decode broken) tangle)).length = 1 := by
    decide +kernel
  obtain ⟨-, -, hrecover⟩ := Store.decode_recoverable reachable_tangle broken
  obtain ⟨s'', hsweep, hsame⟩ := hrecover _ _ hdecode tangle.handles
    fun _ => Store.mem_handles_iff
  rw [hadded] at hsweep
  exact ⟨_, _, s'', hdecode, by decide +kernel, hsweep, hsame⟩

end Sample

end TypedForest
