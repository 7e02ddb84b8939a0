import TypedForest.Proofs.Snapshot.Conformance
import TypedForest.Proofs.Store.Lockstep
import TypedForest.Proofs.Wire.Safety
import TypedForest.Proofs.Wire.Turns

namespace TypedForest

/-!
# Loading does not depend on the store

Bytes are read, and snapshots restored, into a store that has nodes already.  Neither what these
are nor where there is room for more makes a difference to the outcome.

* `Wire.outcomes_readFrames` : from open frames that hold nodes with the same trees reading goes
  on in the same way in both stores;
* `Store.LoadsSame` : both loads fail with the same error or give the same tree, and both add the
  same number of nodes;
* `Store.load_independent` : so it is for all bytes and all snapshots.
-/

namespace Wire

open Store (Alike Beside Outcomes)

/-! ### Frames in two stores -/

/-- Open frames for the same node, with related nodes in the same places. -/
structure Frame.Rel (schema : Schema) (R : Handle → Handle → Prop) (f g : Frame) : Prop where
  known : f.kind.index < schema.size
  kind : g.kind = f.kind
  values : g.values = f.values
  notes : g.notes = f.notes
  slotsLeft : g.slotsLeft = f.slotsLeft
  fillings : List.Forall₂ (Filling.Rel R) f.fillings g.fillings
  list : Option.Rel (fun p q => q.1 = p.1 ∧ List.Forall₂ R p.2 q.2) f.list g.list

section

variable {schema : Schema} {R Q : Handle → Handle → Prop} {f g : Frame}

/-- Frames stay alike when more nodes count as alike. -/
theorem Frame.Rel.mono (h : f.Rel schema R g) (hRQ : ∀ a b, R a b → Q a b) :
    f.Rel schema Q g where
  known := h.known
  kind := h.kind
  values := h.values
  notes := h.notes
  slotsLeft := h.slotsLeft
  fillings := h.fillings.imp fun _ _ hxy => hxy.mono hRQ
  list := by
    have hlist := h.list
    generalize f.list = l at hlist ⊢
    generalize g.list = l' at hlist ⊢
    cases hlist with
    | none => exact .none
    | some hpq => exact .some ⟨hpq.1, hpq.2.imp hRQ⟩

/-- Slots that are filled alike leave frames alike. -/
theorem Frame.Rel.close (h : f.Rel schema R g) {x y : Filling} (hxy : x.Rel R y) :
    (f.close x).Rel schema R (g.close y) where
  known := h.known
  kind := h.kind
  values := h.values
  notes := h.notes
  slotsLeft := congrArg (· - 1) h.slotsLeft
  fillings := .cons hxy h.fillings
  list := .none

/-- The list in hand may be replaced by related ones of the same length to come. -/
theorem Frame.Rel.withList (h : f.Rel schema R g) (left : Nat) {as bs : List Handle}
    (has : List.Forall₂ R as bs) :
    Frame.Rel schema R { f with list := some (left, as) } { g with list := some (left, bs) } :=
  ⟨h.known, h.kind, h.values, h.notes, h.slotsLeft, h.fillings, .some ⟨rfl, has⟩⟩

/-- If one of two frames has no list in hand, neither has the other. -/
theorem Frame.Rel.list_eq_none (h : f.Rel schema R g) (hlist : f.list = none) : g.list = none := by
  have hrel := h.list
  rw [hlist] at hrel
  generalize g.list = l at hrel
  cases hrel
  rfl

/-- Lists in hand have as many items to come and nodes that are alike. -/
theorem Frame.Rel.list_eq_some (h : f.Rel schema R g) {left : Nat} {as : List Handle}
    (hlist : f.list = some (left, as)) : ∃ bs, g.list = some (left, bs) ∧ List.Forall₂ R as bs := by
  have hrel := h.list
  rw [hlist] at hrel
  generalize g.list = l at hrel
  cases hrel with
  | @some _ q hpq =>
    obtain ⟨left', bs⟩ := q
    obtain ⟨rfl, has⟩ := hpq
    exact ⟨bs, rfl, has⟩

/-- Nodes that are alike are received alike. -/
theorem Frame.Rel.receive (h : f.Rel schema R g) {a b : Handle} (hab : R a b) :
    (f.receive a).Rel schema R (g.receive b) := by
  unfold Frame.receive
  cases hlist : f.list with
  | none =>
    rw [h.list_eq_none hlist]
    exact h.close (.one hab)
  | some p =>
    obtain ⟨left, as⟩ := p
    obtain ⟨bs, hlist', has⟩ := h.list_eq_some hlist
    rw [hlist']
    exact h.withList left (.cons hab has)

/-- A node that has only begun holds no nodes. -/
theorem frameRel_of_readHeader {data rest : List UInt8}
    (hf : readHeader schema data = .ok (f, rest)) : f.Rel schema R f := by
  obtain ⟨hknown, hfillings, hlist⟩ := Store.readHeader_eq_ok hf
  refine ⟨hknown, rfl, rfl, rfl, rfl, ?_, ?_⟩
  · rw [hfillings]
    exact .nil
  · rw [hlist]
    exact .none

end

/-! ### Reading in both -/

/-- A fault of a part is not a refusal of the store. -/
theorem OfPart.ne_rejected {e : WireError} (h : OfPart e) {x : NodeError} : e ≠ .rejected x := by
  rintro rfl
  exact h.elim

/-- The node of a complete frame. -/
theorem outcomes_make {schema : Schema} {s t : Store} (h : Beside schema s t) {f g : Frame}
    (hfg : f.Rel schema (Alike s t) g) :
    Outcomes schema (.rejected .storeFull) Alike s t (f.make s) (g.make t) := by
  have hargs : List.Forall₂ (Filling.Rel (Alike s t))
      (f.values.map .value ++ f.fillings.reverse) (g.values.map .value ++ g.fillings.reverse) := by
    rw [hfg.values]
    refine List.rel_append ?_ (List.rel_reverse hfg.fillings)
    rw [List.forall₂_map_left_iff, List.forall₂_map_right_iff]
    exact List.forall₂_same.mpr fun v _ => .value v
  have hmade := Store.outcomes_constructAnnotated h hfg.known hargs f.notes
  rw [Store.make_eq, Store.make_eq, hfg.kind, hfg.notes]
  generalize Store.constructAnnotated f.kind (f.values.map .value ++ f.fillings.reverse)
    f.notes s = x at hmade ⊢
  generalize Store.constructAnnotated f.kind (g.values.map .value ++ g.fillings.reverse)
    f.notes t = y at hmade ⊢
  cases hmade with
  | ok h' hab => exact .ok h' hab
  | error h' he => exact .error h' (by simpa using he)
  | fullLeft hfull => exact .fullLeft hfull
  | fullRight hfull => exact .fullRight hfull

/-- Two readings have come to the same place of the bytes, with related nodes. -/
inductive Progress.Rel (schema : Schema) (R : Handle → Handle → Prop) : Progress → Progress → Prop
  | more {frames frames' : List Frame} {data : List UInt8}
      (h : List.Forall₂ (Frame.Rel schema R) frames frames') :
      Rel schema R (.more frames data) (.more frames' data)
  | done {a b : Handle} {rest : List UInt8} (h : R a b) :
      Rel schema R (.done a rest) (.done b rest)

section

variable {schema : Schema} {s t : Store} (h : Beside schema s t)
include h

/-- Both begin with the same node, or neither does. -/
theorem outcomes_enter {outer outer' : List Frame}
    (houter : List.Forall₂ (Frame.Rel schema (Alike s t)) outer outer') (data : List UInt8) :
    Outcomes schema (.rejected .storeFull) (fun s t => Progress.Rel schema (Alike s t)) s t
      (enter outer data s) (enter outer' data t) := by
  unfold enter
  rw [h.schema_eq]
  cases hheader : readHeader s.schema data with
  | error e =>
    exact .error (.refl h) (compositional_reportsParts.readHeader _ _ _ hheader).ne_rejected
  | ok p =>
    exact .ok (.refl h) (.more (.cons (frameRel_of_readHeader (h.leftSchema ▸ hheader)) houter))

/-- Both make the node of a complete frame, and the frame around it takes it over. -/
theorem outcomes_deliver {f g : Frame} (hfg : f.Rel schema (Alike s t) g)
    {outer outer' : List Frame}
    (houter : List.Forall₂ (Frame.Rel schema (Alike s t)) outer outer') (data : List UInt8) :
    Outcomes schema (.rejected .storeFull) (fun s t => Progress.Rel schema (Alike s t)) s t
      ((f.make >>= fun a => pure (deliver a data outer)) s)
      ((g.make >>= fun b => pure (deliver b data outer')) t) := by
  refine Outcomes.bind (outcomes_make h hfg) fun a b s' t' h' hab => ?_
  refine .ok (.refl h'.toBeside) ?_
  cases houter with
  | nil => exact .done hab
  | cons hgg' hrest =>
    -- the other frames hold what they held
    have hkept := hrest.imp fun _ _ hff' => hff'.mono fun _ _ => h'.alike
    exact .more (.cons ((hgg'.mono fun _ _ => h'.alike).receive hab) hkept)

/-- One turn is the same in both stores. -/
theorem outcomes_step {frames frames' : List Frame}
    (hframes : List.Forall₂ (Frame.Rel schema (Alike s t)) frames frames') (data : List UInt8) :
    Outcomes schema (.rejected .storeFull) (fun s t => Progress.Rel schema (Alike s t)) s t
      (step frames data s) (step frames' data t) := by
  cases hframes with
  | nil => exact .error (.refl h) (by simp)
  | @cons f f' outer outer' hff' hrest =>
    cases hlist : f.list with
    | some p =>
      obtain ⟨left, nodes⟩ := p
      obtain ⟨nodes', hlist', hnodes⟩ := hff'.list_eq_some hlist
      cases left with
      -- no bytes are read for the end of a list
      | zero =>
        simp only [step, hlist, hlist']
        exact .ok (.refl h) (.more (.cons (hff'.close (.many (List.rel_reverse hnodes))) hrest))
      | succ left =>
        simp only [step, hlist, hlist']
        exact outcomes_enter h (.cons (hff'.withList left hnodes) hrest) data
    | none =>
      have hlist' := hff'.list_eq_none hlist
      cases hslots : f.slotsLeft with
      | zero =>
        simp only [step, hlist, hlist', hff'.slotsLeft, hslots]
        exact outcomes_deliver h hff' hrest data
      | succ n =>
        cases data with
        | nil =>
          simp only [step, hlist, hlist', hff'.slotsLeft, hslots]
          exact .error (.refl h) (by simp)
        | cons tag data =>
          simp only [step, hlist, hlist', hff'.slotsLeft, hslots]
          split
          · exact .ok (.refl h) (.more (.cons (hff'.close .vacant) hrest))
          · split
            · exact outcomes_enter h (.cons hff' hrest) data
            · split
              · cases hcount : readUnsigned .listLength data with
                | error e =>
                  have hpart := compositional_reportsParts.readUnsigned .listLength (by decide) _ _
                    hcount
                  exact .error (.refl h) hpart.ne_rejected
                | ok p =>
                  have hopened := hff'.withList p.1 .nil
                  rw [hff'.slotsLeft, hslots] at hopened
                  exact .ok (.refl h) (.more (.cons hopened hrest))
              · exact .error (.refl h) (by simp)

end

/-- **Reading goes on in the same way in both stores** from frames that hold nodes with the same
    trees. -/
theorem outcomes_readFrames {schema : Schema} {frames frames' : List Frame} (data : List UInt8)
    {s t : Store} (h : Beside schema s t)
    (hframes : List.Forall₂ (Frame.Rel schema (Alike s t)) frames frames') :
    Outcomes schema (.rejected .storeFull) (fun s t p q => q.2 = p.2 ∧ Alike s t p.1 q.1) s t
      (readFrames frames data s) (readFrames frames' data t) := by
  -- along the turns of the first reading: the second is at the same place of the bytes
  induction frames, data, s using readFrames_induction generalizing frames' t with
  | turn frames data s ih =>
    rw [readFrames_eq_step, readFrames_eq_step]
    have hstep := outcomes_step h hframes data
    rw [Store.bind_apply, Store.bind_apply]
    generalize step frames data s = x at ih hstep ⊢
    generalize step frames' data t = y at hstep ⊢
    cases hstep with
    | ok h' hprogress =>
      cases hprogress with
      | more hframes' => exact (ih _ _ _ rfl h'.toBeside hframes').after h'
      | done hab => exact .ok h' ⟨rfl, hab⟩
    | error h' he => exact .error h' he
    | fullLeft hfull => exact .fullLeft hfull
    | fullRight hfull =>
      cases x with
      | error e s' => exact .fullRight hfull
      | ok progress s' => exact .fullRight hfull

end Wire

namespace Store

/-- Decoding has like outcomes in two stores over one schema, unless one of them is full. -/
theorem outcomes_decode {schema : Schema} {s t : Store} (h : Beside schema s t)
    (data : List UInt8) :
    Outcomes schema (.rejected .storeFull) Alike s t (decode data s) (decode data t) := by
  unfold decode
  cases hpreamble : Wire.readPreamble data with
  | error e =>
    have hpart := Wire.compositional_reportsParts.readPreamble _ _ hpreamble
    exact .error (.refl h) hpart.ne_rejected
  | ok p =>
    dsimp only
    rw [h.schema_eq]
    cases hheader : Wire.readHeader s.schema p.2 with
    | error e =>
      have hpart := Wire.compositional_reportsParts.readHeader _ _ _ hheader
      exact .error (.refl h) hpart.ne_rejected
    | ok q =>
      obtain ⟨f, rest⟩ := q
      dsimp only
      have hbegun : f.Rel schema (Alike s t) f :=
        Wire.frameRel_of_readHeader (h.leftSchema ▸ hheader)
      -- both readers begin with the same frame
      have hread := Wire.outcomes_readFrames rest h (.cons hbegun .nil)
      generalize Wire.readFrames [f] rest s = x at hread ⊢
      generalize Wire.readFrames [f] rest t = y at hread ⊢
      cases hread with
      | @ok p q s' t' h' hpq =>
        obtain ⟨hrest, hab⟩ := hpq
        dsimp only
        rw [hrest]
        split
        · exact .ok h' hab
        · exact .error h' (by simp)
      | error h' he => exact .error h' he
      | fullLeft hfull => exact .fullLeft hfull
      | fullRight hfull => exact .fullRight hfull

/-! ### What two loads have in common -/

/-- Two loads, into `s` and into `t`, fail with the same error, or give trees that are equal and
    have the same notes.  In both cases the same number of nodes was added. -/
inductive LoadsSame {ε : Type} (s t : Store) :
    EStateM.Result ε Store Handle → EStateM.Result ε Store Handle → Prop
  | fails {e : ε} {s' t' : Store} (count : (added s s').length = (added t t').length) :
      LoadsSame s t (.error e s') (.error e t')
  | loads {r q : Handle} {s' t' : Store} (count : (added s s').length = (added t t').length)
      (equal : ∀ how, equalTrees how s' r t' q = some true)
      (notes : ∀ limit, List.Forall₂ (SameNotes s' t') (s'.traverse .pre r limit)
        (t'.traverse .pre q limit)) :
      LoadsSame s t (.ok r s') (.ok q t')

/-- The nodes that were added are those by which the number of live ones grew. -/
theorem live_add_length_added {s s' : Store} (hs : s.WellFormed) (hs' : s'.WellFormed)
    (hp : Preserves s s') : s.live + (added s s').length = s'.live := by
  refine hs'.booked.live_add_length_filter hs.booked fun x hx => ?_
  obtain ⟨n, hn⟩ := isAlive_iff.mp hx
  obtain ⟨p, hp⟩ := hp.nodes x n hn
  exact isAlive_of_node? hp

/-- Stores that went on side by side got the same number of nodes. -/
theorem Advance.length_added {schema : Schema} {s t s' t' : Store} (h : Beside schema s t)
    (h' : Advance schema s t s' t') : (added s s').length = (added t t').length := by
  have hleft := live_add_length_added h.left h'.left h'.leftKeeps
  have hright := live_add_length_added h.right h'.right h'.rightKeeps
  have hcount := h'.count
  omega

section

variable {ε : Type} {schema : Schema} {full : ε} {s t : Store}

/-- Like outcomes are the same trees, if no store is full. -/
theorem Outcomes.loadsSame {x y : EStateM.Result ε Store Handle} (h : Beside schema s t)
    (hxy : Outcomes schema full Alike s t x y) (hx : ∀ s', x ≠ .error full s')
    (hy : ∀ t', y ≠ .error full t') : LoadsSame s t x y := by
  cases hxy with
  | ok h' hab =>
    obtain ⟨hequal, hnotes⟩ := hab.same h'.left h'.right h'.lawful_left h'.schema_eq
    exact .loads (h'.length_added h) hequal hnotes
  | error h' he => exact .fails (h'.length_added h)
  | fullLeft hfull => exact absurd rfl (hx _)
  | fullRight hfull => exact absurd rfl (hy _)

/-- A run is like itself, so that only a store that is full is found full. -/
theorem Outcomes.le_live_of_full {α : Type} {R : Store → Store → α → α → Prop} {s' : Store}
    (h : Outcomes schema full R s s (.error full s') (.error full s')) : maxNodes ≤ s'.live := by
  cases h with
  | error h' he => exact absurd rfl he
  | fullLeft hfull => exact hfull
  | fullRight hfull => exact hfull

end

/-- Reading needs room for a node for every four bytes at most. -/
theorem decode_hasRoom {s : Store} (hs : s.WellFormed) (hlawful : s.schema.Lawful)
    (hclosed : s.schema.Closed) {data : List UInt8} (hroom : s.live + data.length / 4 < maxNodes)
    (s' : Store) : decode data s ≠ .error (.rejected .storeFull) s' := by
  intro hfull
  have hself := outcomes_decode ⟨hlawful, hs, hs, rfl, rfl⟩ data
  obtain ⟨-, hends⟩ := decodeWithin_eq hs hclosed data
  rw [hfull] at hself hends
  have hlive := hself.le_live_of_full
  have hbudget : 4 * s'.live ≤ 4 * s.live + (data.length - 5) := hends.1
  omega

/-- **Loading does not depend on the store.**  The same bytes, and the same snapshots, are loaded
    into any two stores over one schema with the same outcome, unless one of them gets full.  A
    store does not get full if there is room for one node more than a quarter of the bytes, or
    for the nodes of the snapshot. -/
theorem load_independent {schema : Schema} (hbuilt : schema.Built) {a b : Store}
    (ha : Reachable schema a) (hb : Reachable schema b) :
    (∀ data, (∀ a', decode data a ≠ .error (.rejected .storeFull) a') →
      (∀ b', decode data b ≠ .error (.rejected .storeFull) b') →
      LoadsSame a b (decode data a) (decode data b)) ∧
    (∀ snap, (∀ a', restore snap a ≠ .error .storeFull a') →
      (∀ b', restore snap b ≠ .error .storeFull b') →
      LoadsSame a b (restore snap a) (restore snap b)) ∧
    (∀ data, a.live + data.length / 4 < maxNodes →
      ∀ a', decode data a ≠ .error (.rejected .storeFull) a') ∧
    ∀ snap, a.live + snap.size ≤ maxNodes → ∀ a', restore snap a ≠ .error .storeFull a' := by
  have hwf := ha.wellFormed_store
  have hbeside : Beside schema a b :=
    ⟨hbuilt.lawful, hwf, hb.wellFormed_store, ha.schema_eq, hb.schema_eq⟩
  refine ⟨fun data => (outcomes_decode hbeside data).loadsSame hbeside,
    fun snap => (outcomes_rebuild _ snap hbeside).loadsSame hbeside,
    fun data => decode_hasRoom hwf hbeside.lawful_left (ha.schema_eq ▸ hbuilt.closed),
    fun snap => (decides_rebuild hbuilt.lawful _ snap hwf ha.schema_eq).hasRoom⟩

end Store

/-! ### A store with a gap -/

namespace Sample

/-- The items of `tangle` without the group, whose place is free and has another generation. -/
def gapped : Store := after (Store.sweep [⟨0, 0⟩]) tangle

theorem reachable_gapped : Reachable schema gapped := by
  obtain ⟨others, hrun⟩ := reachable_tangle
  exact ⟨others, hrun.trans (.operation (.sweep _) _ _)⟩

/-- The items reach each other, but not the group. -/
theorem gapped_eq : gapped = tangle.swept #[true, true, false] := by
  have hmarks : tangle.reachable [⟨0, 0⟩] = #[true, true, false] := by cbv
  have halive : tangle.checkAlive [⟨0, 0⟩] = .ok () := by decide +kernel
  rw [gapped, Store.after_of_ok (Store.sweep_eq_ok_iff.mpr ⟨halive, rfl, rfl⟩), hmarks]

/-- The bytes that break off leave as many nodes in the one store as in the other, for the same
    reason; and the group in disorder is the same in both. -/
theorem load_independent_gapped :
    (∃ s' t', Store.decode broken tangle = .error (.unknownKind "x") s' ∧
      Store.decode broken gapped = .error (.unknownKind "x") t' ∧
      (Store.added tangle s').length = (Store.added gapped t').length) ∧
    Store.equalTrees .byName (after (Store.restore untidy) tangle) ⟨6, 0⟩
      (after (Store.restore untidy) gapped) ⟨5, 0⟩ = some true := by
  have hbroken : Store.decode broken tangle
      = .error (.unknownKind "x") (after (Store.decode broken) tangle) := by decide +kernel
  have htangle : Store.restore untidy tangle
      = .ok ⟨6, 0⟩ (after (Store.restore untidy) tangle) := by decide +kernel
  have hgapped : Store.restore untidy gapped
      = .ok ⟨5, 0⟩ (after (Store.restore untidy) gapped) := by
    rw [gapped_eq]
    decide +kernel
  have hlive : tangle.live = 3 := by decide +kernel
  have hlive' : gapped.live = 2 := by
    rw [gapped_eq]
    decide +kernel
  have hbytes : broken.length / 4 = 8 := by decide +kernel
  have hsize : untidy.size = 4 := by decide +kernel
  -- there is room in both stores for what the bytes and the snapshot can make
  obtain ⟨hdecode, hrestore, hroom, hfits⟩ :=
    Store.load_independent built reachable_tangle reachable_gapped
  obtain ⟨-, -, hroom', hfits'⟩ :=
    Store.load_independent built reachable_gapped reachable_tangle
  refine ⟨?_, ?_⟩
  · have hsame := hdecode broken (hroom broken (by rw [hlive, hbytes]; decide))
      (hroom' broken (by rw [hlive', hbytes]; decide))
    rw [hbroken] at hsame
    generalize Store.decode broken gapped = y at hsame ⊢
    cases hsame with
    | fails hcount => exact ⟨_, _, hbroken, rfl, hcount⟩
  · have hsame := hrestore untidy (hfits untidy (by rw [hlive, hsize]; decide))
      (hfits' untidy (by rw [hlive', hsize]; decide))
    rw [htangle, hgapped] at hsame
    cases hsame with
    | loads hcount hequal hnotes => exact hequal .byName

end Sample

end TypedForest
