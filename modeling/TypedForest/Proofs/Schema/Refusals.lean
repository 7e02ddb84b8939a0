import TypedForest.Proofs.Schema.Inheritance

namespace TypedForest

/-!
# Which declarations are refused

A slot name is refused if some kind would get two slots of that name, which can happen below the
kind as well as above it: a kind has the slots of all kinds that it derives from.  A refused call
changes nothing but the draft's memory of its first refusal.

* `Call.refusal?`, `Draft.refusals` : the error of a call, and those of a sequence of calls;
* `Draft.Follows.records_accepted` : a draft holds what the calls declared that were not refused;
* `Draft.Clashes` : a declared slot that stands in the way of a new one;
* `Draft.Follows.refusals_exact` : slot names are refused exactly for these, and a draft can be
  frozen exactly if nothing was refused.
-/

/-! ### Refused calls -/

namespace Call

/-- The error of a declaration that is refused. -/
def errorOf {α : Type} : EStateM.Result SchemaError Draft α → Option SchemaError
  | .ok _ _ => none
  | .error e _ => some e

/-- The error with which a call is refused, if it is. -/
def refusal? : Call → Draft → Option SchemaError
  | kind name base, d => errorOf (Draft.declareKind name base d)
  | value k slot type, d => errorOf (Draft.declareValue k slot type d)
  | child k slot spec, d => errorOf (Draft.declareChild k slot spec d)

/-- The kind that gets a slot by a call, and the name of the slot. -/
def slot? : Call → Option (KindId × String)
  | kind _ _ => none
  | value k slot _ => some (k, slot)
  | child k slot _ => some (k, slot)

/-- The name of the slot that a kind gets by a call. -/
def slotOn? (k : KindId) (c : Call) : Option String :=
  c.slot?.bind fun (l, slot) => if l = k then some slot else none

/-- A call is for a slot of a kind if it names both. -/
theorem slotOn?_eq_some_iff {k : KindId} {c : Call} {slot : String} :
    c.slotOn? k = some slot ↔ c.slot? = some (k, slot) := by
  unfold slotOn?
  cases c.slot? with
  | none => simp
  | some p =>
    obtain ⟨l, name⟩ := p
    by_cases hl : l = k <;> simp [hl]

/-- The kinds after a call, or the error with which it is refused. -/
def effect : Call → Draft → Except SchemaError (List Kind)
  | kind name base, d =>
    (d.checkKind name base).map fun b => d.kinds ++ [⟨name, b, [], []⟩]
  | value k slot type, d =>
    (d.checkSlotName k slot).map fun _ => d.kinds.modify k.index fun kind =>
      { kind with values := kind.values ++ [⟨slot, type⟩] }
  | child k slot spec, d =>
    (d.checkChild k slot spec).map fun type => d.kinds.modify k.index fun kind =>
      { kind with children := kind.children ++ [⟨slot, type⟩] }

/-- A call is refused, and at most its error is left behind, or it changes the kinds alone. -/
theorem effect_spec (c : Call) (d : Draft) :
    match c.effect d with
    | .error e => c.refusal? d = some e ∧ c.apply d = { d with failure := d.failure.or (some e) }
    | .ok kinds => c.refusal? d = none ∧ c.apply d = { d with kinds := kinds } := by
  cases c with
  | kind name base =>
    simp only [effect, refusal?, apply, after, Draft.declareKind]
    cases d.checkKind name base <;> exact ⟨rfl, rfl⟩
  | value k slot type =>
    simp only [effect, refusal?, apply, after, Draft.declareValue]
    cases d.checkSlotName k slot <;> exact ⟨rfl, rfl⟩
  | child k slot spec =>
    simp only [effect, refusal?, apply, after, Draft.declareChild]
    cases d.checkChild k slot spec <;> exact ⟨rfl, rfl⟩

/-- A call is refused if it has no effect. -/
theorem refusal?_eq_some_iff {c : Call} {d : Draft} {e : SchemaError} :
    c.refusal? d = some e ↔ c.effect d = .error e := by
  have hspec := c.effect_spec d
  cases heffect : c.effect d with
  | error e' =>
    rw [heffect] at hspec
    simp [hspec.1]
  | ok kinds =>
    rw [heffect] at hspec
    simp [hspec.1]

/-- A call that is refused leaves the draft as it is, but for the first failure. -/
theorem apply_of_refusal {c : Call} {d : Draft} {e : SchemaError} (h : c.refusal? d = some e) :
    c.apply d = { d with failure := d.failure.or (some e) } := by
  have hspec := c.effect_spec d
  rw [refusal?_eq_some_iff.mp h] at hspec
  exact hspec.2

/-- A call that is not refused changes the kinds and nothing else. -/
theorem exists_effect {c : Call} {d : Draft} (h : c.refusal? d = none) :
    ∃ kinds, c.effect d = .ok kinds ∧ c.apply d = { d with kinds := kinds } := by
  have hspec := c.effect_spec d
  cases heffect : c.effect d with
  | error e =>
    rw [refusal?_eq_some_iff.mpr heffect] at h
    cases h
  | ok kinds =>
    rw [heffect] at hspec
    exact ⟨kinds, rfl, hspec.2⟩

/-- A call that is not refused adds no failure. -/
theorem failure_apply {c : Call} {d : Draft} (h : c.refusal? d = none) :
    (c.apply d).failure = d.failure := by
  obtain ⟨kinds, -, happly⟩ := exists_effect h
  rw [happly]

/-- What was refused before does not matter to a call. -/
theorem effect_congr (c : Call) {d e : Draft} (h : d.kinds = e.kinds) :
    c.effect d = c.effect e := by
  obtain ⟨kinds, failure⟩ := d
  obtain ⟨kinds', failure'⟩ := e
  obtain rfl : kinds = kinds' := h
  cases c <;> rfl

/-- A call that is not refused is not refused either by a draft with the same kinds, and makes the
    same kinds of them. -/
theorem accepted_congr {c : Call} {d e : Draft} (h : d.kinds = e.kinds)
    (hd : c.refusal? d = none) :
    c.refusal? e = none ∧ (c.apply e).kinds = (c.apply d).kinds := by
  obtain ⟨kinds, heffect, happly⟩ := exists_effect hd
  have hspec := c.effect_spec e
  rw [← c.effect_congr h, heffect] at hspec
  exact ⟨hspec.1, by rw [hspec.2, happly]⟩

end Call

/-! ### Sequences of calls -/

namespace Draft

/-- The draft after calls one after the other. -/
def play (d : Draft) (calls : List Call) : Draft := calls.foldl (fun d c => c.apply d) d

/-- The errors of the calls that are refused, in order. -/
def refusals : Draft → List Call → List SchemaError
  | _, [] => []
  | d, c :: calls => (c.refusal? d).toList ++ refusals (c.apply d) calls

/-- The calls that are not refused, in order. -/
def accepted : Draft → List Call → List Call
  | _, [] => []
  | d, c :: calls =>
    if (c.refusal? d).isSome then accepted (c.apply d) calls else c :: accepted (c.apply d) calls

theorem play_append_singleton (d : Draft) (calls : List Call) (c : Call) :
    d.play (calls ++ [c]) = c.apply (d.play calls) := by
  rw [play, List.foldl_append]
  rfl

/-- Later calls are refused in the draft to which the earlier ones lead. -/
theorem refusals_append (d : Draft) (calls more : List Call) :
    d.refusals (calls ++ more) = d.refusals calls ++ (d.play calls).refusals more := by
  induction calls generalizing d with
  | nil => rfl
  | cons c calls ih =>
    rw [List.cons_append, refusals, refusals, ih, List.append_assoc]
    rfl

theorem accepted_append (d : Draft) (calls more : List Call) :
    d.accepted (calls ++ more) = d.accepted calls ++ (d.play calls).accepted more := by
  induction calls generalizing d with
  | nil => rfl
  | cons c calls ih =>
    rw [List.cons_append, accepted, accepted, ih]
    split <;> rfl

/-- A draft remembers the first refusal. -/
theorem failure_play (d : Draft) (calls : List Call) :
    (d.play calls).failure = d.failure.or (d.refusals calls).head? := by
  induction calls generalizing d with
  | nil => simp [play, refusals]
  | cons c calls ih =>
    rw [show d.play (c :: calls) = (c.apply d).play calls from rfl, ih, refusals]
    cases hc : c.refusal? d with
    | none => simp [Call.failure_apply hc]
    | some e =>
      rw [Call.apply_of_refusal hc]
      cases d.failure <;> simp

/-- A draft that follows calls is the one to which they lead. -/
theorem Follows.eq_play {calls : List Call} {d : Draft} (h : Follows calls d) :
    d = Draft.empty.play calls := by
  induction h with
  | start => rfl
  | call _ _ ih => rw [play_append_singleton, ← ih]

/-- The calls that are not refused lead to the same kinds by themselves. -/
theorem Follows.accepted {calls : List Call} {d : Draft} (h : Follows calls d) :
    ∃ e, Follows (Draft.empty.accepted calls) e ∧ e.kinds = d.kinds ∧ e.failure = none := by
  induction h with
  | start => exact ⟨_, .start, rfl, rfl⟩
  | @call calls d hd c hc ih =>
    obtain ⟨e, he, hkinds, hfailure⟩ := ih
    rw [accepted_append, ← hd.eq_play, Draft.accepted, Draft.accepted]
    cases hr : c.refusal? d with
    | some error =>
      rw [Option.isSome_some, if_pos rfl, List.append_nil]
      refine ⟨e, he, ?_, hfailure⟩
      rw [Call.apply_of_refusal hr]
      exact hkinds
    | none =>
      obtain ⟨hrefusal, hafter⟩ := Call.accepted_congr hkinds.symm hr
      rw [Option.isSome_none, if_neg Bool.false_ne_true]
      refine ⟨c.apply e, he.call ?_, hafter, ?_⟩
      · -- the handles are those of the same kinds
        cases c <;> simp only [Call.InScope, hkinds] at hc ⊢ <;> exact hc
      · rw [Call.failure_apply hrefusal, hfailure]

/-- A draft holds what the calls declared that were not refused. -/
theorem Follows.records_accepted {calls : List Call} {d : Draft} (h : Follows calls d) :
    Records (Draft.empty.accepted calls) d := by
  obtain ⟨e, he, hkinds, hfailure⟩ := h.accepted
  obtain ⟨hk, hvalues, hchildren, htargets⟩ := he.records hfailure
  rw [hkinds] at hk hvalues hchildren htargets
  exact ⟨hk, hvalues, hchildren, htargets⟩

/-- The slots of a kind are those that the calls declared on it. -/
theorem Records.slotNames_perm {calls : List Call} {d : Draft} (hr : Records calls d)
    (k : KindId) : (Kind.get d.kinds k).slotNames.Perm (calls.filterMap (Call.slotOn? k)) := by
  have hnames : (Kind.get d.kinds k).children.map ChildSlot.name
      = (calls.filterMap (Call.childOn? k)).map Prod.fst := by
    rw [← hr.children k, List.map_map]
    rfl
  rw [Kind.slotNames, hr.values k, hnames]
  clear hr hnames
  -- each call adds its slot to one of the two rows
  induction calls with
  | nil => exact .refl _
  | cons c calls ih =>
    cases c with
    | kind name base => exact ih
    | value l slot type =>
      simp only [List.filterMap_cons, Call.valueOn?, Call.childOn?, Call.slotOn?, Call.slot?,
        Option.bind_some]
      by_cases hl : l = k
      · simp only [hl, if_true, List.map_cons, List.cons_append]
        exact ih.cons slot
      · simp only [hl, if_false]
        exact ih
    | child l slot spec =>
      simp only [List.filterMap_cons, Call.valueOn?, Call.childOn?, Call.slotOn?, Call.slot?,
        Option.bind_some]
      by_cases hl : l = k
      · simp only [hl, if_true, List.map_cons]
        -- the names of the value slots come before it
        exact List.perm_middle.trans (ih.cons slot)
      · simp only [hl, if_false]
        exact ih

/-- A kind has the slots that calls have declared on it. -/
theorem Records.mem_slotNames_iff {calls : List Call} {d : Draft} (hr : Records calls d)
    {k : KindId} {slot : String} :
    slot ∈ (Kind.get d.kinds k).slotNames ↔ ∃ c ∈ calls, c.slot? = some (k, slot) := by
  rw [(hr.slotNames_perm k).mem_iff, List.mem_filterMap]
  simp only [Call.slotOn?_eq_some_iff]

/-! ### Slots in the way -/

/-- The slot called `slot` that the calls declared on `o` stands in the way of one on `k`: some
    kind would have both, since it is or derives from the one and the other. -/
structure Clashes (d : Draft) (calls : List Call) (k : KindId) (slot : String) (o : KindId) :
    Prop where
  declared : ∃ c ∈ calls, c.slot? = some (o, slot)
  shared : ∃ x, Relation.ReflTransGen (Kind.HasBase d.kinds) x k ∧
    Relation.ReflTransGen (Kind.HasBase d.kinds) x o

/-- An owner of the name is a kind above or below that has such a slot. -/
theorem slotOwner?_eq_some {d : Draft} (hb : Kind.BasesFirst d.kinds) {k o : KindId} {slot : String}
    (h : d.slotOwner? k slot = some o) :
    (Relation.ReflTransGen (Kind.HasBase d.kinds) k o ∨
      Relation.ReflTransGen (Kind.HasBase d.kinds) o k) ∧
      slot ∈ (Kind.get d.kinds o).slotNames := by
  rcases Option.or_eq_some_iff.mp h with hup | ⟨-, hdown⟩
  · refine ⟨.inl ((Kind.mem_lineage_iff hb).mp (List.mem_of_find?_eq_some hup)), ?_⟩
    have howns : (Kind.get d.kinds o).hasSlot slot = true :=
      List.find?_some (p := fun o => (Kind.get d.kinds o).hasSlot slot) hup
    exact Kind.hasSlot_iff.mp howns
  · have hfound := List.find?_some hdown
    simp only [Bool.and_eq_true, decide_eq_true_eq] at hfound
    exact ⟨.inr ((Kind.mem_lineage_iff hb).mp hfound.1.2), Kind.hasSlot_iff.mp hfound.2⟩

/-- A name has an owner exactly if a slot stands in its way, and then the owner has such a slot. -/
theorem Records.clashes_iff {calls : List Call} {d : Draft} (hr : Records calls d)
    (hb : Kind.BasesFirst d.kinds) (k : KindId) (slot : String) :
    ((∃ o, d.Clashes calls k slot o) ↔ ∃ o, d.slotOwner? k slot = some o) ∧
      ∀ o, d.slotOwner? k slot = some o → d.Clashes calls k slot o := by
  have howner : ∀ o, d.slotOwner? k slot = some o → d.Clashes calls k slot o := by
    intro o ho
    obtain ⟨hchain, hslot⟩ := slotOwner?_eq_some hb ho
    refine ⟨hr.mem_slotNames_iff.mp hslot, ?_⟩
    rcases hchain with hup | hdown
    · exact ⟨k, .refl, hup⟩
    · exact ⟨o, hdown, .refl⟩
  refine ⟨⟨?_, fun ⟨o, ho⟩ => ⟨o, howner o ho⟩⟩, howner⟩
  rintro ⟨o, hdeclared, x, hxk, hxo⟩
  rw [← hr.mem_slotNames_iff] at hdeclared
  by_contra hnone
  rw [← Option.isSome_iff_exists, Option.not_isSome_iff_eq_none] at hnone
  obtain ⟨hup, hdown⟩ := free_of_slotOwner?_eq_none hnone
  -- bases are unique, so of two kinds above `x` one is above the other
  have hunique : Relator.RightUnique (Kind.HasBase d.kinds) := fun _ _ _ hb hc =>
    Option.some.inj (hb.symm.trans hc)
  rcases Relation.ReflTransGen.total_of_right_unique hunique hxk hxo with hko | hok
  · exact hup o ((Kind.mem_lineage_iff hb).mpr hko) hdeclared
  · exact hdown o ((Kind.mem_lineage_iff hb).mpr hok) hdeclared

/-- The error for a name that is taken says whose slot it is. -/
theorem refusal?_eq_duplicate_iff {d : Draft} {c : Call} {k : KindId} {slot : String}
    (hc : c.slot? = some (k, slot)) {kind name owner : String} :
    c.refusal? d = some (.duplicateSlotName kind name owner) ↔
      ∃ o, d.slotOwner? k slot = some o ∧ kind = (Kind.get d.kinds k).name ∧ name = slot ∧
        owner = (Kind.get d.kinds o).name := by
  rw [Call.refusal?_eq_some_iff]
  cases c with
  | kind n b => cases hc
  | value l n type =>
    cases hc
    cases howner : d.slotOwner? k slot with
    | none => simp [Call.effect, checkSlotName, howner, Except.map]
    | some o => simp [Call.effect, checkSlotName, howner, Except.map, eq_comm]
  | child l n spec =>
    cases hc
    cases howner : d.slotOwner? k slot with
    | none =>
      -- the name is free, so only the description of the slot can be wrong
      cases hspec : d.resolveSpec spec <;>
        simp [Call.effect, checkChild, checkSlotName, howner, hspec, Except.map]
    | some o => simp [Call.effect, checkChild, checkSlotName, howner, Except.map, eq_comm]

/-! ### All refusals -/

/-- **Refusals are exact.**  After any calls, refused ones among them, a slot name is refused as a
    duplicate exactly if a slot of that name, declared by a call that was not refused, stands in
    its way, and the error names the kind of such a slot.  A refused call leaves all kinds and slots
    as they were.  The draft can be frozen exactly if no call was refused, and gives the error of
    the first one otherwise. -/
theorem Follows.refusals_exact {calls : List Call} {d : Draft} (hd : d.Follows calls) :
    (∀ (c : Call) k slot, c.slot? = some (k, slot) →
      ((∃ kind name owner, c.refusal? d = some (.duplicateSlotName kind name owner)) ↔
        ∃ o, d.Clashes (Draft.empty.accepted calls) k slot o) ∧
      ∀ kind name owner, c.refusal? d = some (.duplicateSlotName kind name owner) →
        kind = (Kind.get d.kinds k).name ∧ name = slot ∧
          ∃ o, d.Clashes (Draft.empty.accepted calls) k slot o ∧
            owner = (Kind.get d.kinds o).name) ∧
    (∀ (c : Call) e, c.refusal? d = some e → (c.apply d).kinds = d.kinds) ∧
    ((∃ s, d.freeze = .ok s) ↔ Draft.empty.refusals calls = []) ∧
    ∀ e, d.freeze = .error e ↔ (Draft.empty.refusals calls).head? = some e := by
  have hfailure : d.failure = (Draft.empty.refusals calls).head? := by
    rw [hd.eq_play, failure_play]
    rfl
  refine ⟨fun c k slot hc => ?_, fun c e he => ?_, ?_, fun e => ?_⟩
  · obtain ⟨hiff, howner⟩ := hd.records_accepted.clashes_iff hd.declared.sound.bases k slot
    simp only [refusal?_eq_duplicate_iff hc]
    refine ⟨?_, ?_⟩
    · rw [hiff]
      constructor
      · rintro ⟨-, -, -, o, ho, -⟩
        exact ⟨o, ho⟩
      · rintro ⟨o, ho⟩
        exact ⟨_, _, _, o, ho, rfl, rfl, rfl⟩
    · rintro kind name owner ⟨o, ho, hkind, hname, hown⟩
      exact ⟨hkind, hname, o, howner o ho, hown⟩
  · rw [Call.apply_of_refusal he]
  · simp only [freeze_eq_ok_iff, hfailure, List.head?_eq_none_iff, exists_and_left, exists_eq,
      and_true]
  · rw [← hfailure]
    unfold freeze
    cases d.failure <;> simp

end Draft

namespace Sample

/-- Two kinds of items have a slot of the same name, and then items are to have it as well. -/
def rivalCalls : List Call :=
  [.kind "item" none, .kind "group" (some "item"), .kind "crate" (some "item"),
    .value ⟨1⟩ "size" .int, .value ⟨2⟩ "size" .int, .value ⟨0⟩ "size" .int, .kind "item" none]

theorem follows_rivals : (Draft.empty.play rivalCalls).Follows rivalCalls :=
  .call (.call (.call (.call (.call (.call (.call .start (by decide)) (by decide)) (by decide))
    (by decide +kernel)) (by decide +kernel)) (by decide +kernel)) (by decide +kernel)

/-- The two slots that are there stay, the third is refused, and what is refused after that is not
    remembered. -/
theorem refusals_exact_rivals :
    Draft.empty.refusals rivalCalls
        = [.duplicateSlotName "item" "size" "group", .duplicateKind "item"] ∧
      (Draft.empty.play rivalCalls).freeze = .error (.duplicateSlotName "item" "size" "group") ∧
      ∃ o, (Draft.empty.play rivalCalls).Clashes (Draft.empty.accepted rivalCalls)
        ⟨0⟩ "size" o := by
  have hrefusals : Draft.empty.refusals rivalCalls
      = [.duplicateSlotName "item" "size" "group", .duplicateKind "item"] := by decide +kernel
  obtain ⟨hslots, -, -, hfreeze⟩ := follows_rivals.refusals_exact
  refine ⟨hrefusals, (hfreeze _).mpr (by rw [hrefusals]; rfl), ?_⟩
  refine (hslots (.child ⟨0⟩ "size" (.one "item")) _ _ rfl).1.mp ?_
  exact ⟨"item", "size", "group", by decide +kernel⟩

end Sample

end TypedForest
