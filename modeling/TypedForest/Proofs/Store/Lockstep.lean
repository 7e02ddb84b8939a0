import TypedForest.Proofs.Snapshot.Normal
import TypedForest.Proofs.Store.Writing

namespace TypedForest

/-!
# Adding nodes in two stores at once

The same operation in two stores over one schema makes nodes under handles that have nothing to do
with each other.  What can be compared are the trees under them (`Store.Alike`) and the errors.

* `Store.Advance` : two stores have come further, and the same number of nodes was added to both;
* `Store.Outcomes` : two runs both succeed with results that are related, or both fail with the
  same error, unless one of the stores gets full;
* `Store.outcomes_constructAnnotated` : so it is when a node is made in both over nodes with the
  same trees; the checks then find the same, down to the texts of errors;
* `Store.outcomes_rebuild` : so it is when a snapshot is restored in both.
-/

/-- Fillings with the same values, and with related nodes in the same places. -/
inductive Filling.Rel (R : Handle → Handle → Prop) : Filling → Filling → Prop
  | value (v : Value) : Rel R (.value v) (.value v)
  | vacant : Rel R (.one none) (.one none)
  | one {a b : Handle} (hab : R a b) : Rel R (.one (some a)) (.one (some b))
  | many {as bs : List Handle} (h : List.Forall₂ R as bs) : Rel R (.many as) (.many bs)

/-- A weaker relation between the nodes relates the fillings too. -/
theorem Filling.Rel.mono {R Q : Handle → Handle → Prop} {f g : Filling} (h : f.Rel R g)
    (hRQ : ∀ a b, R a b → Q a b) : f.Rel Q g := by
  cases h with
  | value v => exact .value v
  | vacant => exact .vacant
  | one hab => exact .one (hRQ _ _ hab)
  | many has => exact .many (has.imp hRQ)

/-- So it is for contents. -/
theorem Content.Rel.mono {R Q : Handle → Handle → Prop} {c d : Content} (h : c.Rel R d)
    (hRQ : ∀ a b, R a b → Q a b) : c.Rel Q d := by
  cases h with
  | vacant => exact .vacant
  | one hab => exact .one (hRQ _ _ hab)
  | many has => exact .many (has.imp hRQ)

namespace Store

/-! ### Two stores -/

/-- Two stores over one schema. -/
structure Beside (schema : Schema) (s t : Store) : Prop where
  lawful : schema.Lawful
  left : s.WellFormed
  right : t.WellFormed
  leftSchema : s.schema = schema
  rightSchema : t.schema = schema

/-- The stores `s` and `t` have become `s'` and `t'`: the nodes that were there hold what they
    held, and as many were added to the one as to the other. -/
structure Advance (schema : Schema) (s t s' t' : Store) : Prop extends Beside schema s' t' where
  leftKeeps : Preserves s s'
  rightKeeps : Preserves t t'
  count : s'.live + t.live = t'.live + s.live

/-- Two runs from `s` and `t` both succeed with results that are related, or both fail with the
    same error.  Either way the stores have advanced.  If one of the runs finds its store full,
    nothing is said of the other. -/
inductive Outcomes {ε α β : Type} (schema : Schema) (full : ε) (R : Store → Store → α → β → Prop)
    (s t : Store) : EStateM.Result ε Store α → EStateM.Result ε Store β → Prop
  | ok {a : α} {b : β} {s' t' : Store} (h : Advance schema s t s' t') (hab : R s' t' a b) :
      Outcomes schema full R s t (.ok a s') (.ok b t')
  | error {e : ε} {s' t' : Store} (h : Advance schema s t s' t') (he : e ≠ full) :
      Outcomes schema full R s t (.error e s') (.error e t')
  | fullLeft {s' : Store} {y : EStateM.Result ε Store β} (h : maxNodes ≤ s'.live) :
      Outcomes schema full R s t (.error full s') y
  | fullRight {t' : Store} {x : EStateM.Result ε Store α} (h : maxNodes ≤ t'.live) :
      Outcomes schema full R s t x (.error full t')

section

variable {ε α β γ δ : Type} {schema : Schema} {full : ε} {s t s' t' : Store}

theorem Beside.schema_eq (h : Beside schema s t) : t.schema = s.schema :=
  h.rightSchema.trans h.leftSchema.symm

theorem Beside.lawful_left (h : Beside schema s t) : s.schema.Lawful := h.leftSchema ▸ h.lawful

/-- Two stores may stay as they are. -/
theorem Advance.refl (h : Beside schema s t) : Advance schema s t s t where
  toBeside := h
  leftKeeps := ⟨rfl, fun _ n hn => ⟨n.parent, hn⟩⟩
  rightKeeps := ⟨rfl, fun _ n hn => ⟨n.parent, hn⟩⟩
  count := Nat.add_comm _ _

/-- What is kept twice is kept. -/
theorem Preserves.trans {s₁ s₂ s₃ : Store} (h : Preserves s₁ s₂) (h' : Preserves s₂ s₃) :
    Preserves s₁ s₃ := by
  refine ⟨h'.schema.trans h.schema, fun x n hn => ?_⟩
  obtain ⟨p, hp⟩ := h.nodes x n hn
  obtain ⟨q, hq⟩ := h'.nodes x _ hp
  exact ⟨q, hq⟩

/-- Two stores may go on several times. -/
theorem Advance.trans (h : Advance schema s t s' t') {s'' t'' : Store}
    (h' : Advance schema s' t' s'' t'') : Advance schema s t s'' t'' where
  toBeside := h'.toBeside
  leftKeeps := h.leftKeeps.trans h'.leftKeeps
  rightKeeps := h.rightKeeps.trans h'.rightKeeps
  count := by
    have := h.count
    have := h'.count
    omega

/-- Nodes with the same tree go on having it. -/
theorem Advance.alike (h : Advance schema s t s' t') {a b : Handle} (hab : Alike s t a b) :
    Alike s' t' a b := by
  obtain ⟨u, ha, hb⟩ := hab
  exact ⟨u, ha.mono h.leftKeeps, hb.mono h.rightKeeps⟩

/-- What comes after an advance is seen from before it. -/
theorem Outcomes.after {R : Store → Store → α → β → Prop} {x : EStateM.Result ε Store α}
    {y : EStateM.Result ε Store β} (h : Advance schema s t s' t')
    (hxy : Outcomes schema full R s' t' x y) : Outcomes schema full R s t x y := by
  cases hxy with
  | ok h' hab => exact .ok (h.trans h') hab
  | error h' he => exact .error (h.trans h') he
  | fullLeft hfull => exact .fullLeft hfull
  | fullRight hfull => exact .fullRight hfull

/-- Two runs one after the other. -/
theorem Outcomes.bind {R : Store → Store → α → β → Prop} {Q : Store → Store → γ → δ → Prop}
    {x : EStateM ε Store α} {y : EStateM ε Store β} {f : α → EStateM ε Store γ}
    {g : β → EStateM ε Store δ} (hxy : Outcomes schema full R s t (x s) (y t))
    (hfg : ∀ a b s' t', Advance schema s t s' t' → R s' t' a b →
      Outcomes schema full Q s' t' (f a s') (g b t')) :
    Outcomes schema full Q s t ((x >>= f) s) ((y >>= g) t) := by
  rw [bind_apply, bind_apply]
  generalize x s = rx at hxy
  generalize y t = ry at hxy
  cases hxy with
  | ok h hab => exact (hfg _ _ _ _ h hab).after h
  | error h he => exact .error h he
  | fullLeft hfull => exact .fullLeft hfull
  | fullRight hfull =>
    cases rx with
    | ok a s' => exact .fullRight hfull
    | error e s' => exact .fullRight hfull

end

/-! ### The checks -/

/-- Two checks both pass with results that are related, or both fail with the same error. -/
inductive SameVerdict {ε α β : Type} (R : α → β → Prop) : Except ε α → Except ε β → Prop
  | ok {a : α} {b : β} (h : R a b) : SameVerdict R (.ok a) (.ok b)
  | error (e : ε) : SameVerdict R (.error e) (.error e)

/-- Nodes of the same kind with the same values, over nodes with the same trees. -/
def AlikeNodes (s t : Store) (m n : Node) : Prop :=
  n.kind = m.kind ∧ n.values = m.values ∧
    List.Forall₂ (Content.Rel (Alike s t)) m.children n.children

section

variable {schema : Schema} {s t : Store} (h : Beside schema s t)
include h

/-- Nodes with the same tree are alive, and are of the same kind. -/
theorem Beside.kind_eq {a b : Handle} (hab : Alike s t a b) :
    ∃ m n, s.node? a = some m ∧ t.node? b = some n ∧ n.kind = m.kind := by
  obtain ⟨u, ha, hb⟩ := id hab
  obtain ⟨m, hm⟩ := isAlive_iff.mp ha.isAlive
  obtain ⟨n, hn⟩ := isAlive_iff.mp hb.isAlive
  exact ⟨m, n, hm, hn, hab.kind_eq h.left h.right h.lawful_left h.schema_eq hm hn⟩

/-- Related fillings are described in the same words. -/
theorem describe_eq_of_rel {f g : Filling} (hfg : f.Rel (Alike s t) g) :
    t.describe g = s.describe f := by
  cases hfg with
  | value v => rfl
  | vacant => rfl
  | one hab =>
    obtain ⟨m, n, hm, hn, hkind⟩ := h.kind_eq hab
    simp only [describe, hm, hn, hkind, h.schema_eq]
  | many has => rfl

/-- A value slot takes both of them, or refuses both with the same words. -/
theorem checkValue_eq_of_rel {f g : Filling} (hfg : f.Rel (Alike s t) g) (slot : ValueSlot) :
    t.checkValue slot g = s.checkValue slot f := by
  unfold checkValue
  rw [describe_eq_of_rel h hfg]
  cases hfg <;> rfl

/-- So it is for the nodes in a child slot. -/
theorem checkNodes_eq_of_alike {as bs : List Handle} (has : List.Forall₂ (Alike s t) as bs)
    (slot : ChildSlot) (found : String → Found) :
    t.checkNodes slot found bs = s.checkNodes slot found as := by
  induction has with
  | nil => rfl
  | cons hab _ ih =>
    obtain ⟨m, n, hm, hn, hkind⟩ := h.kind_eq hab
    rw [checkNodes, checkNodes, hm, hn]
    simp only [hkind, h.schema_eq, ih, expects]

/-- A child slot takes both of two related fillings, or refuses both. -/
theorem sameVerdict_checkChild {f g : Filling} (hfg : f.Rel (Alike s t) g) (slot : ChildSlot) :
    SameVerdict (Content.Rel (Alike s t)) (s.checkChild slot f) (t.checkChild slot g) := by
  have hdescribe := describe_eq_of_rel h hfg
  -- both errors name what is expected and what was found
  have hexpects : t.expects slot.type = s.expects slot.type := by
    unfold expects
    rw [h.schema_eq]
  unfold checkChild
  rw [hdescribe, hexpects]
  cases slot.type with
  | one k =>
    cases hfg with
    | vacant => exact .ok .vacant
    | one hab =>
      simp only [Option.toList_some, checkNodes_eq_of_alike h (.cons hab .nil)]
      cases s.checkNodes slot .node [_] with
      | error e => exact .error e
      | ok u => exact .ok (.one hab)
    | value v => exact .error _
    | many has => exact .error _
  | many k =>
    cases hfg with
    | many has =>
      simp only [checkNodes_eq_of_alike h has]
      cases s.checkNodes slot .listWith _ with
      | error e => exact .error e
      | ok u => exact .ok (.many has)
    | value v => exact .error _
    | vacant => exact .error _
    | one hab => exact .error _

/-- The value slots of a kind are filled in both stores, or in neither. -/
theorem sameVerdict_fillValues (slots : List ValueSlot) {args args' : List Filling}
    (hargs : List.Forall₂ (Filling.Rel (Alike s t)) args args') :
    SameVerdict (fun p q => q.1 = p.1 ∧ List.Forall₂ (Filling.Rel (Alike s t)) p.2 q.2)
      (s.fillValues slots args) (t.fillValues slots args') := by
  induction slots generalizing args args' with
  | nil => exact .ok ⟨rfl, hargs⟩
  | cons slot slots ih =>
    cases hargs with
    | nil =>
      have hrest := ih .nil
      rw [fillValues, fillValues]
      generalize s.fillValues slots [] = x at hrest ⊢
      generalize t.fillValues slots [] = y at hrest ⊢
      cases hrest with
      | error e => exact .error e
      | ok hpq => exact .ok ⟨congrArg (List.cons _) hpq.1, hpq.2⟩
    | cons harg hargs =>
      have hrest := ih hargs
      rw [fillValues, fillValues, checkValue_eq_of_rel h harg]
      cases s.checkValue slot _ with
      | error e => exact .error e
      | ok v =>
        dsimp only
        generalize s.fillValues slots _ = x at hrest ⊢
        generalize t.fillValues slots _ = y at hrest ⊢
        cases hrest with
        | error e => exact .error e
        | ok hpq => exact .ok ⟨congrArg (List.cons _) hpq.1, hpq.2⟩

/-- So are its child slots. -/
theorem sameVerdict_fillChildren (slots : List ChildSlot) {args args' : List Filling}
    (hargs : List.Forall₂ (Filling.Rel (Alike s t)) args args') :
    SameVerdict (List.Forall₂ (Content.Rel (Alike s t))) (s.fillChildren slots args)
      (t.fillChildren slots args') := by
  induction slots generalizing args args' with
  | nil => exact .ok .nil
  | cons slot slots ih =>
    cases hargs with
    | nil =>
      -- no arguments are left: the slots get their defaults
      have hrest := ih .nil
      rw [fillChildren, fillChildren]
      generalize s.fillChildren slots [] = x at hrest ⊢
      generalize t.fillChildren slots [] = y at hrest ⊢
      cases hrest with
      | error e => exact .error e
      | ok hcs =>
        refine .ok (.cons ?_ hcs)
        cases slot.type with
        | one k => exact .vacant
        | many k => exact .many .nil
    | cons harg hargs =>
      have hrest := ih hargs
      have hcheck := sameVerdict_checkChild h harg slot
      rw [fillChildren, fillChildren]
      generalize s.checkChild slot _ = x at hcheck ⊢
      generalize t.checkChild slot _ = y at hcheck ⊢
      cases hcheck with
      | error e => exact .error e
      | ok hcd =>
        dsimp only
        generalize s.fillChildren slots _ = xs at hrest ⊢
        generalize t.fillChildren slots _ = ys at hrest ⊢
        cases hrest with
        | error e => exact .error e
        | ok hcs => exact .ok (.cons hcd hcs)

/-- Related arguments fill a kind in both stores, or in neither. -/
theorem sameVerdict_fill (k : KindId) {args args' : List Filling}
    (hargs : List.Forall₂ (Filling.Rel (Alike s t)) args args') :
    SameVerdict (AlikeNodes s t) (s.fill k args) (t.fill k args') := by
  have hvalues := sameVerdict_fillValues h (s.schema.kind k).values hargs
  unfold fill
  rw [h.schema_eq, ← hargs.length_eq]
  dsimp only
  split
  · exact .error _
  · generalize s.fillValues (s.schema.kind k).values args = x at hvalues ⊢
    generalize t.fillValues (s.schema.kind k).values args' = y at hvalues ⊢
    cases hvalues with
    | error e => exact .error e
    | @ok p q hpq =>
      obtain ⟨hvs, hrest⟩ := hpq
      -- the children get what the values have left, in both stores
      have hchildren := sameVerdict_fillChildren h (s.schema.kind k).children hrest
      dsimp only
      generalize s.fillChildren (s.schema.kind k).children p.2 = xs at hchildren ⊢
      generalize t.fillChildren (s.schema.kind k).children q.2 = ys at hchildren ⊢
      cases hchildren with
      | error e => exact .error e
      | ok hcs => exact .ok ⟨rfl, hvs, hcs⟩

end

/-! ### Making a node in both -/

/-- A node that is made with notes leaves a well-formed store. -/
theorem wellFormed_of_constructAnnotated {s s' : Store} (hs : s.WellFormed) {k : KindId}
    (hk : k.index < s.schema.size) {args : List Filling} {notes : List (String × Value)}
    {r : Handle} (hmake : constructAnnotated k args notes s = .ok r s') : s'.WellFormed := by
  rw [← after_of_ok hmake]
  exact hs.steps (Growths.constructAnnotated (.inl hk) args notes).steps

/-- The new nodes have the same tree. -/
theorem outcomes_of_made {schema : Schema} {s t s' t' : Store} (h : Beside schema s t)
    {k : KindId} (hk : k.index < schema.size) {args args' : List Filling} {m n : Node}
    (hmn : AlikeNodes s t m n) (hm : s.fill k args = .ok m) (hn : t.fill k args' = .ok n)
    {notes : List (String × Value)} {r q : Handle}
    (hr : constructAnnotated k args notes s = .ok r s')
    (hq : constructAnnotated k args' notes t = .ok q t') :
    Outcomes schema NodeError.storeFull Alike s t (.ok r s') (.ok q t') := by
  obtain ⟨hkind, hvalues, hchildren⟩ := hmn
  obtain ⟨m₁, hm₁, hp, hlive, hnode⟩ := exists_of_constructAnnotated h.left.booked.freePlaces hr
  obtain ⟨n₁, hn₁, hp', hlive', hnode'⟩ :=
    exists_of_constructAnnotated h.right.booked.freePlaces hq
  obtain rfl : m = m₁ := Except.ok.inj (hm.symm.trans hm₁)
  obtain rfl : n = n₁ := Except.ok.inj (hn.symm.trans hn₁)
  have hadvance : Advance schema s t s' t' :=
    ⟨⟨h.lawful, wellFormed_of_constructAnnotated h.left (h.leftSchema ▸ hk) hr,
      wellFormed_of_constructAnnotated h.right (h.rightSchema ▸ hk) hq,
      hp.schema.trans h.leftSchema, hp'.schema.trans h.rightSchema⟩, hp, hp', by omega⟩
  refine .ok hadvance ((alike_iff_of_node? hnode hnode').mpr ⟨?_, ?_⟩)
  · simp only [label, hadvance.leftSchema, hadvance.rightSchema, hkind, hvalues,
      (forall₂_rel_iff.mp hchildren).1]
  · exact hchildren.imp fun c d hcd => hcd.mono fun a b => hadvance.alike

/-- **A node over nodes with the same trees** is made in both stores or refused in both for the
    same reason. -/
theorem outcomes_constructAnnotated {schema : Schema} {s t : Store} (h : Beside schema s t)
    {k : KindId} (hk : k.index < schema.size) {args args' : List Filling}
    (hargs : List.Forall₂ (Filling.Rel (Alike s t)) args args') (notes : List (String × Value)) :
    Outcomes schema .storeFull Alike s t (constructAnnotated k args notes s)
      (constructAnnotated k args' notes t) := by
  have hverdict := sameVerdict_fill h k hargs
  cases hm : s.fill k args with
  | error e =>
    rw [hm] at hverdict
    cases hn : t.fill k args' with
    | ok n =>
      rw [hn] at hverdict
      cases hverdict
    | error e' =>
      rw [hn] at hverdict
      cases hverdict
      rw [constructAnnotated_of_fill_error hm, constructAnnotated_of_fill_error hn]
      exact .error (.refl h) fun he => fill_ne_storeFull (he ▸ hm)
  | ok m =>
    rw [hm] at hverdict
    cases hn : t.fill k args' with
    | error e =>
      rw [hn] at hverdict
      cases hverdict
    | ok n =>
      rw [hn] at hverdict
      cases hverdict with
      | ok hmn =>
        -- both nodes are right, and so only room can be missing
        by_cases hroom : s.live < maxNodes
        · by_cases hroom' : t.live < maxNodes
          · obtain ⟨r, s', hr⟩ := h.left.exists_constructAnnotated hm hroom notes
            obtain ⟨q, t', hq⟩ := h.right.exists_constructAnnotated hn hroom' notes
            rw [hr, hq]
            exact outcomes_of_made h hk hmn hm hn hr hq
          · rw [h.right.constructAnnotated_eq_storeFull hn (Nat.le_of_not_lt hroom')]
            exact .fullRight (Nat.le_of_not_lt hroom')
        · rw [h.left.constructAnnotated_eq_storeFull hm (Nat.le_of_not_lt hroom)]
          exact .fullLeft (Nat.le_of_not_lt hroom)

/-! ### Restoring in both -/

/-- Related fillings stay related when both are settled for the slot. -/
theorem settle_rel {R : Handle → Handle → Prop} {f g : Filling} (hfg : f.Rel R g)
    (slot : ChildSlot) : (settle slot f).Rel R (settle slot g) := by
  cases hfg with
  | value v => simpa [settle] using .value v
  | vacant =>
    unfold settle
    split
    · exact .many .nil
    · exact .vacant
  | one hab => simpa [settle] using .one hab
  | many has => simpa [settle] using .many has

/-- So it is for all slots of a kind. -/
theorem forall₂_settle_rel {R : Handle → Handle → Prop} {fs gs : List Filling}
    (hfs : List.Forall₂ (Filling.Rel R) fs gs) (slots : List ChildSlot) :
    List.Forall₂ (Filling.Rel R) (List.zipWith settle slots fs)
      (List.zipWith settle slots gs) := by
  induction hfs generalizing slots with
  | nil =>
    rw [List.zipWith_nil_right]
    exact .nil
  | cons hfg _ ih =>
    cases slots with
    | nil => exact .nil
    | cons slot slots => exact .cons (settle_rel hfg slot) (ih slots)

section

variable {schema : Schema} {n : Nat}
  (hrebuild : ∀ (u : Snapshot) (s t : Store), Beside schema s t →
    Outcomes schema .storeFull Alike s t (rebuild n u s) (rebuild n u t))
include hrebuild

/-- Several snapshots are restored in both stores alike. -/
theorem outcomes_restoreAll (us : List Snapshot) {s t : Store} (h : Beside schema s t) :
    Outcomes schema .storeFull (fun s t => List.Forall₂ (Alike s t)) s t
      (restoreAll (rebuild n) us s) (restoreAll (rebuild n) us t) := by
  induction us generalizing s t with
  | nil => exact .ok (.refl h) .nil
  | cons u us ih =>
    rw [restoreAll_cons, restoreAll_cons]
    refine (hrebuild u s t h).bind fun a b s₁ t₁ h₁ hab => ?_
    refine (ih h₁.toBeside).bind fun as bs s₂ t₂ h₂ has => ?_
    exact .ok (.refl h₂.toBeside) (.cons (h₂.alike hab) has)

/-- So is the content of a slot. -/
theorem outcomes_restoreChild (c : Snapshot.Child) {s t : Store} (h : Beside schema s t) :
    Outcomes schema .storeFull (fun s t => Filling.Rel (Alike s t)) s t
      (restoreChild (rebuild n) c s) (restoreChild (rebuild n) c t) := by
  cases c with
  | absent => exact .ok (.refl h) .vacant
  | node u =>
    rw [restoreChild_node, restoreChild_node]
    exact (hrebuild u s t h).bind fun a b s₁ t₁ h₁ hab => .ok (.refl h₁.toBeside) (.one hab)
  | list us =>
    rw [restoreChild_list, restoreChild_list]
    exact (outcomes_restoreAll hrebuild us h).bind fun as bs s₁ t₁ h₁ has =>
      .ok (.refl h₁.toBeside) (.many has)

/-- So are the contents of all slots. -/
theorem outcomes_placeChildren (kind : Kind) (entries : List (String × Snapshot.Child))
    {fs gs : List Filling} {s t : Store} (h : Beside schema s t)
    (hfs : List.Forall₂ (Filling.Rel (Alike s t)) fs gs) :
    Outcomes schema .storeFull (fun s t => List.Forall₂ (Filling.Rel (Alike s t))) s t
      (placeChildren (rebuild n) kind entries fs s)
      (placeChildren (rebuild n) kind entries gs t) := by
  induction entries generalizing fs gs s t with
  | nil => exact .ok (.refl h) hfs
  | cons entry rest ih =>
    obtain ⟨name, c⟩ := entry
    cases hi : kind.childIndex? name with
    | none =>
      rw [placeChildren, placeChildren, hi]
      exact .error (.refl h) (by simp)
    | some i =>
      rw [placeChildren_cons _ hi, placeChildren_cons _ hi]
      refine (outcomes_restoreChild hrebuild c h).bind fun f g s₁ t₁ h₁ hfg => ?_
      -- the nodes that wait in other slots have the same trees still
      have hkept := hfs.imp fun f g hfg => hfg.mono fun a b => h₁.alike
      exact ih h₁.toBeside (forall₂_set_set hkept i hfg)

end

/-- **Restoring does not depend on the store.** -/
theorem outcomes_rebuild {schema : Schema} (n : Nat) (u : Snapshot) {s t : Store}
    (h : Beside schema s t) :
    Outcomes schema .storeFull Alike s t (rebuild n u s) (rebuild n u t) := by
  induction n generalizing u s t with
  | zero => exact .error (.refl h) (by simp)
  | succ n ih =>
    obtain ⟨name, values, children, notes⟩ := u
    have hschema := h.schema_eq
    cases hk : s.schema.kindByName? name with
    | none =>
      rw [rebuild, rebuild, hschema, hk]
      exact .error (.refl h) (by simp)
    | some k =>
      cases hvs : placeValues (s.schema.kind k) values
          (List.replicate (s.schema.kind k).values.length (.value .null)) with
      | error e =>
        simp only [rebuild, hschema, hk, hvs]
        exact .error (.refl h) fun he => placeValues_ne_storeFull (he ▸ hvs)
      | ok vs =>
        -- values hold no nodes, and so they are related in any way
        have hvalues (R : Handle → Handle → Prop) : List.Forall₂ (Filling.Rel R) vs vs := by
          rw [fillings_placeValues_null (List.nodup_append.mp (h.lawful_left.slots k)).1 hvs,
            List.forall₂_map_left_iff, List.forall₂_map_right_iff]
          exact List.forall₂_same.mpr fun _ _ => .value _
        have hvacant : List.Forall₂ (Filling.Rel (Alike s t))
            (List.replicate (s.schema.kind k).children.length (.one none))
            (List.replicate (s.schema.kind k).children.length (.one none)) :=
          List.forall₂_same.mpr fun f hf => List.eq_of_mem_replicate hf ▸ .vacant
        rw [rebuild_succ hk hvs, rebuild_succ (hschema ▸ hk) (hschema ▸ hvs), hschema]
        refine (outcomes_placeChildren (fun u s t => ih u) _ children h hvacant).bind
          fun cs ds s₁ t₁ h₁ hcs => ?_
        have hknown : k.index < schema.size := h.leftSchema ▸ (Schema.kindByName?_eq_some hk).1
        exact outcomes_constructAnnotated h₁.toBeside hknown
          (List.rel_append (hvalues _) (forall₂_settle_rel hcs _)) notes.entries

end Store

end TypedForest
