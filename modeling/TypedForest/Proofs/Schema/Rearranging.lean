import TypedForest.Proofs.Schema.Refusals

namespace TypedForest

/-!
# Declarations in another order

Slots may be declared as soon as the kinds are declared that they name, in between other kinds or
after all of them.  Neither what is refused nor the schema depends on when this is done: a slot
name is looked for above and below the kind, among the slots that are there by then, and so a
clash is found at the later of two declarations, whichever that is.

* `Call.Rearranged` : sequences of the same calls, with the order kept among kinds and among the
  slots of each kind;
* `Draft.Accepts.unique` : calls that are all accepted determine the kinds of a draft, whatever
  order they came in;
* `Draft.Accepts.refusal?_eq_none` : a call that is accepted in the one order is accepted in
  the other;
* `Draft.freeze_rearranged` : both orders lead to the same schema.
-/

/-- Lists are equal if their images are, and items with the same image are the same. -/
theorem eq_of_map_eq_map {α β : Type} {f g : α → β} {xs ys : List α} (h : xs.map f = ys.map g)
    (hfg : ∀ x ∈ xs, ∀ y ∈ ys, f x = g y → x = y) : xs = ys := by
  have hlength : xs.length = ys.length := by simpa using congrArg List.length h
  refine List.ext_getElem hlength fun i hx hy => ?_
  refine hfg _ (List.getElem_mem hx) _ (List.getElem_mem hy) ?_
  have hi := congrArg (·[i]?) h
  simpa [hx, hy] using hi

/-- The names of kinds in the description of a child slot. -/
def ChildSpec.names : ChildSpec → List String
  | one name => [name]
  | many names => names
  | scalar _ => []

namespace Call

/-- The kinds that a call for a slot names are declared by the calls before it: the one that gets
    the slot, which is named by its handle, and the one that a child slot is for. -/
def Grounded (before : List Call) : Call → Prop
  | kind _ _ => True
  | value k _ _ => k.index < (before.filterMap kind?).length
  | child k _ spec => k.index < (before.filterMap kind?).length ∧
    ∀ name ∈ spec.names, ∃ base, kind name base ∈ before

instance (before : List Call) (name : String) : Decidable (∃ base, kind name base ∈ before) :=
  decidable_of_iff (∃ c ∈ before, c.kind?.map Prod.fst = some name) <| by
    constructor
    · rintro ⟨c, hc, hname⟩
      cases c with
      | kind n base =>
        cases hname
        exact ⟨base, hc⟩
      | value k slot type => cases hname
      | child k slot spec => cases hname
    · rintro ⟨base, hc⟩
      exact ⟨_, hc, rfl⟩

instance (before : List Call) : (c : Call) → Decidable (c.Grounded before)
  | kind _ _ => inferInstanceAs (Decidable True)
  | value k _ _ => inferInstanceAs (Decidable (k.index < (before.filterMap kind?).length))
  | child k _ spec => inferInstanceAs (Decidable (k.index < (before.filterMap kind?).length ∧
      ∀ name ∈ spec.names, ∃ base, kind name base ∈ before))

/-- Every call for a slot comes after the calls for the kinds that it names. -/
def AllGrounded (calls : List Call) : Prop :=
  ∀ before c later, calls = before ++ c :: later → c.Grounded before

instance (calls : List Call) : Decidable (AllGrounded calls) :=
  decidable_of_iff (∀ i : Fin calls.length, (calls.get i).Grounded (calls.take i)) <| by
    constructor
    · rintro h before c later rfl
      have hi := h ⟨before.length, by simp⟩
      simpa using hi
    · intro h i
      refine h _ _ (calls.drop (i + 1)) ?_
      rw [List.get_eq_getElem, List.getElem_cons_drop, List.take_append_drop]

/-- The calls are the same, the kinds are declared in the same order, and so are the value slots of
    each kind and the child slots of each kind. -/
structure Rearranged (calls calls' : List Call) : Prop where
  perm : calls.Perm calls'
  kinds : calls.filterMap kind? = calls'.filterMap kind?
  values : ∀ k, calls.filterMap (valueOn? k) = calls'.filterMap (valueOn? k)
  children : ∀ k, calls.filterMap (childOn? k) = calls'.filterMap (childOn? k)

/-- The first of several calls refer to kinds that were declared among themselves. -/
theorem AllGrounded.append_left {calls more : List Call} (h : AllGrounded (calls ++ more)) :
    AllGrounded calls := by
  rintro before c later rfl
  exact h before c (later ++ more) (by simp)

/-- There are never more kinds than a schema can have. -/
theorem length_effect_le {c : Call} {d : Draft} {kinds : List Kind} (h : c.effect d = .ok kinds)
    (hd : d.kinds.length ≤ Draft.maxKinds) : kinds.length ≤ Draft.maxKinds := by
  cases c with
  | kind name base =>
    cases hcheck : d.checkKind name base with
    | error e =>
      rw [effect, hcheck] at h
      cases h
    | ok b =>
      rw [effect, hcheck] at h
      cases h
      -- of all the ways through the check, only the last one does not fail
      unfold Draft.checkKind at hcheck
      repeat' split at hcheck
      all_goals cases hcheck
      rw [List.length_append]
      assumption
  | value k slot type =>
    cases hcheck : d.checkSlotName k slot with
    | error e =>
      rw [effect, hcheck] at h
      cases h
    | ok u =>
      rw [effect, hcheck] at h
      cases h
      rwa [List.length_modify]
  | child k slot spec =>
    cases hcheck : d.checkChild k slot spec with
    | error e =>
      rw [effect, hcheck] at h
      cases h
    | ok type =>
      rw [effect, hcheck] at h
      cases h
      rwa [List.length_modify]

end Call

namespace Draft

/-! ### Calls that are all accepted -/

/-- There are as many kinds as were declared. -/
theorem Records.length_kinds {calls : List Call} {d : Draft} (hr : Records calls d) :
    d.kinds.length = (calls.filterMap Call.kind?).length := by
  rw [← hr.kinds, List.length_map]

/-- A kind is declared by the call for a kind that has its place. -/
theorem Records.getElem?_kinds {calls : List Call} {d : Draft} (hr : Records calls d) {k : KindId}
    (hk : k.index < d.kinds.length) :
    (calls.filterMap Call.kind?)[k.index]? = some ((Kind.get d.kinds k).declared d.kinds) := by
  rw [← hr.kinds, List.getElem?_map, Kind.get, List.getElem?_eq_getElem hk]
  rfl

/-- A name under which some call declares a kind is found. -/
theorem Records.exists_byName? {calls : List Call} {d : Draft} (hr : Records calls d)
    {name : String} (h : ∃ base, .kind name base ∈ calls) :
    ∃ k, Kind.byName? d.kinds name = some k :=
  (Schema.exists_kindByName?_iff (s := ⟨d.kinds⟩)).mpr ((Schema.mem_map_name_iff hr.kinds).mpr h)

/-- What a draft is like that calls lead to of which none was refused. -/
structure Accepts (calls : List Call) (d : Draft) : Prop where
  records : Records calls d
  sound : d.Sound
  length_le : d.kinds.length ≤ maxKinds

/-- Calls that are grounded and not refused use handles that were returned before. -/
theorem follows_of_grounded {calls : List Call} (hg : Call.AllGrounded calls)
    (hok : Draft.empty.refusals calls = []) :
    (Draft.empty.play calls).Follows calls ∧ Accepts calls (Draft.empty.play calls) := by
  induction calls using List.reverseRecOn with
  | nil => exact ⟨.start, records_empty, sound_empty, Nat.zero_le _⟩
  | append_singleton calls c ih =>
    rw [refusals_append, List.append_eq_nil_iff] at hok
    obtain ⟨hbefore, hlast⟩ := hok
    obtain ⟨hfollows, haccepts⟩ := ih hg.append_left hbefore
    -- a grounded call refers to kinds that were declared before it
    have hscope : c.InScope (Draft.empty.play calls) := by
      have hc := hg calls c [] rfl
      cases c with
      | kind name base => trivial
      | value k slot type =>
        show k.index < (Draft.empty.play calls).kinds.length
        rw [haccepts.records.length_kinds]
        exact hc
      | child k slot spec =>
        show k.index < (Draft.empty.play calls).kinds.length
        rw [haccepts.records.length_kinds]
        exact hc.1
    have hc : c.refusal? (Draft.empty.play calls) = none := by simpa [refusals] using hlast
    have hnext := hfollows.call hscope
    have hfailure : (c.apply (Draft.empty.play calls)).failure = none := by
      rw [Call.failure_apply hc, failure_play, hbefore]
      rfl
    obtain ⟨kinds, heffect, happly⟩ := Call.exists_effect hc
    rw [play_append_singleton]
    refine ⟨hnext, hnext.records hfailure, hnext.declared.sound, ?_⟩
    rw [happly]
    exact Call.length_effect_le heffect haccepts.length_le

/-! ### Drafts that hold the same -/

section

variable {calls calls' : List Call} {d e : Draft} (hd : Accepts calls d) (he : Accepts calls' e)
  (hkinds : calls.filterMap Call.kind? <+: calls'.filterMap Call.kind?)
include hd he hkinds

/-- When more kinds are declared after the others, those are declared as before. -/
theorem Accepts.declared_eq {k : KindId} (hk : k.index < d.kinds.length) :
    (Kind.get e.kinds k).declared e.kinds = (Kind.get d.kinds k).declared d.kinds := by
  obtain ⟨more, hmore⟩ := hkinds
  have hlt : k.index < e.kinds.length := by
    rw [he.records.length_kinds, ← hmore, List.length_append, ← hd.records.length_kinds]
    omega
  have hfirst := hd.records.getElem?_kinds hk
  have hsecond := he.records.getElem?_kinds hlt
  rw [← hmore, List.getElem?_append_left (by rw [← hd.records.length_kinds]; exact hk), hfirst,
    Option.some.injEq] at hsecond
  exact hsecond.symm

theorem Accepts.name_eq {k : KindId} (hk : k.index < d.kinds.length) :
    (Kind.get e.kinds k).name = (Kind.get d.kinds k).name :=
  congrArg Prod.fst (hd.declared_eq he hkinds hk)

omit hd hkinds in
/-- In a draft kinds of the same name are the same. -/
theorem Accepts.name_inj {k l : KindId} (hk : k.index < e.kinds.length)
    (hl : l.index < e.kinds.length) (h : (Kind.get e.kinds k).name = (Kind.get e.kinds l).name) :
    k = l := by
  have hname : ∀ o : KindId, o.index < e.kinds.length →
      (e.kinds.map Kind.name)[o.index]? = some (Kind.get e.kinds o).name := by
    intro o ho
    rw [List.getElem?_map, Kind.get, List.getElem?_eq_getElem ho]
    rfl
  have hplace : k.index = l.index := by
    refine (List.getElem?_inj (by simpa using hk) he.sound.names).mp ?_
    rw [hname k hk, hname l hl, h]
  exact congrArg KindId.mk hplace

theorem Accepts.base_eq {k : KindId} (hk : k.index < d.kinds.length) :
    (Kind.get e.kinds k).base = (Kind.get d.kinds k).base := by
  have hnames := congrArg Prod.snd (hd.declared_eq he hkinds hk)
  simp only [Kind.declared] at hnames
  cases hb : (Kind.get d.kinds k).base with
  | none =>
    rw [hb] at hnames
    exact Option.map_eq_none_iff.mp hnames
  | some b =>
    rw [hb, Option.map_some] at hnames
    obtain ⟨b', hb', hname⟩ := Option.map_eq_some_iff.mp hnames
    -- both bases come before `k` and have the name that was given
    have hlt := hd.sound.bases k b hb
    have hlt' := he.sound.bases k b' hb'
    have hlength : d.kinds.length ≤ e.kinds.length := by
      rw [hd.records.length_kinds, he.records.length_kinds]
      exact hkinds.length_le
    rw [hb', he.name_inj (by omega) (by omega)
      (hname.trans (hd.name_eq he hkinds (by omega)).symm)]

/-- What derives from a kind goes on doing so. -/
theorem Accepts.chain {x y : KindId} (h : Relation.ReflTransGen (Kind.HasBase d.kinds) x y) :
    Relation.ReflTransGen (Kind.HasBase e.kinds) x y := by
  refine Relation.ReflTransGen.mono (fun k b hb => ?_) _ _ h
  have hk : k.index < d.kinds.length := by
    by_contra hbeyond
    rw [Kind.HasBase, Kind.get_of_length_le (by omega)] at hb
    cases hb
  exact (hd.base_eq he hkinds hk).trans hb

end

/-- The type of a child slot is known from its description. -/
theorem Accepts.type_eq {calls calls' : List Call} {d e : Draft} (hd : Accepts calls d)
    (he : Accepts calls' e)
    (hkinds : calls.filterMap Call.kind? <+: calls'.filterMap Call.kind?) {type type' : ChildType}
    (htype : type.kind.index < d.kinds.length) (htype' : type'.kind.index < e.kinds.length)
    (h : type.spec d.kinds = type'.spec e.kinds) : type = type' := by
  have hlength : d.kinds.length ≤ e.kinds.length := by
    rw [hd.records.length_kinds, he.records.length_kinds]
    exact hkinds.length_le
  -- a name stands for one kind
  have hkind : ∀ k k' : KindId, k.index < d.kinds.length → k'.index < e.kinds.length →
      (Kind.get d.kinds k).name = (Kind.get e.kinds k').name → k = k' := by
    intro k k' hk hk' hname
    exact he.name_inj (by omega) hk' ((hd.name_eq he hkinds hk).trans hname)
  cases type with
  | one k =>
    cases type' with
    | one k' =>
      rw [hkind k k' htype htype' (by simpa [ChildType.spec] using h)]
    | many k' => simp [ChildType.spec] at h
  | many k =>
    cases type' with
    | one k' => simp [ChildType.spec] at h
    | many k' =>
      rw [hkind k k' htype htype' (by simpa [ChildType.spec] using h)]

/-- The calls determine the kinds of a draft, up to the order that does not matter. -/
theorem Accepts.unique {calls calls' : List Call} {d e : Draft} (hd : Accepts calls d)
    (he : Accepts calls' e) (hsame : Call.Rearranged calls calls') : d.kinds = e.kinds := by
  have hkinds : calls.filterMap Call.kind? <+: calls'.filterMap Call.kind? := by rw [hsame.kinds]
  have hlength : d.kinds.length = e.kinds.length := by
    rw [hd.records.length_kinds, he.records.length_kinds, hsame.kinds]
  refine List.ext_getElem hlength fun i hi hi' => ?_
  have hget : Kind.get d.kinds ⟨i⟩ = Kind.get e.kinds ⟨i⟩ := by
    have hvalues : (Kind.get d.kinds ⟨i⟩).values = (Kind.get e.kinds ⟨i⟩).values := by
      rw [hd.records.values, he.records.values, hsame.values]
    have hchildren : (Kind.get d.kinds ⟨i⟩).children = (Kind.get e.kinds ⟨i⟩).children := by
      refine eq_of_map_eq_map (f := ChildSlot.declared d.kinds) (g := ChildSlot.declared e.kinds)
        ?_ fun a ha b hb hab => ?_
      · rw [hd.records.children, he.records.children, hsame.children]
      · -- the calls give the names of kinds only, which stand for the same kinds in both drafts
        obtain ⟨hname, hspec⟩ := Prod.mk.inj hab
        have htype := hd.type_eq he hkinds (hd.records.targets _ a ha) (he.records.targets _ b hb)
          hspec
        cases a
        cases b
        simp_all
    have hname := hd.name_eq he hkinds (k := ⟨i⟩) hi
    have hbase := hd.base_eq he hkinds (k := ⟨i⟩) hi
    cases hk : Kind.get d.kinds ⟨i⟩
    cases hl : Kind.get e.kinds ⟨i⟩
    simp_all
  rwa [Kind.get_of_getElem? (List.getElem?_eq_getElem hi),
    Kind.get_of_getElem? (List.getElem?_eq_getElem hi')] at hget

/-! ### A call in another place -/

section

variable {calls before later : List Call} {c : Call} {d e : Draft} (he : Accepts calls e)
  (hd : Accepts before d) (hsame : Call.Rearranged calls (before ++ c :: later))
include he hd hsame

/-- A kind that is declared in the one order can be declared in the other: its name is not taken
    by then, its base is there, and there is room. -/
theorem Accepts.exists_checkKind {name : String} {base : Option String} (hc : c = .kind name base) :
    ∃ b, d.checkKind name base = .ok b := by
  subst hc
  have hsplit : calls.filterMap Call.kind? = before.filterMap Call.kind? ++
      (name, base) :: later.filterMap Call.kind? := by
    rw [hsame.kinds, List.filterMap_append, List.filterMap_cons]
    rfl
  have hkinds : before.filterMap Call.kind? <+: calls.filterMap Call.kind? := ⟨_, hsplit.symm⟩
  have hlength : d.kinds.length < e.kinds.length := by
    rw [hd.records.length_kinds, he.records.length_kinds, hsplit, List.length_append,
      List.length_cons]
    omega
  -- the kind is the next one in the draft that has them all
  have hnew : (Kind.get e.kinds ⟨d.kinds.length⟩).declared e.kinds = (name, base) := by
    have hget := he.records.getElem?_kinds (k := ⟨d.kinds.length⟩) hlength
    have hplace := hd.records.length_kinds
    rw [hsplit, List.getElem?_append_right (by rw [hplace]), hplace.symm, Nat.sub_self] at hget
    exact (Option.some.inj hget).symm
  have hfresh : Kind.byName? d.kinds name = none := by
    refine Option.eq_none_iff_forall_ne_some.mpr fun k hk => ?_
    obtain ⟨hlt, hname⟩ := byName?_eq_some hk
    have heq := he.name_inj (k := k) (l := ⟨d.kinds.length⟩) (by omega) hlength
      ((hd.name_eq he hkinds hlt).trans (hname.trans (congrArg Prod.fst hnew).symm))
    rw [heq] at hlt
    exact Nat.lt_irrefl _ hlt
  have hbase : ∃ b, d.resolveBase base = .ok b := by
    cases hgiven : base with
    | none => exact ⟨none, rfl⟩
    | some name =>
      have hsnd := congrArg Prod.snd hnew
      rw [hgiven] at hsnd
      obtain ⟨b, hb, hname⟩ := Option.map_eq_some_iff.mp hsnd
      have hlt := he.sound.bases _ b hb
      rw [hd.name_eq he hkinds hlt] at hname
      have hmem : name ∈ d.kinds.map Kind.name := by
        rw [← hname, Kind.get, List.getElem?_eq_getElem hlt]
        exact List.mem_map_of_mem (List.getElem_mem hlt)
      obtain ⟨k, hk⟩ := (Schema.exists_kindByName?_iff (s := ⟨d.kinds⟩)).mpr hmem
      exact ⟨some k, by rw [resolveBase, show Kind.byName? d.kinds name = some k from hk]⟩
  obtain ⟨b, hb⟩ := hbase
  have hroom : d.kinds.length < maxKinds := Nat.lt_of_lt_of_le hlength he.length_le
  exact ⟨b, by simp [checkKind, hfresh, hb, hroom]⟩

/-- A slot name that is free in the one order is free in the other. -/
theorem Accepts.slotOwner?_eq_none {k : KindId} {slot : String} (hc : c.slot? = some (k, slot)) :
    d.slotOwner? k slot = none := by
  have hkinds : before.filterMap Call.kind? <+: calls.filterMap Call.kind? := by
    rw [hsame.kinds, List.filterMap_append]
    exact List.prefix_append _ _
  refine Option.eq_none_iff_forall_ne_some.mpr fun o ho => ?_
  obtain ⟨hchain, howns⟩ := slotOwner?_eq_some hd.sound.bases ho
  obtain ⟨c', hc', hslot⟩ := hd.records.mem_slotNames_iff.mp howns
  by_cases hok : o = k
  · -- `k` would have got two slots of that name
    subst hok
    have hnodup := (((he.records.slotNames_perm o).trans
      (hsame.perm.filterMap (Call.slotOn? o))).nodup_iff.mp (he.sound.own o))
    rw [List.filterMap_append, List.filterMap_cons, Call.slotOn?_eq_some_iff.mpr hc] at hnodup
    refine List.disjoint_of_nodup_append hnodup (a := slot) ?_ List.mem_cons_self
    exact List.mem_filterMap.mpr ⟨c', hc', Call.slotOn?_eq_some_iff.mpr hslot⟩
  · -- both would have one in the draft that has them all
    have hk : slot ∈ (Kind.get e.kinds k).slotNames :=
      he.records.mem_slotNames_iff.mpr ⟨c, hsame.perm.mem_iff.mpr (by simp), hc⟩
    have ho : slot ∈ (Kind.get e.kinds o).slotNames :=
      he.records.mem_slotNames_iff.mpr ⟨c', hsame.perm.mem_iff.mpr (by simp [hc']), hslot⟩
    rcases hchain with hup | hdown
    · exact he.sound.apart k o ((Kind.mem_lineage_iff he.sound.bases).mpr
        (hd.chain he hkinds hup)) hok hk ho
    · exact he.sound.apart o k ((Kind.mem_lineage_iff he.sound.bases).mpr
        (hd.chain he hkinds hdown)) (Ne.symm hok) ho hk

omit hd in
/-- The description of a child slot that is accepted names one kind. -/
theorem Accepts.spec_cases {k : KindId} {slot : String} {spec : ChildSpec}
    (hc : c = .child k slot spec) : ∃ name, spec = .one name ∨ spec = .many [name] := by
  have hmem : (slot, spec) ∈ calls.filterMap (Call.childOn? k) := by
    refine List.mem_filterMap.mpr ⟨c, hsame.perm.mem_iff.mpr (by simp), ?_⟩
    rw [hc, Call.childOn?, if_pos rfl]
  rw [← he.records.children k] at hmem
  obtain ⟨declared, -, hdeclared⟩ := List.mem_map.mp hmem
  have hspec : declared.type.spec e.kinds = spec := congrArg Prod.snd hdeclared
  cases htype : declared.type with
  | one t => exact ⟨_, .inl (by rw [← hspec, htype, ChildType.spec])⟩
  | many t => exact ⟨_, .inr (by rw [← hspec, htype, ChildType.spec])⟩

/-- A call that is accepted in the one order is accepted in the other. -/
theorem Accepts.refusal?_eq_none (hc : c.Grounded before) : c.refusal? d = none := by
  refine Option.eq_none_iff_forall_ne_some.mpr fun error herror => ?_
  rw [Call.refusal?_eq_some_iff] at herror
  cases c with
  | kind name base =>
    obtain ⟨b, hb⟩ := he.exists_checkKind hd hsame rfl
    rw [Call.effect, hb] at herror
    cases herror
  | value k slot type =>
    rw [Call.effect, checkSlotName, he.slotOwner?_eq_none hd hsame rfl] at herror
    cases herror
  | child k slot spec =>
    obtain ⟨name, hname⟩ := he.spec_cases hsame rfl
    -- the kinds that a grounded call names are found
    have htype : ∃ type, d.resolveSpec spec = .ok type := by
      have hknown : name ∈ spec.names := by
        rcases hname with rfl | rfl <;> exact List.mem_singleton_self name
      obtain ⟨t, ht⟩ := hd.records.exists_byName? (hc.2 name hknown)
      rcases hname with rfl | rfl
      · exact ⟨.one t, by rw [resolveSpec, resolveTarget, ht]; rfl⟩
      · exact ⟨.many t, by rw [resolveSpec, resolveTarget, ht]; rfl⟩
    obtain ⟨type, htype⟩ := htype
    rw [Call.effect, checkChild, checkSlotName, he.slotOwner?_eq_none hd hsame rfl, htype] at herror
    cases herror

end

/-- Nothing is refused in the other order: by induction on the calls made so far. -/
theorem Accepts.refusals_eq_nil {calls calls' : List Call} {e : Draft} (he : Accepts calls e)
    (hsame : Call.Rearranged calls calls') (hg : Call.AllGrounded calls') :
    Draft.empty.refusals calls' = [] := by
  have hprefix : ∀ before, before <+: calls' → Draft.empty.refusals before = [] := by
    intro before
    induction before using List.reverseRecOn with
    | nil => exact fun _ => rfl
    | append_singleton before c ih =>
      rintro ⟨later, hlater⟩
      rw [List.append_assoc, List.singleton_append] at hlater
      have hbefore := ih ⟨c :: later, hlater⟩
      -- the calls so far make a draft of their own, to compare with the one that has them all
      rw [← hlater] at hsame hg
      have hd := (follows_of_grounded hg.append_left hbefore).2
      have hc := he.refusal?_eq_none hd hsame (hg before c later rfl)
      rw [refusals_append, hbefore, refusals, hc]
      rfl
  exact hprefix calls' (List.prefix_refl _)

/-- **Declarations commute.**  If calls that declare the same kinds and slots, with the same order
    among kinds and among the slots of each kind, are all accepted in one order, they are all
    accepted in any other in which each slot comes after the kinds that it names, and the schema is
    the same. -/
theorem freeze_rearranged {calls calls' : List Call} (hsame : Call.Rearranged calls calls')
    (hg : Call.AllGrounded calls) (hg' : Call.AllGrounded calls')
    (hok : Draft.empty.refusals calls = []) :
    Draft.empty.refusals calls' = [] ∧ ∃ s, (Draft.empty.play calls).freeze = .ok s ∧
      (Draft.empty.play calls').freeze = .ok s := by
  obtain ⟨-, he⟩ := follows_of_grounded hg hok
  have hok' := he.refusals_eq_nil hsame hg'
  obtain ⟨-, hd⟩ := follows_of_grounded hg' hok'
  refine ⟨hok', _, freeze_eq_ok_iff.mpr ⟨?_, rfl⟩, freeze_eq_ok_iff.mpr ⟨?_, ?_⟩⟩
  · rw [failure_play, hok]
    rfl
  · rw [failure_play, hok']
    rfl
  · rw [he.unique hd hsame]

end Draft

namespace Sample

/-- The calls of `lateCalls` in an order in which items have their slots before groups derive from
    them. -/
def earlyCalls : List Call :=
  [.kind "item" none, .child ⟨0⟩ "next" (.one "item"), .value ⟨0⟩ "label" .str,
    .kind "group" (some "item"), .child ⟨1⟩ "parts" (.many ["item"]), .value ⟨1⟩ "size" .int]

/-- Both orders give groups a label before their size. -/
theorem freeze_late_early : Draft.empty.refusals earlyCalls = [] ∧
    ∃ s, (Draft.empty.play lateCalls).freeze = .ok s ∧
      (Draft.empty.play earlyCalls).freeze = .ok s := by
  have hvalues : ∀ k, lateCalls.filterMap (Call.valueOn? k) = earlyCalls.filterMap
      (Call.valueOn? k) := by
    intro k
    by_cases hitem : (⟨0⟩ : KindId) = k
    · subst hitem
      decide
    · simp [lateCalls, earlyCalls, List.filterMap_cons, Call.valueOn?, hitem]
  have hchildren : ∀ k, lateCalls.filterMap (Call.childOn? k) = earlyCalls.filterMap
      (Call.childOn? k) := fun k => rfl
  exact Draft.freeze_rearranged ⟨by decide, by decide, hvalues, hchildren⟩ (by decide) (by decide)
    (by decide +kernel)

end Sample

end TypedForest
