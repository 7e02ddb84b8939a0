import Mathlib.Data.List.Infix
import Mathlib.Logic.Relation
import TypedForest.Proofs.Schema.Built

namespace TypedForest

/-!
# What is declared is what is built

A schema is followed from the calls that declared it to the tables that are searched when it is
used.  Slots may be declared on a kind long after other kinds were derived from it; they are
handed down only once, when the draft is frozen.

* `Kind.mem_lineage_iff` : a kind derives from what a chain of bases leads to;
* `Draft.Follows` : the drafts that sequences of calls lead to, refused ones included;
* `Draft.Records` : the kinds of a draft are those that the calls declared, with their own slots
  in the order of the calls;
* `Schema.Built.closed` : kinds of a schema refer to kinds of the schema only;
* `Schema.Upholds` : the laws of a schema with respect to the calls that declared it;
* `Schema.upholds_of_freeze` : every schema that can be built upholds them.
-/

/-! ### Deriving from a kind -/

namespace Kind

variable {kinds : List Kind}

/-- `b` is the base of `k`. -/
def HasBase (kinds : List Kind) (k b : KindId) : Prop := (get kinds k).base = some b

/-- A kind derives from exactly what a chain of bases leads to. -/
theorem mem_lineage_iff (hb : BasesFirst kinds) {k a : KindId} :
    a ∈ lineage kinds k ↔ Relation.ReflTransGen (HasBase kinds) k a := by
  constructor
  · intro ha
    obtain ⟨n, hn⟩ : ∃ n, n = k.index := ⟨_, rfl⟩
    -- bases come first, and so the index goes down along the lineage
    induction n using Nat.strongRecOn generalizing k with
    | ind n ih =>
      cases hbase : (get kinds k).base with
      | none =>
        rw [lineage_of_base_none hbase, List.mem_singleton] at ha
        rw [ha]
      | some b =>
        rw [lineage_of_base_some hb hbase, List.mem_cons] at ha
        rcases ha with rfl | ha
        · exact .refl
        · exact .head hbase (ih b.index (hn ▸ hb k b hbase) ha rfl)
  · intro hchain
    induction hchain using Relation.ReflTransGen.head_induction_on with
    | refl => exact self_mem_lineage kinds a
    | head hbase _ ih =>
      rw [lineage_of_base_some hb hbase]
      exact List.mem_cons_of_mem _ ih

end Kind

/-- A slot keeps its place when more slots follow. -/
theorem findIdx?_of_prefix {α : Type} {p : α → Bool} {xs ys : List α} (h : xs <+: ys) {i : Nat}
    (hi : xs.findIdx? p = some i) : ys.findIdx? p = some i := by
  obtain ⟨more, rfl⟩ := h
  rw [List.findIdx?_append, hi, Option.some_or]

/-! ### Calls -/

/-- A call that declares something. -/
inductive Call
  | kind (name : String) (base : Option String)
  | value (k : KindId) (slot : String) (type : ValueType)
  | child (k : KindId) (slot : String) (spec : ChildSpec)
deriving DecidableEq, Repr

namespace Call

/-- The draft after a call, whether it was refused or not. -/
def apply : Call → Draft → Draft
  | kind name base => after (Draft.declareKind name base)
  | value k slot type => after (Draft.declareValue k slot type)
  | child k slot spec => after (Draft.declareChild k slot spec)

/-- A slot is declared on a kind whose handle was returned before. -/
def InScope : Call → Draft → Prop
  | kind _ _, _ => True
  | value k _ _, d => k.index < d.kinds.length
  | child k _ _, d => k.index < d.kinds.length

instance : (c : Call) → (d : Draft) → Decidable (c.InScope d)
  | kind _ _, _ => inferInstanceAs (Decidable True)
  | value k _ _, d => inferInstanceAs (Decidable (k.index < d.kinds.length))
  | child k _ _, d => inferInstanceAs (Decidable (k.index < d.kinds.length))

/-- The name and the base that a call declares. -/
def kind? : Call → Option (String × Option String)
  | kind name base => some (name, base)
  | _ => none

/-- The value slot that a call declares on a kind. -/
def valueOn? (k : KindId) : Call → Option ValueSlot
  | value l slot type => if l = k then some ⟨slot, type⟩ else none
  | _ => none

/-- The child slot that a call declares on a kind. -/
def childOn? (k : KindId) : Call → Option (String × ChildSpec)
  | child l slot spec => if l = k then some (slot, spec) else none
  | _ => none

end Call

/-- The description that means a type of child slots. -/
def ChildType.spec (kinds : List Kind) : ChildType → ChildSpec
  | one k => .one (Kind.get kinds k).name
  | many k => .many [(Kind.get kinds k).name]

/-- The description of a type depends on the name of its kind only. -/
theorem ChildType.spec_congr {kinds kinds' : List Kind} {type : ChildType}
    (h : (Kind.get kinds' type.kind).name = (Kind.get kinds type.kind).name) :
    type.spec kinds' = type.spec kinds := by
  cases type <;> simp only [spec, kind] at h ⊢ <;> rw [h]

/-- A child slot as it is declared. -/
def ChildSlot.declared (kinds : List Kind) (slot : ChildSlot) : String × ChildSpec :=
  (slot.name, slot.type.spec kinds)

/-- A kind as it is declared, without its slots. -/
def Kind.declared (kinds : List Kind) (kind : Kind) : String × Option String :=
  (kind.name, kind.base.map fun b => (Kind.get kinds b).name)

namespace Draft

/-- The draft that a sequence of calls leads to, each with handles that were returned before. -/
inductive Follows : List Call → Draft → Prop
  | start : Follows [] Draft.empty
  | call {calls : List Call} {d : Draft} (hd : Follows calls d) {c : Call} (hc : c.InScope d) :
    Follows (calls ++ [c]) (c.apply d)

/-- Declarations one after the other lead to a draft. -/
theorem Follows.declared {calls : List Call} {d : Draft} (h : Follows calls d) : d.Declared := by
  induction h with
  | start => exact .empty
  | @call calls d hd c hc ih =>
    cases c with
    | kind name base => exact ih.kind name base
    | value k slot type => exact ih.value k slot type
    | child k slot spec => exact ih.child k slot spec

/-! ### Calls that were not refused -/

theorem ne_none_of_or_some {α : Type} (o : Option α) (a : α) : o.or (some a) ≠ none := by
  cases o <;> simp

/-- A draft without a refusal accepted the last kind. -/
theorem declareKind_accepted {d : Draft} {name : String} {base : Option String}
    (h : (after (declareKind name base) d).failure = none) :
    d.failure = none ∧ ∃ b, d.resolveBase base = .ok b ∧
      after (declareKind name base) d = { d with kinds := d.kinds ++ [⟨name, b, [], []⟩] } := by
  unfold after declareKind at h ⊢
  cases hcheck : d.checkKind name base with
  | error e =>
    rw [hcheck] at h
    exact absurd h (ne_none_of_or_some _ _)
  | ok b =>
    rw [hcheck] at h
    refine ⟨h, b, ?_, rfl⟩
    unfold checkKind at hcheck
    split at hcheck
    · cases hcheck
    · split at hcheck
      · cases hcheck
      · next c hc =>
        split at hcheck
        · cases hcheck
          exact hc
        · cases hcheck

/-- A value slot that is accepted is put behind those that its kind has. -/
theorem declareValue_accepted {d : Draft} {k : KindId} {slot : String} {type : ValueType}
    (h : (after (declareValue k slot type) d).failure = none) :
    d.failure = none ∧ after (declareValue k slot type) d
      = d.modifyKind k fun kind => { kind with values := kind.values ++ [⟨slot, type⟩] } := by
  unfold after declareValue at h ⊢
  cases hcheck : d.checkSlotName k slot with
  | error e =>
    rw [hcheck] at h
    exact absurd h (ne_none_of_or_some _ _)
  | ok u =>
    rw [hcheck] at h
    exact ⟨h, rfl⟩

/-- So is a child slot, if there is a kind for it. -/
theorem declareChild_accepted {d : Draft} {k : KindId} {slot : String} {spec : ChildSpec}
    (h : (after (declareChild k slot spec) d).failure = none) :
    d.failure = none ∧ ∃ type, d.resolveSpec spec = .ok type ∧ after (declareChild k slot spec) d
      = d.modifyKind k fun kind => { kind with children := kind.children ++ [⟨slot, type⟩] } := by
  unfold after declareChild at h ⊢
  cases hcheck : d.checkChild k slot spec with
  | error e =>
    rw [hcheck] at h
    exact absurd h (ne_none_of_or_some _ _)
  | ok type =>
    rw [hcheck] at h
    refine ⟨h, type, ?_, rfl⟩
    unfold checkChild at hcheck
    split at hcheck
    · cases hcheck
    · split at hcheck
      · next hspec =>
        cases hcheck
        exact hspec
      · cases hcheck

/-! ### What a draft records -/

/-- A kind that is found by a name is there and has that name. -/
theorem byName?_eq_some {kinds : List Kind} {name : String} {k : KindId}
    (h : Kind.byName? kinds name = some k) :
    k.index < kinds.length ∧ (Kind.get kinds k).name = name :=
  Schema.kindByName?_eq_some (s := ⟨kinds⟩) h

/-- A base is recorded under the name that was given for it. -/
theorem resolveBase_eq_ok {d : Draft} {base : Option String} {b : Option KindId}
    (h : d.resolveBase base = .ok b) : (b.map fun k => (Kind.get d.kinds k).name) = base := by
  unfold resolveBase at h
  split at h
  · cases h
    rfl
  · split at h
    · next k hk =>
      cases h
      rw [Option.map_some, (byName?_eq_some hk).2]
    · cases h

/-- The kind that a slot is for is there and has the name that was given. -/
theorem resolveTarget_eq_ok {d : Draft} {name : String} {k : KindId}
    (h : d.resolveTarget name = .ok k) :
    k.index < d.kinds.length ∧ (Kind.get d.kinds k).name = name := by
  unfold resolveTarget at h
  split at h
  · next l hl =>
    cases h
    exact byName?_eq_some hl
  · cases h

/-- A type of child slots is recorded under the name that its description gives. -/
theorem resolveSpec_eq_ok {d : Draft} {spec : ChildSpec} {type : ChildType}
    (h : d.resolveSpec spec = .ok type) :
    type.kind.index < d.kinds.length ∧ type.spec d.kinds = spec := by
  unfold resolveSpec at h
  split at h
  · next name =>
    cases ht : d.resolveTarget name with
    | error e => rw [ht] at h; cases h
    | ok k =>
      rw [ht] at h
      cases h
      obtain ⟨hk, hname⟩ := resolveTarget_eq_ok ht
      exact ⟨hk, congrArg ChildSpec.one hname⟩
  · next name =>
    cases ht : d.resolveTarget name with
    | error e => rw [ht] at h; cases h
    | ok k =>
      rw [ht] at h
      cases h
      obtain ⟨hk, hname⟩ := resolveTarget_eq_ok ht
      exact ⟨hk, congrArg (fun n => ChildSpec.many [n]) hname⟩
  · cases h
  · cases h

/-- The draft holds what the calls declared: the kinds in the order of their calls, under the
    names that were given, each with its own slots in the order of theirs. -/
structure Records (calls : List Call) (d : Draft) : Prop where
  kinds : d.kinds.map (Kind.declared d.kinds) = calls.filterMap Call.kind?
  values : ∀ k, (Kind.get d.kinds k).values = calls.filterMap (Call.valueOn? k)
  children : ∀ k, (Kind.get d.kinds k).children.map (ChildSlot.declared d.kinds)
    = calls.filterMap (Call.childOn? k)
  targets : ∀ k, ∀ slot ∈ (Kind.get d.kinds k).children, slot.type.kind.index < d.kinds.length

/-- Without declarations there is nothing to record. -/
theorem records_empty : Records [] Draft.empty where
  kinds := rfl
  values := fun k => by rw [Kind.get_of_length_le (Nat.zero_le _)]; rfl
  children := fun k => by rw [Kind.get_of_length_le (Nat.zero_le _)]; rfl
  targets := fun k slot h => by
    rw [Kind.get_of_length_le (Nat.zero_le _)] at h
    cases h

/-- A new kind, without slots, changes nothing that is said about slots. -/
theorem slots_get_append (kinds : List Kind) (name : String) (b : Option KindId) (k : KindId) :
    (Kind.get (kinds ++ [⟨name, b, [], []⟩]) k).values = (Kind.get kinds k).values ∧
      (Kind.get (kinds ++ [⟨name, b, [], []⟩]) k).children = (Kind.get kinds k).children := by
  by_cases hk : k.index < kinds.length
  · rw [Kind.get_append_left hk]
    exact ⟨rfl, rfl⟩
  · have hbeyond : kinds.length ≤ k.index := by omega
    rw [Kind.get_of_length_le hbeyond, Kind.get, List.getElem?_append_right hbeyond]
    cases k.index - kinds.length <;> exact ⟨rfl, rfl⟩

/-- The base of a kind in the draft stands in the draft. -/
theorem Sound.base_lt {d : Draft} (hd : d.Sound) {kind : Kind} (hkind : kind ∈ d.kinds)
    {b : KindId} (hb : kind.base = some b) : b.index < d.kinds.length := by
  obtain ⟨i, hi, rfl⟩ := List.getElem_of_mem hkind
  have hget : Kind.get d.kinds ⟨i⟩ = d.kinds[i] :=
    Kind.get_of_getElem? (List.getElem?_eq_getElem hi)
  exact Nat.lt_trans (hd.bases ⟨i⟩ b (by rw [hget]; exact hb)) hi

/-- A kind that is declared comes after the others, without slots. -/
theorem Records.kind {calls : List Call} {d : Draft} (hr : Records calls d) (hd : d.Sound)
    (name : String) {base : Option String} {b : Option KindId}
    (hb : d.resolveBase base = .ok b) :
    Records (calls ++ [.kind name base])
      { d with kinds := d.kinds ++ [⟨name, b, [], []⟩] } := by
  have hname : ∀ k : KindId, k.index < d.kinds.length →
      (Kind.get (d.kinds ++ [⟨name, b, [], []⟩]) k).name = (Kind.get d.kinds k).name :=
    fun k hk => by rw [Kind.get_append_left hk]
  refine ⟨?_, fun k => ?_, fun k => ?_, fun k slot hslot => ?_⟩
  · rw [List.map_append, List.filterMap_append, ← hr.kinds, List.map_singleton]
    congr 1
    · refine List.map_congr_left fun kind hkind => ?_
      unfold Kind.declared
      cases hbase : kind.base with
      | none => rfl
      | some a => simp only [Option.map_some, hname a (hd.base_lt hkind hbase)]
    · have hdeclared := resolveBase_eq_ok hb
      unfold Kind.declared
      cases b with
      | none => rw [← hdeclared]; rfl
      | some a =>
        rw [Option.map_some] at hdeclared
        rw [Option.map_some, hname a (resolveBase_lt hb), hdeclared]
        rfl
  · rw [List.filterMap_append, ← hr.values k, (slots_get_append _ _ _ _).1]
    exact (List.append_nil _).symm
  · rw [List.filterMap_append, ← hr.children k, (slots_get_append _ _ _ _).2]
    refine (List.map_congr_left fun slot hslot => ?_).trans (List.append_nil _).symm
    exact congrArg (slot.name, ·) (ChildType.spec_congr (hname _ (hr.targets k slot hslot)))
  · rw [(slots_get_append _ _ _ _).2] at hslot
    rw [List.length_append]
    exact Nat.lt_add_right _ (hr.targets k slot hslot)

/-- Changing slots of a kind changes nothing that is said about names and bases. -/
theorem map_declared_modify {kinds : List Kind} {k : KindId} (hk : k.index < kinds.length)
    {f : Kind → Kind} (hname : ∀ kind, (f kind).name = kind.name)
    (hbase : ∀ kind, (f kind).base = kind.base) :
    (∀ o, (Kind.get (kinds.modify k.index f) o).name = (Kind.get kinds o).name) ∧
      (kinds.modify k.index f).map (Kind.declared (kinds.modify k.index f))
        = kinds.map (Kind.declared kinds) := by
  have hnames : ∀ o, (Kind.get (kinds.modify k.index f) o).name = (Kind.get kinds o).name := by
    intro o
    rw [Kind.get_modify hk]
    split
    · exact hname _
    · rfl
  have hsame : Kind.declared (kinds.modify k.index f) = Kind.declared kinds := by
    funext kind
    simp only [Kind.declared, hnames]
  refine ⟨hnames, List.ext_getElem? fun i => ?_⟩
  rw [hsame, List.getElem?_map, List.getElem?_map, List.getElem?_modify]
  cases kinds[i]? with
  | none => rfl
  | some kind => by_cases hi : k.index = i <;> simp [hi, Kind.declared, hname, hbase]

/-- A value slot that is declared comes last on its kind. -/
theorem Records.value {calls : List Call} {d : Draft} (hr : Records calls d) {k : KindId}
    (hk : k.index < d.kinds.length) (slot : String) (type : ValueType) :
    Records (calls ++ [.value k slot type])
      (d.modifyKind k fun kind => { kind with values := kind.values ++ [⟨slot, type⟩] }) := by
  obtain ⟨hnames, hkinds⟩ := map_declared_modify hk
    (f := fun kind => { kind with values := kind.values ++ [⟨slot, type⟩] })
    (fun _ => rfl) (fun _ => rfl)
  -- the child slots of every kind are as before
  have hchildren : ∀ o, (Kind.get (d.kinds.modify k.index fun kind =>
      { kind with values := kind.values ++ [⟨slot, type⟩] }) o).children
        = (Kind.get d.kinds o).children := by
    intro o
    rw [Kind.get_modify hk]
    split <;> rfl
  refine ⟨?_, fun o => ?_, fun o => ?_, fun o c hc => ?_⟩
  · rw [List.filterMap_append, ← hr.kinds]
    exact hkinds.trans (List.append_nil _).symm
  · show (Kind.get (d.kinds.modify k.index _) o).values = _
    rw [Kind.get_modify hk, List.filterMap_append, ← hr.values o]
    by_cases ho : o = k
    · rw [if_pos ho, ho]
      simp [Call.valueOn?]
    · rw [if_neg ho]
      simp [Call.valueOn?, Ne.symm ho]
  · show (Kind.get (d.kinds.modify k.index _) o).children.map _ = _
    rw [hchildren, List.filterMap_append, ← hr.children o]
    refine (List.map_congr_left fun c _ => ?_).trans (List.append_nil _).symm
    exact congrArg (c.name, ·) (ChildType.spec_congr (hnames _))
  · change c ∈ (Kind.get (d.kinds.modify k.index _) o).children at hc
    rw [hchildren] at hc
    show _ < (d.kinds.modify k.index _).length
    rw [List.length_modify]
    exact hr.targets o c hc

/-- So does a child slot. -/
theorem Records.child {calls : List Call} {d : Draft} (hr : Records calls d) {k : KindId}
    (hk : k.index < d.kinds.length) (slot : String) {spec : ChildSpec} {type : ChildType}
    (hspec : d.resolveSpec spec = .ok type) :
    Records (calls ++ [.child k slot spec])
      (d.modifyKind k fun kind => { kind with children := kind.children ++ [⟨slot, type⟩] }) := by
  obtain ⟨hnames, hkinds⟩ := map_declared_modify hk
    (f := fun kind => { kind with children := kind.children ++ [⟨slot, type⟩] })
    (fun _ => rfl) (fun _ => rfl)
  -- the kind that the slot is for was declared before
  obtain ⟨htarget, htype⟩ := resolveSpec_eq_ok hspec
  have hslot : ∀ c : ChildSlot, c.declared (d.kinds.modify k.index fun kind =>
      { kind with children := kind.children ++ [⟨slot, type⟩] }) = c.declared d.kinds :=
    fun c => congrArg (c.name, ·) (ChildType.spec_congr (hnames _))
  refine ⟨?_, fun o => ?_, fun o => ?_, fun o c hc => ?_⟩
  · rw [List.filterMap_append, ← hr.kinds]
    exact hkinds.trans (List.append_nil _).symm
  · show (Kind.get (d.kinds.modify k.index _) o).values = _
    rw [Kind.get_modify hk, List.filterMap_append, ← hr.values o]
    split <;> exact (List.append_nil _).symm
  · show (Kind.get (d.kinds.modify k.index _) o).children.map
      (ChildSlot.declared (d.kinds.modify k.index _)) = _
    rw [funext hslot, Kind.get_modify hk, List.filterMap_append, ← hr.children o]
    by_cases ho : o = k
    · rw [if_pos ho, ho]
      simp [Call.childOn?, ChildSlot.declared, htype]
    · rw [if_neg ho]
      simp [Call.childOn?, Ne.symm ho]
  · change c ∈ (Kind.get (d.kinds.modify k.index _) o).children at hc
    show _ < (d.kinds.modify k.index _).length
    rw [List.length_modify]
    rw [Kind.get_modify hk] at hc
    by_cases ho : o = k
    · rw [if_pos ho, List.mem_append, List.mem_singleton] at hc
      rcases hc with hc | rfl
      · exact hr.targets o c hc
      · exact htarget
    · rw [if_neg ho] at hc
      exact hr.targets o c hc

/-- A draft that refused nothing holds what the calls declared. -/
theorem Follows.records {calls : List Call} {d : Draft} (h : Follows calls d)
    (haccepted : d.failure = none) : Records calls d := by
  induction h with
  | start => exact records_empty
  | @call calls d hd c hc ih =>
    cases c with
    | kind name base =>
      obtain ⟨hbefore, b, hb, hafter⟩ := declareKind_accepted haccepted
      rw [Call.apply, hafter]
      exact (ih hbefore).kind hd.declared.sound name hb
    | value k slot type =>
      obtain ⟨hbefore, hafter⟩ := declareValue_accepted haccepted
      rw [Call.apply, hafter]
      exact (ih hbefore).value hc slot type
    | child k slot spec =>
      obtain ⟨hbefore, type, hspec, hafter⟩ := declareChild_accepted haccepted
      rw [Call.apply, hafter]
      exact (ih hbefore).child hc slot hspec

/-- A draft that refused nothing is what calls on kinds that are there lead to, since a call on
    another kind changes nothing. -/
theorem Declared.follows {d : Draft} (h : d.Declared) (haccepted : d.failure = none) :
    ∃ calls, Follows calls d := by
  have hbeyond : ∀ {d : Draft} {k : KindId} (f : Kind → Kind), ¬ k.index < d.kinds.length →
      d.modifyKind k f = d := by
    intro d k f hk
    rw [modifyKind, List.modify_eq_self (by omega)]
  induction h with
  | empty => exact ⟨[], .start⟩
  | @kind d name base _ ih =>
    obtain ⟨calls, hcalls⟩ := ih (declareKind_accepted haccepted).1
    exact ⟨_, hcalls.call (c := .kind name base) trivial⟩
  | @value d k slot type _ ih =>
    obtain ⟨hbefore, hafter⟩ := declareValue_accepted haccepted
    obtain ⟨calls, hcalls⟩ := ih hbefore
    by_cases hk : k.index < d.kinds.length
    · exact ⟨_, hcalls.call (c := .value k slot type) hk⟩
    · rw [hafter, hbeyond _ hk]
      exact ⟨calls, hcalls⟩
  | @child d k slot spec _ ih =>
    obtain ⟨hbefore, type, -, hafter⟩ := declareChild_accepted haccepted
    obtain ⟨calls, hcalls⟩ := ih hbefore
    by_cases hk : k.index < d.kinds.length
    · exact ⟨_, hcalls.call (c := .child k slot spec) hk⟩
    · rw [hafter, hbeyond _ hk]
      exact ⟨calls, hcalls⟩

/-! ### Handing slots down -/

/-- A draft becomes a schema if nothing was refused. -/
theorem freeze_eq_ok_iff {d : Draft} {s : Schema} :
    d.freeze = .ok s ↔ d.failure = none ∧ s = ⟨flatten d.kinds⟩ := by
  unfold freeze
  cases d.failure with
  | some e => simp
  | none => simp [eq_comm]

theorem inherit_base (done : List Kind) (k : Kind) : (inherit done k).base = k.base := by
  unfold inherit
  cases hb : k.base with
  | none => exact hb
  | some b => rfl

/-- A kind has the value slots of its base before its own. -/
theorem inherit_values (done : List Kind) (k : Kind) :
    (inherit done k).values = k.base.elim [] (fun b => (Kind.get done b).values) ++ k.values := by
  unfold inherit
  cases k.base <;> rfl

/-- So it has the child slots. -/
theorem inherit_children (done : List Kind) (k : Kind) :
    (inherit done k).children
      = k.base.elim [] (fun b => (Kind.get done b).children) ++ k.children := by
  unfold inherit
  cases k.base <;> rfl

end Draft

/-! ### The laws of a schema -/

namespace Schema

/-- The laws of a schema that the calls declared. -/
structure Upholds (s : Schema) (calls : List Call) : Prop where
  /-- The kinds are those that were declared, in order, with the bases that were named. -/
  declared : s.kinds.map (Kind.declared s.kinds) = calls.filterMap Call.kind?
  /-- The names that are found are those that were declared. -/
  registered : ∀ name, (∃ k, s.kindByName? name = some k) ↔ ∃ base, .kind name base ∈ calls
  /-- Finding a kind by its name and reading the name of a kind are inverse to each other. -/
  lookup : ∀ name k, s.kindByName? name = some k ↔ k.index < s.size ∧ s.kindName k = name
  /-- A base comes before the kinds that derive from it. -/
  bases : ∀ k b, (s.kind k).base = some b → b.index < k.index
  /-- The value slots of a kind are those of its base and then its own, as declared. -/
  values : ∀ k, (s.kind k).values
    = (s.kind k).base.elim [] (fun b => (s.kind b).values) ++ calls.filterMap (Call.valueOn? k)
  /-- The child slots of a kind are those of its base and then its own, as declared. -/
  children : ∀ k, ∃ own,
    (s.kind k).children = (s.kind k).base.elim [] (fun b => (s.kind b).children) ++ own ∧
      own.map (ChildSlot.declared s.kinds) = calls.filterMap (Call.childOn? k)
  /-- A kind has the slots of what it derives from in front, at the same places. -/
  inherits : ∀ k a, s.isSubkind k a = true →
    (s.kind a).values <+: (s.kind k).values ∧ (s.kind a).children <+: (s.kind k).children ∧
      (∀ slot i, (s.kind a).valueIndex? slot = some i → (s.kind k).valueIndex? slot = some i) ∧
      ∀ slot i, (s.kind a).childIndex? slot = some i → (s.kind k).childIndex? slot = some i
  /-- All slots of a kind have distinct names. -/
  distinct : ∀ k, (s.kind k).slotNames.Nodup
  /-- Child slots are for kinds of the schema. -/
  targets : ∀ k, ∀ slot ∈ (s.kind k).children, slot.type.kind.index < s.size
  /-- A kind is a subkind of what a chain of bases leads to, which is a partial order. -/
  subkind : ∀ k a, s.isSubkind k a = true ↔ Relation.ReflTransGen (Kind.HasBase s.kinds) k a
  refl : ∀ k, s.isSubkind k k = true
  trans : ∀ k l m, s.isSubkind k l = true → s.isSubkind l m = true → s.isSubkind k m = true
  antisymm : ∀ k l, s.isSubkind k l = true → s.isSubkind l k = true → k = l

/-- Slots that every kind has after those of its base stay in front along a chain of bases. -/
theorem prefix_of_chain {α : Type} {s : Schema} (slots : Kind → List α) {own : KindId → List α}
    (hslots : ∀ k,
      slots (s.kind k) = (s.kind k).base.elim [] (fun b => slots (s.kind b)) ++ own k)
    {k a : KindId} (hchain : Relation.ReflTransGen (Kind.HasBase s.kinds) k a) :
    slots (s.kind a) <+: slots (s.kind k) := by
  induction hchain using Relation.ReflTransGen.head_induction_on with
  | refl => exact List.prefix_refl _
  | @head k b hbase _ ih =>
    refine ih.trans ?_
    rw [hslots k, show (s.kind k).base = some b from hbase]
    exact List.prefix_append _ _

section

variable {d : Draft} (hd : d.Sound)
include hd

/-- Handing the slots down changes no base. -/
theorem base_flatten (k : KindId) :
    (Kind.get (Draft.flatten d.kinds) k).base = (Kind.get d.kinds k).base := by
  rw [Draft.get_flatten hd.bases, Draft.inherit_base]

theorem name_flatten (k : KindId) :
    (Kind.get (Draft.flatten d.kinds) k).name = (Kind.get d.kinds k).name := by
  rw [Draft.get_flatten hd.bases, Draft.inherit_name]

/-- Every base still stands before the kinds that derive from it. -/
theorem basesFirst_flatten : Kind.BasesFirst (Draft.flatten d.kinds) := by
  intro k b hb
  rw [base_flatten hd] at hb
  exact hd.bases k b hb

/-- The kinds are called in the finished schema as they are in the draft. -/
theorem map_declared_flatten :
    (Draft.flatten d.kinds).map (Kind.declared (Draft.flatten d.kinds))
      = d.kinds.map (Kind.declared d.kinds) := by
  refine List.ext_getElem? fun i => ?_
  have hlength := Draft.length_flatten d.kinds
  rw [List.getElem?_map, List.getElem?_map]
  by_cases hi : i < d.kinds.length
  · have hdraft := List.getElem?_eq_getElem hi
    have hdone := List.getElem?_eq_getElem (hlength ▸ hi)
    rw [hdraft, hdone, Option.map_some, Option.map_some, Option.some.injEq,
      ← Kind.get_of_getElem? (k := ⟨i⟩) hdraft, ← Kind.get_of_getElem? (k := ⟨i⟩) hdone]
    simp only [Kind.declared, name_flatten hd, base_flatten hd]
  · rw [List.getElem?_eq_none (by omega), List.getElem?_eq_none (by omega)]
    rfl

variable {calls : List Call} (hr : d.Records calls)
include hr

/-- The value slots are those of the base and those that were declared. -/
theorem values_flatten (k : KindId) : (Kind.get (Draft.flatten d.kinds) k).values
    = (Kind.get (Draft.flatten d.kinds) k).base.elim []
        (fun b => (Kind.get (Draft.flatten d.kinds) b).values)
      ++ calls.filterMap (Call.valueOn? k) := by
  rw [base_flatten hd, ← hr.values k, ← Draft.inherit_values, ← Draft.get_flatten hd.bases]

/-- So are the child slots. -/
theorem children_flatten (k : KindId) :
    (Kind.get (Draft.flatten d.kinds) k).children
        = (Kind.get (Draft.flatten d.kinds) k).base.elim []
            (fun b => (Kind.get (Draft.flatten d.kinds) b).children)
          ++ (Kind.get d.kinds k).children ∧
      (Kind.get d.kinds k).children.map (ChildSlot.declared (Draft.flatten d.kinds))
        = calls.filterMap (Call.childOn? k) := by
  constructor
  · rw [base_flatten hd, ← Draft.inherit_children, ← Draft.get_flatten hd.bases]
  · rw [← hr.children k]
    refine List.map_congr_left fun slot _ => ?_
    exact congrArg (slot.name, ·) (ChildType.spec_congr (name_flatten hd _))

/-- A child slot that was handed down is for a kind of the schema, as it was where it was
    declared. -/
theorem target_lt_flatten (k : KindId) :
    ∀ slot ∈ (Kind.get (Draft.flatten d.kinds) k).children,
      slot.type.kind.index < d.kinds.length := by
  obtain ⟨n, hn⟩ : ∃ n, n = k.index := ⟨_, rfl⟩
  induction n using Nat.strongRecOn generalizing k with
  | ind n ih =>
    intro slot hslot
    rw [(children_flatten hd hr k).1, List.mem_append] at hslot
    rcases hslot with hslot | hslot
    · cases hbase : (Kind.get (Draft.flatten d.kinds) k).base with
      | none =>
        rw [hbase] at hslot
        cases hslot
      | some b =>
        rw [hbase] at hslot
        exact ih b.index (hn ▸ basesFirst_flatten hd k b hbase) b rfl slot hslot
    · exact hr.targets k slot hslot

end

/-- A name is found exactly if a kind has it. -/
theorem exists_kindByName?_iff {s : Schema} {name : String} :
    (∃ k, s.kindByName? name = some k) ↔ name ∈ s.kinds.map Kind.name := by
  rw [← Option.isSome_iff_exists, kindByName?, Kind.byName?, Option.isSome_map,
    List.findIdx?_isSome, List.any_eq_true, List.mem_map]
  simp only [beq_iff_eq]

/-- The names that the calls declared are those of their kinds. -/
theorem mem_map_name_iff {s : Schema} {calls : List Call}
    (h : s.kinds.map (Kind.declared s.kinds) = calls.filterMap Call.kind?) {name : String} :
    name ∈ s.kinds.map Kind.name ↔ ∃ base, .kind name base ∈ calls := by
  have hnames : s.kinds.map Kind.name = (calls.filterMap Call.kind?).map Prod.fst := by
    rw [← h, List.map_map]
    rfl
  rw [hnames, List.mem_map]
  constructor
  · rintro ⟨⟨n, base⟩, hmem, rfl⟩
    obtain ⟨c, hc, hkind⟩ := List.mem_filterMap.mp hmem
    cases c with
    | kind n' base' =>
      cases hkind
      exact ⟨base, hc⟩
    | value k slot type => cases hkind
    | child k slot spec => cases hkind
  · rintro ⟨base, hc⟩
    exact ⟨(name, base), List.mem_filterMap.mpr ⟨_, hc, rfl⟩, rfl⟩

/-- Kinds refer to kinds of the schema only: bases come first, and child slots are for kinds that
    are there. -/
structure Closed (s : Schema) : Prop where
  bases : Kind.BasesFirst s.kinds
  targets : ∀ k, ∀ slot ∈ (s.kind k).children, slot.type.kind.index < s.size

/-- A schema that was built refers to no kinds but its own. -/
theorem Built.closed {s : Schema} (h : s.Built) : s.Closed := by
  obtain ⟨d, hd, hfreeze⟩ := h
  obtain ⟨hfailure, rfl⟩ := Draft.freeze_eq_ok_iff.mp hfreeze
  obtain ⟨calls, hcalls⟩ := hd.follows hfailure
  refine ⟨basesFirst_flatten hd.sound, fun k slot hslot => ?_⟩
  show _ < (Draft.flatten d.kinds).length
  rw [Draft.length_flatten]
  exact target_lt_flatten hd.sound (hcalls.records hfailure) k slot hslot

/-- **Schemas are as declared.**  Whatever the calls, in whatever order, if the draft that they
    lead to can be frozen then the schema upholds its laws: names and handles determine each
    other, each kind has the slots of its base in front of its own, slots of a kind have distinct
    names, and being a subkind is a partial order. -/
theorem upholds_of_freeze {calls : List Call} {d : Draft} {s : Schema} (hd : d.Follows calls)
    (hs : d.freeze = .ok s) : s.Upholds calls := by
  have hsound := hd.declared.sound
  have hlawful := Built.lawful ⟨d, hd.declared, hs⟩
  obtain ⟨hfailure, rfl⟩ := Draft.freeze_eq_ok_iff.mp hs
  have hr := hd.records hfailure
  have hbases := basesFirst_flatten hsound
  have hdeclared := (map_declared_flatten hsound).trans hr.kinds
  -- the chain of bases is followed by the lineage
  have hsubkind : ∀ k a, isSubkind ⟨Draft.flatten d.kinds⟩ k a = true ↔
      Relation.ReflTransGen (Kind.HasBase (Draft.flatten d.kinds)) k a := by
    intro k a
    rw [isSubkind, decide_eq_true_eq, Kind.mem_lineage_iff hbases]
  refine
    { declared := hdeclared
      registered := fun name => exists_kindByName?_iff.trans (mem_map_name_iff hdeclared)
      lookup := fun name k => ⟨kindByName?_eq_some, ?_⟩
      bases := hbases
      values := values_flatten hsound hr
      children := fun k => ⟨_, children_flatten hsound hr k⟩
      inherits := fun k a h => ?_
      distinct := hlawful.slots
      targets := fun k slot hslot => ?_
      subkind := hsubkind
      refl := fun k => (hsubkind k k).mpr .refl
      trans := fun k l m hkl hlm => ?_
      antisymm := fun k l hkl hlk => ?_ }
  · rintro ⟨hk, rfl⟩
    exact hlawful.kindByName?_kindName hk
  · have hchain := (hsubkind k a).mp h
    have hvalues := prefix_of_chain Kind.values (values_flatten hsound hr) hchain
    have hchildren := prefix_of_chain Kind.children
      (fun k => (children_flatten hsound hr k).1) hchain
    exact ⟨hvalues, hchildren, fun slot i => findIdx?_of_prefix hvalues,
      fun slot i => findIdx?_of_prefix hchildren⟩
  · show _ < (Draft.flatten d.kinds).length
    rw [Draft.length_flatten]
    exact target_lt_flatten hsound hr k slot hslot
  · exact (hsubkind k m).mpr (((hsubkind k l).mp hkl).trans ((hsubkind l m).mp hlm))
  · -- each has the smaller place of the two
    have hle := Kind.index_le_of_mem_lineage hbases (decide_eq_true_eq.mp hkl)
    have hge := Kind.index_le_of_mem_lineage hbases (decide_eq_true_eq.mp hlk)
    exact congrArg KindId.mk (Nat.le_antisymm hge hle)

end Schema

namespace Sample

/-- Groups are items.  They get a slot of their own first, and items get theirs only when groups
    have been derived from them. -/
def lateCalls : List Call :=
  [.kind "item" none, .kind "group" (some "item"), .value ⟨1⟩ "size" .int,
    .value ⟨0⟩ "label" .str, .child ⟨0⟩ "next" (.one "item"), .child ⟨1⟩ "parts" (.many ["item"])]

/-- The draft that the calls lead to. -/
def lateDraft : Draft := lateCalls.foldl (fun d c => c.apply d) Draft.empty

theorem follows_lateDraft : lateDraft.Follows lateCalls :=
  .call (.call (.call (.call (.call (.call .start (by decide)) (by decide)) (by decide +kernel))
    (by decide +kernel)) (by decide +kernel)) (by decide +kernel)

/-- The label of an item comes before the size of a group in groups, although it was declared
    later. -/
theorem upholds_late : ∃ s, lateDraft.freeze = .ok s ∧ s.Upholds lateCalls ∧
    (s.kind ⟨1⟩).values = [⟨"label", .str⟩, ⟨"size", .int⟩] := by
  have hfreeze : lateDraft.freeze = .ok ⟨Draft.flatten lateDraft.kinds⟩ := by decide +kernel
  exact ⟨_, hfreeze, Schema.upholds_of_freeze follows_lateDraft hfreeze, by decide +kernel⟩

end Sample

end TypedForest
