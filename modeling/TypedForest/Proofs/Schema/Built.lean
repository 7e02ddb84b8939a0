import Mathlib.Data.List.Induction
import Mathlib.Data.List.Nodup
import Mathlib.Tactic.ByContra
import TypedForest.Schema.Draft

namespace TypedForest

/-!
# What every built schema satisfies

A schema comes from a draft that refused nothing.  Slots may be declared on a kind at any
time, also after other kinds were derived from it, so the laws are kept as an invariant of
the draft (`Draft.Sound`) along every sequence of declarations (`Draft.Declared`) and
carried over the one pass that hands the slots down (`Draft.flatten`).

* `Schema.Built` : the schemas that a sequence of declarations leads to;
* `Schema.Built.lawful` : their kinds have distinct names, and the slots of each kind,
  inherited ones included, have distinct names;
* `Schema.Lawful.kindByName?_kindName` : looking up the name of a kind finds the kind.
-/

/-- In a list whose keys are distinct, searching for the key of an item finds its place. -/
theorem findIdx?_key_eq {α : Type} {key : α → String} {l : List α} (hl : (l.map key).Nodup)
    {i : Nat} {a : α} (h : l[i]? = some a) : l.findIdx? (fun b => key b == key a) = some i := by
  obtain ⟨hi, rfl⟩ := List.getElem?_eq_some_iff.mp h
  rw [List.findIdx?_eq_some_iff_getElem]
  refine ⟨hi, by simp, fun j hj => ?_⟩
  intro heq
  have hkeys : key l[j] = key l[i] := by simpa using heq
  have hji : (l.map key)[j]? = (l.map key)[i]? := by
    rw [List.getElem?_map, List.getElem?_map, List.getElem?_eq_getElem hi,
      List.getElem?_eq_getElem (Nat.lt_trans hj hi), Option.map_some, Option.map_some, hkeys]
  have := (List.getElem?_inj (by simpa using Nat.lt_trans hj hi) hl).mp hji
  omega

/-! ### Kinds and what they derive from -/

namespace Kind

/-- The names of a kind's slots, those of its value slots first. -/
def slotNames (k : Kind) : List String :=
  k.values.map ValueSlot.name ++ k.children.map ChildSlot.name

/-- A kind has a slot if the name is one of its slot names. -/
theorem hasSlot_iff {k : Kind} {slot : String} : k.hasSlot slot = true ↔ slot ∈ k.slotNames := by
  simp [hasSlot, slotNames]

theorem get_of_getElem? {kinds : List Kind} {k : KindId} {kind : Kind}
    (h : kinds[k.index]? = some kind) : get kinds k = kind := by
  rw [get, h, Option.getD_some]

/-- Beyond the last kind there is one without slots. -/
theorem get_of_length_le {kinds : List Kind} {k : KindId} (h : kinds.length ≤ k.index) :
    get kinds k = ⟨"", none, [], []⟩ := by
  rw [get, List.getElem?_eq_none h, Option.getD_none]

/-- A list that goes on after some kinds has the same kinds at their places. -/
theorem get_append_left {kinds more : List Kind} {k : KindId} (h : k.index < kinds.length) :
    get (kinds ++ more) k = get kinds k := by
  rw [get, get, List.getElem?_append_left h]

/-- Every base stands before the kinds that derive from it. -/
def BasesFirst (kinds : List Kind) : Prop :=
  ∀ (k b : KindId), (get kinds k).base = some b → b.index < k.index

variable {kinds : List Kind}

/-- Only the bases decide what a kind derives from. -/
theorem lineageWithin_congr {kinds' : List Kind}
    (h : ∀ k, (get kinds' k).base = (get kinds k).base) (n : Nat) (k : KindId) :
    lineageWithin kinds' n k = lineageWithin kinds n k := by
  induction n generalizing k with
  | zero => rfl
  | succ n ih =>
    rw [lineageWithin, lineageWithin, h k]
    cases (get kinds k).base with
    | none => rfl
    | some b => exact congrArg (k :: ·) (ih b)

/-- What a kind derives from depends on the bases alone. -/
theorem lineage_congr {kinds' : List Kind} (h : ∀ k, (get kinds' k).base = (get kinds k).base)
    (k : KindId) : lineage kinds' k = lineage kinds k :=
  lineageWithin_congr h _ k

/-- More steps than the place of a kind never show more of its lineage. -/
theorem lineageWithin_eq_lineage (hb : BasesFirst kinds) (n : Nat) (k : KindId)
    (hn : k.index < n) : lineageWithin kinds n k = lineage kinds k := by
  induction n using Nat.strongRecOn generalizing k with
  | ind n ih =>
    obtain ⟨m, rfl⟩ : ∃ m, n = m + 1 := ⟨n - 1, by omega⟩
    rw [lineage, lineageWithin, lineageWithin]
    cases hbase : (get kinds k).base with
    | none => rfl
    | some b =>
      have hlt : b.index < k.index := hb k b hbase
      show k :: lineageWithin kinds m b = k :: lineageWithin kinds k.index b
      by_cases hm : m = k.index
      · rw [hm]
      · rw [ih m (by omega) b (by omega), ih k.index (by omega) b hlt]

/-- A kind without a base derives from itself only. -/
theorem lineage_of_base_none {k : KindId} (h : (get kinds k).base = none) :
    lineage kinds k = [k] := by
  rw [lineage, lineageWithin, h]

/-- A kind with a base derives from itself and from what the base derives from. -/
theorem lineage_of_base_some (hb : BasesFirst kinds) {k b : KindId}
    (h : (get kinds k).base = some b) : lineage kinds k = k :: lineage kinds b := by
  rw [lineage, lineageWithin, h]
  show k :: lineageWithin kinds k.index b = k :: lineage kinds b
  rw [lineageWithin_eq_lineage hb k.index b (hb k b h)]

/-- Every kind derives from itself. -/
theorem self_mem_lineage (kinds : List Kind) (k : KindId) : k ∈ lineage kinds k := by
  rw [lineage, lineageWithin]
  cases (get kinds k).base <;> simp

/-- A kind derives from kinds at smaller places only. -/
theorem index_le_of_mem_lineage (hb : BasesFirst kinds) {k o : KindId}
    (ho : o ∈ lineage kinds k) : o.index ≤ k.index := by
  obtain ⟨n, hn⟩ : ∃ n, n = k.index := ⟨_, rfl⟩
  induction n using Nat.strongRecOn generalizing k with
  | ind n ih =>
    cases hbase : (get kinds k).base with
    | none =>
      rw [lineage_of_base_none hbase, List.mem_singleton] at ho
      exact Nat.le_of_eq (congrArg KindId.index ho)
    | some b =>
      rw [lineage_of_base_some hb hbase, List.mem_cons] at ho
      have hlt : b.index < k.index := hb k b hbase
      rcases ho with rfl | ho
      · exact Nat.le_refl _
      · have := ih b.index (by omega) ho rfl
        omega

/-- More kinds after the others do not change what those derive from. -/
theorem lineage_append (hb : BasesFirst kinds) (more : List Kind) {k : KindId}
    (hk : k.index < kinds.length) : lineage (kinds ++ more) k = lineage kinds k := by
  have hwithin : ∀ (n : Nat) (k : KindId), k.index < kinds.length →
      lineageWithin (kinds ++ more) n k = lineageWithin kinds n k := by
    intro n
    induction n with
    | zero => intro k _; rfl
    | succ n ih =>
      intro k hk
      rw [lineageWithin, lineageWithin, get_append_left hk]
      cases hbase : (get kinds k).base with
      | none => rfl
      | some b => exact congrArg (k :: ·) (ih b (Nat.lt_trans (hb k b hbase) hk))
  exact hwithin _ k hk

/-- Changing one kind changes nothing at the other places. -/
theorem get_modify {k : KindId} (hk : k.index < kinds.length) (f : Kind → Kind) (o : KindId) :
    get (kinds.modify k.index f) o = if o = k then f (get kinds o) else get kinds o := by
  by_cases ho : o = k
  · subst ho
    rw [if_pos rfl, get, get, List.getElem?_modify, List.getElem?_eq_getElem hk]
    simp
  · have hne : k.index ≠ o.index := fun h => ho (by cases o; cases k; simp_all)
    rw [if_neg ho, get, get, List.getElem?_modify]
    simp [hne]

end Kind

/-! ### Sequences of declarations -/

/-- The state that an operation leaves, whether it succeeds or fails. -/
def after {ε σ α : Type} (x : EStateM ε σ α) (st : σ) : σ :=
  match x st with
  | .ok _ st => st
  | .error _ st => st

namespace Draft

/-- The drafts that sequences of declarations lead to. -/
inductive Declared : Draft → Prop
  | empty : Declared Draft.empty
  | kind {d : Draft} (name : String) (base : Option String) :
    Declared d → Declared (after (declareKind name base) d)
  | value {d : Draft} (k : KindId) (slot : String) (type : ValueType) :
    Declared d → Declared (after (declareValue k slot type) d)
  | child {d : Draft} (k : KindId) (slot : String) (spec : ChildSpec) :
    Declared d → Declared (after (declareChild k slot spec) d)

/-- What the kinds of a draft satisfy at any time: distinct names, bases first, and slot
    names that no kind shares with itself or with a kind that it derives from. -/
structure Sound (d : Draft) : Prop where
  names : (d.kinds.map Kind.name).Nodup
  bases : Kind.BasesFirst d.kinds
  own : ∀ k, (Kind.get d.kinds k).slotNames.Nodup
  apart : ∀ k, ∀ o ∈ Kind.lineage d.kinds k, o ≠ k →
    (Kind.get d.kinds k).slotNames.Disjoint (Kind.get d.kinds o).slotNames

/-- Nothing is wrong with a draft without kinds. -/
theorem sound_empty : Sound Draft.empty where
  names := List.nodup_nil
  bases := by
    intro k b h
    rw [Kind.get_of_length_le (Nat.zero_le _)] at h
    cases h
  own := by
    intro k
    rw [Kind.get_of_length_le (Nat.zero_le _)]
    exact List.nodup_nil
  apart := by
    intro k o _ _
    rw [Kind.get_of_length_le (k := k) (Nat.zero_le _)]
    exact List.disjoint_nil_left _

/-- A refused declaration leaves the kinds alone. -/
theorem Sound.refuse {d : Draft} (hd : d.Sound) (failure : Option SchemaError) :
    Sound { d with failure := failure } :=
  ⟨hd.names, hd.bases, hd.own, hd.apart⟩

/-- A base that was resolved is one of the kinds. -/
theorem resolveBase_lt {d : Draft} {base : Option String} {b : KindId}
    (h : d.resolveBase base = .ok (some b)) : b.index < d.kinds.length := by
  unfold resolveBase at h
  split at h
  · cases h
  · next name =>
    split at h
    · next k hk =>
      cases h
      obtain ⟨i, hi, rfl⟩ := Option.map_eq_some_iff.mp hk
      exact (List.findIdx?_eq_some_iff_getElem.mp hi).1
    · cases h

/-- A new kind of a fresh name keeps the draft sound: it has no slots yet. -/
theorem Sound.append {d : Draft} (hd : d.Sound) {name : String} {b : Option KindId}
    (hname : name ∉ d.kinds.map Kind.name) (hbase : ∀ k, b = some k → k.index < d.kinds.length) :
    Sound { d with kinds := d.kinds ++ [⟨name, b, [], []⟩] } := by
  -- a kind of the longer list is an old one, the new one, or none at all
  have hget : ∀ k : KindId, k.index < d.kinds.length ∨
      (Kind.get (d.kinds ++ [⟨name, b, [], []⟩]) k).slotNames = [] := by
    intro k
    by_cases hk : k.index < d.kinds.length
    · exact .inl hk
    · refine .inr ?_
      rw [Kind.get, List.getElem?_append_right (by omega)]
      cases k.index - d.kinds.length <;> rfl
  refine ⟨?_, ?_, ?_, ?_⟩
  · rw [List.map_append]
    refine List.Nodup.append hd.names (List.nodup_singleton _) ?_
    intro x hx hx'
    rw [List.map_singleton, List.mem_singleton] at hx'
    subst hx'
    exact hname hx
  · -- only the new kind can have a base that was not there before
    intro k c hc
    by_cases hk : k.index < d.kinds.length
    · rw [Kind.get_append_left hk] at hc
      exact hd.bases k c hc
    · rw [Kind.get, List.getElem?_append_right (by omega)] at hc
      cases hi : k.index - d.kinds.length with
      | zero =>
        rw [hi] at hc
        have := hbase c (by simpa using hc)
        omega
      | succ i => rw [hi] at hc; simp at hc
  · intro k
    rcases hget k with hk | hk
    · rw [Kind.get_append_left hk]
      exact hd.own k
    · rw [hk]
      exact List.nodup_nil
  · intro k o ho hne
    rcases hget k with hk | hk
    · rw [Kind.lineage_append hd.bases _ hk] at ho
      have hlt : o.index < d.kinds.length :=
        Nat.lt_of_le_of_lt (Kind.index_le_of_mem_lineage hd.bases ho) hk
      rw [Kind.get_append_left hk, Kind.get_append_left hlt]
      exact hd.apart k o ho hne
    · rw [hk]
      exact List.disjoint_nil_left _

/-- A name that no kind owns is free on the kind, on what it derives from and on what
    derives from it. -/
theorem free_of_slotOwner?_eq_none {d : Draft} {k : KindId} {slot : String}
    (h : d.slotOwner? k slot = none) :
    (∀ o ∈ Kind.lineage d.kinds k, slot ∉ (Kind.get d.kinds o).slotNames) ∧
    ∀ o, k ∈ Kind.lineage d.kinds o → slot ∉ (Kind.get d.kinds o).slotNames := by
  obtain ⟨hup, hdown⟩ := Option.or_eq_none_iff.mp h
  have hup' : ∀ o ∈ Kind.lineage d.kinds k, slot ∉ (Kind.get d.kinds o).slotNames := by
    intro o ho hslot
    exact List.find?_eq_none.mp hup o ho (Kind.hasSlot_iff.mpr hslot)
  refine ⟨hup', fun o ho hslot => ?_⟩
  by_cases hok : o = k
  · exact hup' o (hok ▸ Kind.self_mem_lineage _ _) hslot
  · -- only a kind of the draft owns slots, so `o` was among those searched
    have hlt : o.index < d.kinds.length := by
      by_contra hge
      rw [Kind.get_of_length_le (by omega)] at hslot
      cases hslot
    refine List.find?_eq_none.mp hdown o ?_ ?_
    · exact List.mem_map.mpr ⟨o.index, List.mem_range.mpr hlt, rfl⟩
    · simp only [Bool.and_eq_true, decide_eq_true_eq]
      exact ⟨⟨hok, ho⟩, Kind.hasSlot_iff.mpr hslot⟩

/-- A slot of a free name, added to a kind, keeps the draft sound. -/
theorem Sound.modifyKind {d : Draft} (hd : d.Sound) {k : KindId} (slot : String)
    {f : Kind → Kind} (hname : ∀ kind, (f kind).name = kind.name)
    (hbase : ∀ kind, (f kind).base = kind.base)
    (hslots : ∀ kind, (f kind).slotNames.Perm (slot :: kind.slotNames))
    (hfree : d.slotOwner? k slot = none) : (d.modifyKind k f).Sound := by
  obtain ⟨hup, hdown⟩ := free_of_slotOwner?_eq_none hfree
  by_cases hk : k.index < d.kinds.length
  swap
  · rw [Draft.modifyKind, List.modify_eq_self (by omega)]
    exact hd.refuse _
  have hget := Kind.get_modify hk f
  -- a slot more does not change what derives from what
  have hbases : ∀ o, (Kind.get (d.kinds.modify k.index f) o).base
      = (Kind.get d.kinds o).base := by
    intro o
    rw [hget o]
    split
    · exact hbase _
    · rfl
  refine ⟨?_, ?_, ?_, ?_⟩
  · have hnames : (d.kinds.modify k.index f).map Kind.name = d.kinds.map Kind.name := by
      apply List.ext_getElem?
      intro i
      simp only [List.getElem?_map, List.getElem?_modify]
      cases d.kinds[i]? with
      | none => rfl
      | some kind => by_cases hi : k.index = i <;> simp [hi, hname]
    show ((d.kinds.modify k.index f).map Kind.name).Nodup
    rw [hnames]
    exact hd.names
  · intro o b hb
    rw [show (d.modifyKind k f).kinds = d.kinds.modify k.index f from rfl, hbases o] at hb
    exact hd.bases o b hb
  · intro o
    show (Kind.get (d.kinds.modify k.index f) o).slotNames.Nodup
    rw [hget o]
    by_cases ho : o = k
    · rw [if_pos ho, (hslots _).nodup_iff, List.nodup_cons]
      exact ⟨hup o (ho ▸ Kind.self_mem_lineage _ _), hd.own o⟩
    · rw [if_neg ho]
      exact hd.own o
  · intro o p hp hne x hx hx'
    rw [show (d.modifyKind k f).kinds = d.kinds.modify k.index f from rfl] at hp hx hx'
    rw [Kind.lineage_congr hbases] at hp
    rw [hget] at hx hx'
    by_cases ho : o = k
    · -- the new name against a kind that `k` derives from
      have hpk : p ≠ k := fun h => hne (h.trans ho.symm)
      rw [if_pos ho, (hslots _).mem_iff, List.mem_cons] at hx
      rw [if_neg hpk] at hx'
      rcases hx with rfl | hx
      · exact hup p (ho ▸ hp) hx'
      · exact hd.apart o p hp hne hx hx'
    · rw [if_neg ho] at hx
      by_cases hpk : p = k
      · -- the new name against a kind that derives from `k`
        rw [if_pos hpk, (hslots _).mem_iff, List.mem_cons] at hx'
        rcases hx' with rfl | hx'
        · exact hdown o (hpk ▸ hp) hx
        · exact hd.apart o p hp hne hx hx'
      · rw [if_neg hpk] at hx'
        exact hd.apart o p hp hne hx hx'

/-- A slot name that passes the check has no owner. -/
theorem slotOwner?_eq_none {d : Draft} {k : KindId} {slot : String}
    (h : d.checkSlotName k slot = .ok ()) : d.slotOwner? k slot = none := by
  unfold checkSlotName at h
  split at h
  · cases h
  · assumption

/-- Declaring a kind keeps a draft sound, be it accepted or refused. -/
theorem Sound.declareKind {d : Draft} (hd : d.Sound) (name : String) (base : Option String) :
    (after (Draft.declareKind name base) d).Sound := by
  unfold after Draft.declareKind
  cases hcheck : d.checkKind name base with
  | error e => exact hd.refuse _
  | ok b =>
    -- the check found the name fresh and the base declared
    unfold checkKind at hcheck
    split at hcheck
    · cases hcheck
    · next hfresh =>
      split at hcheck
      · cases hcheck
      · next c hres =>
        split at hcheck
        · cases hcheck
          refine hd.append ?_ fun k hk => resolveBase_lt (hk ▸ hres)
          intro hmem
          obtain ⟨kind, hkind, rfl⟩ := List.mem_map.mp hmem
          apply hfresh
          rw [Kind.byName?, Option.isSome_map, List.findIdx?_isSome]
          exact List.any_eq_true.mpr ⟨kind, hkind, beq_self_eq_true _⟩
        · cases hcheck

/-- So does declaring a value slot. -/
theorem Sound.declareValue {d : Draft} (hd : d.Sound) (k : KindId) (slot : String)
    (type : ValueType) : (after (Draft.declareValue k slot type) d).Sound := by
  unfold after Draft.declareValue
  cases hcheck : d.checkSlotName k slot with
  | error e => exact hd.refuse _
  | ok u =>
    refine hd.modifyKind slot (fun _ => rfl) (fun _ => rfl) (fun kind => ?_)
      (slotOwner?_eq_none hcheck)
    show (List.map ValueSlot.name (kind.values ++ [⟨slot, type⟩]) ++ _).Perm _
    rw [List.map_append, List.append_assoc]
    exact List.perm_middle

/-- And so does declaring a child slot. -/
theorem Sound.declareChild {d : Draft} (hd : d.Sound) (k : KindId) (slot : String)
    (spec : ChildSpec) : (after (Draft.declareChild k slot spec) d).Sound := by
  unfold after Draft.declareChild
  cases hcheck : d.checkChild k slot spec with
  | error e => exact hd.refuse _
  | ok type =>
    unfold checkChild at hcheck
    split at hcheck
    · cases hcheck
    · next hfree =>
      refine hd.modifyKind slot (fun _ => rfl) (fun _ => rfl) (fun kind => ?_)
        (slotOwner?_eq_none hfree)
      show (_ ++ List.map ChildSlot.name (kind.children ++ [⟨slot, type⟩])).Perm _
      rw [List.map_append, ← List.append_assoc]
      exact List.perm_append_singleton _ _

/-- Every sequence of declarations leads to a sound draft. -/
theorem Declared.sound {d : Draft} (hd : d.Declared) : d.Sound := by
  induction hd with
  | empty => exact sound_empty
  | kind name base _ ih => exact ih.declareKind name base
  | value k slot type _ ih => exact ih.declareValue k slot type
  | child k slot spec _ ih => exact ih.declareChild k slot spec

/-! ### Handing slots down -/

/-- The last kind inherits from those before it. -/
theorem flatten_append_singleton (kinds : List Kind) (k : Kind) :
    flatten (kinds ++ [k]) = flatten kinds ++ [inherit (flatten kinds) k] := by
  rw [flatten, List.foldl_append]
  rfl

theorem inherit_name (done : List Kind) (k : Kind) : (inherit done k).name = k.name := by
  unfold inherit
  cases k.base <;> rfl

/-- Handing the slots down changes no name. -/
theorem map_name_flatten (kinds : List Kind) :
    (flatten kinds).map Kind.name = kinds.map Kind.name := by
  induction kinds using List.reverseRecOn with
  | nil => rfl
  | append_singleton kinds k ih =>
    rw [flatten_append_singleton, List.map_append, List.map_append, ih, List.map_singleton,
      List.map_singleton, inherit_name]

theorem length_flatten (kinds : List Kind) : (flatten kinds).length = kinds.length := by
  simpa using congrArg List.length (map_name_flatten kinds)

/-- A kind inherits from its base alone. -/
theorem inherit_congr {done done' : List Kind} {k : Kind}
    (h : ∀ b, k.base = some b → Kind.get done b = Kind.get done' b) :
    inherit done k = inherit done' k := by
  unfold inherit
  cases hb : k.base with
  | none => rfl
  | some b => simp only [h b hb]

/-- A kind has its slots after those that its base has in the finished schema. -/
theorem get_flatten {kinds : List Kind} (hb : Kind.BasesFirst kinds) (k : KindId) :
    Kind.get (flatten kinds) k = inherit (flatten kinds) (Kind.get kinds k) := by
  induction kinds using List.reverseRecOn with
  | nil => rfl
  | append_singleton kinds x ih =>
    have hlen := length_flatten kinds
    rw [flatten_append_singleton]
    by_cases hk : k.index < kinds.length
    · -- an old kind: its base is an old one as well
      have hb' : Kind.BasesFirst kinds := by
        intro o b ho
        by_cases hlt : o.index < kinds.length
        · exact hb o b (by rw [Kind.get_append_left hlt]; exact ho)
        · rw [Kind.get_of_length_le (by omega)] at ho
          cases ho
      rw [Kind.get_append_left (by omega), Kind.get_append_left hk, ih hb']
      refine inherit_congr fun b hbase => ?_
      have := hb' k b hbase
      rw [Kind.get_append_left (by omega)]
    · by_cases hk' : k.index = kinds.length
      · -- the new kind, whose base is an old one
        have hx : Kind.get (kinds ++ [x]) k = x :=
          Kind.get_of_getElem? (by rw [hk', List.getElem?_concat_length])
        rw [Kind.get_of_getElem? (by rw [hk', ← hlen, List.getElem?_concat_length]), hx]
        refine inherit_congr fun b hbase => ?_
        have := hb k b (by rw [hx]; exact hbase)
        rw [Kind.get_append_left (by omega)]
      · rw [Kind.get_of_length_le (by simp; omega), Kind.get_of_length_le (by simp; omega)]
        rfl

/-- Without a base a kind has its own slots. -/
theorem slotNames_inherit_of_base_none (done : List Kind) {k : Kind} (h : k.base = none) :
    (inherit done k).slotNames = k.slotNames := by
  rw [inherit, h]

/-- With a base it has those of the base too. -/
theorem slotNames_inherit_of_base_some (done : List Kind) {k : Kind} {b : KindId}
    (h : k.base = some b) :
    (inherit done k).slotNames.Perm ((Kind.get done b).slotNames ++ k.slotNames) := by
  rw [inherit, h]
  simp only [Kind.slotNames, List.map_append, List.append_assoc]
  exact (List.Perm.refl _).append
    ((List.perm_append_comm_assoc _ _ _).trans (List.Perm.refl _))

/-- A slot of a finished kind was declared on the kind or on one that it derives from. -/
theorem exists_owner_of_mem_slotNames {kinds : List Kind} (hb : Kind.BasesFirst kinds)
    {k : KindId} {x : String} (hx : x ∈ (Kind.get (flatten kinds) k).slotNames) :
    ∃ o ∈ Kind.lineage kinds k, x ∈ (Kind.get kinds o).slotNames := by
  obtain ⟨n, hn⟩ : ∃ n, n = k.index := ⟨_, rfl⟩
  -- the slot is the kind's own, or its base has it, which comes before
  induction n using Nat.strongRecOn generalizing k with
  | ind n ih =>
    rw [get_flatten hb] at hx
    cases hbase : (Kind.get kinds k).base with
    | none =>
      rw [slotNames_inherit_of_base_none _ hbase] at hx
      exact ⟨k, Kind.self_mem_lineage kinds k, hx⟩
    | some b =>
      rw [(slotNames_inherit_of_base_some _ hbase).mem_iff, List.mem_append] at hx
      rcases hx with hx | hx
      · have hlt : b.index < n := hn ▸ hb k b hbase
        obtain ⟨o, ho, hox⟩ := ih b.index hlt hx rfl
        rw [Kind.lineage_of_base_some hb hbase]
        exact ⟨o, List.mem_cons_of_mem k ho, hox⟩
      · exact ⟨k, Kind.self_mem_lineage kinds k, hx⟩

/-- All slots of a finished kind have distinct names. -/
theorem Sound.nodup_slotNames {d : Draft} (hd : d.Sound) (k : KindId) :
    (Kind.get (flatten d.kinds) k).slotNames.Nodup := by
  obtain ⟨n, hn⟩ : ∃ n, n = k.index := ⟨_, rfl⟩
  induction n using Nat.strongRecOn generalizing k with
  | ind n ih =>
    rw [get_flatten hd.bases]
    cases hbase : (Kind.get d.kinds k).base with
    | none =>
      rw [slotNames_inherit_of_base_none _ hbase]
      exact hd.own k
    | some b =>
      have hlt : b.index < k.index := hd.bases k b hbase
      rw [(slotNames_inherit_of_base_some _ hbase).nodup_iff]
      refine List.Nodup.append (ih b.index (hn ▸ hlt) b rfl) (hd.own k) ?_
      intro x hx hx'
      -- an inherited slot belongs to a kind above `k`, which shares no name with `k`
      obtain ⟨o, ho, hox⟩ := exists_owner_of_mem_slotNames hd.bases hx
      have hle := Kind.index_le_of_mem_lineage hd.bases ho
      have hne : o ≠ k := fun h => by rw [h] at hle; omega
      refine hd.apart k o ?_ hne hx' hox
      rw [Kind.lineage_of_base_some hd.bases hbase]
      exact List.mem_cons_of_mem k ho

end Draft

/-! ### Built schemas -/

namespace Schema

/-- The schemas that a sequence of declarations, none of them refused, leads to. -/
def Built (s : Schema) : Prop := ∃ d : Draft, d.Declared ∧ d.freeze = .ok s

/-- The laws of names: kinds have distinct names, and so have the slots of each kind. -/
structure Lawful (s : Schema) : Prop where
  names : (s.kinds.map Kind.name).Nodup
  slots : ∀ k, (s.kind k).slotNames.Nodup

/-- Every schema that was built is lawful. -/
theorem Built.lawful {s : Schema} (h : s.Built) : s.Lawful := by
  obtain ⟨d, hd, hfreeze⟩ := h
  unfold Draft.freeze at hfreeze
  split at hfreeze
  · cases hfreeze
  · cases hfreeze
    refine ⟨?_, fun k => hd.sound.nodup_slotNames k⟩
    show ((Draft.flatten d.kinds).map Kind.name).Nodup
    rw [Draft.map_name_flatten]
    exact hd.sound.names

/-- A kind that is found under a name is one of the schema and has the name. -/
theorem kindByName?_eq_some {s : Schema} {name : String} {k : KindId}
    (h : s.kindByName? name = some k) : k.index < s.size ∧ s.kindName k = name := by
  obtain ⟨i, hi, rfl⟩ := Option.map_eq_some_iff.mp h
  obtain ⟨hlt, hname, -⟩ := List.findIdx?_eq_some_iff_getElem.mp hi
  refine ⟨hlt, ?_⟩
  rw [kindName, kind, Kind.get_of_getElem? (List.getElem?_eq_getElem hlt)]
  exact beq_iff_eq.mp hname

namespace Lawful

variable {s : Schema}

/-- Looking up the name of a kind finds the kind. -/
theorem kindByName?_kindName (hs : s.Lawful) {k : KindId} (hk : k.index < s.size) :
    s.kindByName? (s.kindName k) = some k := by
  have hget : s.kinds[k.index]? = some (s.kind k) := by
    rw [kind, Kind.get_of_getElem? (List.getElem?_eq_getElem hk)]
    exact List.getElem?_eq_getElem hk
  show (s.kinds.findIdx? fun b => b.name == (s.kind k).name).map KindId.mk = some k
  rw [findIdx?_key_eq hs.names hget]
  rfl

/-- Kinds of the same name are the same. -/
theorem kindName_inj (hs : s.Lawful) {k l : KindId} (hk : k.index < s.size)
    (hl : l.index < s.size) (h : s.kindName k = s.kindName l) : k = l :=
  Option.some.inj (by rw [← hs.kindByName?_kindName hk, h, hs.kindByName?_kindName hl])

/-- Looking up the name of a value slot finds the slot. -/
theorem valueIndex?_name (hs : s.Lawful) {k : KindId} {i : Nat} {slot : ValueSlot}
    (h : (s.kind k).values[i]? = some slot) : (s.kind k).valueIndex? slot.name = some i :=
  findIdx?_key_eq (List.nodup_append.mp (hs.slots k)).1 h

/-- Looking up the name of a child slot finds the slot. -/
theorem childIndex?_name (hs : s.Lawful) {k : KindId} {i : Nat} {slot : ChildSlot}
    (h : (s.kind k).children[i]? = some slot) : (s.kind k).childIndex? slot.name = some i :=
  findIdx?_key_eq (List.nodup_append.mp (hs.slots k)).2.1 h

end Lawful

end Schema

end TypedForest
