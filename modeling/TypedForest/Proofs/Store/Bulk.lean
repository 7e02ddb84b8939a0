import TypedForest.Proofs.Store.Writing

namespace TypedForest

/-!
# Writing several slots at once

Writing several slots is writing one slot after the other by name.  The entries come in the order in
which the slots are declared; those for the same slot keep their order, so the last of them counts,
and the first that is refused ends the work.  What cannot be put in that order at all, since entries
are missing or a name is unknown, is refused before anything is written.

* `Bulk.Fits`, `Bulk.inOrder` : the payloads that can be put in order, and their order;
* `mergeSort_eq_of_filter_eq` : a sorted list with the same entries for each key, in the same order,
  is what sorting gives;
* `Bulk.order_eq_ok` : the places of the entries follow that order;
* `Store.SetsInTurn` : what writing several slots of one sort comes to;
* `Store.bulk_sets_in_turn` : it holds for value slots and for child slots in every store.
-/

/-! ### Sorting by a key -/

section

variable {α : Type} (key : α → Nat)

/-- Whether an item may stand before another one. -/
def keyLe (a b : α) : Bool := decide (key a ≤ key b)

variable {key}

theorem keyLe_trans (a b c : α) (hab : keyLe key a b = true) (hbc : keyLe key b c = true) :
    keyLe key a c = true := by
  rw [keyLe, decide_eq_true_eq] at *
  exact Nat.le_trans hab hbc

theorem keyLe_total (a b : α) : (keyLe key a b || keyLe key b a) = true := by
  simpa [keyLe] using Nat.le_total (key a) (key b)

/-- Lists with the same items of each key have the same items. -/
theorem mem_iff_of_filter_key_eq {l m : List α}
    (h : ∀ k, l.filter (key · == k) = m.filter (key · == k)) (a : α) : a ∈ l ↔ a ∈ m := by
  have hk := congrArg (a ∈ ·) (h (key a))
  simpa using hk

/-- A sorted list is known from the items that it has for each key. -/
theorem eq_of_filter_key_eq {l m : List α} (hl : l.Pairwise (key · ≤ key ·))
    (hm : m.Pairwise (key · ≤ key ·))
    (h : ∀ k, l.filter (key · == k) = m.filter (key · == k)) : l = m := by
  have hmem := mem_iff_of_filter_key_eq h
  induction l generalizing m with
  | nil =>
    refine (List.eq_nil_iff_forall_not_mem.mpr fun a ha => ?_).symm
    simpa using (hmem a).mpr ha
  | cons a l ih =>
    cases m with
    | nil => exact absurd ((hmem a).mp List.mem_cons_self) List.not_mem_nil
    | cons b m =>
      obtain ⟨hal, hl'⟩ := List.pairwise_cons.mp hl
      obtain ⟨hbm, hm'⟩ := List.pairwise_cons.mp hm
      -- both first items have the least key, and so they are the first items of that key
      have hkeys : key a = key b := by
        refine Nat.le_antisymm ?_ ?_
        · rcases List.mem_cons.mp ((hmem b).mpr List.mem_cons_self) with rfl | hb
          · exact Nat.le_refl _
          · exact hal b hb
        · rcases List.mem_cons.mp ((hmem a).mp List.mem_cons_self) with rfl | ha
          · exact Nat.le_refl _
          · exact hbm a ha
      obtain rfl : a = b := by
        have hk := h (key a)
        rw [List.filter_cons_of_pos (by simp), List.filter_cons_of_pos (by simp [hkeys])] at hk
        exact (List.cons.inj hk).1
      -- without it the rest agrees again, key by key
      have htail : ∀ k, l.filter (key · == k) = m.filter (key · == k) := by
        intro k
        have hk := h k
        simp only [List.filter_cons] at hk
        split at hk
        · exact (List.cons.inj hk).2
        · exact hk
      rw [ih hl' hm' htail (mem_iff_of_filter_key_eq htail)]

/-- Sorting keeps the items of each key in their order. -/
theorem filter_mergeSort_key (l : List α) (k : Nat) :
    (l.mergeSort (keyLe key)).filter (key · == k) = l.filter (key · == k) := by
  have hties : (l.filter (key · == k)).Pairwise fun a b => keyLe key a b = true := by
    refine List.pairwise_iff_forall_sublist.mpr fun {a b} hab => ?_
    have ha := (List.mem_filter.mp (hab.subset List.mem_cons_self)).2
    have hb := (List.mem_filter.mp (hab.subset (List.mem_cons_of_mem _ List.mem_cons_self))).2
    rw [beq_iff_eq] at ha hb
    simp [keyLe, ha, hb]
  have hsub := (List.sublist_mergeSort keyLe_trans keyLe_total hties
    List.filter_sublist).filter (key · == k)
  simp only [List.filter_filter, Bool.and_self] at hsub
  exact (hsub.eq_of_length ((List.mergeSort_perm l (keyLe key)).filter _).length_eq.symm).symm

/-- What sorting gives is known from the items that it has for each key. -/
theorem mergeSort_eq_of_filter_eq {l m : List α} (hm : m.Pairwise (key · ≤ key ·))
    (h : ∀ k, m.filter (key · == k) = l.filter (key · == k)) : l.mergeSort (keyLe key) = m := by
  refine eq_of_filter_key_eq ?_ hm fun k => (filter_mergeSort_key l k).trans (h k).symm
  exact (List.pairwise_mergeSort keyLe_trans keyLe_total l).imp fun hab => of_decide_eq_true hab

end

/-! ### The order of a payload -/

/-- Of lists for distinct names, one for each, only that of one name is not empty. -/
theorem flatMap_ite_name {β : Type} {names : List String} (hnodup : names.Nodup) {name : String}
    (hname : name ∈ names) (l : List β) :
    (names.flatMap fun other => if other = name then l else []) = l := by
  obtain ⟨front, rest, rfl⟩ := List.append_of_mem hname
  obtain ⟨hfront, hrest⟩ : name ∉ front ∧ name ∉ rest := by
    rw [List.nodup_middle, List.nodup_cons, List.mem_append, not_or] at hnodup
    exact hnodup.1
  have hnone : ∀ others : List String, name ∉ others →
      (others.flatMap fun other => if other = name then l else []) = [] := by
    intro others hothers
    refine List.flatMap_eq_nil_iff.mpr fun other hmem => if_neg ?_
    rintro rfl
    exact hothers hmem
  rw [List.flatMap_append, List.flatMap_cons, if_pos rfl, hnone front hfront, hnone rest hrest,
    List.nil_append, List.append_nil]

namespace Bulk

variable {α : Type}

/-- One entry for each slot, or entries under names of slots. -/
def Fits (names : List String) : Bulk α → Prop
  | all entries => entries.length = names.length
  | named entries => ∀ e ∈ entries, e.1 ∈ names

/-- The entries with the names of their slots, in the order of the slots; entries for the same slot
    stay in their order. -/
def inOrder (names : List String) : Bulk α → List (String × α)
  | all entries => names.zip entries
  | named entries => names.flatMap fun name => entries.filter (·.1 == name)

/-- An entry with the place of its slot. -/
def place (names : List String) (e : String × α) : Nat × α := (names.idxOf e.1, e.2)

/-- What is set in the order of the slots has the name of a slot. -/
theorem mem_names_of_mem_inOrder {names : List String} (bulk : Bulk α) {e : String × α}
    (he : e ∈ bulk.inOrder names) : e.1 ∈ names := by
  cases bulk with
  | all entries => exact (List.of_mem_zip he).1
  | named entries =>
    obtain ⟨name, hname, he⟩ := List.mem_flatMap.mp he
    rw [beq_iff_eq.mp (List.mem_filter.mp he).2]
    exact hname

section

variable {names : List String} (unknown : String → NodeError)

/-- A name that is there is found in its first place. -/
theorem findIdx?_name {name : String} (hname : name ∈ names) :
    names.findIdx? (· == name) = some (names.idxOf name) := by
  rw [List.findIdx?_eq_guard_findIdx_lt]
  exact Option.guard_eq_some_iff.mpr ⟨rfl, decide_eq_true (List.idxOf_lt_length_iff.mpr hname)⟩

/-- Known names are resolved one by one. -/
theorem resolve_append {front : List (String × α)} (hfront : ∀ e ∈ front, e.1 ∈ names)
    (rest : List (String × α)) :
    resolve names unknown (front ++ rest)
      = (resolve names unknown rest).map (front.map (place names) ++ ·) := by
  induction front with
  | nil =>
    rw [List.nil_append]
    cases resolve names unknown rest <;> rfl
  | cons e front ih =>
    rw [List.cons_append, resolve, findIdx?_name (hfront e List.mem_cons_self),
      ih fun e he => hfront e (List.mem_cons_of_mem _ he)]
    cases resolve names unknown rest <;> rfl

/-- The first unknown name is the one that is reported. -/
theorem resolve_eq_error {front rest : List (String × α)} (hfront : ∀ e ∈ front, e.1 ∈ names)
    {name : String} (hname : name ∉ names) (a : α) :
    resolve names unknown (front ++ (name, a) :: rest) = .error (unknown name) := by
  have hnone : names.findIdx? (· == name) = none := by
    refine List.findIdx?_eq_none_iff.mpr fun other hother => ?_
    rw [beq_eq_false_iff_ne]
    rintro rfl
    exact hname hother
  rw [resolve_append unknown hfront, resolve, hnone]
  rfl

variable (hnodup : names.Nodup)
include hnodup

/-- The entries for a name are those that the payload has for it, in its order. -/
theorem filter_inOrder {entries : List (String × α)} {name : String} (hname : name ∈ names) :
    ((named entries).inOrder names).filter (·.1 == name) = entries.filter (·.1 == name) := by
  rw [inOrder, List.filter_flatMap, ← flatMap_ite_name hnodup hname (entries.filter (·.1 == name))]
  refine congrArg (names.flatMap ·) (funext fun other => ?_)
  rw [List.filter_filter]
  split
  · next h => simp [h]
  · next h =>
    refine List.filter_eq_nil_iff.mpr fun e _ => ?_
    simp only [Bool.and_eq_true, beq_iff_eq, not_and]
    rintro hname hother
    exact h (hother.symm.trans hname)

/-- Slots that are declared later have later places. -/
theorem pairwise_inOrder {entries : List (String × α)} :
    ((named entries).inOrder names).Pairwise fun a b => names.idxOf a.1 ≤ names.idxOf b.1 := by
  refine List.pairwise_flatMap.mpr ⟨fun name _ => ?_, ?_⟩
  · refine List.pairwise_iff_forall_sublist.mpr fun {a b} hab => ?_
    have ha := (List.mem_filter.mp (hab.subset List.mem_cons_self)).2
    have hb := (List.mem_filter.mp (hab.subset (List.mem_cons_of_mem _ List.mem_cons_self))).2
    rw [beq_iff_eq] at ha hb
    rw [ha, hb]
  · refine List.pairwise_iff_getElem.mpr fun i j hi hj hij a ha b hb => ?_
    have ha' := (List.mem_filter.mp ha).2
    have hb' := (List.mem_filter.mp hb).2
    rw [beq_iff_eq] at ha' hb'
    rw [ha', hb', hnodup.idxOf_getElem, hnodup.idxOf_getElem]
    exact Nat.le_of_lt hij

/-- Sorting by the places of the names gives the entries in the order of the slots. -/
theorem mergeSort_place {entries : List (String × α)} (hentries : ∀ e ∈ entries, e.1 ∈ names) :
    (entries.map (place names)).mergeSort (keyLe Prod.fst)
      = ((named entries).inOrder names).map (place names) := by
  refine mergeSort_eq_of_filter_eq (List.pairwise_map.mpr (pairwise_inOrder hnodup)) fun i => ?_
  rw [List.filter_map, List.filter_map]
  refine congrArg (List.map _) ?_
  show ((named entries).inOrder names).filter (fun e => names.idxOf e.1 == i)
    = entries.filter fun e => names.idxOf e.1 == i
  have hmem : ∀ e ∈ (named entries).inOrder names, e.1 ∈ names :=
    fun e he => (named entries).mem_names_of_mem_inOrder he
  by_cases hi : i < names.length
  · -- the place is that of one name
    have hplace : ∀ es : List (String × α), (∀ e ∈ es, e.1 ∈ names) →
        es.filter (fun e => names.idxOf e.1 == i) = es.filter (·.1 == names[i]) := by
      intro es hes
      refine List.filter_congr fun e he => Bool.eq_iff_iff.mpr ?_
      rw [beq_iff_eq, beq_iff_eq]
      constructor
      · rintro rfl
        rw [List.getElem_idxOf]
      · intro hname
        rw [hname, hnodup.idxOf_getElem]
    rw [hplace _ hmem, hplace _ hentries, filter_inOrder hnodup (List.getElem_mem hi)]
  · have hnone : ∀ es : List (String × α), (∀ e ∈ es, e.1 ∈ names) →
        es.filter (fun e => names.idxOf e.1 == i) = [] := by
      intro es hes
      refine List.filter_eq_nil_iff.mpr fun e he => ?_
      have := List.idxOf_lt_length_iff.mpr (hes e he)
      rw [beq_iff_eq]
      omega
    rw [hnone _ hmem, hnone _ hentries]

/-- A payload that fits is put in the order of the slots. -/
theorem order_eq_ok {bulk : Bulk α} (hbulk : bulk.Fits names) (kind : String) (sort : SlotSort) :
    bulk.order kind names sort = .ok ((bulk.inOrder names).map (place names)) := by
  cases bulk with
  | all entries =>
    have hlength : entries.length = names.length := hbulk
    rw [order, if_pos hlength, inOrder]
    refine congrArg Except.ok (List.ext_getElem (by simp [hlength]) fun i hi hi' => ?_)
    simp only [List.getElem_map, List.getElem_zipIdx, List.getElem_zip, place, Nat.zero_add,
      hnodup.idxOf_getElem]
  | named entries =>
    have hresolve := resolve_append (.unknownSlot kind · sort) hbulk []
    rw [List.append_nil] at hresolve
    rw [order, hresolve, ← mergeSort_place hnodup hbulk]
    simp only [resolve, Except.map, List.append_nil]
    rfl

end

end Bulk

namespace Kind

/-- The name of a value slot is found in its place. -/
theorem valueIndex?_of_mem {k : Kind} {name : String} (h : name ∈ k.values.map ValueSlot.name) :
    k.valueIndex? name = some ((k.values.map ValueSlot.name).idxOf name) := by
  rw [← Bulk.findIdx?_name h, List.findIdx?_map]
  rfl

/-- So is the name of a child slot. -/
theorem childIndex?_of_mem {k : Kind} {name : String} (h : name ∈ k.children.map ChildSlot.name) :
    k.childIndex? name = some ((k.children.map ChildSlot.name).idxOf name) := by
  rw [← Bulk.findIdx?_name h, List.findIdx?_map]
  rfl

end Kind

namespace Store

/-! ### One slot after the other -/

/-- A sequence of operations that fails has an operation that fails, after those before it. -/
theorem exists_of_forM_eq_error {α : Type} {f : α → Edit Unit} {as : List α} {s s' : Store}
    {e : NodeError} (h : as.forM f s = .error e s') :
    ∃ front a rest mid, as = front ++ a :: rest ∧ front.forM f s = .ok () mid ∧
      f a mid = .error e s' := by
  induction as generalizing s with
  | nil => cases h
  | cons a as ih =>
    cases ha : f a s with
    | error e₁ s₁ =>
      have hfirst : (a :: as).forM f s = .error e₁ s₁ := by
        show (f a >>= fun _ => as.forM f) s = _
        rw [bind_apply, ha]
      rw [hfirst] at h
      cases h
      exact ⟨[], a, as, s, rfl, rfl, ha⟩
    | ok u s₁ =>
      -- the first one succeeds, whatever comes after it
      have hcons : ∀ bs : List α, (a :: bs).forM f s = bs.forM f s₁ := by
        intro bs
        show (f a >>= fun _ => bs.forM f) s = _
        rw [bind_apply, ha]
      rw [hcons] at h
      obtain ⟨front, b, rest, mid, rfl, hfront, hb⟩ := ih h
      exact ⟨a :: front, b, rest, mid, rfl, (hcons front).trans hfront, hb⟩

/-- Writing at places is writing by name, as long as the names stand for these places. -/
theorem writeAll_place {α : Type} {names : List String} {write : Nat → α → Edit Unit}
    (set : String → α → Edit Unit) {P : Store → Prop}
    (hkeeps : ∀ s s' name a, P s → set name a s = .ok () s' → P s')
    (hwrite : ∀ s name a, P s → name ∈ names → write (names.idxOf name) a s = set name a s)
    {entries : List (String × α)} (hentries : ∀ e ∈ entries, e.1 ∈ names) {s : Store} (hs : P s) :
    writeAll write (entries.map (Bulk.place names)) s
      = entries.forM (fun e => set e.1 e.2) s := by
  induction entries generalizing s with
  | nil => rfl
  | cons e entries ih =>
    show _ = (set e.1 e.2 >>= fun _ => entries.forM fun e => set e.1 e.2) s
    rw [List.map_cons, Bulk.place, writeAll_cons, bind_apply, bind_apply,
      hwrite s e.1 e.2 hs (hentries e List.mem_cons_self)]
    cases hset : set e.1 e.2 s with
    | error _ _ => rfl
    | ok u s₁ =>
      exact ih (fun e he => hentries e (List.mem_cons_of_mem _ he)) (hkeeps s s₁ e.1 e.2 hs hset)

/-- What writing several slots of one sort comes to: `names` are the names of the slots of that
    sort, `entry` is what a slot is given by an entry, and `write` writes a payload.

    Too many entries or too few are refused, and so is the first unknown name, before anything is
    written.  A payload that fits is written entry by entry with `Store.set`, in the order of the
    slots.  When one entry is refused, those before it have been written and nothing else. -/
structure SetsInTurn {α : Type} (s : Store) (h : Handle) (kind : String) (names : List String)
    (sort : SlotSort) (entry : α → Filling) (write : Bulk α → Edit Unit) : Prop where
  count : ∀ entries, entries.length ≠ names.length →
    write (.all entries) s = .error (.countMismatch kind names.length entries.length) s
  unknown : ∀ front name a rest, (∀ e ∈ front, e.1 ∈ names) → name ∉ names →
    write (.named (front ++ (name, a) :: rest)) s = .error (.unknownSlot kind name sort) s
  inTurn : ∀ bulk, bulk.Fits names →
    write bulk s = (bulk.inOrder names).forM (fun e => set h e.1 (entry e.2)) s
  stops : ∀ bulk e s', bulk.Fits names → write bulk s = .error e s' →
    ∃ front a rest, bulk.inOrder names = front ++ a :: rest ∧
      front.forM (fun e => set h e.1 (entry e.2)) s = .ok () s' ∧
      set h a.1 (entry a.2) s' = .error e s'

/-- Writing does not change the kind of any node. -/
theorem WellFormed.kindOf_set {s s' : Store} (hs : s.WellFormed) {h : Handle} {name : String}
    {arg : Filling} (hset : Store.set h name arg s = .ok () s') :
    s'.WellFormed ∧ s'.schema = s.schema ∧ s'.kindOf h = s.kindOf h := by
  have hwf := hs.steps (Steps.set s h name arg)
  rw [after_of_ok hset] at hwf
  have hwritten := hs.written hset
  obtain ⟨n, n', hn, hn', hkind, -⟩ := hwritten.node
  refine ⟨hwf, hwritten.schema, ?_⟩
  rw [kindOf_eq_ok_iff.mpr ⟨n, hn, rfl⟩, kindOf_eq_ok_iff.mpr ⟨n', hn', hkind⟩]

/-- Writing in the order of the places is writing in turn, if writing at the place of a name is
    writing by that name while the node has its kind. -/
theorem WellFormed.setsInTurn {α : Type} {s : Store} (hs : s.WellFormed) {h : Handle} {k : KindId}
    (hk : s.kindOf h = .ok k) {kind : String} {names : List String} (hnodup : names.Nodup)
    {sort : SlotSort} {entry : α → Filling} {write : Bulk α → Edit Unit}
    (writeAt : Nat → α → Edit Unit)
    (hrefuse : ∀ bulk e, bulk.order kind names sort = .error e → write bulk s = .error e s)
    (hwrite : ∀ bulk entries, bulk.order kind names sort = .ok entries →
      write bulk s = writeAll writeAt entries s)
    (hwriteAt : ∀ t name a, t.schema = s.schema → t.kindOf h = .ok k → name ∈ names →
      writeAt (names.idxOf name) a t = Store.set h name (entry a) t) :
    SetsInTurn s h kind names sort entry write := by
  have hinTurn : ∀ bulk : Bulk α, bulk.Fits names →
      write bulk s = (bulk.inOrder names).forM (fun e => Store.set h e.1 (entry e.2)) s := by
    intro bulk hbulk
    rw [hwrite bulk _ (Bulk.order_eq_ok hnodup hbulk kind sort)]
    -- each write keeps the kind of the node, and so the places of the names
    refine writeAll_place (fun name a => Store.set h name (entry a))
      (P := fun t => t.WellFormed ∧ t.schema = s.schema ∧ t.kindOf h = .ok k) ?_ ?_
      (fun e he => bulk.mem_names_of_mem_inOrder he) ⟨hs, rfl, hk⟩
    · rintro t t' name a ⟨ht, hschema, hkind⟩ hset
      obtain ⟨ht', hschema', hkind'⟩ := ht.kindOf_set hset
      exact ⟨ht', hschema'.trans hschema, hkind'.trans hkind⟩
    · rintro t name a ⟨-, hschema, hkind⟩ hname
      exact hwriteAt t name a hschema hkind hname
  refine ⟨fun entries hlength => ?_, fun front name a rest hfront hname => ?_, hinTurn,
    fun bulk e s' hbulk herror => ?_⟩
  · exact hrefuse _ _ (if_neg hlength)
  · refine hrefuse _ _ ?_
    rw [Bulk.order, Bulk.resolve_eq_error _ hfront hname]
    rfl
  · rw [hinTurn bulk hbulk] at herror
    obtain ⟨front, a, rest, mid, horder, hfront, ha⟩ := exists_of_forM_eq_error herror
    obtain rfl := set_eq_error ha
    exact ⟨front, a, rest, horder, hfront, ha⟩

/-- **Writing several slots is writing one after the other.**  In every store, for a live node and
    any payload, `Store.setValues` and `Store.setChildren` do what `Store.set` does for the entries
    in the order of the slots, up to the first that is refused. -/
theorem bulk_sets_in_turn {schema : Schema} (hbuilt : schema.Built) {s : Store}
    (hs : Reachable schema s) {h : Handle} {n : Node} (hn : s.node? h = some n) :
    s.SetsInTurn h (s.schema.kind n.kind).name
        ((s.schema.kind n.kind).values.map ValueSlot.name) .value .value (setValues h) ∧
      s.SetsInTurn h (s.schema.kind n.kind).name
        ((s.schema.kind n.kind).children.map ChildSlot.name) .child id (setChildren h) := by
  have hkind : s.kindOf h = .ok n.kind := kindOf_eq_ok_iff.mpr ⟨n, hn, rfl⟩
  obtain ⟨hvalues, hchildren, hdisjoint⟩ :=
    List.nodup_append.mp ((hs.lawful hbuilt).slots n.kind)
  constructor
  · refine hs.wellFormed_store.setsInTurn hkind hvalues
      (fun i v => setValueAt h i (.value v)) (fun bulk e horder => ?_)
      (fun bulk entries horder => ?_) fun t name v hschema hk hname => ?_
    · simp only [setValues, hkind, horder]
    · simp only [setValues, hkind, horder]
    · simp only [set, hk, hschema, Kind.valueIndex?_of_mem hname]
  · refine hs.wellFormed_store.setsInTurn hkind hchildren (setChildAt h)
      (fun bulk e horder => ?_) (fun bulk entries horder => ?_)
      fun t name arg hschema hk hname => ?_
    · simp only [setChildren, hkind, horder]
    · simp only [setChildren, hkind, horder]
    · -- no value slot has the name of a child slot
      have hnone : (s.schema.kind n.kind).valueIndex? name = none := by
        refine List.findIdx?_eq_none_iff.mpr fun slot hslot => ?_
        rw [beq_eq_false_iff_ne]
        exact hdisjoint _ (List.mem_map_of_mem hslot) _ hname
      simp only [set, hk, hschema, hnone, Kind.childIndex?_of_mem hname, id]

end Store

namespace Sample

/-- Slots out of order, each of them twice, and in the end something that is no list for the
    parts. -/
def mixed : Bulk Filling :=
  .named [("parts", .many [⟨1, 0⟩]), ("next", .one (some ⟨0, 0⟩)), ("parts", .one none),
    ("next", .one none)]

/-- What is written before that. -/
def partly : Store :=
  after (Store.set ⟨2, 0⟩ "parts" (.many [⟨1, 0⟩])) <|
  after (Store.set ⟨2, 0⟩ "next" (.one none)) <|
  after (Store.set ⟨2, 0⟩ "next" (.one (some ⟨0, 0⟩))) tangle

/-- The first item that was put into `next` is not there any more but has the group as its
    parent. -/
theorem setChildren_mixed :
    Store.setChildren ⟨2, 0⟩ mixed tangle
        = .error (.typeMismatch "parts" (.many "item") .noNode) partly ∧
      partly.child ⟨2, 0⟩ "next" = .ok none ∧ partly.childList ⟨2, 0⟩ "parts" = .ok [⟨1, 0⟩] ∧
      partly.parent ⟨0, 0⟩ = .ok (some ⟨2, 0⟩) := by
  obtain ⟨n, hn⟩ := Store.isAlive_iff.mp (show tangle.isAlive ⟨2, 0⟩ = true by rfl)
  have hnames : (tangle.schema.kind n.kind).children.map ChildSlot.name = ["next", "parts"] := by
    have hkind : tangle.kindOf ⟨2, 0⟩ = .ok ⟨1⟩ := by rfl
    obtain ⟨m, hm, hkind⟩ := Store.kindOf_eq_ok_iff.mp hkind
    rw [Option.some.inj (hn.symm.trans hm), hkind]
    rfl
  have hturn := (Store.bulk_sets_in_turn built reachable_tangle hn).2.inTurn mixed
  rw [hnames] at hturn
  refine ⟨(hturn ?_).trans ?_, by rfl, by rfl, by rfl⟩
  · intro e he
    simp only [List.mem_cons, List.not_mem_nil, or_false] at he
    rcases he with rfl | rfl | rfl | rfl <;> decide
  · rfl

end Sample

end TypedForest
