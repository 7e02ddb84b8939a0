import TypedForest.Proofs.Store.Session
import TypedForest.Wire.Writer

namespace TypedForest

/-!
# Stale handles

The place of a reclaimed node is used again, and only the generation tells the new node from the
old one.  As long as no place goes through all generations, no handle is given out twice, and a
handle whose node was reclaimed is refused for ever.

* `timesEmptied` : how often a place was emptied in a history;
* `Store.Ledger` : what a history says about generations and handles, kept up by each basic
  step (`Store.Ledger.step`);
* `Store.Refuses` : all that a stale handle is refused for (`Store.refuses_of_stale`);
* `Store.stale_for_ever` : the two together, for every session with a store.
-/

/-- How often a place was emptied in a history. -/
def timesEmptied (es : List Event) (i : Nat) : Nat :=
  ((es.flatMap Event.reclaimed).map Handle.index).count i

/-- The counts of two parts of a history add up. -/
theorem timesEmptied_append (es es' : List Event) (i : Nat) :
    timesEmptied (es ++ es') i = timesEmptied es i + timesEmptied es' i := by
  rw [timesEmptied, List.flatMap_append, List.map_append, List.count_append]
  rfl

/-- The place of a node that was reclaimed has been emptied. -/
theorem timesEmptied_pos {es : List Event} {h : Handle} (hh : h ∈ es.flatMap Event.reclaimed) :
    0 < timesEmptied es h.index :=
  List.count_pos_iff.mpr (List.mem_map_of_mem hh)

namespace Store

/-! ### Generations and handles -/

section

variable {s s' : Store} {es : List Event} (he : Effect s s' es)
include he

/-- Only nodes that are alive are reclaimed. -/
theorem Effect.isAlive_of_mem_reclaimed {h : Handle} (hh : h ∈ es.flatMap Event.reclaimed) :
    s.isAlive h = true := by
  cases he with
  | quiet => simp at hh
  | make => simp [Event.reclaimed] at hh
  | assign => simp [Event.reclaimed] at hh
  | reclaim alive => exact alive h (by simpa [Event.reclaimed] using hh)

/-- What is alive and not taken away stays alive. -/
theorem Effect.isAlive_of_not_mem_reclaimed {h : Handle} (halive : s.isAlive h = true)
    (hh : h ∉ es.flatMap Event.reclaimed) : s'.isAlive h = true := by
  rw [← isSome_link] at halive ⊢
  cases he with
  | quiet _ links => rw [links, halive]
  | make _ _ _ _ links =>
    rw [links]
    split
    · rfl
    · split
      · rfl
      · exact halive
  | assign _ _ links =>
    rw [links]
    split
    · rfl
    · exact halive
  | reclaim _ _ _ links =>
    rw [links, if_neg (by simpa [Event.reclaimed] using hh), Option.isSome_map, halive]

/-- A new node is new under its handle, which has the generation of its place. -/
theorem Effect.of_mem_made {h : Handle} (hh : h ∈ es.flatMap Event.made) :
    s.isAlive h = false ∧ h.generation = s.generationAt h.index ∧ s'.isAlive h = true := by
  cases he with
  | quiet => simp at hh
  | make fresh place _ _ links =>
    obtain rfl : h = _ := by simpa [Event.made] using hh
    refine ⟨fresh, place, ?_⟩
    rw [← isSome_link, links, if_pos rfl, Option.isSome_some]
  | assign => simp [Event.made] at hh
  | reclaim => simp [Event.made] at hh

/-- No change makes a node twice. -/
theorem Effect.nodup_made : (es.flatMap Event.made).Nodup := by
  cases he <;> simp [Event.made]

/-- The generation of a place counts how often it was emptied, as long as it does not start
    again. -/
theorem Effect.toNat_generationAt {i : Nat}
    (hbound : (s.generationAt i).toNat + timesEmptied es i < UInt32.size) :
    (s'.generationAt i).toNat = (s.generationAt i).toNat + timesEmptied es i := by
  cases he with
  | quiet generations => simp [generations, timesEmptied]
  | make _ _ _ generations => simp [generations, timesEmptied, Event.reclaimed]
  | assign _ generations => simp [generations, timesEmptied, Event.reclaimed]
  | @reclaim hs _ places generations =>
    have hcount : timesEmptied [.reclaim hs] i
        = if i ∈ hs.map Handle.index then 1 else 0 := by
      rw [timesEmptied, List.flatMap_singleton, Event.reclaimed, places.count]
    rw [hcount] at hbound ⊢
    rw [generations i]
    split
    · next hmem =>
      rw [if_pos hmem] at hbound
      rw [UInt32.toNat_add, UInt32.toNat_one, Nat.mod_eq_of_lt hbound]
    · simp

end

/-- Putting nodes into a slot makes and reclaims none. -/
theorem Effect.isAlive_assign {s s' : Store} {p : Handle} {cs : List Handle}
    (he : Effect s s' [.assign p cs]) (x : Handle) : s'.isAlive x = s.isAlive x := by
  cases he with
  | assign alive _ links =>
    by_cases hx : x ∈ cs
    · rw [alive x hx, ← isSome_link, links, if_pos hx, Option.isSome_some]
    · rw [← isSome_link, links, if_neg hx, isSome_link]

/-- What a history says about the generations of places and about handles: each place has the
    generation that counts how often it was emptied, a handle that was given out is alive or
    behind its place, one whose node was reclaimed is behind, and no handle was given out
    twice. -/
structure Ledger (es : List Event) (s : Store) : Prop where
  generation : ∀ i, (s.generationAt i).toNat = timesEmptied es i
  gone : ∀ h ∈ es.flatMap Event.reclaimed, h.generation.toNat < timesEmptied es h.index
  known : ∀ h ∈ es.flatMap Event.made,
    s.isAlive h = true ∨ h.generation.toNat < timesEmptied es h.index
  nodup : (es.flatMap Event.made).Nodup

/-- The ledger starts with nothing in it. -/
theorem ledger_empty (schema : Schema) : Ledger [] (Store.empty schema) where
  generation := fun i => by simp [generationAt, Store.empty, timesEmptied]
  gone := fun h hh => by simp at hh
  known := fun h hh => by simp at hh
  nodup := List.nodup_nil

section

variable {s s' : Store} {es es' : List Event}

/-- A live handle has the generation that the ledger counts for its place. -/
theorem Ledger.toNat_generation (hl : Ledger es s) {h : Handle} (halive : s.isAlive h = true) :
    h.generation.toNat = timesEmptied es h.index := by
  obtain ⟨n, hn⟩ := isAlive_iff.mp halive
  rw [generation_of_node? hn, hl.generation]

/-- A handle whose node was reclaimed is stale. -/
theorem Ledger.isAlive_eq_false (hl : Ledger es s) {h : Handle}
    (hh : h ∈ es.flatMap Event.reclaimed) : s.isAlive h = false := by
  by_contra halive
  have hgone := hl.gone h hh
  rw [hl.toNat_generation (by simpa using halive)] at hgone
  omega

/-- Each basic step keeps the ledger, as long as no place goes through all generations. -/
theorem Ledger.step (hl : Ledger es s) (he : Effect s s' es')
    (hbound : ∀ i, timesEmptied (es ++ es') i < UInt32.size) : Ledger (es ++ es') s' := by
  simp only [timesEmptied_append] at hbound
  -- a node that the step takes away was alive, so its place is emptied once more than it knows
  have hgone : ∀ h ∈ es'.flatMap Event.reclaimed,
      h.generation.toNat < timesEmptied (es ++ es') h.index := by
    intro h hh
    have hnow := hl.toNat_generation (he.isAlive_of_mem_reclaimed hh)
    have hpos := timesEmptied_pos hh
    rw [timesEmptied_append]
    omega
  refine ⟨fun i => ?_, fun h hh => ?_, fun h hh => ?_, ?_⟩
  · -- the generation of a place counts on, and the bound keeps it from starting again
    rw [timesEmptied_append, ← hl.generation i]
    refine he.toNat_generationAt ?_
    rw [hl.generation i]
    exact hbound i
  · rw [List.flatMap_append, List.mem_append] at hh
    rcases hh with hold | hnew
    · have := hl.gone h hold
      rw [timesEmptied_append]
      omega
    · exact hgone h hnew
  · rw [List.flatMap_append, List.mem_append] at hh
    rcases hh with hold | hnew
    · rcases hl.known h hold with halive | hbehind
      · by_cases hreclaimed : h ∈ es'.flatMap Event.reclaimed
        · exact .inr (hgone h hreclaimed)
        · exact .inl (he.isAlive_of_not_mem_reclaimed halive hreclaimed)
      · rw [timesEmptied_append]
        exact .inr (by omega)
    · exact .inl (he.of_mem_made hnew).2.2
  · rw [List.flatMap_append]
    refine hl.nodup.append he.nodup_made fun h hold hnew => ?_
    -- a handle that was given out before is alive or behind, and the new one is neither
    obtain ⟨hfresh, hplace, -⟩ := he.of_mem_made hnew
    rcases hl.known h hold with halive | hbehind
    · rw [hfresh] at halive
      cases halive
    · rw [hplace, hl.generation] at hbehind
      omega

/-- The ledger is kept along a whole chronicle, as long as no place was emptied so often that its
    generation starts again. -/
theorem Chronicle.ledger {schema : Schema} (h : Chronicle (Store.empty schema) es s)
    (hbound : ∀ i, timesEmptied es i < UInt32.size) : Ledger es s := by
  induction h with
  | nil => exact ledger_empty schema
  | snoc hes hc ih =>
    refine (ih fun i => ?_).step (hc.effect hes.wellFormed) hbound
    have := hbound i
    rw [timesEmptied_append] at this
    omega

end

/-! ### Arguments that would fit -/

/-- A child slot would take the contents, but for the node `h` wherever it is among them. -/
structure AdmitsBut (s : Store) (h : Handle) (slot : ChildSlot) (c : Content) : Prop where
  shape : c.isMany = slot.type.isMany
  nodes : ∀ x ∈ c.nodes, x = h ∨
    ∃ n, s.node? x = some n ∧ s.schema.isSubkind n.kind slot.type.kind = true

/-- A node of the kind could be made of the fillings, but for the node `h` wherever it is among
    them: there is a value for each value slot, and contents for child slots from the first on. -/
def FitsBut (s : Store) (h : Handle) (k : KindId) (args : List Filling) : Prop :=
  ∃ vs cs slots rest, args = vs.map Filling.value ++ cs.map Content.toFilling ∧
    (s.schema.kind k).children = slots ++ rest ∧
    List.Forall₂ (fun slot v => slot.type.accepts v = true) (s.schema.kind k).values vs ∧
    List.Forall₂ (s.AdmitsBut h) slots cs

/-- The child slot at a place of a kind would take the filling, but for the node `h`. -/
def TakesBut (s : Store) (h : Handle) (k : KindId) (entry : Nat × Filling) : Prop :=
  ∃ slot c, (s.schema.kind k).children[entry.1]? = some slot ∧ entry.2 = c.toFilling ∧
    s.AdmitsBut h slot c

section

variable {s s' : Store} {h : Handle}

/-- What is admitted but for a handle is admitted if that handle is not in it. -/
theorem AdmitsBut.admits {slot : ChildSlot} {c : Content} (hc : s.AdmitsBut h slot c)
    (hh : h ∉ c.nodes) : s.Admits slot c := by
  refine ⟨hc.shape, fun x hx => (hc.nodes x hx).resolve_left ?_⟩
  rintro rfl
  exact hh hx

/-- What is admitted stays so while nodes keep their kinds. -/
theorem AdmitsBut.retain (hr : Retains s s') {slot : ChildSlot} {c : Content}
    (hc : s.AdmitsBut h slot c) : s'.AdmitsBut h slot c := by
  refine ⟨hc.shape, fun x hx => (hc.nodes x hx).imp_right ?_⟩
  rintro ⟨n, hn, hsub⟩
  obtain ⟨n', hn', hkind⟩ := hr.nodes x n hn
  exact ⟨n', hn', by rw [hr.schema, hkind]; exact hsub⟩

/-- So it is for entries of a bulk write. -/
theorem TakesBut.retain (hr : Retains s s') {k : KindId} {entry : Nat × Filling}
    (hentry : s.TakesBut h k entry) : s'.TakesBut h k entry := by
  obtain ⟨slot, c, hslot, harg, hadm⟩ := hentry
  exact ⟨slot, c, by rw [hr.schema]; exact hslot, harg, hadm.retain hr⟩

variable (hstale : s.node? h = none)
include hstale

/-- The check of nodes stops at the stale handle if the others are right. -/
theorem checkNodes_of_stale {slot : ChildSlot} {found : String → Found} {hs : List Handle}
    (hhs : ∀ x ∈ hs, x = h ∨
      ∃ n, s.node? x = some n ∧ s.schema.isSubkind n.kind slot.type.kind = true)
    (hh : h ∈ hs) : s.checkNodes slot found hs = .error (.staleNode h) := by
  induction hs with
  | nil => cases hh
  | cons x hs ih =>
    obtain ⟨hx, hrest⟩ := List.forall_mem_cons.mp hhs
    rw [checkNodes]
    rcases hx with rfl | ⟨n, hn, hsub⟩
    · rw [hstale]
    · have hne : h ≠ x := fun heq => by
        rw [← heq, hstale] at hn
        cases hn
      simp only [hn, hsub, if_true]
      exact ih hrest ((List.mem_cons.mp hh).resolve_left hne)

/-- So does the check of a child slot. -/
theorem checkChild_of_stale {slot : ChildSlot} {c : Content} (hc : s.AdmitsBut h slot c)
    (hh : h ∈ c.nodes) : s.checkChild slot c.toFilling = .error (.staleNode h) := by
  -- a content of the wrong shape would be refused for that reason
  have hshape := hc.shape
  unfold checkChild
  cases c with
  | one node =>
    cases ht : slot.type with
    | one k =>
      have hnodes : s.checkNodes slot .node node.toList = .error (.staleNode h) :=
        checkNodes_of_stale hstale hc.nodes hh
      simp only [Content.toFilling, hnodes]
      rfl
    | many k =>
      rw [ht] at hshape
      cases hshape
  | many nodes =>
    cases ht : slot.type with
    | one k =>
      rw [ht] at hshape
      cases hshape
    | many k =>
      have hnodes : s.checkNodes slot .listWith nodes = .error (.staleNode h) :=
        checkNodes_of_stale hstale hc.nodes hh
      simp only [Content.toFilling, hnodes]
      rfl

/-- So does filling the child slots of a new node. -/
theorem fillChildren_of_stale {slots : List ChildSlot} {cs : List Content}
    (hcs : List.Forall₂ (s.AdmitsBut h) slots cs) (hh : h ∈ cs.flatMap Content.nodes)
    (rest : List ChildSlot) :
    s.fillChildren (slots ++ rest) (cs.map Content.toFilling) = .error (.staleNode h) := by
  induction hcs with
  | nil => cases hh
  | @cons slot c slots cs hc _ ih =>
    rw [List.cons_append, List.map_cons, fillChildren]
    by_cases hmem : h ∈ c.nodes
    · rw [checkChild_of_stale hstale hc hmem]
    · rw [List.flatMap_cons, List.mem_append] at hh
      rw [checkChild_eq_ok_iff.mpr ⟨rfl, hc.admits hmem⟩]
      simp only [ih (hh.resolve_left hmem)]

/-- So no node is made over a stale handle. -/
theorem construct_of_stale {k : KindId} {args : List Filling} (hargs : s.FitsBut h k args)
    (hh : h ∈ args.flatMap Filling.nodes) : construct k args s = .error (.staleNode h) s := by
  obtain ⟨vs, cs, slots, rest, rfl, hchildren, hvs, hcs⟩ := hargs
  have hnodes : h ∈ cs.flatMap Content.nodes := by
    rw [List.flatMap_append, List.mem_append] at hh
    refine hh.elim (fun hvalue => ?_) fun hchild => ?_
    · simp [Filling.nodes] at hvalue
    · simpa [List.flatMap_map] using hchild
  -- the count and the values are right, and so the children are looked at
  have hcount : ¬ (s.schema.kind k).slotCount
      < (vs.map Filling.value ++ cs.map Content.toFilling).length := by
    rw [List.length_append, List.length_map, List.length_map, ← hvs.length_eq, ← hcs.length_eq,
      Kind.slotCount, hchildren, List.length_append]
    omega
  have hfill : s.fill k (vs.map Filling.value ++ cs.map Content.toFilling)
      = .error (.staleNode h) := by
    unfold fill
    simp only [hcount, if_false, fillValues_of_forall₂ hvs, hchildren,
      fillChildren_of_stale hstale hcs hnodes rest]
  unfold construct
  rw [hfill]

/-- Nor is a stale handle put into a slot. -/
theorem setChildAt_of_stale {p : Handle} {n : Node} (hn : s.node? p = some n) {i : Nat}
    {slot : ChildSlot} (hslot : (s.schema.kind n.kind).children[i]? = some slot) {c : Content}
    (hc : s.AdmitsBut h slot c) (hh : h ∈ c.nodes) :
    setChildAt p i c.toFilling s = .error (.staleNode h) s := by
  unfold setChildAt
  simp only [kindOf_eq_ok_iff.mpr ⟨n, hn, rfl⟩, hslot, checkChild_of_stale hstale hc hh]

end

/-- A child slot takes what fits it. -/
theorem exists_setChildAt {s : Store} {p : Handle} {n : Node} (hn : s.node? p = some n) {i : Nat}
    {slot : ChildSlot} (hslot : (s.schema.kind n.kind).children[i]? = some slot) {c : Content}
    (hc : s.Admits slot c) : ∃ s', setChildAt p i c.toFilling s = .ok () s' := by
  unfold setChildAt
  simp only [kindOf_eq_ok_iff.mpr ⟨n, hn, rfl⟩, hslot, checkChild_eq_ok_iff.mpr ⟨rfl, hc⟩]
  exact ⟨_, rfl⟩

/-- Writing entries one after the other stops at the first that has the stale node. -/
theorem writeAll_of_stale {h p : Handle} {k : KindId} {entries : List (Nat × Filling)} {s : Store}
    (hstale : s.isAlive h = false) (hp : ∃ n, s.node? p = some n ∧ n.kind = k)
    (hentries : ∀ entry ∈ entries, s.TakesBut h k entry)
    (hh : ∃ entry ∈ entries, h ∈ entry.2.nodes) :
    ∃ s', writeAll (setChildAt p) entries s = .error (.staleNode h) s' := by
  induction entries generalizing s with
  | nil =>
    obtain ⟨entry, hmem, -⟩ := hh
    cases hmem
  | cons entry entries ih =>
    obtain ⟨n, hn, rfl⟩ := hp
    obtain ⟨hentry, hrest⟩ := List.forall_mem_cons.mp hentries
    obtain ⟨i, arg⟩ := entry
    obtain ⟨slot, c, hslot, rfl, hc⟩ := hentry
    rw [writeAll]
    -- the first entry with the stale handle is refused, and those before it are written
    by_cases hmem : h ∈ c.nodes
    · exact ⟨s, by rw [setChildAt_of_stale (node?_eq_none_iff.mpr hstale) hn hslot hc hmem]⟩
    · obtain ⟨s₁, hw⟩ := exists_setChildAt hn hslot (hc.admits hmem)
      have hr := retains_setChildAt hw
      rw [hw]
      -- writing brings no handle back to life
      have hstale₁ : s₁.isAlive h = false := by
        rw [(effect_setChildAt hn hslot hw).isAlive_assign, hstale]
      refine ih hstale₁ (hr.nodes p n hn) (fun entry he => (hrest entry he).retain hr) ?_
      obtain ⟨entry, hin, hnodes⟩ := hh
      refine ⟨entry, (List.mem_cons.mp hin).resolve_left ?_, hnodes⟩
      rintro rfl
      exact hmem (by simpa using hnodes)

/-! ### What a stale handle is refused for -/

/-- The handle `h` is refused wherever it is used: it is not alive, and every operation on it, and
    every other use of it that would be right with a live node, fails and names it.  All but one
    leave the store as it was: when several slots are written, those before the refused one
    are. -/
structure Refuses (s : Store) (h : Handle) : Prop where
  isAlive : s.isAlive h = false
  kindOf : s.kindOf h = .error (.staleNode h)
  slot : ∀ name, s.slot h name = .error (.staleNode h)
  value : ∀ name, s.value h name = .error (.staleNode h)
  child : ∀ name, s.child h name = .error (.staleNode h)
  childList : ∀ name, s.childList h name = .error (.staleNode h)
  children : s.children h = .error (.staleNode h)
  parent : s.parent h = .error (.staleNode h)
  root : s.root h = .error (.staleNode h)
  set : ∀ name arg, Store.set h name arg s = .error (.staleNode h) s
  setValues : ∀ bulk, Store.setValues h bulk s = .error (.staleNode h) s
  setChildren : ∀ bulk, Store.setChildren h bulk s = .error (.staleNode h) s
  notes : s.notes h = .error (.staleNode h)
  note : ∀ key, s.note h key = .error (.staleNode h)
  hasNote : ∀ key, s.hasNote h key = .error (.staleNode h)
  setNote : ∀ key v, Store.setNote h key v s = .error (.staleNode h) s
  deleteNote : ∀ key recursive, Store.deleteNote h key recursive s = .error (.staleNode h) s
  sweep : ∀ roots, h ∈ roots → (∀ r ∈ roots, r = h ∨ s.isAlive r = true) →
    Store.sweep roots s = .error (.staleNode h) s
  encode : s.encode h = .error (.rejected (.staleNode h))
  snapshot : s.snapshot h = .error (.staleNode h)
  revise : ∀ {τ : Type} (mode : Revision.Mode)
    (callback : Handle → Revision.Action τ (Option Handle)) (t : τ),
    Store.revise mode callback h (s, t) = .error (.staleNode h) (s, t)
  argument : ∀ k args, s.FitsBut h k args → h ∈ args.flatMap Filling.nodes →
    Store.construct k args s = .error (.staleNode h) s
  argumentNamed : ∀ name k args, s.schema.kindByName? name = some k → s.FitsBut h k args →
    h ∈ args.flatMap Filling.nodes → Store.constructNamed name args s = .error (.staleNode h) s
  content : ∀ p n name i arg, s.node? p = some n →
    (s.schema.kind n.kind).valueIndex? name = none →
    (s.schema.kind n.kind).childIndex? name = some i → s.TakesBut h n.kind (i, arg) →
    h ∈ arg.nodes → Store.set p name arg s = .error (.staleNode h) s
  contents : ∀ p n bulk entries, s.node? p = some n →
    bulk.order (s.schema.kind n.kind).name ((s.schema.kind n.kind).children.map ChildSlot.name)
      .child = .ok entries →
    (∀ entry ∈ entries, s.TakesBut h n.kind entry) → (∃ entry ∈ entries, h ∈ entry.2.nodes) →
    ∃ s', Store.setChildren p bulk s = .error (.staleNode h) s'

/-- The check of roots stops at the stale handle if the others are alive. -/
theorem checkAlive_of_stale {s : Store} {h : Handle} (hstale : s.isAlive h = false)
    {roots : List Handle} (hh : h ∈ roots) (hroots : ∀ r ∈ roots, r = h ∨ s.isAlive r = true) :
    s.checkAlive roots = .error (.staleNode h) := by
  cases hcheck : s.checkAlive roots with
  | ok u =>
    rw [checkAlive_eq_ok_iff.mp hcheck h hh] at hstale
    cases hstale
  | error e =>
    obtain ⟨r, hr, hdead, rfl⟩ := checkAlive_eq_error hcheck
    rcases hroots r hr with rfl | halive
    · rfl
    · rw [hdead] at halive
      cases halive

/-- A stale handle is refused everywhere. -/
theorem refuses_of_stale {s : Store} {h : Handle} (hstale : s.isAlive h = false) :
    s.Refuses h := by
  have hnode : s.node? h = none := node?_eq_none_iff.mpr hstale
  -- all readers and writers look the node up first
  have hget : s.get h = .error (.staleNode h) := by rw [get, hnode]
  have hkind : s.kindOf h = .error (.staleNode h) := by rw [kindOf, hget]; rfl
  have hslot : ∀ name, s.slot h name = .error (.staleNode h) := fun name => by rw [slot, hget]
  have hparent : s.parent h = .error (.staleNode h) := by rw [parent, hget]; rfl
  have hnotes : s.notes h = .error (.staleNode h) := by rw [notes, hget]; rfl
  exact {
    isAlive := hstale
    kindOf := hkind
    slot := hslot
    value := fun name => by rw [value, hslot]
    child := fun name => by rw [child, hslot]
    childList := fun name => by rw [childList, hslot]
    children := by rw [children, hget]; rfl
    parent := hparent
    root := by rw [root, climb, hparent]
    set := fun name arg => by rw [Store.set, hkind]
    setValues := fun bulk => by rw [Store.setValues, hkind]
    setChildren := fun bulk => by rw [Store.setChildren, hkind]
    notes := hnotes
    note := fun key => by rw [note, hnotes]; rfl
    hasNote := fun key => by rw [hasNote, hnotes]; rfl
    setNote := fun key v => by rw [Store.setNote, hget]
    deleteNote := fun key recursive => by rw [Store.deleteNote, hget]
    sweep := fun roots hh hroots => by
      rw [Store.sweep, checkAlive_of_stale hstale hh hroots]
    encode := by
      rw [encode, Wire.writePieces]
      split
      · rfl
      · next n hn =>
        rw [hnode] at hn
        cases hn
    snapshot := by
      rw [snapshot, Snapshot.maxDepth, capture, hget]
    revise := fun mode callback t => by
      rw [Store.revise, Revision.outcome?, Revision.Frame.enter]
      simp only [hget, Option.getD_some]
    argument := fun k args => construct_of_stale hnode
    argumentNamed := fun name k args hk hargs hh => by
      rw [Store.constructNamed, hk]
      exact construct_of_stale hnode hargs hh
    content := fun p n name i arg hn hvalue hchild htakes hh => by
      obtain ⟨slot, c, hslot, rfl, hc⟩ := htakes
      rw [Store.set, kindOf_eq_ok_iff.mpr ⟨n, hn, rfl⟩]
      simp only [hvalue, hchild]
      exact setChildAt_of_stale hnode hn hslot hc (by simpa using hh)
    contents := fun p n bulk entries hn horder hentries hh => by
      rw [Store.setChildren, kindOf_eq_ok_iff.mpr ⟨n, hn, rfl⟩]
      simp only [horder]
      exact writeAll_of_stale hstale ⟨n, hn, rfl⟩ hentries hh }

/-- **Stale for ever.**  In every session that empties no place `2 ^ 32` times, no two of the nodes
    that were made have the same handle, and a handle whose node was reclaimed at any time is
    refused now.  A node that an operation returns next is one that the operation is recorded to
    make, and its handle is none of those that were there before. -/
theorem stale_for_ever {schema : Schema} {es : List Event} {s : Store}
    (h : Session schema (Store.empty schema) es s)
    (hbound : ∀ i, timesEmptied es i < UInt32.size) :
    (es.flatMap Event.made).Nodup ∧ (∀ x ∈ es.flatMap Event.reclaimed, s.Refuses x) ∧
      ∀ {ε α : Type} {x : EStateM ε Store α} {returned : α → List Handle} {record : Record Store},
        Recorded schema x returned record → ∀ a s', x s = .ok a s' → ∀ r ∈ returned a,
          r ∈ (record s).flatMap Event.made ∧ r ∉ es.flatMap Event.made := by
  have hes := h.chronicle rfl
  have hledger := hes.ledger hbound
  refine ⟨hledger.nodup, fun x hx => refuses_of_stale (hledger.isAlive_eq_false hx), ?_⟩
  intro ε α x returned record hx a s' ha r hr
  have hmade := hx.mem_made ha r hr
  -- the session that goes on with the operation empties no place more often
  have hnext := (hes.trans (hx.chronicle hes.schema)).ledger fun i => by
    rw [timesEmptied_append, timesEmptied, timesEmptied, hx.reclaimed_eq_nil hr s]
    exact hbound i
  have hnodup := hnext.nodup
  rw [List.flatMap_append] at hnodup
  exact ⟨hmade, fun hold => List.disjoint_of_nodup_append hnodup hold hmade⟩

end Store

/-! ### A place that is used again -/

namespace Sample

/-- An item. -/
def former : Store := after (Store.construct ⟨0⟩ [.value (.str "old")]) (Store.empty schema)

/-- It is reclaimed. -/
def vacated : Store := after (Store.sweep []) former

/-- Another item, as a snapshot. -/
def successor : Snapshot := .mk "item" [("label", .str "new")] [] Notes.empty

/-- The other item gets the place of the first. -/
def reused : Store := after (Store.restore successor) vacated

/-- What happened to the two items. -/
def succession : List Event := [.make ⟨0, 0⟩ [], .reclaim [⟨0, 0⟩], .make ⟨0, 1⟩ []]

/-- A node is made and reclaimed. -/
theorem session_vacated : Session schema (Store.empty schema) (succession.take 2) vacated := by
  have hkind : (⟨0⟩ : KindId).index < schema.size := by decide +kernel
  have hformer : Record.construct ⟨0⟩ [.value (.str "old")] (Store.empty schema)
      = [.make ⟨0, 0⟩ []] := by decide +kernel
  have hvacated : Record.sweep [] former = [.reclaim [⟨0, 0⟩]] := by cbv
  have hmake := Session.operation (.construct hkind [.value (.str "old")]) (Store.empty schema)
  have hsweep : Session schema former _ vacated := .operation (.sweep []) former
  rw [hformer] at hmake
  rw [hvacated] at hsweep
  exact hmake.trans hsweep

/-- Then its place is taken by another one, under the next generation. -/
theorem session_reused : Session schema (Store.empty schema) succession reused := by
  have hreused : Record.restore successor vacated = [.make ⟨0, 1⟩ []] := by cbv
  have hrestore : Session schema vacated _ reused := .operation (.restore successor) vacated
  rw [hreused] at hrestore
  exact session_vacated.trans hrestore

theorem timesEmptied_le_one {es : List Event} (h : (es.flatMap Event.reclaimed).length ≤ 1)
    (i : Nat) : timesEmptied es i < UInt32.size := by
  have hcount : timesEmptied es i ≤ _ := List.count_le_length
  rw [List.length_map] at hcount
  have hsize : UInt32.size = 4294967296 := rfl
  omega

/-- The handle of the former item is not given out again and stays refused, although its place has
    a node again, which was restored there. -/
theorem refuses_former :
    Session schema (Store.empty schema) succession reused ∧
      (∀ i, timesEmptied succession i < UInt32.size) ∧
      Store.restore successor vacated = .ok ⟨0, 1⟩ reused ∧
      ⟨0, 1⟩ ∉ (succession.take 2).flatMap Event.made ∧
      reused.isAlive ⟨0, 1⟩ = true ∧ (succession.flatMap Event.made).Nodup ∧
      reused.Refuses ⟨0, 0⟩ := by
  have hbound : ∀ i, timesEmptied succession i < UInt32.size := timesEmptied_le_one (by decide)
  have hrestore : Store.restore successor vacated = .ok ⟨0, 1⟩ reused := by cbv
  obtain ⟨-, -, hreturned⟩ :=
    Store.stale_for_ever session_vacated (timesEmptied_le_one (by decide))
  obtain ⟨hnodup, hrefuses, -⟩ := Store.stale_for_ever session_reused hbound
  exact ⟨session_reused, hbound, hrestore,
    (hreturned (.restore successor) _ _ hrestore _ (List.mem_singleton_self _)).2, by cbv, hnodup,
    hrefuses ⟨0, 0⟩ (by decide)⟩

end Sample

end TypedForest
