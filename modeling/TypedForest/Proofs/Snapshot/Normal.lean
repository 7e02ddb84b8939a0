import TypedForest.Proofs.Snapshot.RoundTrip
import TypedForest.Proofs.Store.Adding

namespace TypedForest

/-!
# The normal form of a snapshot

A snapshot can come from a text: its slots stand in any order, are missing or repeated.  Restoring
it gives a tree of which a snapshot can be taken, and that one names all slots in the order of
their declaration, each once.  It is the normal form of the first (`Snapshot.normalize`).

* `Store.capture_rebuild` : a tree that was restored has the normal form as its snapshot;
* `Store.restore_normalizes` : so the normal form says which trees restoring gives.

Restoring goes through the entries and keeps one filling for each slot.  What each filling stands
for is told by a function of the slots (`Store.holds_placeChildren`), which changes at one name
with every entry and in the end looks for the last entry of the name.
-/

namespace Snapshot

/-- What the last entry of a name holds. -/
def lastOf? {α : Type} (name : String) (entries : List (String × α)) : Option α :=
  entries.reverse.lookup name

/-- A list slot that is said to hold no node has the empty list. -/
def Child.settle (slot : ChildSlot) : Child → Child
  | .absent => if slot.type.isMany then .list [] else .absent
  | child => child

mutual

/-- The normal form: one entry for each slot of the kind in the order of declaration, which holds
    what the last entry of its name holds, in normal form.  Without such an entry a value slot
    is null and a child slot vacant. -/
def normalize (schema : Schema) : Snapshot → Snapshot
  | .mk name values children notes =>
    let kind := (schema.kindByName? name).elim default schema.kind
    let children := normalizeEntries schema children
    .mk name (kind.values.map fun slot => (slot.name, (lastOf? slot.name values).getD .null))
      (kind.children.map fun slot =>
        (slot.name, ((lastOf? slot.name children).getD .absent).settle slot))
      notes

/-- The normal forms of named slots. -/
def normalizeEntries (schema : Schema) : List (String × Child) → List (String × Child)
  | [] => []
  | (name, child) :: rest => (name, normalizeChild schema child) :: normalizeEntries schema rest

/-- The normal form of what a slot holds. -/
def normalizeChild (schema : Schema) : Child → Child
  | .absent => .absent
  | .node t => .node (normalize schema t)
  | .list ts => .list (normalizeAll schema ts)

/-- The normal forms of several snapshots. -/
def normalizeAll (schema : Schema) : List Snapshot → List Snapshot
  | [] => []
  | t :: ts => normalize schema t :: normalizeAll schema ts

end

/-- The last entry of a name is among the later ones, or else it is the first. -/
theorem lastOf?_cons {α : Type} (name key : String) (a : α) (rest : List (String × α)) :
    lastOf? name ((key, a) :: rest)
      = (lastOf? name rest).or (if name = key then some a else none) := by
  rw [lastOf?, List.reverse_cons, List.lookup_append, lastOf?]
  by_cases h : name = key
  · simp [h]
  · have hbeq : (name == key) = false := by simpa using h
    simp [List.lookup_cons, h, hbeq]

end Snapshot

/-! ### Rows of slots -/

/-- Replacing in a row what belongs to the slot of a name. -/
theorem set_map_of_findIdx? {α β : Type} {key : α → String} {slots : List α}
    (hnodup : (slots.map key).Nodup) {name : String} {i : Nat}
    (hi : slots.findIdx? (key · == name) = some i) (g : α → β) (b : β) :
    (slots.map g).set i b = slots.map fun slot => if key slot = name then b else g slot := by
  apply List.ext_getElem?
  intro j
  rw [List.getElem?_set, List.getElem?_map, List.getElem?_map, List.length_map]
  by_cases hij : i = j
  · obtain ⟨hlt, hname, -⟩ := List.findIdx?_eq_some_iff_getElem.mp hi
    rw [if_pos hij, ← hij, if_pos hlt, List.getElem?_eq_getElem hlt, Option.map_some,
      if_pos (beq_iff_eq.mp hname)]
  · rw [if_neg hij]
    cases hj : slots[j]? with
    | none => rfl
    | some slot =>
      -- the name is that of one slot only
      have hne : key slot ≠ name := by
        rintro rfl
        rw [findIdx?_key_eq hnodup hj, Option.some.injEq] at hi
        exact hij hi.symm
      rw [Option.map_some, Option.map_some, if_neg hne]

/-- Lists that go together do so after a change in the same place. -/
theorem forall₂_set_set {α β : Type} {R : α → β → Prop} {as : List α} {bs : List β}
    (h : List.Forall₂ R as bs) (i : Nat) {a : α} {b : β} (hab : R a b) :
    List.Forall₂ R (as.set i a) (bs.set i b) := by
  induction h generalizing i with
  | nil => exact .nil
  | cons hhead htail ih =>
    cases i with
    | zero => exact .cons hab htail
    | succ i => exact .cons hhead (ih i)

theorem map_zip_map {α β γ : Type} (slots : List α) (g : α → β) (f : α × β → γ) :
    (slots.zip (slots.map g)).map f = slots.map fun slot => f (slot, g slot) := by
  induction slots with
  | nil => rfl
  | cons slot slots ih => rw [List.map_cons, List.zip_cons_cons, List.map_cons, ih, List.map_cons]

namespace Store

/-! ### Values -/

/-- In the end each value slot is given what the last entry of its name says. -/
theorem fillings_placeValues {kind : Kind} (hnodup : (kind.values.map ValueSlot.name).Nodup)
    {entries : List (String × Value)} {fs : List Filling} {g : ValueSlot → Filling}
    (h : placeValues kind entries (kind.values.map g) = .ok fs) :
    fs = kind.values.map fun slot =>
      ((Snapshot.lastOf? slot.name entries).map .value).getD (g slot) := by
  induction entries generalizing g with
  | nil =>
    cases h
    rfl
  | cons entry rest ih =>
    obtain ⟨name, v⟩ := entry
    rw [placeValues] at h
    split at h
    · cases h
    · next i hi =>
      rw [set_map_of_findIdx? hnodup hi] at h
      rw [ih h]
      refine List.map_congr_left fun slot _ => ?_
      -- a later entry of the name counts, and else this one
      rw [Snapshot.lastOf?_cons]
      cases Snapshot.lastOf? slot.name rest with
      | some w => rfl
      | none => by_cases hname : slot.name = name <;> simp [hname]

/-- Where nothing is said of a value slot it is null. -/
theorem fillings_placeValues_null {kind : Kind} (hnodup : (kind.values.map ValueSlot.name).Nodup)
    {entries : List (String × Value)} {fs : List Filling}
    (h : placeValues kind entries (List.replicate kind.values.length (.value .null)) = .ok fs) :
    fs = kind.values.map fun slot =>
      .value ((Snapshot.lastOf? slot.name entries).getD .null) := by
  rw [← List.map_const'] at h
  rw [fillings_placeValues hnodup h]
  exact List.map_congr_left fun slot _ => Option.getD_map _ _ _

/-- Values take no place in the store. -/
theorem placeValues_ne_storeFull {kind : Kind} {entries : List (String × Value)}
    {fs : List Filling} : placeValues kind entries fs ≠ .error .storeFull := by
  induction entries generalizing fs with
  | nil => simp [placeValues]
  | cons entry rest ih =>
    obtain ⟨name, v⟩ := entry
    rw [placeValues]
    cases kind.valueIndex? name with
    | none => simp
    | some i => exact ih

/-! ### Children -/

/-- A filling, and what a snapshot says of a slot that is given it. -/
def Holds (s : Store) (n : Nat) (f : Filling) (d : Snapshot.Child) : Prop :=
  ∃ c : Content, f = c.toFilling ∧ c.Shows (fun h t => s.capture n h = .ok t) d

/-- A filling that holds something still holds it when it is settled for its slot. -/
theorem Holds.settle {s : Store} {n : Nat} {f : Filling} {d : Snapshot.Child} (h : s.Holds n f d)
    (slot : ChildSlot) : s.Holds n (settle slot f) (d.settle slot) := by
  obtain ⟨c, rfl, hc⟩ := h
  cases hc with
  | absent =>
    unfold Store.settle Snapshot.Child.settle
    by_cases hmany : slot.type.isMany = true
    · simp only [hmany, true_and]
      exact ⟨.many [], rfl, .list .nil⟩
    · simp only [hmany]
      exact ⟨.one none, rfl, .absent⟩
  | node ht => exact ⟨.one (some _), by simp [Store.settle, Content.toFilling], .node ht⟩
  | list hts => exact ⟨.many _, by simp [Store.settle, Content.toFilling], .list hts⟩

/-- So it is for all slots of a node. -/
theorem forall₂_holds_settle {s : Store} {n : Nat} {slots : List ChildSlot} {fs : List Filling}
    {g : ChildSlot → Snapshot.Child} (h : List.Forall₂ (s.Holds n) fs (slots.map g)) :
    List.Forall₂ (s.Holds n) (List.zipWith settle slots fs)
      (slots.map fun slot => (g slot).settle slot) := by
  induction slots generalizing fs with
  | nil =>
    cases h
    exact .nil
  | cons slot slots ih =>
    obtain ⟨f, fs, hf, hfs, rfl⟩ := List.forall₂_cons_right_iff.mp h
    exact .cons (hf.settle slot) (ih hfs)

/-- Slots that were not filled yet hold nothing. -/
theorem forall₂_holds_vacant (s : Store) (n : Nat) (slots : List ChildSlot) :
    List.Forall₂ (s.Holds n) (List.replicate slots.length (.one none))
      (slots.map fun _ => Snapshot.Child.absent) := by
  rw [← List.map_const', List.forall₂_map_left_iff, List.forall₂_map_right_iff]
  exact List.forall₂_same.mpr fun _ _ => ⟨.one none, rfl, .absent⟩

section

variable {s s' : Store} (hs : s.WellFormed) (hs' : s'.WellFormed) (hlawful : s.schema.Lawful)
  (hp : Preserves s s')
include hs hs' hlawful hp

/-- What a snapshot says of a node does not change when other nodes come. -/
theorem Preserves.capture {n : Nat} {h : Handle} {t : Snapshot} (ht : s.capture n h = .ok t) :
    s'.capture n h = .ok t := by
  obtain ⟨u, hu, -⟩ := heightLe_of_capture hs ht
  exact Alike.capture hs hs' hlawful hp.schema ⟨u, hu, hu.mono hp⟩ ht

/-- What a content shows it shows in a store that keeps all nodes. -/
theorem Preserves.shows {n : Nat} {c : Content} {d : Snapshot.Child}
    (hc : c.Shows (fun h t => s.capture n h = .ok t) d) :
    c.Shows (fun h t => s'.capture n h = .ok t) d := by
  cases hc with
  | absent => exact .absent
  | node ht => exact .node (hp.capture hs hs' hlawful ht)
  | list hts => exact .list (hts.imp fun _ _ ht => hp.capture hs hs' hlawful ht)

/-- So it is for what a filling holds. -/
theorem Preserves.holds {n : Nat} {f : Filling} {d : Snapshot.Child} (hf : s.Holds n f d) :
    s'.Holds n f d := by
  obtain ⟨c, hcf, hc⟩ := hf
  exact ⟨c, hcf, hp.shows hs hs' hlawful hc⟩

end

/-- An operation that succeeds and has only added nodes. -/
theorem Carries.of_ok {α : Type} {s s' : Store} {x : Edit α} {nodes : α → List Handle}
    (hx : Carries id s [] x nodes) (hs : s.WellFormed) {a : α} (h : x s = .ok a s') :
    s'.WellFormed ∧ Preserves s s' := by
  have hgrown := hx s (.start hs)
  rw [h] at hgrown
  obtain ⟨hwf, roots, hsprouts, -⟩ := hgrown
  exact ⟨hwf, hsprouts.preserves⟩

/-- Restoring what stands in the slots of a node only adds nodes. -/
theorem preserves_of_placeChildren {s s' : Store} (hs : s.WellFormed) {n : Nat} {kind : Kind}
    {entries : List (String × Snapshot.Child)} {fs : List Filling}
    (h : placeChildren (rebuild n) kind entries
      (List.replicate kind.children.length (.one none)) s = .ok fs s') :
    s'.WellFormed ∧ Preserves s s' := by
  have hcarries := carries_placeChildren (carries_rebuild s n) kind entries
    (List.replicate kind.children.length (.one none)) []
  rw [flatMap_nodes_replicate _ rfl] at hcarries
  exact hcarries.of_ok hs h

section

variable {schema : Schema} (hlawful : schema.Lawful) {n : Nat}
  (hrebuild : ∀ (t : Snapshot) (s : Store) (r : Handle) (s' : Store), s.WellFormed →
    s.schema = schema → rebuild n t s = .ok r s' → s'.capture n r = .ok (t.normalize schema))
include hlawful hrebuild

/-- Snapshots that are restored one after the other are captured again in their normal form. -/
theorem capture_restoreAll {ts : List Snapshot} {s s' : Store} {hs : List Handle}
    (hwf : s.WellFormed) (hschema : s.schema = schema)
    (h : restoreAll (rebuild n) ts s = .ok hs s') :
    List.Forall₂ (fun h t => s'.capture n h = .ok t) hs (Snapshot.normalizeAll schema ts) := by
  induction ts generalizing s hs with
  | nil =>
    cases h
    exact .nil
  | cons t ts ih =>
    rw [restoreAll_cons] at h
    obtain ⟨x, s₁, hx, hrest⟩ := bind_eq_ok_iff.mp h
    obtain ⟨xs, s₂, hxs, hpure⟩ := bind_eq_ok_iff.mp hrest
    cases hpure
    obtain ⟨hwf₁, hp₁⟩ := (carries_rebuild s n t []).of_ok hwf hx
    obtain ⟨hwf₂, hp₂⟩ := (carries_restoreAll (carries_rebuild s₁ n) ts []).of_ok hwf₁ hxs
    have hschema₁ : s₁.schema = schema := hp₁.schema.trans hschema
    refine .cons ?_ (ih hwf₁ hschema₁ hxs)
    exact hp₂.capture hwf₁ hwf₂ (hschema₁ ▸ hlawful) (hrebuild t s x s₁ hwf hschema hx)

/-- So is the content of a slot. -/
theorem holds_restoreChild {c : Snapshot.Child} {s s' : Store} {f : Filling} (hwf : s.WellFormed)
    (hschema : s.schema = schema) (h : restoreChild (rebuild n) c s = .ok f s') :
    s'.Holds n f (Snapshot.normalizeChild schema c) := by
  cases c with
  | absent =>
    cases h
    exact ⟨.one none, rfl, .absent⟩
  | node t =>
    rw [restoreChild_node] at h
    obtain ⟨x, s₁, hx, hpure⟩ := bind_eq_ok_iff.mp h
    cases hpure
    exact ⟨.one (some x), rfl, .node (hrebuild t s x s' hwf hschema hx)⟩
  | list ts =>
    rw [restoreChild_list] at h
    obtain ⟨xs, s₁, hxs, hpure⟩ := bind_eq_ok_iff.mp h
    cases hpure
    exact ⟨.many xs, rfl, .list (capture_restoreAll hlawful hrebuild hwf hschema hxs)⟩

/-- In the end each child slot is given what the last entry of its name says. -/
theorem holds_placeChildren {k : KindId} {entries : List (String × Snapshot.Child)} {s s' : Store}
    {fs fs' : List Filling} {g : ChildSlot → Snapshot.Child} (hwf : s.WellFormed)
    (hschema : s.schema = schema)
    (hfs : List.Forall₂ (s.Holds n) fs ((schema.kind k).children.map g))
    (h : placeChildren (rebuild n) (schema.kind k) entries fs s = .ok fs' s') :
    List.Forall₂ (s'.Holds n) fs' ((schema.kind k).children.map fun slot =>
      (Snapshot.lastOf? slot.name (Snapshot.normalizeEntries schema entries)).getD (g slot)) := by
  induction entries generalizing s fs g with
  | nil =>
    cases h
    exact hfs
  | cons entry rest ih =>
    obtain ⟨name, c⟩ := entry
    cases hi : (schema.kind k).childIndex? name with
    | none =>
      rw [placeChildren, hi] at h
      cases h
    | some i =>
      rw [placeChildren_cons _ hi] at h
      obtain ⟨f, s₁, hf, hrest⟩ := bind_eq_ok_iff.mp h
      obtain ⟨hwf₁, hp₁⟩ := (carries_restoreChild (carries_rebuild s n) c []).of_ok hwf hf
      have hschema₁ : s₁.schema = schema := hp₁.schema.trans hschema
      -- the other fillings are what they were, and this one is put into its slot
      have hkept : List.Forall₂ (s₁.Holds n) fs ((schema.kind k).children.map g) :=
        hfs.imp fun _ _ hd => hp₁.holds hwf hwf₁ (hschema ▸ hlawful) hd
      have hnew := holds_restoreChild hlawful hrebuild hwf hschema hf
      have hset := forall₂_set_set hkept i hnew
      rw [set_map_of_findIdx? (List.nodup_append.mp (hlawful.slots k)).2.1 hi] at hset
      have hall := ih hwf₁ hschema₁ hset hrest
      refine (List.map_congr_left fun slot _ => ?_) ▸ hall
      rw [Snapshot.normalizeEntries, Snapshot.lastOf?_cons]
      cases Snapshot.lastOf? slot.name (Snapshot.normalizeEntries schema rest) with
      | some d => rfl
      | none => by_cases hname : slot.name = name <;> simp [hname]

end

/-! ### Whole snapshots -/

/-- A new node over nodes that have snapshots has one that is put together from them. -/
theorem capture_constructAnnotated {s s' : Store} (hwf : s.WellFormed) (hwf' : s'.WellFormed)
    (hlawful : s.schema.Lawful) {n : Nat} {k : KindId} {vs : List Value} {fs : List Filling}
    {ds : List Snapshot.Child} {notes : Notes} {r : Handle}
    (hvs : (s.schema.kind k).values.length = vs.length)
    (hds : (s.schema.kind k).children.length = ds.length) (hfs : List.Forall₂ (s.Holds n) fs ds)
    (hmake : constructAnnotated k (vs.map .value ++ fs) notes.entries s = .ok r s') :
    s'.capture (n + 1) r = .ok (.mk (s.schema.kindName k)
      (((s.schema.kind k).values.zip vs).map fun (slot, v) => (slot.name, v))
      (((s.schema.kind k).children.zip ds).map fun (slot, d) => (slot.name, d)) notes) := by
  obtain ⟨m, hfill, hp, -, hview⟩ := exists_of_constructAnnotated hwf.booked.freePlaces hmake
  rw [Notes.ofList_entries] at hview
  obtain ⟨rfl, hargs⟩ := fill_eq_ok_of_length hvs (hds.trans hfs.length_eq.symm) hfill
  obtain ⟨rfl, -⟩ := fill_eq_ok hfill
  have hshows : List.Forall₂ (Content.Shows fun h t => s'.capture n h = .ok t) m.children ds := by
    rw [hargs, List.forall₂_map_left_iff] at hfs
    refine hfs.imp ?_
    rintro c d ⟨c', hcc', hc'⟩
    rw [Content.toFilling_injective hcc']
    exact hp.shows hwf hwf' hlawful hc'
  refine (capture_succ_eq_ok_iff hwf').mpr
    ⟨{ m with notes := notes }, ds, hview, hshows, ?_⟩
  rw [hp.schema]

/-- A tree that was restored has the normal form of the snapshot as its own. -/
theorem capture_rebuild {schema : Schema} (hlawful : schema.Lawful) {n : Nat} {t : Snapshot}
    {s s' : Store} {r : Handle} (hwf : s.WellFormed) (hschema : s.schema = schema)
    (h : rebuild n t s = .ok r s') : s'.capture n r = .ok (t.normalize schema) := by
  induction n generalizing t s s' r with
  | zero => cases h
  | succ n ih =>
    obtain ⟨hwf', -⟩ := (carries_rebuild s (n + 1) t []).of_ok hwf h
    obtain ⟨name, values, children, notes⟩ := t
    obtain ⟨k, vs, cs, s₁, hk, hvs, hcs, hmake⟩ := rebuild_succ_eq_ok h
    obtain ⟨hwf₁, hp₁⟩ := preserves_of_placeChildren hwf hcs
    subst hschema
    have hvacant := forall₂_holds_vacant s n (s.schema.kind k).children
    -- the children are captured in their normal form, by the hypothesis
    have hchildren := forall₂_holds_settle
      (holds_placeChildren hlawful (fun t s r s' => ih) hwf rfl hvacant hcs)
    -- of the values of a name the last one counts
    have hvalues : vs = ((s.schema.kind k).values.map fun slot =>
        (Snapshot.lastOf? slot.name values).getD .null).map .value := by
      rw [fillings_placeValues_null (List.nodup_append.mp (hlawful.slots k)).1 hvs, List.map_map]
      rfl
    rw [hvalues] at hmake
    have hmade := capture_constructAnnotated hwf₁ hwf' (hp₁.schema.symm ▸ hlawful)
      (by rw [hp₁.schema, List.length_map]) (by rw [hp₁.schema, List.length_map]) hchildren hmake
    rw [hp₁.schema, map_zip_map, map_zip_map, (Schema.kindByName?_eq_some hk).2] at hmade
    rw [hmade, Snapshot.normalize, hk]
    rfl

/-- **Restoring normalises a snapshot.**  When a snapshot can be restored, the new tree has its
    normal form as its snapshot.  So any two snapshots with the same normal form that can be
    restored, in one store or in two over the same schema, give trees that are equal and have the
    same notes.  When the second is restored after the first in the same store, the comparison
    is made there. -/
theorem restore_normalizes {schema : Schema} (hbuilt : schema.Built) {s : Store}
    (hs : Reachable schema s) {snap : Snapshot} {r : Handle} {s' : Store}
    (hr : restore snap s = .ok r s') :
    s'.snapshot r = .ok (snap.normalize schema) ∧
      ∀ u, Reachable schema u → ∀ other q u', restore other u = .ok q u' →
        other.normalize schema = snap.normalize schema →
        ∀ a, a = s' ∨ u = s' ∧ a = u' →
          (∀ how, equalTrees how a r u' q = some true) ∧
            ∀ limit, List.Forall₂ (SameNotes a u') (a.traverse .pre r limit)
              (u'.traverse .pre q limit) := by
  have hlawful := hbuilt.lawful
  have hsnap := capture_rebuild hlawful hs.wellFormed_store hs.schema_eq hr
  refine ⟨hsnap, fun u hu other q u' hq hsame a ha => ?_⟩
  obtain ⟨hwf, hp⟩ := (carries_rebuild s _ snap []).of_ok hs.wellFormed_store hr
  obtain ⟨hwf', hp'⟩ := (carries_rebuild u _ other []).of_ok hu.wellFormed_store hq
  have hschema : s'.schema = schema := hp.schema.trans hs.schema_eq
  have hschema' : u'.schema = schema := hp'.schema.trans hu.schema_eq
  have hother := capture_rebuild hlawful hu.wellFormed_store hu.schema_eq hq
  rw [hsame] at hother
  rcases ha with rfl | ⟨rfl, rfl⟩
  · have hlawful' : a.schema.Lawful := hschema.symm ▸ hlawful
    have hab := hschema'.trans hschema.symm
    exact (alike_of_capture hwf hwf' hlawful' hab hsnap hother).same hwf hwf' hlawful' hab
  · -- the first tree is still there when the second has come
    have hlawful' : a.schema.Lawful := hschema'.symm ▸ hlawful
    have hkept := hp'.capture hwf hwf' (hschema.symm ▸ hlawful) hsnap
    exact (alike_of_capture hwf' hwf' hlawful' rfl hkept hother).same hwf' hwf' hlawful' rfl

end Store

/-! ### Slots in disorder -/

namespace Sample

/-- An item of which nothing is said. -/
def bare : Snapshot := .mk "item" [] [] Notes.empty

/-- A group that is labelled twice, with parts that are taken back, and with a next item. -/
def untidy : Snapshot :=
  .mk "group" [("label", .null), ("label", .str "all")]
    [("parts", .list [bare, bare]), ("next", .node bare), ("parts", .absent)] mark

/-- The same in order. -/
def tidy : Snapshot :=
  .mk "group" [("label", .str "all")]
    [("next", .node (.mk "item" [("label", .null)] [("next", .absent), ("parts", .list [])]
      Notes.empty)), ("parts", .list [])] mark

/-- Of two entries the last one counts, the slots come in order, and what is missing has its
    default. -/
theorem normalize_untidy : untidy.normalize schema = tidy := by rfl

/-- What restoring the first leads to. -/
def tidied : Store := after (Store.restore untidy) (Store.empty schema)

/-- The untidy snapshot is restored, with the items of the entry that does not count. -/
theorem restore_untidy : Store.restore untidy (Store.empty schema) = .ok ⟨3, 0⟩ tidied := by rfl

/-- The tidy one is restored with fewer nodes. -/
theorem restore_tidy :
    Store.restore tidy tidied = .ok ⟨5, 0⟩ (after (Store.restore tidy) tidied) := by rfl

theorem reachable_tidied : Reachable schema tidied :=
  ⟨[], .operation (.restore untidy) _ _⟩

/-- Restoring the group in disorder and the one in order gives equal groups. -/
theorem restore_normalizes_untidy :
    tidied.snapshot ⟨3, 0⟩ = .ok tidy ∧
      Store.equalTrees .byName (after (Store.restore tidy) tidied) ⟨3, 0⟩
        (after (Store.restore tidy) tidied) ⟨5, 0⟩ = some true := by
  have hempty : Reachable schema (Store.empty schema) := ⟨[], .refl _⟩
  obtain ⟨hsnap, hsame⟩ := Store.restore_normalizes built hempty restore_untidy
  rw [normalize_untidy] at hsnap hsame
  have hnormal : tidy.normalize schema = tidy := by rfl
  exact ⟨hsnap, (hsame tidied reachable_tidied tidy _ _ restore_tidy hnormal _
    (.inr ⟨rfl, rfl⟩)).1 .byName⟩

end Sample

end TypedForest
