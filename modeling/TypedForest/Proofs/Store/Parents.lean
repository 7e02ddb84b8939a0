import TypedForest.Proofs.Store.Session

namespace TypedForest

/-!
# Parents

A node may be in slots of several nodes at a time, and it may be in no slot of its parent: the
parent is the node that took it last.  It stays the parent when the slot is written again, and
until one of the two is reclaimed.

* `Event.Takes` : an event by which a node takes another;
* `LastTaker` : the node that took another last in a history, if it is still there;
* `Store.Chronicle.link_iff` : the parents are the last takers, kept up by each basic step
  (`Store.Effect.link_iff`);
* `Store.Chronicle.link_eq` : a parent stays as long as nothing happens to the two;
* `Store.parent_iff_lastTaker` : both for every session with a store.
-/

/-- The node `p` is made over the node `c`, or `c` is put into one of its slots. -/
def Event.Takes (p c : Handle) : Event → Prop
  | make node children => node = p ∧ c ∈ children
  | assign node children => node = p ∧ c ∈ children
  | reclaim _ => False

/-- In the history `es` the node `p` took the node `c`, and since then no node took `c` and
    neither of the two was reclaimed.  That `c` was not reclaimed is said too because its handle
    can come to stand for another node, once its place has gone through all generations. -/
def LastTaker (es : List Event) (c p : Handle) : Prop :=
  ∃ before e later, es = before ++ e :: later ∧ e.Takes p c ∧
    ∀ e' ∈ later, (∀ q, ¬ e'.Takes q c) ∧ p ∉ e'.reclaimed ∧ c ∉ e'.reclaimed

/-- Before anything has happened nothing was taken. -/
theorem not_lastTaker_nil (c p : Handle) : ¬ LastTaker [] c p := by
  rintro ⟨before, e, later, hes, -⟩
  simp at hes

/-- Whether a node is the last taker is settled by the last event, or was before. -/
theorem lastTaker_concat_iff {es : List Event} {e : Event} {c p : Handle} :
    LastTaker (es ++ [e]) c p ↔ e.Takes p c ∨
      ((∀ q, ¬ e.Takes q c) ∧ p ∉ e.reclaimed ∧ c ∉ e.reclaimed ∧ LastTaker es c p) := by
  constructor
  · rintro ⟨before, e', later, hes, htakes, hlater⟩
    -- the last event is the one that takes, or it comes later
    rcases List.eq_nil_or_concat later with rfl | ⟨init, last, rfl⟩
    · obtain ⟨-, he⟩ := List.append_inj' hes rfl
      cases he
      exact .inl htakes
    · rw [List.concat_eq_append] at hes hlater
      rw [show before ++ e' :: (init ++ [last]) = (before ++ e' :: init) ++ [last] by simp] at hes
      obtain ⟨rfl, hlast⟩ := List.append_inj' hes rfl
      cases hlast
      obtain ⟨hinit, hlast⟩ := List.forall_mem_append.mp hlater
      obtain ⟨hnone, hp, hc⟩ := hlast e List.mem_cons_self
      exact .inr ⟨hnone, hp, hc, before, e', init, rfl, htakes, hinit⟩
  · rintro (htakes | ⟨hnone, hp, hc, before, e', later, rfl, htakes, hlater⟩)
    · exact ⟨es, e, [], rfl, htakes, fun _ h => nomatch h⟩
    · refine ⟨before, e', later ++ [e], by simp, htakes, List.forall_mem_append.mpr ⟨hlater, ?_⟩⟩
      rw [List.forall_mem_singleton]
      exact ⟨hnone, hp, hc⟩

namespace Store

variable {schema : Schema} {s s' : Store} {es es' : List Event}

/-- Each basic step keeps the parents what they should be: the last takers. -/
theorem Effect.link_iff (he : Effect s s' es')
    (hlinks : ∀ c p, s.link c = some (some p) ↔ LastTaker es c p) (c p : Handle) :
    s'.link c = some (some p) ↔ LastTaker (es ++ es') c p := by
  cases he with
  | quiet _ links => rw [links, List.append_nil, hlinks]
  | @make h cs fresh _ alive _ links =>
    rw [links, lastTaker_concat_iff, ← hlinks]
    by_cases hc : c = h
    · -- the new node has no parent, and no node had it before
      subst hc
      have hnot : c ∉ cs := fun hmem => by
        rw [alive c hmem] at fresh
        cases fresh
      simp [Event.Takes, hnot, link_eq_none_iff.mpr fresh]
    · by_cases hmem : c ∈ cs
      · simp [Event.Takes, hc, hmem]
      · simp [Event.Takes, Event.reclaimed, hc, hmem]
  | @assign h cs alive _ links =>
    rw [links, lastTaker_concat_iff, ← hlinks]
    by_cases hmem : c ∈ cs
    · simp [Event.Takes, hmem]
    · simp [Event.Takes, Event.reclaimed, hmem]
  | @reclaim hs _ _ _ links =>
    rw [links, lastTaker_concat_iff, ← hlinks]
    by_cases hc : c ∈ hs
    · simp [Event.Takes, Event.reclaimed, hc]
    · simp [Event.Takes, Event.reclaimed, hc, Option.filter_eq_some_iff, and_comm]

/-- The link of a node leads to the one that took it last, by induction on the chronicle. -/
theorem Chronicle.link_iff (h : Chronicle (Store.empty schema) es s) (c p : Handle) :
    s.link c = some (some p) ↔ LastTaker es c p := by
  induction h generalizing c p with
  | nil => simp [link, node?, Store.empty, not_lastTaker_nil]
  | snoc hes hc ih => exact (hc.effect hes.wellFormed).link_iff ih c p

/-- An event that neither takes a live node nor takes away the node or its parent leaves the parent
    as it is. -/
theorem Effect.link_eq (he : Effect s s' es) {c : Handle} {parent : Option Handle}
    (hlink : s.link c = some parent) (hfree : ∀ e ∈ es, ∀ q, ¬ e.Takes q c)
    (hstays : ∀ e ∈ es, c ∉ e.reclaimed) (hkeeps : ∀ e ∈ es, ∀ p ∈ parent, p ∉ e.reclaimed) :
    s'.link c = some parent := by
  cases he with
  | quiet _ links => rw [links, hlink]
  | @make h cs fresh _ _ _ links =>
    -- the node was there before, and so it is not the new one
    have hne : c ≠ h := by
      rintro rfl
      rw [link_eq_none_iff.mpr fresh] at hlink
      cases hlink
    have hnot : c ∉ cs := fun hmem => hfree _ List.mem_cons_self h ⟨rfl, hmem⟩
    rw [links, if_neg hne, if_neg hnot, hlink]
  | @assign h cs _ _ links =>
    have hnot : c ∉ cs := fun hmem => hfree _ List.mem_cons_self h ⟨rfl, hmem⟩
    rw [links, if_neg hnot, hlink]
  | @reclaim hs _ _ _ links =>
    have hnot : c ∉ hs := hstays _ List.mem_cons_self
    rw [links, if_neg hnot, hlink, Option.map_some, Option.some.injEq]
    cases parent with
    | none => rfl
    | some p =>
      have hp : p ∉ hs := hkeeps _ List.mem_cons_self p rfl
      rw [Option.filter_some, decide_eq_true hp, if_pos rfl]

/-- A history in which nothing of the kind happens leaves it as it is. -/
theorem Chronicle.link_eq (hs : s.WellFormed) (h : Chronicle s es s') {c : Handle}
    {parent : Option Handle} (hlink : s.link c = some parent)
    (hfree : ∀ e ∈ es, ∀ q, ¬ e.Takes q c) (hstays : ∀ e ∈ es, c ∉ e.reclaimed)
    (hkeeps : ∀ e ∈ es, ∀ p ∈ parent, p ∉ e.reclaimed) : s'.link c = some parent := by
  induction h with
  | nil => exact hlink
  | snoc hes hc ih =>
    rw [List.forall_mem_append] at hfree hstays hkeeps
    exact (hc.effect (hs.steps hes.steps)).link_eq (ih hfree.1 hstays.1 hkeeps.1) hfree.2 hstays.2
      hkeeps.2

/-- **Parents are the last takers.**  After every session the parent of a live node is the node that
    took it last, be it by being made or by a write to one of its slots, as long as that one has not
    been reclaimed; and it has no parent if there is no such node.  As long as no node takes it
    again, and it and its parent are not reclaimed, whatever else is done changes nothing about
    that, in particular a write that removes it from its place. -/
theorem parent_iff_lastTaker {schema : Schema} {es : List Event} {s : Store}
    (h : Session schema (Store.empty schema) es s) {c : Handle} (halive : s.isAlive c = true) :
    (∀ p, s.parent c = .ok (some p) ↔ LastTaker es c p) ∧
      (s.parent c = .ok none ↔ ∀ p, ¬ LastTaker es c p) ∧
      ∀ es' s', Session schema s es' s' →
        (∀ e ∈ es', (∀ q, ¬ e.Takes q c) ∧ c ∉ e.reclaimed ∧
          ∀ p, s.parent c = .ok (some p) → p ∉ e.reclaimed) →
        s'.parent c = s.parent c := by
  have hes := h.chronicle rfl
  obtain ⟨parent, hlink⟩ : ∃ parent, s.link c = some parent :=
    Option.isSome_iff_exists.mp (by rw [isSome_link, halive])
  refine ⟨fun p => ?_, ?_, fun es' s' h' hes' => ?_⟩
  · rw [parent_eq_ok_iff, hes.link_iff]
  · simp only [parent_eq_ok_iff, ← hes.link_iff, hlink]
    cases parent <;> simp
  · have hkept : s'.link c = some parent := by
      refine (h'.chronicle hes.schema).link_eq hes.wellFormed hlink (fun e he => (hes' e he).1)
        (fun e he => (hes' e he).2.1) fun e he p hp => (hes' e he).2.2 p ?_
      rw [parent_eq_ok_iff, hlink, hp]
    rw [parent_eq_link, parent_eq_link, hkept, hlink]

end Store

/-! ### A node that changes hands -/

namespace Sample

/-- An item. -/
def piece : Store := after (Store.construct ⟨0⟩ [.value (.str "piece")]) (Store.empty schema)

/-- A group has it among its parts. -/
def owned : Store :=
  after (Store.construct ⟨1⟩ [.value (.str "all"), .one none, .many [⟨0, 0⟩]]) piece

/-- Another item is made. -/
def joined : Store := after (Store.construct ⟨0⟩ [.value (.str "other")]) owned

/-- The first item as the next one, and a stale node as a part. -/
def halfGood : Bulk Filling := .all [.one (some ⟨0, 0⟩), .many [⟨3, 0⟩]]

/-- The other item gets the first one as its next item, by a write that fails after that. -/
def lent : Store := after (Store.setChildren ⟨2, 0⟩ halfGood) joined

/-- It lets go of it. -/
def released : Store := after (Store.set ⟨2, 0⟩ "next" (.one none)) lent

/-- And is reclaimed. -/
def orphaned : Store := after (Store.sweep [⟨1, 0⟩]) released

/-- What happened to the nodes before the other item lets go of the first. -/
def custody : List Event :=
  [.make ⟨0, 0⟩ [], .make ⟨1, 0⟩ [⟨0, 0⟩], .make ⟨2, 0⟩ [], .assign ⟨2, 0⟩ [⟨0, 0⟩]]

/-- The last call fails halfway, and what it wrote before is in the record. -/
theorem session_lent : Session schema (Store.empty schema) custody lent := by
  have hitem : (⟨0⟩ : KindId).index < schema.size := by decide +kernel
  have hgroup : (⟨1⟩ : KindId).index < schema.size := by decide +kernel
  have hpiece : Session schema (Store.empty schema) _ piece := .operation (.construct hitem _) _
  have howned : Session schema piece _ owned := .operation (.construct hgroup _) _
  have hjoined : Session schema owned _ joined := .operation (.construct hitem _) _
  have hlent : Session schema joined _ lent := .operation (.setChildren ⟨2, 0⟩ halfGood) _
  have hrecord := ((hpiece.trans howned).trans hjoined).trans hlent
  have hevents : ((Record.construct ⟨0⟩ [.value (.str "piece")] (Store.empty schema)
      ++ Record.construct ⟨1⟩ [.value (.str "all"), .one none, .many [⟨0, 0⟩]] piece)
      ++ Record.construct ⟨0⟩ [.value (.str "other")] owned)
      ++ Record.setChildren ⟨2, 0⟩ halfGood joined = custody := by decide +kernel
  rw [hevents] at hrecord
  exact hrecord

theorem session_released : Session schema lent [.assign ⟨2, 0⟩ []] released := by
  have hrelease : Session schema lent _ released := .operation (.set ⟨2, 0⟩ "next" (.one none)) _
  have hevents : Record.set ⟨2, 0⟩ "next" (.one none) lent = [.assign ⟨2, 0⟩ []] := by
    decide +kernel
  rw [hevents] at hrelease
  exact hrelease

theorem session_orphaned : Session schema released [.reclaim [⟨2, 0⟩]] orphaned := by
  have hsweep : Session schema released _ orphaned := .operation (.sweep [⟨1, 0⟩]) _
  have hevents : Record.sweep [⟨1, 0⟩] released = [.reclaim [⟨2, 0⟩]] := by cbv
  rw [hevents] at hsweep
  exact hsweep

/-- The item that took the piece last, by a write that failed, is its parent.  It still is when it
    has let go of the piece, but not when it is gone; and the group, which has the piece all the
    time, does not become its parent again. -/
theorem parent_of_piece :
    Store.setChildren ⟨2, 0⟩ halfGood joined = .error (.staleNode ⟨3, 0⟩) lent ∧
      Session schema (Store.empty schema) custody lent ∧
      (lent.parent ⟨0, 0⟩ = .ok (some ⟨2, 0⟩) ∧ LastTaker custody ⟨0, 0⟩ ⟨2, 0⟩) ∧
      (Session schema lent [.assign ⟨2, 0⟩ []] released ∧
        released.parent ⟨0, 0⟩ = lent.parent ⟨0, 0⟩) ∧
      (orphaned.parent ⟨0, 0⟩ = .ok none ∧
        ∀ p, ¬ LastTaker (custody ++ [.assign ⟨2, 0⟩ []] ++ [.reclaim [⟨2, 0⟩]]) ⟨0, 0⟩ p) ∧
      orphaned.childList ⟨1, 0⟩ "parts" = .ok [⟨0, 0⟩] := by
  have hlent : lent.parent ⟨0, 0⟩ = .ok (some ⟨2, 0⟩) := by decide +kernel
  have horphaned : orphaned.parent ⟨0, 0⟩ = .ok none := by cbv
  obtain ⟨hsome, -, hsame⟩ :=
    Store.parent_iff_lastTaker session_lent (c := ⟨0, 0⟩) (by decide +kernel)
  obtain ⟨-, hnone, -⟩ := Store.parent_iff_lastTaker
    ((session_lent.trans session_released).trans session_orphaned) (c := ⟨0, 0⟩) (by cbv)
  refine ⟨by decide +kernel, session_lent, ⟨hlent, (hsome _).mp hlent⟩, ⟨session_released, ?_⟩,
    ⟨horphaned, hnone.mp horphaned⟩, by cbv⟩
  refine hsame _ _ session_released ?_
  simp [Event.Takes, Event.reclaimed]

end Sample

end TypedForest
