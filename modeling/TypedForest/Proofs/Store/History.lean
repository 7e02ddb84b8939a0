import TypedForest.Proofs.Store.Sweeping
import TypedForest.Proofs.Tree.Planting

namespace TypedForest

/-!
# Histories

What a handle stands for, and which node is the parent of another, depend on all that was done
to the store before.  A history records it, basic step by basic step: the nodes that were made,
the nodes that were put into slots, and the nodes that were reclaimed.

* `Event`, `Store.Change` : the basic steps, and what is recorded of each;
* `Store.Chronicle` : basic steps one after the other, with the history that they make;
* `Store.Change.effect` : all that a basic step does to generations and parents, told from its
  record alone.
-/

/-- What is recorded of a basic step. -/
inductive Event
  /-- A node was made over these children. -/
  | make (node : Handle) (children : List Handle)
  /-- These nodes were put into a child slot of a node. -/
  | assign (node : Handle) (children : List Handle)
  /-- These nodes were reclaimed. -/
  | reclaim (nodes : List Handle)
deriving DecidableEq, Repr

/-- The nodes that an event makes. -/
def Event.made : Event → List Handle
  | make node _ => [node]
  | assign _ _ => []
  | reclaim _ => []

/-- The nodes that an event takes away. -/
def Event.reclaimed : Event → List Handle
  | make _ _ => []
  | assign _ _ => []
  | reclaim nodes => nodes

namespace Store

/-! ### Basic steps with their records -/

/-- The live nodes of `s` that are not alive in `s'`. -/
def lost (s s' : Store) : List Handle := s.handles.filter fun h => !s'.isAlive h

/-- What is lost was alive, and is not any more. -/
theorem mem_lost_iff {s s' : Store} {h : Handle} :
    h ∈ s.lost s' ↔ s.isAlive h = true ∧ s'.isAlive h = false := by
  rw [lost, List.mem_filter, mem_handles_iff, Bool.not_eq_true']

/-- A basic step and its record.  Nothing is recorded of values and notes. -/
inductive Change (s : Store) : List Event → Store → Prop
  | make {k : KindId} {args : List Filling} {h : Handle} {s' : Store} (hk : s.Known k)
      (hc : construct k args s = .ok h s') : Change s [.make h (args.flatMap Filling.nodes)] s'
  | assign {h : Handle} {n : Node} {i : Nat} {slot : ChildSlot} {arg : Filling} {s' : Store}
      (hn : s.node? h = some n) (hslot : (s.schema.kind n.kind).children[i]? = some slot)
      (hw : setChildAt h i arg s = .ok () s') : Change s [.assign h arg.nodes] s'
  | touch {s' : Store} (h : Touch s s') : Change s [] s'
  | sweep {roots : List Handle} {n : Nat} {s' : Store} (hr : sweep roots s = .ok n s') :
      Change s [.reclaim (s.lost s')] s'

/-- Basic steps from `start` on, with the history that they make, the oldest event first. -/
inductive Chronicle (start : Store) : List Event → Store → Prop
  | nil : Chronicle start [] start
  | snoc {es es' : List Event} {s s' : Store} (h : Chronicle start es s)
      (hc : Change s es' s') : Chronicle start (es ++ es') s'

/-- Each change is a step of the store. -/
theorem Change.step {s s' : Store} {es : List Event} (h : Change s es s') : Step s s' := by
  cases h with
  | make hk hc => exact .construct hk hc
  | assign _ _ hw => exact .setChildAt hw
  | touch h => exact h.step
  | sweep hr => exact .sweep hr

/-- So a chronicle is a run of steps. -/
theorem Chronicle.steps {start s : Store} {es : List Event} (h : Chronicle start es s) :
    Steps start s := by
  induction h with
  | nil => exact .refl
  | snoc _ hc ih => exact ih.tail hc.step

/-- What has a chronicle from the empty store is well formed. -/
theorem Chronicle.wellFormed {schema : Schema} {s : Store} {es : List Event}
    (h : Chronicle (Store.empty schema) es s) : s.WellFormed :=
  (wellFormed_empty schema).steps h.steps

/-- No change touches the schema. -/
theorem Chronicle.schema {start s : Store} {es : List Event} (h : Chronicle start es s) :
    s.schema = start.schema :=
  h.steps.schema

/-- A single basic step. -/
theorem Change.chronicle {s s' : Store} {es : List Event} (h : Change s es s') :
    Chronicle s es s' :=
  Chronicle.nil.snoc h

/-- Histories one after the other make one history. -/
theorem Chronicle.trans {s t u : Store} {es es' : List Event} (h : Chronicle s es t)
    (h' : Chronicle t es' u) : Chronicle s (es ++ es') u := by
  induction h' with
  | nil =>
    rw [List.append_nil]
    exact h
  | snoc _ hc ih =>
    rw [← List.append_assoc]
    exact ih.snoc hc

/-- Values and notes may change without a trace. -/
theorem Touches.chronicle {s s' : Store} (h : Touches s s') : Chronicle s [] s' := by
  induction h with
  | refl => exact .nil
  | tail _ htouch ih => exact ih.snoc (.touch htouch)

/-! ### Generations -/

/-- The generation of a place, which a node made there gets; it is zero for a place that is not
    in use yet. -/
def generationAt (s : Store) (i : Nat) : UInt32 := (s.entries[i]?.map Entry.generation).getD 0

/-- A live handle has the generation of its place. -/
theorem generation_of_node? {s : Store} {h : Handle} {n : Node} (hn : s.node? h = some n) :
    h.generation = s.generationAt h.index := by
  obtain ⟨e, he, hg, -⟩ := node?_eq_some_iff.mp hn
  rw [generationAt, he, Option.map_some, Option.getD_some, hg]

/-- A change to a node is none to its place. -/
theorem generationAt_modifyNode (s : Store) (h : Handle) (f : Node → Node) :
    (s.modifyNode h f).generationAt = s.generationAt := by
  funext i
  rw [generationAt, generationAt, modifyNode, Array.getElem?_modify]
  by_cases hi : h.index = i
  · rw [if_pos hi]
    cases s.entries[i]? with
    | none => rfl
    | some e => by_cases hg : e.generation = h.generation <;> simp [hg]
  · rw [if_neg hi]

/-- Nor is adopting its children. -/
theorem generationAt_adopt (s : Store) (p : Handle) (cs : List Handle) :
    (s.adopt p cs).generationAt = s.generationAt := by
  induction cs generalizing s with
  | nil => rfl
  | cons c cs ih => exact (ih _).trans (generationAt_modifyNode s c _)

/-- Nor is deleting notes. -/
theorem generationAt_dropNotes (s : Store) (key : String) (marks : Array Bool) :
    (s.dropNotes key marks).generationAt = s.generationAt := by
  funext i
  rw [generationAt, generationAt, dropNotes, Array.getElem?_mapIdx]
  cases s.entries[i]? with
  | none => rfl
  | some e => by_cases hm : isMarked marks i <;> simp [hm]

/-- A new node leaves all generations as they are, and its handle has that of its place. -/
theorem generationAt_insert (s : Store) (n : Node) :
    (s.insert n).2.generationAt = s.generationAt ∧
      (s.insert n).1.generation = s.generationAt (s.insert n).1.index := by
  unfold insert
  split
  · next i rest hfree =>
    -- a free place is used again, under the generation that it has
    refine ⟨funext fun j => ?_, rfl⟩
    simp only [generationAt, Array.getElem?_modify]
    by_cases hij : i = j
    · rw [if_pos hij, Option.map_map]
      rfl
    · rw [if_neg hij]
  · refine ⟨funext fun j => ?_, ?_⟩
    · simp only [generationAt, Array.getElem?_push]
      by_cases hj : j = s.entries.size
      · simp [hj]
      · rw [if_neg hj]
    · simp [generationAt]

/-- A sweep moves the generations of the places on that it empties. -/
theorem generationAt_swept (s : Store) (marks : Array Bool) (i : Nat) :
    (s.swept marks).generationAt i
      = s.generationAt i + if i ∈ s.garbage marks then 1 else 0 := by
  simp only [generationAt, swept, Array.getElem?_mapIdx, mem_garbage_iff, occupancy,
    Array.getElem?_map]
  cases s.entries[i]? with
  | none => simp
  | some e =>
    obtain ⟨g, node⟩ := e
    cases node with
    | none => simp [sweptEntry]
    | some n => by_cases hm : isMarked marks i <;> simp [sweptEntry, hm]

/-! ### Parents -/

/-- The parent of a live node, if it has one; a stale handle has no link at all. -/
def link (s : Store) (h : Handle) : Option (Option Handle) := (s.node? h).map Node.parent

theorem isSome_link (s : Store) (h : Handle) : (s.link h).isSome = s.isAlive h :=
  Option.isSome_map

/-- Just the nodes that are alive have a link. -/
theorem link_eq_none_iff {s : Store} {h : Handle} : s.link h = none ↔ s.isAlive h = false := by
  rw [← isSome_link, Option.isSome_eq_false_iff, Option.isNone_iff_eq_none]

/-- The parent is read from the link, and a handle without one is stale. -/
theorem parent_eq_link (s : Store) (h : Handle) :
    s.parent h = (s.link h).elim (.error (.staleNode h)) .ok := by
  unfold parent get link
  cases s.node? h <;> rfl

/-- A parent that is returned is the one in the link. -/
theorem parent_eq_ok_iff {s : Store} {h : Handle} {p : Option Handle} :
    s.parent h = .ok p ↔ s.link h = some p := by
  rw [parent_eq_link]
  cases s.link h <;> simp

/-- A change to a node that leaves its parent alone changes no link. -/
theorem link_modifyNode (s : Store) (h : Handle) {f : Node → Node}
    (hf : ∀ n, (f n).parent = n.parent) : (s.modifyNode h f).link = s.link := by
  funext x
  rw [link, link, node?_modifyNode]
  by_cases hx : x = h
  · rw [if_pos hx, Option.map_map]
    exact congrArg (Option.map · (s.node? x)) (funext hf)
  · rw [if_neg hx]

/-- Nor does deleting notes. -/
theorem link_dropNotes (s : Store) (key : String) (marks : Array Bool) :
    (s.dropNotes key marks).link = s.link := by
  funext x
  rw [link, link, node?_dropNotes, Option.map_map]
  refine congrArg (Option.map · (s.node? x)) (funext fun n => ?_)
  by_cases hm : isMarked marks x.index <;> simp [hm, dropNote]

/-- Live nodes that are adopted get the new parent. -/
theorem link_adopt {s : Store} (p : Handle) {cs : List Handle}
    (hcs : ∀ c ∈ cs, s.isAlive c = true) (x : Handle) :
    (s.adopt p cs).link x = if x ∈ cs then some (some p) else s.link x := by
  rw [link, link, node?_adopt, Option.map_map]
  by_cases hx : x ∈ cs
  · obtain ⟨n, hn⟩ := isAlive_iff.mp (hcs x hx)
    simp [hx, hn]
  · simp only [hx, if_false]
    rfl

/-! ### What a basic step does -/

/-- What a basic step from `s` to `s'` does to the generations of places and to the parents of
    nodes, for each record that it can have. -/
inductive Effect (s s' : Store) : List Event → Prop
  | quiet (generations : s'.generationAt = s.generationAt) (links : s'.link = s.link) :
      Effect s s' []
  | make {h : Handle} {cs : List Handle} (fresh : s.isAlive h = false)
      (place : h.generation = s.generationAt h.index) (alive : ∀ c ∈ cs, s.isAlive c = true)
      (generations : s'.generationAt = s.generationAt)
      (links : ∀ x, s'.link x = if x = h then some none else if x ∈ cs then some (some h)
        else s.link x) :
      Effect s s' [.make h cs]
  | assign {h : Handle} {cs : List Handle} (alive : ∀ c ∈ cs, s.isAlive c = true)
      (generations : s'.generationAt = s.generationAt)
      (links : ∀ x, s'.link x = if x ∈ cs then some (some h) else s.link x) :
      Effect s s' [.assign h cs]
  | reclaim {hs : List Handle} (alive : ∀ x ∈ hs, s.isAlive x = true)
      (places : (hs.map Handle.index).Nodup)
      (generations : ∀ i, s'.generationAt i
        = s.generationAt i + if i ∈ hs.map Handle.index then 1 else 0)
      (links : ∀ x, s'.link x = if x ∈ hs then none
        else (s.link x).map fun parent => parent.filter (· ∉ hs)) :
      Effect s s' [.reclaim hs]

/-- A node that is made had a free place, and its children are linked to it from then on. -/
theorem effect_construct {s s' : Store} (hs : s.WellFormed) {k : KindId} {args : List Filling}
    {h : Handle} (hc : construct k args s = .ok h s') :
    Effect s s' [.make h (args.flatMap Filling.nodes)] := by
  obtain ⟨n, hfill, -, hh, hs'⟩ := construct_eq_ok_iff.mp hc
  obtain ⟨hfresh, -, hview⟩ := node?_construct hs.booked.freePlaces hfill hc
  obtain ⟨hgen, hplace⟩ := generationAt_insert s n
  -- the children in the event are those of the node
  have hchildren := childNodes_of_fill hfill
  have halive : ∀ c ∈ n.childNodes, s.isAlive c = true := fun c => isAlive_of_fill hfill
  rw [← hchildren]
  refine .make (by simp [isAlive, hfresh]) (hh ▸ hplace) halive ?_ fun x => ?_
  · rw [hs', generationAt_adopt, hgen]
  · rw [link, hview]
    by_cases hx : x = h
    · rw [if_pos hx, if_pos hx, Option.map_some, (fill_eq_ok hfill).2.1]
    · rw [if_neg hx, if_neg hx]
      by_cases hmem : x ∈ n.childNodes
      · obtain ⟨m, hm⟩ := isAlive_iff.mp (halive x hmem)
        simp [hmem, hm]
      · simp [hmem, link]

/-- Nodes that are put into a slot are linked to the node that it belongs to. -/
theorem effect_setChildAt {s s' : Store} {h : Handle} {n : Node} (hn : s.node? h = some n)
    {i : Nat} {slot : ChildSlot} (hslot : (s.schema.kind n.kind).children[i]? = some slot)
    {arg : Filling} (hw : setChildAt h i arg s = .ok () s') :
    Effect s s' [.assign h arg.nodes] := by
  obtain ⟨m, hm, hwritten⟩ := setChildAt_eq_ok hw
  rw [hn, Option.some.injEq] at hm
  subst hm
  rw [hslot] at hwritten
  -- the slot is there, and so the write took place
  obtain ⟨⟨⟩, -⟩ | ⟨slot', c, -, rfl, hadm, rfl⟩ := hwritten
  rw [Content.nodes_toFilling]
  have halive : ∀ x ∈ c.nodes, s.isAlive x = true := fun x hx => by
    obtain ⟨m, hm, -⟩ := hadm.nodes x hx
    exact isAlive_of_node? hm
  have hlink := link_modifyNode s h (f := fun n => { n with children := n.children.set i c })
    fun _ => rfl
  refine .assign halive ?_ fun x => ?_
  · rw [generationAt_adopt, generationAt_modifyNode]
  · rw [link_adopt, hlink]
    intro x hx
    rw [← isSome_link, hlink, isSome_link]
    exact halive x hx

/-- The places of the nodes that a sweep takes away are those that it empties. -/
theorem mem_map_index_lost_swept_iff {s : Store} {marks : Array Bool} {i : Nat} :
    i ∈ (s.lost (s.swept marks)).map Handle.index ↔ i ∈ s.garbage marks := by
  rw [List.mem_map, mem_garbage_iff]
  constructor
  · rintro ⟨h, hh, rfl⟩
    obtain ⟨halive, hdead⟩ := mem_lost_iff.mp hh
    obtain ⟨n, hn⟩ := isAlive_iff.mp halive
    refine ⟨occupancy_eq_true_of_node? hn, ?_⟩
    by_contra hm
    rw [isAlive_swept_iff.mpr ⟨halive, by simpa using hm⟩] at hdead
    cases hdead
  · rintro ⟨hocc, hm⟩
    -- a place that goes was taken by a live handle
    have hsome : (s.handleAt? i).isSome = true := by rw [isSome_handleAt?, hocc]; rfl
    obtain ⟨h, hh⟩ := Option.isSome_iff_exists.mp hsome
    obtain ⟨rfl, halive⟩ := handleAt?_eq_some_iff.mp hh
    refine ⟨h, mem_lost_iff.mpr ⟨halive, ?_⟩, rfl⟩
    by_contra hstays
    rw [Bool.not_eq_false, isAlive_swept_iff, hm] at hstays
    cases hstays.2

/-- No two of the nodes that are lost had one place. -/
theorem nodup_map_index_lost (s s' : Store) : ((s.lost s').map Handle.index).Nodup := by
  refine List.Nodup.map_on (fun a ha b hb hab => ?_) ((nodup_handles s).filter _)
  obtain ⟨m, hm⟩ := isAlive_iff.mp (mem_lost_iff.mp ha).1
  obtain ⟨n, hn⟩ := isAlive_iff.mp (mem_lost_iff.mp hb).1
  exact eq_of_index_eq hm hn hab

/-- A sweep takes the nodes that it reclaims out of all links, and their places are of the next
    generation. -/
theorem effect_sweep {s s' : Store} (hs : s.WellFormed) {roots : List Handle} {n : Nat}
    (hr : sweep roots s = .ok n s') : Effect s s' [.reclaim (s.lost s')] := by
  refine .reclaim (fun x hx => (mem_lost_iff.mp hx).1) (nodup_map_index_lost s s') ?_ fun x => ?_
  · obtain ⟨-, -, rfl⟩ := sweep_eq_ok_iff.mp hr
    intro i
    rw [generationAt_swept]
    simp only [mem_map_index_lost_swept_iff]
  · by_cases hstays : s'.isAlive x = true
    · obtain ⟨m, hm, hm'⟩ := node?_sweep hr hstays
      have hx : x ∉ s.lost s' := by simp [mem_lost_iff, hstays]
      rw [if_neg hx, link, link, hm, hm', Option.map_some, Option.map_some, Option.map_some,
        Option.some.injEq]
      -- the parent of a live node is alive, so it goes only if it is one of those that go
      cases hp : m.parent with
      | none => rfl
      | some p =>
        have halive := (hs.nodes x m hm).parent p hp
        simp [Option.filter, mem_lost_iff, halive]
    · have hdead : s'.isAlive x = false := by simpa using hstays
      rw [link_eq_none_iff.mpr hdead]
      by_cases hx : x ∈ s.lost s'
      · rw [if_pos hx]
      · have hold : s.isAlive x = false := by
          simpa [mem_lost_iff, hdead] using hx
        rw [if_neg hx, link_eq_none_iff.mpr hold, Option.map_none]

/-- Small changes leave places and links alone. -/
theorem Touch.effect {s s' : Store} (h : Touch s s') : Effect s s' [] := by
  cases h with
  | setValueAt hw =>
    rcases setValueAt_eq_ok hw with rfl | ⟨n, slot, v, -, -, -, rfl⟩
    · exact .quiet rfl rfl
    · exact .quiet (generationAt_modifyNode _ _ _) (link_modifyNode _ _ fun _ => rfl)
  | annotate h f => exact .quiet (generationAt_modifyNode _ _ _) (link_modifyNode _ _ fun _ => rfl)
  | dropNotes key marks => exact .quiet (generationAt_dropNotes _ _ _) (link_dropNotes _ _ _)

/-- Whatever a basic step does, its record tells. -/
theorem Change.effect {s s' : Store} {es : List Event} (h : Change s es s')
    (hs : s.WellFormed) : Effect s s' es := by
  cases h with
  | make hk hc => exact effect_construct hs hc
  | assign hn hslot hw => exact effect_setChildAt hn hslot hw
  | touch h => exact h.effect
  | sweep hr => exact effect_sweep hs hr

end Store

end TypedForest
