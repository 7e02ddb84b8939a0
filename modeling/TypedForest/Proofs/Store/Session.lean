import TypedForest.Proofs.Revision.Recording

namespace TypedForest

/-!
# Sessions

A session is all that is done with one store, together with the history that it makes: the records
of its own operations and revisions, one after the other.

* `Recorded` : the operations on one store, with what they return and what they record;
* `Session` : operations and revisions one after the other;
* `Session.chronicle` : a session does to the store what it records;
* `Recorded.mem_made` : the nodes that operations return are among those that they record as made.
-/

/-- The operations on one store, with the new nodes among what they return and with what they
    record.  A kind that is given by a handle is one of the schema. -/
inductive Recorded (schema : Schema) :
    {ε α : Type} → EStateM ε Store α → (α → List Handle) → Record Store → Prop
  | construct {k : KindId} (hk : k.index < schema.size) (args : List Filling) :
      Recorded schema (Store.construct k args) (fun h => [h]) (Record.construct k args)
  | constructNamed (kind : String) (args : List Filling) :
      Recorded schema (Store.constructNamed kind args) (fun h => [h])
        (Record.constructNamed kind args)
  | set (h : Handle) (name : String) (arg : Filling) :
      Recorded schema (Store.set h name arg) (fun _ => []) (Record.set h name arg)
  | setValues (h : Handle) (bulk : Bulk Value) :
      Recorded schema (Store.setValues h bulk) (fun _ => []) fun _ => []
  | setChildren (h : Handle) (bulk : Bulk Filling) :
      Recorded schema (Store.setChildren h bulk) (fun _ => []) (Record.setChildren h bulk)
  | setNote (h : Handle) (key : String) (v : Value) :
      Recorded schema (Store.setNote h key v) (fun _ => []) fun _ => []
  | deleteNote (h : Handle) (key : String) (recursive : Bool) :
      Recorded schema (Store.deleteNote h key recursive) (fun _ => []) fun _ => []
  | sweep (roots : List Handle) :
      Recorded schema (Store.sweep roots) (fun _ => []) (Record.sweep roots)
  | restore (t : Snapshot) : Recorded schema (Store.restore t) (fun h => [h]) (Record.restore t)
  | decode (data : List UInt8) :
      Recorded schema (Store.decode data) (fun h => [h]) (Record.decode data)

section

variable {schema : Schema} {ε α : Type} {x : EStateM ε Store α} {returned : α → List Handle}
  {record : Record Store} (hx : Recorded schema x returned record)
include hx

/-- What an operation records is what happens to the store. -/
theorem Recorded.chronicle {s : Store} (hs : s.schema = schema) :
    Store.Chronicle s (record s) (after x s) := by
  cases hx with
  | construct hk args => exact Store.chronicle_construct (.inl (hs ▸ hk)) args
  | constructNamed kind args => exact Store.chronicle_constructNamed s kind args
  | set h name arg => exact Store.chronicle_set s h name arg
  | setValues h bulk => exact (Store.Touches.setValues s h bulk).chronicle
  | setChildren h bulk => exact Store.chronicle_setChildren s h bulk
  | setNote h key v => exact (Store.Touches.setNote s h key v).chronicle
  | deleteNote h key recursive => exact (Store.Touches.deleteNote s h key recursive).chronicle
  | sweep roots => exact Store.chronicle_sweep s roots
  | restore t => exact Store.chronicle_rebuild Snapshot.maxDepth t s
  | decode data => exact Store.chronicle_decode s data

/-- The nodes that an operation returns are recorded as made. -/
theorem Recorded.mem_made {s s' : Store} {a : α} (ha : x s = .ok a s') :
    ∀ r ∈ returned a, r ∈ (record s).flatMap Event.made := by
  cases hx with
  | construct hk args => exact List.forall_mem_singleton.mpr (Record.mem_made_making ha)
  | constructNamed kind args => exact List.forall_mem_singleton.mpr (Record.mem_made_making ha)
  | set | setValues | setChildren | setNote | deleteNote | sweep => exact List.forall_mem_nil _
  | restore t => exact List.forall_mem_singleton.mpr (Record.mem_made_rebuild ha)
  | decode data => exact List.forall_mem_singleton.mpr (Record.mem_made_decode ha)

/-- An operation that returns a new node takes none away. -/
theorem Recorded.reclaimed_eq_nil {a : α} {r : Handle} (hr : r ∈ returned a) (s : Store) :
    (record s).flatMap Event.reclaimed = [] := by
  cases hx with
  | construct hk args => exact Record.reclaimsNothing_making _ _ s
  | constructNamed kind args => exact Record.reclaimsNothing_making _ _ s
  | set | setValues | setChildren | setNote | deleteNote | sweep => cases hr
  | restore t => exact Record.reclaimsNothing_rebuild _ t s
  | decode data => exact Record.reclaimsNothing_decode data s

end

/-- All that can be done with one store over a schema, with the history that it makes.  Operations
    and revisions count whether they succeed or fail; the callback of a revision has a state of its
    own and may do with the store whatever can be done with it, and what it records is part of what
    the revision records.  It may fail at any call, so a session can end in the middle of one. -/
inductive Session (schema : Schema) : Store → List Event → Store → Prop
  | refl (s : Store) : Session schema s [] s
  | trans {s t u : Store} {es es' : List Event} (hst : Session schema s es t)
      (htu : Session schema t es' u) : Session schema s (es ++ es') u
  | operation {ε α : Type} {x : EStateM ε Store α} {returned : α → List Handle}
      {record : Record Store} (hx : Recorded schema x returned record) (s : Store) :
      Session schema s (record s) (after x s)
  | revise {τ : Type} (mode : Revision.Mode)
      {callback : Handle → Revision.Action τ (Option Handle)}
      {record : Handle → Record (Store × τ)}
      (hcallback : ∀ h st, Session schema st.1 (record h st) (after (callback h) st).1)
      (root : Handle) (st : Store × τ) :
      Session schema st.1 (Record.revise mode callback record root st)
        (after (Store.revise mode callback root) st).1

/-- A session does to the store what it records. -/
theorem Session.chronicle {schema : Schema} {s s' : Store} {es : List Event}
    (h : Session schema s es s') (hs : s.schema = schema) : Store.Chronicle s es s' := by
  induction h with
  | refl s => exact .nil
  | trans _ _ ih₁ ih₂ =>
    have hfirst := ih₁ hs
    exact hfirst.trans (ih₂ (hfirst.schema.trans hs))
  | operation hx s => exact hx.chronicle hs
  | revise mode _ root st ih => exact Store.chronicle_revise ih mode root hs

end TypedForest
