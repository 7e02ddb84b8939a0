import TypedForest.Schema.Error

namespace TypedForest

/-!
# Declaring a schema

A `Draft` takes declarations one after the other and is then frozen into a
`Schema`.  A refused declaration changes nothing but is remembered: a draft that
refused anything cannot be frozen, and `Draft.freeze` gives the first refusal.

The slots of a kind in a draft are its own; in the frozen schema they follow those
of its base.
-/

/-- The description of a child slot as it is declared. -/
inductive ChildSpec
  /-- At most one node of the kind of this name. -/
  | one (kind : String)
  /-- Any number of nodes; exactly one kind must be named. -/
  | many (kinds : List String)
  /-- A type of values, which no child slot may have. -/
  | scalar (type : ValueType)
deriving DecidableEq, Repr

/-- A schema under construction: the kinds with their own slots, and the first
    declaration that was refused. -/
structure Draft where
  kinds : List Kind
  failure : Option SchemaError
deriving DecidableEq, Repr, Inhabited

/-- A declaration: it changes a draft and has a result or is refused. -/
abbrev Declaration (α : Type) := EStateM SchemaError Draft α

namespace Draft

/-- The draft without declarations. -/
def empty : Draft := ⟨[], none⟩

/-- The most kinds that a schema can have: `2 ^ 32`. -/
def maxKinds : Nat := 0x100000000

/-- Refuses a declaration and remembers the first refusal. -/
def refuse {α : Type} (e : SchemaError) : Declaration α := fun d =>
  .error e { d with failure := d.failure.or (some e) }

/-- The base of a new kind. -/
def resolveBase (d : Draft) : Option String → Except SchemaError (Option KindId)
  | none => .ok none
  | some name =>
    match Kind.byName? d.kinds name with
    | some k => .ok (some k)
    | none => .error (.unknownKind name)

/-- What a new kind must satisfy: a fresh name, a declared base, and room. -/
def checkKind (d : Draft) (name : String) (base : Option String) :
    Except SchemaError (Option KindId) :=
  if (Kind.byName? d.kinds name).isSome then .error (.duplicateKind name)
  else
    match d.resolveBase base with
    | .error e => .error e
    | .ok b => if d.kinds.length < maxKinds then .ok b else .error .tooManyKinds

/-- Declares a kind and returns its handle. -/
def declareKind (name : String) (base : Option String) : Declaration KindId := fun d =>
  match d.checkKind name base with
  | .error e => refuse e d
  | .ok b => .ok ⟨d.kinds.length⟩ { d with kinds := d.kinds ++ [⟨name, b, [], []⟩] }

/-- The kind with which a new slot name of `k` clashes: `k` or the nearest kind that it
    derives from, else the first kind that derives from `k`. -/
def slotOwner? (d : Draft) (k : KindId) (slot : String) : Option KindId :=
  let owns (o : KindId) : Bool := (Kind.get d.kinds o).hasSlot slot
  ((Kind.lineage d.kinds k).find? owns).or
    (((List.range d.kinds.length).map KindId.mk).find? fun o =>
      decide (o ≠ k) && decide (k ∈ Kind.lineage d.kinds o) && owns o)

/-- Refuses a slot name that is taken. -/
def checkSlotName (d : Draft) (k : KindId) (slot : String) : Except SchemaError Unit :=
  match d.slotOwner? k slot with
  | some o =>
    .error (.duplicateSlotName (Kind.get d.kinds k).name slot (Kind.get d.kinds o).name)
  | none => .ok ()

/-- Changes the kind at a place. -/
def modifyKind (d : Draft) (k : KindId) (f : Kind → Kind) : Draft :=
  { d with kinds := d.kinds.modify k.index f }

/-- Declares a value slot after the other value slots of a kind. -/
def declareValue (k : KindId) (slot : String) (type : ValueType) : Declaration Unit := fun d =>
  match d.checkSlotName k slot with
  | .error e => refuse e d
  | .ok () =>
    .ok () (d.modifyKind k fun kind => { kind with values := kind.values ++ [⟨slot, type⟩] })

/-- The kind that a child slot names. -/
def resolveTarget (d : Draft) (name : String) : Except ChildSpecFault KindId :=
  match Kind.byName? d.kinds name with
  | some k => .ok k
  | none => .error (.unknownKind name)

/-- The type that the description of a child slot means. -/
def resolveSpec (d : Draft) : ChildSpec → Except ChildSpecFault ChildType
  | .one name => (d.resolveTarget name).map .one
  | .many [name] => (d.resolveTarget name).map .many
  | .many names => .error (.notOneKind names.length)
  | .scalar type => .error (.scalar type)

/-- What a new child slot must satisfy: a free name, and a description that names a
    declared kind. -/
def checkChild (d : Draft) (k : KindId) (slot : String) (spec : ChildSpec) :
    Except SchemaError ChildType :=
  match d.checkSlotName k slot with
  | .error e => .error e
  | .ok () =>
    match d.resolveSpec spec with
    | .ok type => .ok type
    | .error fault => .error (.invalidSlotType (Kind.get d.kinds k).name slot fault)

/-- Declares a child slot after the other child slots of a kind. -/
def declareChild (k : KindId) (slot : String) (spec : ChildSpec) : Declaration Unit := fun d =>
  match d.checkChild k slot spec with
  | .error e => refuse e d
  | .ok type =>
    .ok () (d.modifyKind k fun kind => { kind with children := kind.children ++ [⟨slot, type⟩] })

/-- A kind with the slots of its base, taken from `done`, in front of its own. -/
def inherit (done : List Kind) (kind : Kind) : Kind :=
  match kind.base with
  | none => kind
  | some b =>
    { kind with
      values := (Kind.get done b).values ++ kind.values
      children := (Kind.get done b).children ++ kind.children }

/-- The kinds with all their slots.  A base comes before the kinds that derive from
    it, so its slots are complete when they are inherited. -/
def flatten (kinds : List Kind) : List Kind :=
  kinds.foldl (fun done kind => done ++ [inherit done kind]) []

/-- The schema of a draft that refused nothing. -/
def freeze (d : Draft) : Except SchemaError Schema :=
  match d.failure with
  | some e => .error e
  | none => .ok ⟨flatten d.kinds⟩

end Draft

end TypedForest
