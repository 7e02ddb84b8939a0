import TypedForest.Proofs.Tree.Planting
import TypedForest.Wire.Reader

namespace TypedForest

/-!
# What reading reports

Only some of the errors that there are can come up when bytes are read (`Wire.Sensible`).

* `Store.ofContent_of_construct` : a node with something for each of its slots, over nodes that are
  alive, is refused for nothing but its content;
* `Wire.compositional_reportsParts` : readers only report what can be wrong with a part.
-/

/-! ### What a store refuses -/

/-- The content of a node is not what its kind asks for, or there is no room for the node. -/
def NodeError.OfContent (e : NodeError) : Prop :=
  e = .storeFull ∨ ∃ slot expected found, e = .typeMismatch slot expected found

namespace Store

section

variable {s : Store} {e : NodeError}

/-- A value is refused for its type only. -/
theorem ofContent_of_checkValue {slot : ValueSlot} {arg : Filling}
    (h : s.checkValue slot arg = .error e) : e.OfContent := by
  unfold checkValue at h
  split at h
  · split at h
    · cases h
    · cases h
      exact .inr ⟨_, _, _, rfl⟩
  · cases h
    exact .inr ⟨_, _, _, rfl⟩
  · cases h
    exact .inr ⟨_, _, _, rfl⟩

/-- Live nodes are refused for their kinds only. -/
theorem ofContent_of_checkNodes {slot : ChildSlot} {found : String → Found} {hs : List Handle}
    (halive : ∀ h ∈ hs, s.isAlive h = true) (h : s.checkNodes slot found hs = .error e) :
    e.OfContent := by
  induction hs with
  | nil => cases h
  | cons x hs ih =>
    obtain ⟨hx, hrest⟩ := List.forall_mem_cons.mp halive
    obtain ⟨n, hn⟩ := isAlive_iff.mp hx
    rw [checkNodes, hn] at h
    dsimp only at h
    split at h
    · exact ih hrest h
    · cases h
      exact .inr ⟨_, _, _, rfl⟩

omit s in
theorem eq_error_of_map_eq_error {α β : Type} {x : Except NodeError α} {f : α → β}
    (h : x.map f = .error e) : x = .error e := by
  cases x with
  | error e' =>
    cases h
    rfl
  | ok a => cases h

/-- A content of live nodes is refused for its shape or for their kinds. -/
theorem ofContent_of_checkChild {slot : ChildSlot} {arg : Filling}
    (halive : ∀ h ∈ arg.nodes, s.isAlive h = true) (h : s.checkChild slot arg = .error e) :
    e.OfContent := by
  unfold checkChild at h
  split at h
  · exact ofContent_of_checkNodes halive (eq_error_of_map_eq_error h)
  · exact ofContent_of_checkNodes halive (eq_error_of_map_eq_error h)
  · cases h
    exact .inr ⟨_, _, _, rfl⟩

/-- Values are refused for the type of one of them. -/
theorem ofContent_of_fillValues {slots : List ValueSlot} {args : List Filling}
    (h : s.fillValues slots args = .error e) : e.OfContent := by
  induction slots generalizing args with
  | nil => cases h
  | cons slot slots ih =>
    cases args with
    | nil =>
      rw [fillValues] at h
      split at h
      · next hrest =>
        cases h
        exact ih hrest
      · cases h
    | cons arg args =>
      rw [fillValues] at h
      split at h
      · next hcheck =>
        cases h
        exact ofContent_of_checkValue hcheck
      · split at h
        · next hrest =>
          cases h
          exact ih hrest
        · cases h

/-- Contents of live nodes are refused for one of them. -/
theorem ofContent_of_fillChildren {slots : List ChildSlot} {args : List Filling}
    (halive : ∀ h ∈ args.flatMap Filling.nodes, s.isAlive h = true)
    (h : s.fillChildren slots args = .error e) : e.OfContent := by
  induction slots generalizing args with
  | nil => cases h
  | cons slot slots ih =>
    cases args with
    | nil =>
      -- slots without an argument take their default
      rw [fillChildren] at h
      split at h
      · next hrest =>
        cases h
        exact ih halive hrest
      · cases h
    | cons arg args =>
      rw [List.flatMap_cons, List.forall_mem_append] at halive
      rw [fillChildren] at h
      split at h
      · next hcheck =>
        cases h
        exact ofContent_of_checkChild halive.1 hcheck
      · split at h
        · next hrest =>
          cases h
          exact ih halive.2 hrest
        · cases h

/-- A node with as many values and fillings as its kind has slots for them, over nodes that are
    alive, is refused for nothing but its content. -/
theorem ofContent_of_construct {s' : Store} {k : KindId} {vs : List Value} {fs : List Filling}
    (hvs : (s.schema.kind k).values.length = vs.length)
    (hfs : (s.schema.kind k).children.length = fs.length)
    (halive : ∀ h ∈ fs.flatMap Filling.nodes, s.isAlive h = true)
    (h : construct k (vs.map .value ++ fs) s = .error e s') : e.OfContent := by
  -- there are just as many arguments as slots, so that is no reason to refuse
  have hcount : ¬ (s.schema.kind k).slotCount < (vs.map Filling.value ++ fs).length := by
    rw [List.length_append, List.length_map, Kind.slotCount]
    omega
  unfold construct at h
  split at h
  · next hfill =>
    cases h
    rw [fill, if_neg hcount] at hfill
    split at hfill
    · next hvalues =>
      cases hfill
      exact ofContent_of_fillValues hvalues
    · next ws left hvalues =>
      obtain ⟨-, rfl⟩ := fillValues_eq_ok_of_length hvs hvalues
      split at hfill
      · next hchildren =>
        cases hfill
        exact ofContent_of_fillChildren halive hchildren
      · cases hfill
  · split at h
    · cases h
    · cases h
      -- the arguments are accepted, and the store has no place left
      exact .inl rfl

end

end Store

namespace Wire

/-! ### What readers report -/

/-- The reader only reports what can be wrong with a part. -/
def ReportsParts {α : Type} (r : Reader α) : Prop := ∀ data e, r data = .error e → OfPart e

section

variable {field : Field} (hfield : field ≠ .rootNode)
include hfield

/-- A number that does not fit is reported as a fault of its own part. -/
theorem reportsParts_overflow {α : Type} (last : UInt8) :
    ReportsParts (overflow field last : Reader α) := by
  intro data
  induction data generalizing last with
  | nil =>
    intro e h
    rw [overflow] at h
    split at h
    · cases h
      trivial
    · cases h
      exact hfield
  | cons b data ih =>
    intro e h
    rw [overflow] at h
    split at h
    · cases h
      trivial
    · exact ih b e h

/-- So is one whose bytes end too early. -/
theorem reportsParts_readGroups (allowed : UInt8 → Bool) (n : Nat) :
    ReportsParts (readGroups allowed field n) := by
  intro data
  induction data generalizing n with
  | nil =>
    intro e h
    cases n <;> cases h <;> exact hfield
  | cons b data ih =>
    intro e h
    cases n with
    | zero =>
      rw [readGroups] at h
      split at h
      · cases h
      · exact reportsParts_overflow hfield b data e h
    | succ n =>
      rw [readGroups] at h
      split at h
      · cases h
      · split at h
        · next he =>
          cases h
          exact ih n e he
        · cases h

end

/-- So do all readers, since those of bytes and of numbers do. -/
theorem compositional_reportsParts : Compositional ReportsParts where
  pure a := fun _ _ h => by cases h
  fail e he := by
    intro data e' h
    cases h
    exact he
  bind {α β r f} hr hf := by
    intro data e h
    change (r data >>= fun p => f p.1 p.2) = .error e at h
    cases hread : r data with
    | error e' =>
      rw [hread] at h
      cases h
      exact hr data e hread
    | ok p =>
      rw [hread] at h
      exact hf p.1 p.2 e h
  readByte field hfield := by
    intro data e h
    cases data with
    | nil =>
      cases h
      exact hfield
    | cons b data => cases h
  readBytes n field hfield := by
    intro data e h
    simp only [readBytes] at h
    split at h
    · cases h
      exact hfield
    · cases h
  readGroups allowed field n hfield := reportsParts_readGroups hfield allowed n

/-! ### Errors of the whole -/

/-- The error says what is wrong with the bytes.  There is a root, and the store rejects a node
    for its content only. -/
def Sensible (e : WireError) : Prop :=
  e ≠ .truncated .rootNode ∧ ∀ x, e = .rejected x → x.OfContent

/-- A fault of a part is none of the store. -/
theorem OfPart.sensible {e : WireError} (h : OfPart e) : Sensible e := by
  constructor
  · rintro rfl
    exact h rfl
  · rintro x rfl
    exact h.elim

end Wire

end TypedForest
