import TypedForest.Snapshot.Basic
import TypedForest.Value.Json

namespace TypedForest

/-!
# Snapshots as JSON

A node is an object with the fields `kind`, `values`, `children` and `notes`; an empty one
of the last three is left out.  Values and children are arrays of pairs of a name and what
stands under it, notes are an object.

Reading takes the fields in any order and passes over fields with other names, whatever
they hold.  It also takes a node as an array of the four in order, of which the later ones
may be missing.
-/

namespace Snapshot

/-! ### Writing -/

/-- A named value as a pair. -/
def entryJson (e : String × Value) : Json := .arr [Json.ofString e.1, e.2.toJson]

/-- A field that is left out when it is empty. -/
def optionalField (name : String) (isEmpty : Bool) (j : Json) : List (Option String × Json) :=
  if isEmpty then [] else [(some name, j)]

mutual

/-- The document of a snapshot. -/
def toJson : Snapshot → Json
  | .mk kind values children notes =>
    .obj ((some "kind", Json.ofString kind)
      :: (optionalField "values" values.isEmpty (.arr (values.map entryJson))
        ++ optionalField "children" children.isEmpty (.arr (childrenJson children))
        ++ optionalField "notes" notes.entries.isEmpty
          (.obj (notes.entries.map fun e => (some e.1, e.2.toJson)))))

/-- The documents of named slots. -/
def childrenJson : List (String × Child) → List Json
  | [] => []
  | (name, c) :: cs => .arr [Json.ofString name, childJson c] :: childrenJson cs

/-- The document of what a slot holds. -/
def childJson : Child → Json
  | .absent => Json.ofString "absent"
  | .node t => Json.tagged "node" (toJson t)
  | .list ts => Json.tagged "list" (.arr (toJsons ts))

/-- The documents of several snapshots. -/
def toJsons : List Snapshot → List Json
  | [] => []
  | t :: ts => toJson t :: toJsons ts

end

/-! ### Reading -/

/-- A pair of a name and what `read` makes of its other half, if one more level may be
    entered. -/
def pairOfJson? {α : Type} (depth : Nat) (read : Json → Option α) : Json → Option (String × α)
  | .arr [.str (some name), j] => if depth = 0 then none else (read j).map (name, ·)
  | _ => none

/-- An array of such pairs, if two more levels may be entered. -/
def pairsOfJson? {α : Type} (depth : Nat) (read : Json → Option α) :
    Json → Option (List (String × α))
  | .arr items => if depth = 0 then none else items.mapM (pairOfJson? (depth - 1) read)
  | _ => none

/-- A field of an object of notes. -/
def noteOfJson? (depth : Nat) : Option String × Json → Option (String × Value)
  | (some name, j) => (Value.ofJson? depth j).map (name, ·)
  | (none, _) => none

/-- An object of notes; of fields with the same name the last one counts. -/
def notesOfJson? (depth : Nat) : Json → Option Notes
  | .obj fields =>
    if depth = 0 then none else (fields.mapM (noteOfJson? (depth - 1))).map Notes.ofList
  | _ => none

/-- What a field that may be missing stands for. -/
def fieldOr? {α : Type} (read : Json → Option α) (absent : α) : Option Json → Option α
  | none => some absent
  | some j => read j

/-- A snapshot from its parts, given how a child slot is read. -/
def ofParts? (depth : Nat) (child : Json → Option Child) (kind : Json)
    (values children notes : Option Json) : Option Snapshot := do
  let kind ← kind.text?
  let values ← fieldOr? (pairsOfJson? depth (Value.ofJson? (depth - 2))) [] values
  let children ← fieldOr? (pairsOfJson? depth child) [] children
  let notes ← fieldOr? (notesOfJson? depth) Notes.empty notes
  return .mk kind values children notes

/-- The content of the field of a name, if there is one; a repeated field is refused. -/
def uniqueField? (fields : List (Option String × Json)) (name : String) : Option (Option Json) :=
  match fields.filter (·.1 == some name) with
  | [] => some none
  | [(_, j)] => some (some j)
  | _ => none

/-- A snapshot from the fields of an object. -/
def ofFields? (depth : Nat) (child : Json → Option Child) (fields : List (Option String × Json)) :
    Option Snapshot := do
  if fields.any (·.1.isNone) then none
  else
    let kind ← (← uniqueField? fields "kind")
    let values ← uniqueField? fields "values"
    let children ← uniqueField? fields "children"
    let notes ← uniqueField? fields "notes"
    ofParts? depth child kind values children notes

/-- A snapshot from the items of an array. -/
def ofItems? (depth : Nat) (child : Json → Option Child) : List Json → Option Snapshot
  | [kind] => ofParts? depth child kind none none none
  | [kind, values] => ofParts? depth child kind (some values) none none
  | [kind, values, children] => ofParts? depth child kind (some values) (some children) none
  | [kind, values, children, notes] =>
    ofParts? depth child kind (some values) (some children) (some notes)
  | _ => none

/-- What a slot holds, if `depth` more levels may be entered, given how its node and
    the items of its list are read. -/
def childOfJson? (depth : Nat) (node item : Json → Option Snapshot) : Json → Option Child
  | .str (some name) => if name = "absent" then some .absent else none
  | .obj [(some "absent", .null)] => if depth = 0 then none else some .absent
  | .obj [(some "node", t)] => if depth = 0 then none else (node t).map .node
  | .obj [(some "list", .arr ts)] => if depth < 2 then none else (ts.mapM item).map .list
  | _ => none

/-- The snapshot of a document in which at most `depth` arrays and objects stand inside
    each other, not counting the fields that are passed over. -/
def ofJson? : (depth : Nat) → Json → Option Snapshot
  | 0, _ => none
  | depth + 1, j =>
    -- The array of slots and the pair of each take a level, the slot's object a third
    -- and a list a fourth.
    let child := childOfJson? (depth - 2) (ofJson? (depth - 3)) (ofJson? (depth - 4))
    match j with
    | .obj fields => ofFields? depth child fields
    | .arr items => ofItems? depth child items
    | _ => none
termination_by depth => depth

/-- The indented JSON text of a snapshot. -/
def jsonText (t : Snapshot) : String := t.toJson.prettyText

/-- The snapshot of a JSON text. -/
def ofJsonText? (text : String) : Option Snapshot :=
  (Json.read? text).bind (ofJson? Json.maxDepth)

end Snapshot

end TypedForest
