import TypedForest.Number.Numeral

namespace TypedForest

/-!
# JSON documents

A document keeps what its text says and no more: numbers as they were written,
object fields in order and with repetitions.
-/

/-- A JSON document.  The text of a string or of a field name is `none` where its
    escapes leave half of a surrogate pair alone, so that no text has that
    spelling; a reader may still pass over such a string. -/
inductive Json
  | null
  | bool (b : Bool)
  | num (n : Numeral)
  | str (s : Option String)
  | arr (items : List Json)
  | obj (fields : List (Option String × Json))
deriving Repr, Inhabited

namespace Json

/-- The document of a text. -/
def ofString (s : String) : Json := .str (some s)

/-- The document of an integer. -/
def ofInt (i : Int) : Json := .num (Numeral.ofInt i)

/-- The object with one field. -/
def tagged (tag : String) (payload : Json) : Json := .obj [(some tag, payload)]

/-- The items of an array. -/
def items? : Json → Option (List Json)
  | arr items => some items
  | _ => none

/-- The text of a string. -/
def text? : Json → Option String
  | str s => s
  | _ => none

end Json

end TypedForest
