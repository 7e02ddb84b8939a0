import TypedForest.Json.Basic

namespace TypedForest

/-!
# Writing JSON

Two layouts: `Json.compact` without any blanks, and `Json.pretty` with every item
and field on a line of its own.  Both put their characters in front of a given
rest.
-/

namespace Json

/-- The spelling of one character inside a string: only the quote, the backslash
    and the control characters below the space are escaped. -/
def escape (c : Char) : List Char :=
  if c = '\"' then ['\\', '\"']
  else if c = '\\' then ['\\', '\\']
  else if c = '\x08' then ['\\', 'b']
  else if c = '\t' then ['\\', 't']
  else if c = '\n' then ['\\', 'n']
  else if c = '\x0c' then ['\\', 'f']
  else if c = '\r' then ['\\', 'r']
  else if c.toNat < 0x20 then
    ['\\', 'u', '0', '0', Nat.digitChar (c.toNat / 16), Nat.digitChar (c.toNat % 16)]
  else [c]

/-- A string in front of `rest`. -/
def writeString (s : Option String) (rest : List Char) : List Char :=
  '\"' :: ((s.getD "").toList.flatMap escape ++ '\"' :: rest)

/-- A number in front of `rest`. -/
def writeNumber (n : Numeral) (rest : List Char) : List Char := n.render ++ rest

/-- A truth value in front of `rest`. -/
def writeBool (b : Bool) (rest : List Char) : List Char :=
  (if b then "true" else "false").toList ++ rest

mutual

/-- A document without blanks, in front of `rest`. -/
def compact : Json → List Char → List Char
  | null, rest => 'n' :: 'u' :: 'l' :: 'l' :: rest
  | bool b, rest => writeBool b rest
  | num n, rest => writeNumber n rest
  | str s, rest => writeString s rest
  | arr items, rest => '[' :: compactItems items (']' :: rest)
  | obj fields, rest => '\x7b' :: compactFields fields ('\x7d' :: rest)

/-- Items with commas between them. -/
def compactItems : List Json → List Char → List Char
  | [], rest => rest
  | [j], rest => compact j rest
  | j :: k :: js, rest => compact j (',' :: compactItems (k :: js) rest)

/-- Fields with commas between them. -/
def compactFields : List (Option String × Json) → List Char → List Char
  | [], rest => rest
  | [(name, j)], rest => writeString name (':' :: compact j rest)
  | (name, j) :: f :: fs, rest =>
    writeString name (':' :: compact j (',' :: compactFields (f :: fs) rest))

end

/-- A line break and `depth` steps of two blanks, in front of `rest`. -/
def newline (depth : Nat) (rest : List Char) : List Char :=
  '\n' :: (List.replicate (2 * depth) ' ' ++ rest)

mutual

/-- A document at nesting depth `depth` with each item and field on a line of its
    own, in front of `rest`. -/
def pretty (depth : Nat) : Json → List Char → List Char
  | null, rest => 'n' :: 'u' :: 'l' :: 'l' :: rest
  | bool b, rest => writeBool b rest
  | num n, rest => writeNumber n rest
  | str s, rest => writeString s rest
  | arr [], rest => '[' :: ']' :: rest
  | arr (j :: js), rest =>
    '[' :: prettyItems (depth + 1) (j :: js) (newline depth (']' :: rest))
  | obj [], rest => '\x7b' :: '\x7d' :: rest
  | obj (f :: fs), rest =>
    '\x7b' :: prettyFields (depth + 1) (f :: fs) (newline depth ('\x7d' :: rest))

/-- Items, each after a line break, with commas between them. -/
def prettyItems (depth : Nat) : List Json → List Char → List Char
  | [], rest => rest
  | [j], rest => newline depth (pretty depth j rest)
  | j :: k :: js, rest =>
    newline depth (pretty depth j (',' :: prettyItems depth (k :: js) rest))

/-- Fields, each after a line break, with commas between them. -/
def prettyFields (depth : Nat) : List (Option String × Json) → List Char → List Char
  | [], rest => rest
  | [(name, j)], rest => newline depth (writeString name (':' :: ' ' :: pretty depth j rest))
  | (name, j) :: f :: fs, rest =>
    newline depth (writeString name
      (':' :: ' ' :: pretty depth j (',' :: prettyFields depth (f :: fs) rest)))

end

/-- The compact text of a document. -/
def compactText (j : Json) : String := String.ofList (compact j [])

/-- The text of a document with indented lines. -/
def prettyText (j : Json) : String := String.ofList (pretty 0 j [])

end Json

end TypedForest
