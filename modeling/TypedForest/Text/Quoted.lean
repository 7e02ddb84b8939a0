import TypedForest.Text.DefaultIgnorable
import TypedForest.Text.GraphemeExtend
import TypedForest.Text.Unprintable

namespace TypedForest

/-!
# Quoted text

`quoted` writes a text between double quotes in such a way that every character
can be seen: quotes, backslashes and the common control characters get short
escapes, and what has no visible form of its own is written by code point.
-/

namespace Quoted

/-- A code point in lowercase hexadecimal between braces. -/
def codePoint (c : Char) : List Char :=
  "\\u\x7b".toList ++ Nat.toDigits 16 c.toNat ++ ['\x7d']

/-- Whether a character cannot be seen on its own: it has no visible form, may be left
    out when it is shown, or is drawn on the character before it.  An extending letter
    has a place of its own. -/
def isHidden (c : Char) : Bool :=
  isUnprintable c || isDefaultIgnorable c || isGraphemeExtend c && !isExtendingLetter c

/-- The spelling of one character inside quotes. -/
def escape (c : Char) : List Char :=
  if c = '\x00' then ['\\', '0']
  else if c = '\t' then ['\\', 't']
  else if c = '\r' then ['\\', 'r']
  else if c = '\n' then ['\\', 'n']
  else if c = '\\' then ['\\', '\\']
  else if c = '\"' then ['\\', '\"']
  else if isHidden c then codePoint c
  else [c]

end Quoted

/-- A text between double quotes, with everything invisible escaped. -/
def quoted (s : String) : String :=
  "\"" ++ String.ofList (s.toList.flatMap Quoted.escape) ++ "\""

end TypedForest
