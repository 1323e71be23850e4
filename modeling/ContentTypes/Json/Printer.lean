import ContentTypes.Number.Shortest
import ContentTypes.Text.Quoted
import ContentTypes.Value.Basic

/-!
# Writing JSON

`Json.print` writes a value as JSON in lines, indented by two blanks for each list or object that is
open; empty lists and objects stay on one line. The text is plain ASCII: every other character is
written as an escape, those beyond the first plane as a surrogate pair, and a half of a pair that stands
alone as itself.
-/

set_option autoImplicit false

namespace ContentTypes.Json

/-- The escape of a sixteen-bit unit. -/
def unitEscape (n : Nat) : List Char := '\\' :: 'u' :: Text.hexDigits 4 n

/-- A character inside a JSON text. -/
def escapeChar (c : Char) : List Char :=
  if c = '"' then ['\\', '"']
  else if c = '\\' then ['\\', '\\']
  else if c = '\n' then ['\\', 'n']
  else if c = '\r' then ['\\', 'r']
  else if c = '\t' then ['\\', 't']
  else if c = '\x08' then ['\\', 'b']
  else if c = '\x0c' then ['\\', 'f']
  else if 0x20 ≤ c.toNat ∧ c.toNat < 0x7F then [c]
  else if c.toNat < 0x10000 then unitEscape c.toNat
  else
    let offset := c.toNat - 0x10000
    unitEscape (0xD800 + offset / 0x400) ++ unitEscape (0xDC00 + offset % 0x400)

/-- A code point inside a JSON text. A half is written like a character of its own. -/
def escapePoint : Text.CodePoint → List Char
  | .char c => escapeChar c
  | .half i => unitEscape (Text.CodePoint.unit i)

/-- A text between quotes. -/
def printText (s : String) : List Char := '"' :: (Text.points s).flatMap escapePoint ++ ['"']

/-- A floating-point number. -/
def printFloat : Floating → List Char
  | .nan => "NaN".toList
  | .infinite negative => if negative then "-Infinity".toList else "Infinity".toList
  | x => x.display.toList

/-- The start of a line at the given depth. -/
def newLine (depth : Nat) : List Char := '\n' :: List.replicate (2 * depth) ' '

mutual

/-- A value whose own lines are at the given depth. -/
def printAt (depth : Nat) : Value → List Char
  | .null => "null".toList
  | .bool b => if b then "true".toList else "false".toList
  | .int n => (toString n).toList
  | .float x => printFloat x
  | .str s => printText s
  | .arr [] => ['[', ']']
  | .arr (v :: rest) =>
      '[' :: newLine (depth + 1) ++ printAt (depth + 1) v ++ printItems (depth + 1) rest ++
        newLine depth ++ [']']
  | .obj [] => ['{', '}']
  | .obj ((name, v) :: rest) =>
      '{' :: newLine (depth + 1) ++ printText name ++ ':' :: ' ' :: printAt (depth + 1) v ++
        printMembers (depth + 1) rest ++ newLine depth ++ ['}']

/-- The items of a list behind its first, each on a line of its own. -/
def printItems (depth : Nat) : List Value → List Char
  | [] => []
  | v :: rest => ',' :: newLine depth ++ printAt depth v ++ printItems depth rest

/-- The members of an object behind its first, each on a line of its own. -/
def printMembers (depth : Nat) : List (String × Value) → List Char
  | [] => []
  | (name, v) :: rest =>
      ',' :: newLine depth ++ printText name ++ ':' :: ' ' :: printAt depth v ++
        printMembers depth rest

end

/-- A value as JSON, without a line break at the end. -/
def print (v : Value) : List Char := printAt 0 v

end ContentTypes.Json
