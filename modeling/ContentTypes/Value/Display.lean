import ContentTypes.Number.Shortest
import ContentTypes.Text.Quoted
import ContentTypes.Value.Basic

/-!
# The text of a value

How a value reads when it is put into a text: a text as it is, everything else in the notation of
`Value.shown`, in which the texts inside a list or an object are quoted.
-/

set_option autoImplicit false

namespace ContentTypes.Value

mutual

/-- The notation of a value: texts quoted, lists in brackets, objects in braces. -/
def shown : Value → String
  | .null => "None"
  | .bool b => if b then "True" else "False"
  | .int n => toString n
  | .float x => x.display
  | .str s => Text.quoted s
  | .arr items => "[" ++ String.intercalate ", " (shownItems items) ++ "]"
  | .obj members => "\x7b" ++ String.intercalate ", " (shownMembers members) ++ "\x7d"

/-- The notations of the items of a list. -/
def shownItems : List Value → List String
  | [] => []
  | v :: rest => shown v :: shownItems rest

/-- The notations of the members of an object. -/
def shownMembers : List (String × Value) → List String
  | [] => []
  | (key, v) :: rest => (Text.quoted key ++ ": " ++ shown v) :: shownMembers rest

end

/-- A value as part of a text. -/
def display : Value → String
  | .str s => s
  | v => shown v

end ContentTypes.Value
