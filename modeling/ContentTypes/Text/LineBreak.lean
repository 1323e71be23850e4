/-!
# Line breaks

A text file may end its lines with a line feed, a carriage return or both. Reading one folds all
three to the line feed.
-/

set_option autoImplicit false

namespace ContentTypes.Text

/-- The text with every line break written as a line feed. -/
def foldLineBreaks : List Char → List Char
  | [] => []
  | '\r' :: '\n' :: rest => '\n' :: foldLineBreaks rest
  | c :: rest => (if c = '\r' then '\n' else c) :: foldLineBreaks rest

end ContentTypes.Text
