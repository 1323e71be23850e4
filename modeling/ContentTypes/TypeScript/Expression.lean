import ContentTypes.Schema.Basic
import ContentTypes.Value.Display
import ContentTypes.Value.Order

/-!
# Type expressions

The TypeScript type of a field. `fieldExpression` and `itemExpression` write the types of fields and
of list items, `fieldLine` writes a field as a member of a record, with its description as a comment
on the line before. A kind without a rule becomes a literal type that names it.

Only one thing can fail. An object or a reference stands for itself in a type, and its name may be
any value; where the name has to be joined with other text it must be a text.
-/

set_option autoImplicit false

namespace ContentTypes

/-- Why declarations cannot be written. -/
inductive RenderError where
  /-- The names of two definitions have no order. -/
  | unordered (kinds : Unordered)
  /-- What stands at this position of a union is no text. -/
  | notText (position : Nat) (found : Kind)
  /-- What the items of a list are named by is no text. -/
  | notAppendable (found : Kind)
  deriving DecidableEq, Repr

/-- The wording of an error. -/
def RenderError.message : RenderError → String
  | .unordered ⟨left, right⟩ =>
      s!"'<' not supported between instances of '{left.name}' and '{right.name}'"
  | .notText position found =>
      s!"sequence item {position}: expected str instance, {found.name} found"
  | .notAppendable .arr => "can only concatenate list (not \"str\") to list"
  | .notAppendable found => s!"unsupported operand type(s) for +: '{found.name}' and 'str'"

namespace TypeScript

/-- The indent of the members of a record. -/
def indent : String := "  "

/-- What stands between the members of a union. -/
def unionBar : String := " | "

/-- A comment on a line of its own. -/
def docComment (indent : String) (text : Value) : String := indent ++ "/** " ++ text.display ++ " */"

/-- A line with its description as a comment before it, if it has one. -/
def described (description : Value) (line : String) : String :=
  if description.holds then docComment indent description ++ "\n" ++ line else line

/-- A value as a literal type. -/
def literal (v : Value) : String := "'" ++ v.display ++ "'"

/-- The literal type that stands for a kind without a rule. -/
def todo (kind : Value) : String := "'todo " ++ kind.display ++ "'"

/-- The union of literal types. -/
def literalUnion (options : List Value) : String :=
  String.intercalate unionBar (options.map literal)

/-- A record type with one line, or several, for each member. -/
def record (lines : List String) : String :=
  "\x7b\n" ++ String.intercalate "\n" lines ++ "\n\x7d"

/-- The texts among values that must all be texts, counted from `position` on. -/
def textsFrom (position : Nat) : List Value → Except RenderError (List String)
  | [] => .ok []
  | .str s :: rest => (textsFrom (position + 1) rest).map (s :: ·)
  | v :: _ => .error (.notText position v.kind)

/-- The union of types that must all be texts. -/
def union (types : List Value) : Except RenderError String :=
  (textsFrom 0 types).map (String.intercalate unionBar)

/-- The list type over a type that must be a text. -/
def listOf : Value → Except RenderError String
  | .str s => .ok (s ++ "[]")
  | v => .error (.notAppendable v.kind)

/-- A field as a member of a record, once its type is written. -/
def memberLine (name required description type : Value) : String :=
  described description
    (indent ++ name.display ++ ": " ++ type.display ++ (if required.holds then "" else " | undefined"))

mutual

/-- A field as a member of a record. -/
def fieldLine : FieldOf FieldType → Except RenderError String
  | ⟨name, required, description, _, type⟩ => do
      let type ← fieldExpression type
      return memberLine name required description type

/-- The type of a field. Dates are kept as text, and references as the text that identifies a
document. -/
def fieldExpression : FieldType → Except RenderError Value
  | .boolean => .ok (.str "boolean")
  | .string => .ok (.str "string")
  | .date => .ok (.str "string")
  | .image => .ok (.str "Image")
  | .markdown => .ok (.str "Markdown")
  | .reference _ => .ok (.str "string")
  | .object name => .ok name
  | .inlineObject fields => do
      let lines ← fieldLines fields
      return .str (record lines)
  | .enumeration options => .ok (.str (literalUnion options))
  | .list none => .ok (.str (todo (.str FieldTag.list.name)))
  | .list (some item) => do
      let type ← itemExpression item
      return .str (← listOf type)
  | .polymorphicList items => do
      let types ← itemExpressions items
      return .str ("(" ++ (← union types) ++ ")[]")
  | .unknown kind _ => .ok (.str (todo kind))
  | .plain => .ok (.str (todo (.str "")))

/-- The fields of a record, each as a member of it. -/
def fieldLines : List (FieldOf FieldType) → Except RenderError (List String)
  | [] => .ok []
  | field :: rest => do
      let line ← fieldLine field
      let lines ← fieldLines rest
      return line :: lines

/-- The type of a list item. -/
def itemExpression : ItemType → Except RenderError Value
  | .boolean => .ok (.str "boolean")
  | .string => .ok (.str "string")
  | .object name => .ok name
  | .enumeration options => .ok (.str ("(" ++ literalUnion options ++ ")"))
  | .inlineObject fields => do
      let lines ← fieldLines fields
      return .str (record lines)
  | .reference document => .ok document
  | .unknown kind _ => .ok (.str (todo kind))
  | .plain => .ok (.str (todo (.str "")))

/-- The types of list items. -/
def itemExpressions : List ItemType → Except RenderError (List Value)
  | [] => .ok []
  | item :: rest => do
      let type ← itemExpression item
      let types ← itemExpressions rest
      return type :: types

end

end TypeScript

end ContentTypes
