import ContentTypes.TypeScript.Expression

/-!
# Type declarations

The declaration of one kind of document or object: an exported record type with members that identify
it, a member for each field and, for a document, one for each computed field. The description of the
definition, or its label if it has no description, is the comment before it.
-/

set_option autoImplicit false

namespace ContentTypes.TypeScript

/-- A type declaration under the name of its definition. -/
structure Declaration where
  name : Value
  text : String

/-- A computed field as a member of a record; its type is written as it stands. -/
def computedLine (c : ComputedField) : String :=
  described c.description (indent ++ c.name.display ++ ": " ++ c.type.display)

/-- The comment before a declaration, if there is anything to say. -/
def commentLines (d : Definition) : List String :=
  let text := if d.description.holds then d.description else d.label
  if text.holds then [docComment "" text] else []

/-- The text of a declaration with the given members; those of `identity` come first. -/
def declarationText (d : Definition) (identity members : List String) : String :=
  String.intercalate "\n" <|
    commentLines d ++ ["export type " ++ d.name.display ++ " = \x7b"] ++ identity ++
      ["  _typeName: '" ++ d.name.display ++ "'", "  _raw?: Record<string, any>"] ++ members ++
      ["\x7d"]

/-- The members of a kind of object. -/
def objectMembers (d : Definition) : Except RenderError (List String) := fieldLines d.fields

/-- The members of a kind of document: its fields, then its computed fields. -/
def documentMembers (d : Document) : Except RenderError (List String) := do
  let lines ← fieldLines d.fields
  return lines ++ d.computed.map computedLine

/-- The declaration of a kind of object. -/
def objectDeclaration (d : Definition) : Except RenderError Declaration := do
  let members ← objectMembers d
  return ⟨d.name, declarationText d [] members⟩

/-- The declaration of a kind of document. -/
def documentDeclaration (d : Document) : Except RenderError Declaration := do
  let members ← documentMembers d
  return ⟨d.name, declarationText d.toDefinition ["  _id: string"] members⟩

end ContentTypes.TypeScript
