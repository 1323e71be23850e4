import ContentTypes.Schema.Basic

/-!
# Values that show

The declarations of a schema show some of its values as they are: names, the descriptions and labels that
say something, options, the names of objects and of documents, kinds without a rule, and the types of
computed fields. `SchemaShows p schema` says that all of these have the property `p`; the values that the
declarations leave out (defaults, patterns, the members of kinds without a rule) may be anything.
-/

set_option autoImplicit false

namespace ContentTypes.TypeScript

variable (p : Value → Prop)

mutual

/-- Whether the values that show in the type of a field have the property. -/
def TypeShows : FieldType → Prop
  | .object name => p name
  | .inlineObject fields => FieldsShow fields
  | .enumeration options => ∀ option ∈ options, p option
  | .list (some item) => ItemShows item
  | .polymorphicList items => ItemsShow items
  | .unknown kind _ => p kind
  | .boolean | .string | .date | .image | .markdown | .reference _ | .list none | .plain => True

/-- Whether the values that show in a field have the property. -/
def FieldShows : FieldOf FieldType → Prop
  | ⟨name, _, description, _, type⟩ =>
      p name ∧ (description.holds = true → p description) ∧ TypeShows type

/-- Whether the values that show in fields have the property. -/
def FieldsShow : List (FieldOf FieldType) → Prop
  | [] => True
  | field :: rest => FieldShows field ∧ FieldsShow rest

/-- Whether the values that show in the type of a list item have the property. -/
def ItemShows : ItemType → Prop
  | .object name => p name
  | .reference document => p document
  | .enumeration options => ∀ option ∈ options, p option
  | .inlineObject fields => FieldsShow fields
  | .unknown kind _ => p kind
  | .boolean | .string | .plain => True

/-- Whether the values that show in the types of list items have the property. -/
def ItemsShow : List ItemType → Prop
  | [] => True
  | item :: rest => ItemShows item ∧ ItemsShow rest

end

/-- Whether the values that show in a computed field have the property. -/
structure ComputedShows (c : ComputedField) : Prop where
  name : p c.name
  type : p c.type
  description : c.description.holds = true → p c.description

/-- Whether the values that show in a definition have the property; its label shows where it has no
description. -/
structure DefinitionShows (d : Definition) : Prop where
  name : p d.name
  description : d.description.holds = true → p d.description
  label : d.description.holds = false → d.label.holds = true → p d.label
  fields : FieldsShow p d.fields

/-- Whether the values that show in a kind of document have the property. -/
structure DocumentShows (d : Document) : Prop extends DefinitionShows p d.toDefinition where
  computed : ∀ c ∈ d.computed, ComputedShows p c

/-- Whether the values that show in the declarations of a schema have the property. -/
structure SchemaShows (schema : Schema) : Prop where
  documents : ∀ e ∈ schema.documents, DocumentShows p e.2
  objects : ∀ e ∈ schema.objects, DefinitionShows p e.2

end ContentTypes.TypeScript
