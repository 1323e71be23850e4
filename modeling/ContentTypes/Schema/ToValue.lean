import ContentTypes.Json.Printer
import ContentTypes.Schema.Basic

/-!
# Values from schemas

`Schema.toValue` gives the JSON form of a schema. The members of a node come in a fixed order, those
of which null says that there is none are left out, and the members kept for a kind without a rule
come last. `Schema.toJson` writes the form as text.
-/

set_option autoImplicit false

namespace ContentTypes

/-- A member that is left out when its value is null. -/
def optionalMember (name : String) (v : Value) : Members := if v.isNull then [] else [(name, v)]

/-- The members that every field has, whatever its kind. -/
def fieldHead (name required description default kind : Value) : Members :=
  [("type", kind), ("name", name), ("required", required)] ++
    optionalMember "description" description ++ optionalMember "default" default

mutual

/-- The form of a field. -/
def fieldToValue : FieldOf FieldType → Value
  | ⟨name, required, description, default, type⟩ =>
      .obj (fieldMembers (fieldHead name required description default type.kind) type)

/-- The members of a field behind those that every field has. -/
def fieldMembers (head : Members) : FieldType → Members
  | .object name => head ++ [("objectName", name)]
  | .reference document => head ++ [("documentName", document)]
  | .inlineObject fields => head ++ [("fieldDefs", .arr (fieldsToValues fields))]
  | .enumeration options => head ++ [("options", .arr options)]
  | .list none => head ++ [("of", .null)]
  | .list (some item) => head ++ [("of", itemToValue item)]
  | .polymorphicList items => head ++ [("of", .arr (itemsToValues items))]
  | .unknown _ extra => Members.setAll head extra
  | .boolean | .string | .date | .image | .markdown | .plain => head

/-- The forms of fields. -/
def fieldsToValues : List (FieldOf FieldType) → List Value
  | [] => []
  | field :: rest => fieldToValue field :: fieldsToValues rest

/-- The form of an item of a list. -/
def itemToValue : ItemType → Value
  | .object name => .obj [("type", .str ItemTag.object.name), ("objectName", name)]
  | .reference document => .obj [("type", .str ItemTag.reference.name), ("documentName", document)]
  | .enumeration options => .obj [("type", .str ItemTag.enumeration.name), ("options", .arr options)]
  | .inlineObject fields =>
      .obj [("type", .str ItemTag.inlineObject.name), ("fieldDefs", .arr (fieldsToValues fields))]
  | .unknown kind extra => .obj (Members.setAll [("type", kind)] extra)
  | .boolean => .obj [("type", .str ItemTag.boolean.name)]
  | .string => .obj [("type", .str ItemTag.string.name)]
  | .plain => .obj [("type", .str "")]

/-- The forms of the items of a list. -/
def itemsToValues : List ItemType → List Value
  | [] => []
  | item :: rest => itemToValue item :: itemsToValues rest

end

/-- The form of a computed field. -/
def ComputedField.toValue (c : ComputedField) : Value :=
  .obj ([("name", c.name), ("type", c.type)] ++ optionalMember "description" c.description)

/-- The form of a kind of object. -/
def Definition.toValue (d : Definition) : Value :=
  .obj ([("name", d.name), ("label", d.label)] ++ optionalMember "description" d.description ++
    [("fieldDefs", .arr (fieldsToValues d.fields))])

/-- The form of a kind of document. -/
def Document.toValue (d : Document) : Value :=
  .obj ([("name", d.name), ("label", d.label)] ++ optionalMember "description" d.description ++
    optionalMember "filePathPattern" d.filePathPattern ++
    [("fieldDefs", .arr (fieldsToValues d.fields)),
      ("computedFields", .arr (d.computed.map ComputedField.toValue))])

/-- A name as the name of a member: a text as it is, anything else as JSON. -/
def Value.memberName : Value → String
  | .str s => s
  | v => String.ofList (Json.print v)

namespace Schema

/-- The form of a schema. -/
def toValue (schema : Schema) : Value :=
  .obj [
    ("documentDefMap", .obj (schema.documents.map fun (name, d) => (name.memberName, d.toValue))),
    ("objectDefMap", .obj (schema.objects.map fun (name, d) => (name.memberName, d.toValue)))]

/-- A schema as JSON text. -/
def toJson (schema : Schema) : String := String.ofList (Json.print schema.toValue)

end Schema

end ContentTypes
