import ContentTypes.Value.Basic

/-!
# Content schemas

A content schema says what kinds of documents a site has, and what fields each of them carries.
Documents and the objects nested in them are kept under their names, in the order in which they were
given. A field is a name, a few properties and a type; the types of fields and of the items of lists
are defined together, since both may be records with fields of their own.

Names, labels and the like are values, not texts: a schema is taken as it comes, and what it holds in
these places shows in the declarations as it is.
-/

set_option autoImplicit false

namespace ContentTypes

/-- A field with a type of the sort `τ`. A description or default of null says that there is none. -/
structure FieldOf (τ : Type) where
  name : Value
  required : Value
  description : Value
  default : Value
  type : τ
  deriving Inhabited

mutual

/-- The type of a field. A list may lack its item; `unknown` holds a kind of field that has no rule,
with the members it came with; `plain` is a field without a kind. -/
inductive FieldType where
  | boolean
  | string
  | date
  | image
  | markdown
  | reference (document : Value)
  | object (name : Value)
  | inlineObject (fields : List (FieldOf FieldType))
  | enumeration (options : List Value)
  | list (item : Option ItemType)
  | polymorphicList (items : List ItemType)
  | unknown (kind : Value) (extra : List (String × Value))
  | plain

/-- The type of the items of a list. -/
inductive ItemType where
  | boolean
  | string
  | object (name : Value)
  | enumeration (options : List Value)
  | inlineObject (fields : List (FieldOf FieldType))
  | reference (document : Value)
  | unknown (kind : Value) (extra : List (String × Value))
  | plain

end

instance : Inhabited FieldType := ⟨.plain⟩

instance : Inhabited ItemType := ⟨.plain⟩

/-- A field of a document or an object. -/
abbrev Field := FieldOf FieldType

/-- A field of a document that is computed from the others; its type is written as it stands. -/
structure ComputedField where
  name : Value
  type : Value
  description : Value

/-- What documents and objects have in common. -/
structure Definition where
  name : Value
  label : Value
  description : Value
  fields : List Field

/-- A kind of document. -/
structure Document extends Definition where
  computed : List ComputedField
  /-- The pattern of the files that hold documents of this kind. -/
  filePathPattern : Value

/-- A schema: the kinds of documents and of objects by name. -/
structure Schema where
  documents : List (Value × Document)
  objects : List (Value × Definition)

/-! ## The names of kinds -/

/-- The kinds of fields that have a rule. -/
inductive FieldTag where
  | boolean | string | date | image | markdown | reference | object | inlineObject | list
  | polymorphicList | enumeration
  deriving DecidableEq, Repr

/-- The kinds of list items that have a rule. -/
inductive ItemTag where
  | boolean | string | object | enumeration | inlineObject | reference
  deriving DecidableEq, Repr

/-- The name of a kind of field. -/
def FieldTag.name : FieldTag → String
  | .boolean => "boolean"
  | .string => "string"
  | .date => "date"
  | .image => "image"
  | .markdown => "markdown"
  | .reference => "reference"
  | .object => "object"
  | .inlineObject => "inline_object"
  | .list => "list"
  | .polymorphicList => "polymorphic_list"
  | .enumeration => "enum"

/-- The name of a kind of list item. -/
def ItemTag.name : ItemTag → String
  | .boolean => "boolean"
  | .string => "string"
  | .object => "object"
  | .enumeration => "enum"
  | .inlineObject => "inline_object"
  | .reference => "reference"

/-- All kinds of fields that have a rule. -/
def FieldTag.all : List FieldTag :=
  [.boolean, .string, .date, .image, .markdown, .reference, .object, .inlineObject, .list,
    .polymorphicList, .enumeration]

/-- All kinds of list items that have a rule. -/
def ItemTag.all : List ItemTag :=
  [.boolean, .string, .object, .enumeration, .inlineObject, .reference]

/-- The kind of field that a value names, if it has a rule. -/
def FieldTag.ofValue? : Value → Option FieldTag
  | .str s => FieldTag.all.find? fun tag => tag.name == s
  | _ => none

/-- The kind of list item that a value names, if it has a rule. -/
def ItemTag.ofValue? : Value → Option ItemTag
  | .str s => ItemTag.all.find? fun tag => tag.name == s
  | _ => none

/-- The kind that the type of a field is written with in a schema. -/
def FieldType.kind : FieldType → Value
  | .boolean => .str FieldTag.boolean.name
  | .string => .str FieldTag.string.name
  | .date => .str FieldTag.date.name
  | .image => .str FieldTag.image.name
  | .markdown => .str FieldTag.markdown.name
  | .reference _ => .str FieldTag.reference.name
  | .object _ => .str FieldTag.object.name
  | .inlineObject _ => .str FieldTag.inlineObject.name
  | .enumeration _ => .str FieldTag.enumeration.name
  | .list _ => .str FieldTag.list.name
  | .polymorphicList _ => .str FieldTag.polymorphicList.name
  | .unknown kind _ => kind
  | .plain => .str ""

/-- The kind that the type of an item is written with in a schema. -/
def ItemType.kind : ItemType → Value
  | .boolean => .str ItemTag.boolean.name
  | .string => .str ItemTag.string.name
  | .object _ => .str ItemTag.object.name
  | .enumeration _ => .str ItemTag.enumeration.name
  | .inlineObject _ => .str ItemTag.inlineObject.name
  | .reference _ => .str ItemTag.reference.name
  | .unknown kind _ => kind
  | .plain => .str ""

end ContentTypes
