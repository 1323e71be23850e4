import ContentTypes.Json.Reader
import ContentTypes.Schema.Basic
import ContentTypes.Schema.Error
import ContentTypes.Text.LineBreak
import ContentTypes.Value.Order

/-!
# Schemas from values

`Schema.ofValue` takes the JSON form of a schema. It goes through the form once, in the order of its
entries, and stops at the first node that is malformed. Members that have no meaning for a node are
passed over; a kind of field without a rule is kept with all its members, as `FieldType.unknown`.

`Schema.ofBytes` reads the same form from the bytes of a file.
-/

set_option autoImplicit false

namespace ContentTypes

/-! ## Members of a node -/

/-- The items of a member that must be a list. A missing one counts as empty. -/
def listMember (place : Pointer) (members : Members) (name : String) :
    Except LoadError (List Value) :=
  match members.lookup name with
  | none => .ok []
  | some (.arr items) => .ok items
  | some v => .error (.malformed (place.member name) (.notList v.kind))

/-- The items of a member are smaller than the object. -/
theorem sizeOf_lt_of_listMember {place : Pointer} {members : Members} {name : String}
    {items : List Value} (h : listMember place members name = .ok items) :
    sizeOf items < sizeOf (Value.obj members) := by
  unfold listMember at h
  split at h
  · cases h
    exact sizeOf_nil_lt_obj members
  · rename_i found
    cases h
    have := sizeOf_lt_of_lookup found
    simp only [Value.arr.sizeOf_spec, Value.obj.sizeOf_spec] at this ⊢
    omega
  · cases h

/-- The members that every field has, whatever its kind. -/
def commonMembers : List String := ["type", "name", "required", "description", "default"]

/-! ## Fields and items -/

mutual

/-- The field that a value describes. -/
def fieldOfValue (place : Pointer) (raw : Value) : Except LoadError Field :=
  match raw with
  | .obj members =>
      match members.lookup "name", members.lookup "type" with
      | some name, some kind =>
          let field := fun (type : FieldType) =>
            FieldOf.mk name (.bool ((members.lookup "required").getD (.bool false)).holds)
              ((members.lookup "description").getD .null) ((members.lookup "default").getD .null) type
          if !kind.isScalar then .error (.unusableKey kind.kind)
          else match FieldTag.ofValue? kind with
            | none =>
                .ok (field (.unknown kind (members.filter fun m => !commonMembers.contains m.1)))
            | some .boolean => .ok (field .boolean)
            | some .string => .ok (field .string)
            | some .date => .ok (field .date)
            | some .image => .ok (field .image)
            | some .markdown => .ok (field .markdown)
            | some .reference => .ok (field (.reference ((members.lookup "documentName").getD (.str ""))))
            | some .object => .ok (field (.object ((members.lookup "objectName").getD (.str ""))))
            | some .inlineObject =>
                match _h : listMember place members "fieldDefs" with
                | .error e => .error e
                | .ok raws =>
                    (fieldsOfValues (place.member "fieldDefs") 0 raws).map fun fields =>
                      field (.inlineObject fields)
            | some .enumeration =>
                (listMember place members "options").map fun options =>
                  field (.enumeration options)
            | some .list =>
                match _h : members.lookup "of" with
                | none => .error (.malformed (place.member "of") (.notObject .null))
                | some raw =>
                    (itemOfValue (place.member "of") raw).map fun item => field (.list (some item))
            | some .polymorphicList =>
                match _h : listMember place members "of" with
                | .error e => .error e
                | .ok raws =>
                    (itemsOfValues (place.member "of") 0 raws).map fun items =>
                      field (.polymorphicList items)
      | _, _ => .error (.malformed place .fieldIncomplete)
  | other => .error (.malformed place (.notObject other.kind))
termination_by sizeOf raw
decreasing_by
  · exact sizeOf_lt_of_listMember _h
  · have := sizeOf_lt_of_lookup _h
    simp only [Value.obj.sizeOf_spec]
    omega
  · exact sizeOf_lt_of_listMember _h

/-- The fields that the values of a list describe, from position `index` on. -/
def fieldsOfValues (place : Pointer) (index : Nat) (raws : List Value) :
    Except LoadError (List Field) :=
  match raws with
  | [] => .ok []
  | raw :: rest =>
      match fieldOfValue (place.item index) raw with
      | .error e => .error e
      | .ok field => (fieldsOfValues place (index + 1) rest).map (field :: ·)
termination_by sizeOf raws

/-- The item of a list that a value describes. -/
def itemOfValue (place : Pointer) (raw : Value) : Except LoadError ItemType :=
  match raw with
  | .obj members =>
      match members.lookup "type" with
      | some kind =>
          if !kind.isScalar then .error (.unusableKey kind.kind)
          else match ItemTag.ofValue? kind with
            | none => .ok (.unknown kind (members.filter fun m => m.1 != "type"))
            | some .boolean => .ok .boolean
            | some .string => .ok .string
            | some .object => .ok (.object ((members.lookup "objectName").getD (.str "")))
            | some .enumeration => (listMember place members "options").map .enumeration
            | some .inlineObject =>
                match _h : listMember place members "fieldDefs" with
                | .error e => .error e
                | .ok raws =>
                    (fieldsOfValues (place.member "fieldDefs") 0 raws).map .inlineObject
            | some .reference => .ok (.reference ((members.lookup "documentName").getD (.str "")))
      | none => .error (.malformed place .itemIncomplete)
  | other => .error (.malformed place (.notObject other.kind))
termination_by sizeOf raw
decreasing_by
  exact sizeOf_lt_of_listMember _h

/-- The items that the values of a list describe, from position `index` on. -/
def itemsOfValues (place : Pointer) (index : Nat) (raws : List Value) :
    Except LoadError (List ItemType) :=
  match raws with
  | [] => .ok []
  | raw :: rest =>
      match itemOfValue (place.item index) raw with
      | .error e => .error e
      | .ok item => (itemsOfValues place (index + 1) rest).map (item :: ·)
termination_by sizeOf raws

end

/-! ## Definitions -/

/-- The computed field that a value describes. -/
def computedOfValue (place : Pointer) : Value → Except LoadError ComputedField
  | .obj members =>
      match members.lookup "name", members.lookup "type" with
      | some name, some type => .ok ⟨name, type, (members.lookup "description").getD .null⟩
      | _, _ => .error (.malformed place .computedIncomplete)
  | other => .error (.malformed place (.notObject other.kind))

/-- The computed fields that the values of a list describe, from position `index` on. -/
def computedOfValues (place : Pointer) (index : Nat) :
    List Value → Except LoadError (List ComputedField)
  | [] => .ok []
  | raw :: rest => do
      let field ← computedOfValue (place.item index) raw
      let fields ← computedOfValues place (index + 1) rest
      return field :: fields

/-- The members of a node that must be an object. -/
def membersOf (place : Pointer) : Value → Except LoadError Members
  | .obj members => .ok members
  | other => .error (.malformed place (.notObject other.kind))

/-- What documents and objects have in common. A definition without a name of its own has the name it
is entered under. -/
def definitionOfMembers (place : Pointer) (key : String) (members : Members) :
    Except LoadError Definition := do
  let raws ← listMember place members "fieldDefs"
  let fields ← fieldsOfValues (place.member "fieldDefs") 0 raws
  return ⟨(members.lookup "name").getD (.str key), (members.lookup "label").getD (.str ""),
    (members.lookup "description").getD .null, fields⟩

/-- The kind of object that an entry of a schema describes. -/
def objectOfEntry (place : Pointer) (key : String) (raw : Value) :
    Except LoadError Definition := do
  definitionOfMembers place key (← membersOf place raw)

/-- The kind of document that an entry of a schema describes. -/
def documentOfEntry (place : Pointer) (key : String) (raw : Value) :
    Except LoadError Document := do
  let members ← membersOf place raw
  let definition ← definitionOfMembers place key members
  let raws ← listMember place members "computedFields"
  let computed ← computedOfValues (place.member "computedFields") 0 raws
  return ⟨definition, computed, (members.lookup "filePathPattern").getD .null⟩

/-- Adds the entries of a map of definitions, each under its own name. A definition takes the place
of an earlier one of the same name. -/
def addEntries {α : Type} (place : Pointer) (ofEntry : Pointer → String → Value → Except LoadError α)
    (nameOf : α → Value) (map : List (Value × α)) : Members → Except LoadError (List (Value × α))
  | [] => .ok map
  | (key, raw) :: rest => do
      let definition ← ofEntry (place.member key) key raw
      let name := nameOf definition
      if name.isScalar then
        addEntries place ofEntry nameOf (KeyedList.upsert Value.sameKey name definition map) rest
      else throw (.unusableKey name.kind)

/-- The entries of a map of definitions. A missing map counts as empty, and so does anything in its
place that counts as no. -/
def entriesOf (members : Members) (name : String) : Except LoadError Members :=
  match members.lookup name with
  | none => .ok []
  | some v =>
      if !v.holds then .ok []
      else match v with
        | .obj entries => .ok entries
        | _ => .error (.malformed (Pointer.root.member name) (.mapNotObject name))

namespace Schema

/-- The schema that a value describes. -/
def ofValue : Value → Except LoadError Schema
  | .obj members => do
      let documents ← addEntries (Pointer.root.member "documentDefMap") documentOfEntry
        (fun d => d.name) [] (← entriesOf members "documentDefMap")
      let objects ← addEntries (Pointer.root.member "objectDefMap") objectOfEntry
        (fun d => d.name) [] (← entriesOf members "objectDefMap")
      return ⟨documents, objects⟩
  | _ => throw (.malformed Pointer.root .schemaNotObject)

/-- The value that the bytes of a file hold as JSON. -/
def valueOfBytes (bytes : List UInt8) : Except FileDefect Value := do
  let text ← (Utf8.decode bytes).mapError .notText
  (Json.read (Text.foldLineBreaks text)).mapError .notJson

/-- The schema that the bytes of a file hold as JSON. -/
def ofBytes (bytes : List UInt8) : Except FileDefect Schema := do
  (ofValue (← valueOfBytes bytes)).mapError .notSchema

end Schema

end ContentTypes
