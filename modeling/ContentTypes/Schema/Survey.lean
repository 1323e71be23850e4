import ContentTypes.Notice
import ContentTypes.Schema.OfValue

/-!
# Surveys of schemas

What there is to report while a schema is loaded: each field and list item of a kind without a rule,
in the order in which they are come upon, up to the first node that is malformed, and the size of a
schema that is not. The survey goes the way of `Schema.ofValue` and asks it where to stop.
-/

set_option autoImplicit false

namespace ContentTypes

/-- The items of a member that is a list, of which there may be none. -/
def listedMember (members : Members) (name : String) : List Value :=
  match members.lookup name with
  | some (.arr items) => items
  | _ => []

theorem sizeOf_listedMember_lt (members : Members) (name : String) :
    sizeOf (listedMember members name) < sizeOf (Value.obj members) := by
  unfold listedMember
  split
  · have := sizeOf_lt_of_lookup ‹_›
    simp only [Value.arr.sizeOf_spec, Value.obj.sizeOf_spec] at this ⊢
    omega
  · exact sizeOf_nil_lt_obj members

mutual

/-- The notices about a field. -/
def surveyField (place : Pointer) (raw : Value) : List Notice :=
  match raw with
  | .obj members =>
      match members.lookup "name", members.lookup "type" with
      | some _, some kind =>
          if !kind.isScalar then []
          else match FieldTag.ofValue? kind with
            | none => [.unknownField kind place]
            | some .inlineObject =>
                surveyFields (place.member "fieldDefs") 0 (listedMember members "fieldDefs")
            | some .list =>
                match _h : members.lookup "of" with
                | some raw => surveyItem (place.member "of") raw
                | none => []
            | some .polymorphicList =>
                surveyItems (place.member "of") 0 (listedMember members "of")
            | some _ => []
      | _, _ => []
  | _ => []
termination_by sizeOf raw
decreasing_by
  · exact sizeOf_listedMember_lt members "fieldDefs"
  · have := sizeOf_lt_of_lookup _h
    simp only [Value.obj.sizeOf_spec]
    omega
  · exact sizeOf_listedMember_lt members "of"

/-- The notices about fields, up to the first that is malformed. -/
def surveyFields (place : Pointer) (index : Nat) (raws : List Value) : List Notice :=
  match raws with
  | [] => []
  | raw :: rest =>
      surveyField (place.item index) raw ++
        if (fieldOfValue (place.item index) raw).toBool then surveyFields place (index + 1) rest
        else []
termination_by sizeOf raws

/-- The notices about an item of a list. -/
def surveyItem (place : Pointer) (raw : Value) : List Notice :=
  match raw with
  | .obj members =>
      match members.lookup "type" with
      | some kind =>
          if !kind.isScalar then []
          else match ItemTag.ofValue? kind with
            | none => [.unknownItem kind place]
            | some .inlineObject =>
                surveyFields (place.member "fieldDefs") 0 (listedMember members "fieldDefs")
            | some _ => []
      | none => []
  | _ => []
termination_by sizeOf raw
decreasing_by exact sizeOf_listedMember_lt members "fieldDefs"

/-- The notices about items of a list, up to the first that is malformed. -/
def surveyItems (place : Pointer) (index : Nat) (raws : List Value) : List Notice :=
  match raws with
  | [] => []
  | raw :: rest =>
      surveyItem (place.item index) raw ++
        if (itemOfValue (place.item index) raw).toBool then surveyItems place (index + 1) rest
        else []
termination_by sizeOf raws

end

/-- The notices about the entries of a map of definitions, up to the first that is malformed. -/
def surveyEntries {α : Type} (place : Pointer)
    (ofEntry : Pointer → String → Value → Except LoadError α) (nameOf : α → Value) :
    Members → List Notice
  | [] => []
  | (key, raw) :: rest =>
      let here := place.member key
      let own := match raw with
        | .obj members =>
            surveyFields (here.member "fieldDefs") 0 (listedMember members "fieldDefs")
        | _ => []
      let sound := match ofEntry here key raw with
        | .ok definition => (nameOf definition).isScalar
        | .error _ => false
      own ++ if sound then surveyEntries place ofEntry nameOf rest else []

namespace Schema

/-- The notices about a schema while it is loaded from a value. -/
def survey (raw : Value) : List Notice :=
  match raw with
  | .obj members =>
      match entriesOf members "documentDefMap" with
      | .error _ => []
      | .ok documents =>
          let place := Pointer.root.member "documentDefMap"
          surveyEntries place documentOfEntry (fun d => d.name) documents ++
            if (addEntries place documentOfEntry (fun d => d.name) [] documents).toBool then
              match entriesOf members "objectDefMap" with
              | .error _ => []
              | .ok objects =>
                  surveyEntries (Pointer.root.member "objectDefMap") objectOfEntry (fun d => d.name)
                      objects ++
                    match ofValue raw with
                    | .ok schema => [.loaded schema.documents.length schema.objects.length]
                    | .error _ => []
            else []
  | _ => []

/-- The notices about a schema while it is loaded from the bytes of a file. -/
def surveyBytes (bytes : List UInt8) : List Notice :=
  match valueOfBytes bytes with
  | .ok raw => survey raw
  | .error _ => []

end Schema

end ContentTypes
