import ContentTypes.Json.Fault
import ContentTypes.Schema.Pointer
import ContentTypes.Text.Quoted
import ContentTypes.Text.Utf8
import ContentTypes.Value.Basic

/-!
# Defects of schemas

Why a value is no schema, and why a file holds none, with the wording of each cause.
-/

set_option autoImplicit false

namespace ContentTypes

/-- What is wrong with a node of a schema. -/
inductive Problem where
  | schemaNotObject
  | mapNotObject (name : String)
  | notObject (found : Kind)
  | notList (found : Kind)
  | fieldIncomplete
  | computedIncomplete
  | itemIncomplete
  deriving DecidableEq, Repr

/-- The wording of a problem. -/
def Problem.message : Problem → String
  | .schemaNotObject => "schema must be an object"
  | .mapNotObject name => s!"'{name}' must be an object"
  | .notObject found => s!"expected an object, got {found.name}"
  | .notList found => s!"expected a list, got {found.name}"
  | .fieldIncomplete => "field requires 'name' and 'type'"
  | .computedIncomplete => "computed field requires 'name' and 'type'"
  | .itemIncomplete => "list item requires 'type'"

/-- Why a value is no schema: a node is malformed, or what stands for a name or a kind is a list or
an object, which cannot be one. -/
inductive LoadError where
  | malformed (place : Pointer) (problem : Problem)
  | unusableKey (found : Kind)
  deriving DecidableEq, Repr

/-- The wording of a defect: a malformed node is named by its pointer. -/
def LoadError.message : LoadError → String
  | .malformed place problem => s!"{place.display}: {problem.message}"
  | .unusableKey found => s!"unhashable type: '{found.name}'"

/-- Why a file holds no schema. -/
inductive FileDefect where
  | notText (fault : Utf8.Fault)
  | notJson (fault : Json.SyntaxError)
  | notSchema (error : LoadError)
  deriving DecidableEq, Repr

/-- The wording of the cause of an encoding fault. -/
def Utf8.Reason.message : Utf8.Reason → String
  | .invalidStart => "invalid start byte"
  | .invalidContinuation => "invalid continuation byte"
  | .unexpectedEnd => "unexpected end of data"

/-- The wording of an encoding fault: one byte is shown, several are given by their places. -/
def Utf8.Fault.message (f : Utf8.Fault) : String :=
  let bytes :=
    if f.length = 1 then
      s!"byte 0x{String.ofList (Text.hexDigits 2 f.lead.toNat)} in position {f.start}"
    else s!"bytes in position {f.start}-{f.start + f.length - 1}"
  s!"'utf-8' codec can't decode {bytes}: {f.reason.message}"

/-- The wording of a defect of a file. -/
def FileDefect.message : FileDefect → String
  | .notText fault => fault.message
  | .notJson fault => s!"invalid JSON: {fault.message}"
  | .notSchema error => error.message

end ContentTypes
