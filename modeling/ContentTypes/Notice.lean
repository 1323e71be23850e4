import ContentTypes.Files.FilePath
import ContentTypes.Schema.Pointer
import ContentTypes.Value.Display

/-!
# Notices

What a run reports about its progress when it is asked to. A notice is a line with its level, the
part of the program it comes from, and its text.
-/

set_option autoImplicit false

namespace ContentTypes

/-- A report on a step of a run. -/
inductive Notice where
  /-- A field has a kind without a rule. -/
  | unknownField (kind : Value) (place : Pointer)
  /-- A list item has a kind without a rule. -/
  | unknownItem (kind : Value) (place : Pointer)
  /-- A schema is loaded. -/
  | loaded (documents objects : Nat)
  /-- The schema is written to a file. -/
  | schemaWritten (path : FilePath)
  /-- The members of a document are written. -/
  | documentBuilt (name : Value) (members : Nat)
  /-- The members of an object are written. -/
  | objectBuilt (name : Value) (members : Nat)
  /-- All declarations are written. -/
  | assembling (documents objects : Nat)
  /-- The module is written to a file. -/
  | moduleWritten (path : FilePath)

/-- The line of a notice. -/
def Notice.line : Notice → String
  | .unknownField kind place =>
      s!"DEBUG content_schema_to_ts.schema_loader: Unsupported field kind '{kind.display}' at {place.display}"
  | .unknownItem kind place =>
      s!"DEBUG content_schema_to_ts.schema_loader: Unsupported list item kind '{kind.display}' at {place.display}"
  | .loaded documents objects =>
      s!"DEBUG content_schema_to_ts.schema_loader: Loaded schema with {documents} document types and {objects} object types"
  | .schemaWritten path =>
      s!"INFO content_schema_to_ts.writer: Schema written to {path.display}"
  | .documentBuilt name members =>
      s!"DEBUG content_schema_to_ts.declarations: Building document type {name.display} ({members} members)"
  | .objectBuilt name members =>
      s!"DEBUG content_schema_to_ts.declarations: Building object type {name.display} ({members} members)"
  | .assembling documents objects =>
      s!"DEBUG content_schema_to_ts.assembler: Assembling {documents} document types and {objects} object types"
  | .moduleWritten path =>
      s!"INFO content_schema_to_ts.generate: Type file successfully written to {path.display}"

end ContentTypes
