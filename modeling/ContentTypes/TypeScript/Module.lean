import ContentTypes.Settings
import ContentTypes.Sorting
import ContentTypes.TypeScript.Declaration
import ContentTypes.Value.Order

/-!
# Declaration modules

The module of declarations of a whole schema: a preamble, the unions of all names, a table of the
documents by name, and the declaration of every document and object, all in the order of the names.
The text depends on the names and the content of the definitions and not on the order in which the
schema gives them.
-/

set_option autoImplicit false

namespace ContentTypes.TypeScript

/-! ## Preamble -/

/-- The line that says that the module is generated. -/
def generationComment : String :=
  "// NOTE This file is auto-generated by content_schema_to_ts v0.1.0"

/-- The preamble: what the declarations import, and the interfaces by which they are known
globally. -/
def preamble (s : Settings) : String :=
  let name := s.globalInterfacePrefix.display
  String.intercalate "\n" <|
    (if s.addGenerationComment.holds then [generationComment] else []) ++
    ["import type \x7b Markdown \x7d from '" ++ s.markdownImportModule.display ++ "'",
      "",
      "export type Image = string",
      "export type \x7b Markdown \x7d",
      "",
      "export interface " ++ name ++ "GenTypes \x7b",
      "  documentTypes: DocumentTypes",
      "  documentTypeMap: DocumentTypeMap",
      "  documentTypeNames: DocumentTypeNames",
      "  allTypeNames: AllTypeNames",
      "\x7d",
      "",
      "declare global \x7b",
      "  interface " ++ name ++ "Gen extends " ++ name ++ "GenTypes \x7b\x7d",
      "\x7d"]

/-! ## The order of definitions -/

/-- Whether the name of a definition comes before that of an earlier one. -/
def nameBefore (later earlier : Value) : Except RenderError Bool :=
  (later.before earlier).mapError .unordered

theorem nameBefore_str (s t : String) : nameBefore (.str s) (.str t) = .ok (decide (s < t)) := rfl

/-- The definitions in the order of their names. -/
def sortByName {α : Type} (nameOf : α → Value) (definitions : List α) : Except RenderError (List α) :=
  Sorting.sort (fun d e => nameBefore (nameOf d) (nameOf e)) definitions

/-- The kinds of documents and of objects of a schema, in the order of their names. -/
def sortedDefinitions (schema : Schema) : Except RenderError (List Document × List Definition) := do
  let documents ← sortByName (fun d => d.name) (schema.documents.map (·.2))
  let objects ← sortByName (fun d => d.name) (schema.objects.map (·.2))
  return (documents, objects)

/-! ## The module -/

/-- The union of names; without names there is no value of the type. -/
def nameUnion (names : List Value) : Except RenderError String :=
  if names.isEmpty then .ok "never" else union names

/-- The table of documents by name. -/
def documentTable (names : List Value) : String :=
  "export type DocumentTypeMap = \x7b\n" ++
    String.join (names.map fun name => "  " ++ name.display ++ ": " ++ name.display ++ "\n") ++
    "\x7d"

/-- The sections of a module, for the declarations of documents and of objects. -/
def sections (settings : Settings) (documents objects : List Declaration) :
    Except RenderError (List String) := do
  let documentNames := documents.map (·.name)
  let documentUnion ← nameUnion documentNames
  let objectUnion ← nameUnion (objects.map (·.name))
  return [preamble settings,
      "export type DocumentTypes = " ++ documentUnion ++
        "\nexport type DocumentTypeNames = DocumentTypes['_typeName']",
      "export type AllTypes = DocumentTypes | ObjectTypes" ++
        "\nexport type AllTypeNames = DocumentTypeNames | ObjectTypeNames",
      documentTable documentNames,
      "/** Document types */"] ++
    documents.map (·.text) ++
    ["/** Object types */",
      "export type ObjectTypes = " ++ objectUnion ++
        "\nexport type ObjectTypeNames = ObjectTypes['_typeName']"] ++
    objects.map (·.text)

/-- The text of the module of declarations of a schema. -/
def moduleText (settings : Settings) (schema : Schema) : Except RenderError String := do
  let (documents, objects) ← sortedDefinitions schema
  let documents ← documents.mapM documentDeclaration
  let objects ← objects.mapM objectDeclaration
  let sections ← sections settings documents objects
  return String.intercalate "\n\n" sections ++ "\n"

end ContentTypes.TypeScript
