import ContentTypes.Files.Write
import ContentTypes.Notice
import ContentTypes.Schema.ToValue
import ContentTypes.TypeScript.Module
import ContentTypes.TypeScript.Skeleton

/-!
# Generation

`generate` writes the module of declarations of a schema to the place that the settings name, and the
schema itself beside other artifacts if they ask for it. A run gives the file tree it leaves, the
path of the module or the error that ended it, and the notices about its steps.
-/

set_option autoImplicit false

namespace ContentTypes

/-! ## The schema as an artifact -/

/-- The name of the file that holds the schema. -/
def schemaFileName : String := "schema.json"

/-- Makes the directory of artifacts. -/
def makeArtifactsDir (t : FileTree) (directory : FilePath) : FileTree × Except FileError FilePath :=
  match t.makeDirs directory with
  | (t, .ok ()) => (t, .ok directory)
  | (t, .error e) => (t, .error e)

/-- Writes a schema into the directory of artifacts. -/
def writeSchema (t : FileTree) (schema : Schema) (directory : FilePath) :
    FileTree × Except (WriteError TypeScript.Unsound) FilePath :=
  match makeArtifactsDir t directory with
  | (t, .error e) => (t, .error (.file e))
  | (t, .ok directory) =>
      let path := directory.child schemaFileName
      match writeAtomically t path schema.toJson none with
      | (t, .ok ()) => (t, .ok path)
      | (t, .error e) => (t, .error e)

/-! ## Runs -/

/-- Why a module is not generated. -/
inductive GenerateError where
  | settings (error : SettingsError)
  | render (error : RenderError)
  | write (error : WriteError TypeScript.Unsound)

/-- What a run leaves and gives. -/
structure GenerateRun where
  tree : FileTree
  result : Except GenerateError FilePath
  notices : List Notice

namespace TypeScript

/-- The notices about documents and objects, up to the first whose members cannot be written. -/
def memberNotices {α : Type} (members : α → Except RenderError (List String))
    (notice : α → Nat → Notice) : List α → List Notice
  | [] => []
  | d :: rest =>
      match members d with
      | .ok lines => notice d lines.length :: memberNotices members notice rest
      | .error _ => []

/-- The notices about the declarations of a schema. -/
def moduleNotices (schema : Schema) : List Notice :=
  match sortedDefinitions schema with
  | .error _ => []
  | .ok (documents, objects) =>
      memberNotices documentMembers (fun d n => .documentBuilt d.name n) documents ++
        if (documents.mapM documentDeclaration).toBool then
          memberNotices objectMembers (fun d n => .objectBuilt d.name n) objects ++
            if (objects.mapM objectDeclaration).toBool then
              [.assembling documents.length objects.length]
            else []
        else []

end TypeScript

/-- Writes the schema if the settings ask for it. -/
def generateSchema (t : FileTree) (settings : Settings) (schema : Schema) :
    FileTree × Except GenerateError (Option FilePath) :=
  if settings.generateSchemaJson.holds then
    match settings.output.get "artifacts_dir" with
    | .error e => (t, .error (.settings e))
    | .ok output =>
        match FilePath.ofValue output.artifactsDir with
        | .error e => (t, .error (.settings e))
        | .ok directory =>
            match writeSchema t schema directory with
            | (t, .ok path) => (t, .ok (some path))
            | (t, .error e) => (t, .error (.write e))
  else (t, .ok none)

/-- Writes a module to its place, in the way the settings of the output ask for. -/
def writeModule (t : FileTree) (output : OutputSettings) (path : FilePath) (text : String) :
    FileTree × Except (WriteError TypeScript.Unsound) Unit :=
  let check :=
    if output.validateBeforeWrite.holds then some (.ordinary TypeScript.checkDeclarations) else none
  match output.mode with
  | .known .refuse => writeNew t output.atomicWrite.holds path text check
  | _ => writeText t output.atomicWrite.holds path text check

/-- Writes the module of declarations of a schema to its place. -/
def generateModule (t : FileTree) (settings : Settings) (schema : Schema) :
    FileTree × Except GenerateError FilePath :=
  match TypeScript.moduleText settings schema with
  | .error e => (t, .error (.render e))
  | .ok text =>
      match settings.output.get "target_path" with
      | .error e => (t, .error (.settings e))
      | .ok output =>
          match output.targetPath with
          | .error e => (t, .error (.settings e))
          | .ok path =>
              match writeModule t output path text with
              | (t, .ok ()) => (t, .ok path)
              | (t, .error e) => (t, .error (.write e))

/-- Generates what the settings ask for. Settings without an output fail before anything is done. -/
def generate (t : FileTree) (settings : Settings) (schema : Schema) : GenerateRun :=
  match settings.output.demand with
  | .error e => ⟨t, .error (.settings e), []⟩
  | .ok () =>
      match generateSchema t settings schema with
      | (t, .error e) => ⟨t, .error e, []⟩
      | (t, .ok written) =>
          let before := written.toList.map Notice.schemaWritten ++ TypeScript.moduleNotices schema
          match generateModule t settings schema with
          | (t, .ok path) => ⟨t, .ok path, before ++ [.moduleWritten path]⟩
          | (t, .error e) => ⟨t, .error e, before⟩

end ContentTypes
