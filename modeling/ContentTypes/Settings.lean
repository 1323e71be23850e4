import ContentTypes.Files.FilePath
import ContentTypes.Text.Quoted
import ContentTypes.Value.Basic

/-!
# Settings

What to write into a module of declarations and where to put it. `Settings.ofValue` takes settings
from an object: a member that names a setting sets it, to whatever value it has, and all other
members are passed over. The settings of the output are an object of their own, of which only the
mode is checked. A value that is no object in its place is kept, and fails where an output is asked
for.
-/

set_option autoImplicit false

namespace ContentTypes

/-- What to do about a declaration file that is there already. -/
inductive OverwriteMode where
  | replace
  | refuse
  deriving DecidableEq, Repr

/-- The name of a mode in settings. -/
def OverwriteMode.name : OverwriteMode → String
  | .replace => "force"
  | .refuse => "error"

/-- The mode of that name. -/
def OverwriteMode.ofName? (name : String) : Option OverwriteMode :=
  [OverwriteMode.replace, .refuse].find? fun mode => mode.name == name

/-- A mode as it was set: one of the modes, or a value that is no text and names none. -/
inductive ModeSetting where
  | known (mode : OverwriteMode)
  | other (v : Value)

/-- Where and how the declarations are written. -/
structure OutputSettings where
  targetDir : Value
  fileName : Value
  artifactsDir : Value
  mode : ModeSetting
  validateBeforeWrite : Value
  atomicWrite : Value

/-- The settings of the output, a value that was put in their place, or nothing at all. -/
inductive Output where
  | settings (s : OutputSettings)
  | other (v : Value)
  | missing

/-- All settings. -/
structure Settings where
  /-- Whether the module says that it is generated. -/
  addGenerationComment : Value
  /-- The module that markdown texts are typed by. -/
  markdownImportModule : Value
  /-- What the names of the global interfaces start with. -/
  globalInterfacePrefix : Value
  /-- Whether the schema itself is written too. -/
  generateSchemaJson : Value
  output : Output
  /-- A value that was set in place of the conversion to an object. -/
  conversion : Option Value

/-- Why settings cannot be taken, or not be used. -/
inductive SettingsError where
  | notObject (found : Kind)
  | unknownMode (name : String)
  | outputLacks (found : Kind) (setting : String)
  | outputMissing
  | modeUnnamed (found : Kind)
  | conversionReplaced (found : Kind)
  | directoryNotText (found : Kind)
  | fileNameNotText (found : Kind)
  | classNotSettable (found : Kind)
  | tableNotObject (found : Kind)
  | referencesNotSettable
  deriving DecidableEq, Repr

/-- The wording of an error. -/
def SettingsError.message : SettingsError → String
  | .notObject found => s!"'{found.name}' object has no attribute 'items'"
  | .unknownMode name => s!"{Text.quoted name} is not a valid OutputMode"
  | .outputLacks found setting => s!"'{found.name}' object has no attribute '{setting}'"
  | .outputMissing => "'TypegenConfig' object has no attribute 'output'"
  | .modeUnnamed found => s!"'{found.name}' object has no attribute 'value'"
  | .conversionReplaced found => s!"'{found.name}' object is not callable"
  | .directoryNotText found => s!"expected str, bytes or os.PathLike object, not {found.name}"
  | .fileNameNotText found =>
      s!"unsupported operand type(s) for /: 'PosixPath' and '{found.name}'"
  | .classNotSettable found => s!"__class__ must be set to a class, not '{found.name}' object"
  | .tableNotObject found => s!"__dict__ must be set to a dictionary, not a '{found.name}'"
  | .referencesNotSettable =>
      "attribute '__weakref__' of 'TypegenConfig' objects is not writable"

/-! ## Settings from values -/

/-- The output if nothing is set. -/
def OutputSettings.initial : OutputSettings where
  targetDir := .str "node_modules/@types/contentlayer/types"
  fileName := .str "index.d.ts"
  artifactsDir := .str ".contentlayer"
  mode := .known .replace
  validateBeforeWrite := .bool true
  atomicWrite := .bool true

/-- The settings if nothing is set. -/
def Settings.initial : Settings where
  addGenerationComment := .bool true
  markdownImportModule := .str "@contentlayer/core"
  globalInterfacePrefix := .str "Contentlayer"
  generateSchemaJson := .bool false
  output := .settings .initial
  conversion := none

/-- The mode that a value sets. -/
def ModeSetting.ofValue : Value → Except SettingsError ModeSetting
  | .str name =>
      match OverwriteMode.ofName? name with
      | some mode => .ok (.known mode)
      | none => .error (.unknownMode name)
  | v => .ok (.other v)

/-- The output that an object sets: a missing member leaves its setting as it is initially. -/
def OutputSettings.ofMembers (members : Members) : Except SettingsError OutputSettings := do
  let mode ← match members.lookup "mode" with
    | some v => ModeSetting.ofValue v
    | none => pure initial.mode
  return {
    targetDir := (members.lookup "target_dir").getD initial.targetDir
    fileName := (members.lookup "file_name").getD initial.fileName
    artifactsDir := (members.lookup "artifacts_dir").getD initial.artifactsDir
    mode := mode
    validateBeforeWrite := (members.lookup "validate_before_write").getD initial.validateBeforeWrite
    atomicWrite := (members.lookup "atomic_write").getD initial.atomicWrite }

/-- The output once a value sets it. An object gives settings; anything else is kept in their place,
if there is a place for it. -/
def Output.set (output : Output) : Value → Except SettingsError Output
  | .obj members => (OutputSettings.ofMembers members).map .settings
  | v =>
      match output with
      | .missing => .ok .missing
      | _ => .ok (.other v)

namespace Settings

/-- The settings that the members of an object are, taken as they stand: a missing member leaves its
setting as it is initially, and the output missing. -/
def ofTable (members : Members) : Settings where
  addGenerationComment :=
    (members.lookup "add_generation_comment").getD initial.addGenerationComment
  markdownImportModule :=
    (members.lookup "markdown_import_module").getD initial.markdownImportModule
  globalInterfacePrefix :=
    (members.lookup "global_interface_prefix").getD initial.globalInterfacePrefix
  generateSchemaJson := (members.lookup "generate_schema_json").getD initial.generateSchemaJson
  output := match members.lookup "output" with
    | some v => .other v
    | none => .missing
  conversion := members.lookup "to_dict"

/-- The settings with the one that a member names set. Three names are reserved: one sets all settings
at once, and two cannot be set. -/
def set (s : Settings) (name : String) (v : Value) : Except SettingsError Settings :=
  match name with
  | "add_generation_comment" => .ok { s with addGenerationComment := v }
  | "markdown_import_module" => .ok { s with markdownImportModule := v }
  | "global_interface_prefix" => .ok { s with globalInterfacePrefix := v }
  | "generate_schema_json" => .ok { s with generateSchemaJson := v }
  | "output" => (s.output.set v).map fun output => { s with output := output }
  | "to_dict" => .ok { s with conversion := some v }
  | "__dict__" =>
      match v with
      | .obj members => .ok (ofTable members)
      | _ => .error (.tableNotObject v.kind)
  | "__class__" => .error (.classNotSettable v.kind)
  | "__weakref__" => .error .referencesNotSettable
  | _ => .ok s

/-- The settings with those set that members name, in order. -/
def setAll (s : Settings) : Members → Except SettingsError Settings
  | [] => .ok s
  | (name, v) :: rest => do setAll (← s.set name v) rest

/-- The settings that a value sets. -/
def ofValue : Value → Except SettingsError Settings
  | .obj members => setAll initial members
  | v => .error (.notObject v.kind)

end Settings

/-! ## Values from settings -/

/-- The value of a mode. -/
def ModeSetting.toValue : ModeSetting → Except SettingsError Value
  | .known mode => .ok (.str mode.name)
  | .other v => .error (.modeUnnamed v.kind)

/-- Fails if there is no output. What stands in its place is looked at when a setting is asked for. -/
def Output.demand : Output → Except SettingsError Unit
  | .missing => .error .outputMissing
  | _ => .ok ()

/-- The settings of the output, where the one of the given name is asked for. -/
def Output.get (output : Output) (setting : String) : Except SettingsError OutputSettings :=
  match output with
  | .settings s => .ok s
  | .other v => .error (.outputLacks v.kind setting)
  | .missing => .error .outputMissing

/-- The output as an object. -/
def OutputSettings.toValue (s : OutputSettings) : Except SettingsError Value := do
  let mode ← s.mode.toValue
  return .obj [("target_dir", s.targetDir), ("file_name", s.fileName),
    ("artifacts_dir", s.artifactsDir), ("mode", mode),
    ("validate_before_write", s.validateBeforeWrite), ("atomic_write", s.atomicWrite)]

namespace Settings

/-- The settings as an object. -/
def toValue (s : Settings) : Except SettingsError Value := do
  match s.conversion with
  | some v => throw (.conversionReplaced v.kind)
  | none => pure ()
  let output ← s.output.get "target_dir"
  let output ← output.toValue
  return .obj [("add_generation_comment", s.addGenerationComment),
    ("markdown_import_module", s.markdownImportModule),
    ("global_interface_prefix", s.globalInterfacePrefix),
    ("generate_schema_json", s.generateSchemaJson), ("output", output)]

end Settings

/-! ## Paths -/

/-- The path that a value names. -/
def FilePath.ofValue : Value → Except SettingsError FilePath
  | .str s => .ok (FilePath.ofText s)
  | v => .error (.directoryNotText v.kind)

/-- The path of the declaration file. -/
def OutputSettings.targetPath (s : OutputSettings) : Except SettingsError FilePath := do
  let directory ← FilePath.ofValue s.targetDir
  match s.fileName with
  | .str name => return directory.join (FilePath.ofText name)
  | v => throw (.fileNameNotText v.kind)

/-- The path of the declaration file. -/
def Settings.targetPath (s : Settings) : Except SettingsError FilePath := do
  (← s.output.get "target_path").targetPath

end ContentTypes
