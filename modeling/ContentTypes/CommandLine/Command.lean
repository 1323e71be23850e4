import ContentTypes.CommandLine.Usage
import ContentTypes.Generation
import ContentTypes.Schema.Survey

/-!
# The command

The command reads a schema file and generates its module of declarations, with the settings of a
settings file, if one is given, and those that options set. `run` gives the file tree it leaves, the
exit code and what is printed. A defect of the schema file, a module that is not sound and a file that
is there already are reported in words; any other error is handed on to the caller.
-/

set_option autoImplicit false

namespace ContentTypes.CommandLine

/-- What a run is asked to do. -/
structure Invocation where
  schema : Location
  config : Option Location
  outputDir : Option Location
  schemaJson : Bool
  mode : Option OverwriteMode
  verbose : Bool
  deriving DecidableEq, Repr

/-- What arguments ask for. -/
inductive Request where
  | help
  | invocation (i : Invocation)

/-- Why arguments ask for nothing: the command cannot be run with them, or a path cannot be one. -/
inductive RequestError where
  | usage (error : UsageError)
  | path (error : FileError)
  deriving DecidableEq, Repr

/-! ## From arguments to an invocation -/

/-- The place that a path names, whether there is anything or not. -/
def absolute (t : FileTree) (p : FilePath) : Location :=
  p.names.foldl
    (fun here name => if name = FilePath.upName then here.dropLast else here ++ [name]) (t.start p)

/-- The path from the root to a place. -/
def pathTo (place : Location) : FilePath := ⟨.root, place⟩

/-- What is wrong with what is found for a parameter. A settings file must be there, a schema file
must be there and be a file, a directory must not be a file. -/
def Parameter.problem? : Parameter → Option Entry → Option PathProblem
  | .config, none => some .absent
  | .schema, none => some .absent
  | .schema, some .directory => some .isDirectory
  | .outputDir, some (.file _) => some .isFile
  | _, _ => none

/-- The place that the value of a parameter names, checked. -/
def resolveParameter (t : FileTree) (parameter : Parameter) (text : String) :
    Except RequestError Location :=
  let p := FilePath.ofText text
  let place := absolute t p
  if p.names.any FilePath.hasNull then .error (.path ⟨.nullCharacter, p⟩)
  else match parameter.problem? (t.find (pathTo place)).toOption with
    | some problem => .error (.usage (.badPath parameter text problem))
    | none => .ok place

/-- The parameter that an option sets. -/
def ValueOption.parameter : ValueOption → Parameter
  | .config => .config
  | .outputDir => .outputDir

/-- The places that options name, in the order in which they were first given. -/
def resolveOptions (t : FileTree) (a : Arguments) :
    List ValueOption → Except RequestError (List (ValueOption × Location))
  | [] => .ok []
  | o :: rest => do
      let place ← resolveParameter t o.parameter ((a.value? o).getD "")
      let places ← resolveOptions t a rest
      return (o, place) :: places

/-- The mode that the last of the two options for it sets. -/
def Arguments.mode? (a : Arguments) : Option OverwriteMode :=
  a.given.reverse.findSome? fun
    | .switch .force => some .replace
    | .switch .noForce => some .refuse
    | _ => none

/-- What arguments ask for. Help is given before anything else is looked at; the options are checked
before the schema file, and that before arguments that are one too many. -/
def request (t : FileTree) (args : List String) : Except RequestError Request := do
  let a ← (readArguments args).mapError fun e => .usage (.argument e)
  if a.has .help then return .help
  let places ← resolveOptions t a a.valueOrder
  match a.others with
  | [] => throw (.usage .schemaMissing)
  | path :: extra =>
      let schema ← resolveParameter t .schema path
      match extra with
      | [] =>
          return .invocation {
            schema := schema
            config := places.lookup .config
            outputDir := places.lookup .outputDir
            schemaJson := a.has .schemaJson
            mode := a.mode?
            verbose := a.has .verbose }
      | _ => throw (.usage (.surplus extra))

/-! ## Settings -/

/-- Why a command does not end well. -/
inductive CommandError where
  | unreadable (error : FileError)
  | settingsFile (defect : FileDefect)
  | settings (error : SettingsError)
  | schemaFile (defect : FileDefect)
  | generate (error : GenerateError)

/-- The settings that a file holds. -/
def settingsOfFile (t : FileTree) (place : Location) : Except CommandError Settings := do
  let bytes ← (t.read (pathTo place)).mapError .unreadable
  let v ← (Schema.valueOfBytes bytes).mapError .settingsFile
  (Settings.ofValue v).mapError .settings

/-- The settings with the directory of the output set. -/
def setTargetDir (s : Settings) (place : Location) : Except SettingsError Settings := do
  let output ← s.output.get "target_dir"
  return { s with output := .settings { output with targetDir := .str (pathTo place).display } }

/-- The settings with the mode of the output set. -/
def setMode (s : Settings) (mode : OverwriteMode) : Except SettingsError Settings := do
  let output ← s.output.get "mode"
  return { s with output := .settings { output with mode := .known mode } }

/-- The settings with those that options set. -/
def Invocation.override (i : Invocation) (s : Settings) : Except SettingsError Settings := do
  let s := if i.schemaJson then { s with generateSchemaJson := .bool true } else s
  let s ← match i.outputDir with
    | some place => setTargetDir s place
    | none => pure s
  match i.mode with
  | some mode => setMode s mode
  | none => return s

/-- The settings of an invocation. -/
def Invocation.settings (t : FileTree) (i : Invocation) : Except CommandError Settings := do
  let s ← match i.config with
    | some place => settingsOfFile t place
    | none => pure Settings.initial
  (i.override s).mapError .settings

/-! ## Running -/

/-- How a run ends: the path of the module or an error, the tree it leaves, and its notices. -/
structure Ending where
  tree : FileTree
  result : Except CommandError FilePath
  notices : List Notice

/-- Carries out an invocation. -/
def Invocation.perform (t : FileTree) (i : Invocation) : Ending :=
  match i.settings t with
  | .error e => ⟨t, .error e, []⟩
  | .ok settings =>
      match t.read (pathTo i.schema) with
      | .error e => ⟨t, .error (.unreadable e), []⟩
      | .ok bytes =>
          let survey := Schema.surveyBytes bytes
          match Schema.ofBytes bytes with
          | .error defect => ⟨t, .error (.schemaFile defect), survey⟩
          | .ok schema =>
              let r := ContentTypes.generate t settings schema
              ⟨r.tree, r.result.mapError .generate, survey ++ r.notices⟩

/-- What a run leaves, prints and hands on. -/
structure Outcome where
  tree : FileTree
  exitCode : UInt32
  stdout : String
  stderr : String
  escaped : Option CommandError

/-- The words in which the command itself reports an error, if it does. -/
def CommandError.report? : CommandError → Option String
  | .schemaFile (.notText _) => none
  | .schemaFile (.notSchema (.unusableKey _)) => none
  | .schemaFile defect => some defect.message
  | .generate (.write (.rejected reason)) => some reason.message
  | .generate (.write (.refused path)) => some (refusal path)
  | .generate (.write (.file ⟨.alreadyThere, path⟩)) =>
      some s!"[Errno 17] {FileFault.alreadyThere.message}: {Text.quoted path.display}"
  | _ => none

/-- The success message. -/
def successText (path : FilePath) : String :=
  s!"Type file successfully written to {path.display}\n"

/-- What is printed when an invocation ends. -/
def Ending.outcome (e : Ending) (verbose : Bool) : Outcome :=
  let log := if verbose then String.join (e.notices.map fun n => n.line ++ "\n") else ""
  match e.result with
  | .ok path => ⟨e.tree, 0, successText path, log, none⟩
  | .error error =>
      match error.report? with
      | some text => ⟨e.tree, 1, "", log ++ "Error: " ++ text ++ "\n", none⟩
      | none => ⟨e.tree, 1, "", log, some error⟩

/-- Runs the command. -/
def run (t : FileTree) (args : List String) : Outcome :=
  match request t args with
  | .error (.usage e) => ⟨t, 2, "", e.report, none⟩
  | .error (.path e) => ⟨t, 1, "", "", some (.unreadable e)⟩
  | .ok .help => ⟨t, 0, helpText, "", none⟩
  | .ok (.invocation i) => (i.perform t).outcome i.verbose

end ContentTypes.CommandLine
