import ContentTypes.CommandLine.Arguments
import ContentTypes.Files.FileTree

/-!
# Usage

What the command says about itself, and what it says about arguments it cannot be run with.
-/

set_option autoImplicit false

namespace ContentTypes.CommandLine

/-- The line that shows how the command is used. -/
def usageLine : String := "Usage: content_schema_to_ts [OPTIONS] PATH\n"

/-- The help text. -/
def helpText : String :=
  usageLine ++ "\n" ++
    "Options:\n" ++
    "  -c, --config PATH\n" ++
    "  -o, --output-dir DIRECTORY  Directory receiving index.d.ts\n" ++
    "  --schema-json               Also write the schema as schema.json into the\n" ++
    "                              artifacts directory\n" ++
    "  --force / --no-force        Overwrite (default) or refuse to replace an\n" ++
    "                              existing declaration file\n" ++
    "  -v, --verbose\n" ++
    "  --help                      Show this message and exit.\n"

/-- What of the command a path is given for. -/
inductive Parameter where
  | config
  | outputDir
  | schema
  deriving DecidableEq, Repr

/-- How a parameter is named in messages. -/
def Parameter.hint : Parameter → String
  | .config => "'--config' / '-c'"
  | .outputDir => "'--output-dir' / '-o'"
  | .schema => "'PATH'"

/-- What the path of a parameter leads to, in messages. -/
def Parameter.noun : Parameter → String
  | .config => "Path"
  | .outputDir => "Directory"
  | .schema => "File"

/-- What is wrong with the path of a parameter. -/
inductive PathProblem where
  | absent
  | isFile
  | isDirectory
  deriving DecidableEq, Repr

/-- The wording of a problem. -/
def PathProblem.message : PathProblem → String
  | .absent => "does not exist"
  | .isFile => "is a file"
  | .isDirectory => "is a directory"

/-- Why the command cannot be run with its arguments. -/
inductive UsageError where
  | argument (error : ArgumentError)
  | schemaMissing
  | surplus (arguments : List String)
  | badPath (parameter : Parameter) (path : String) (problem : PathProblem)
  deriving DecidableEq, Repr

/-- The wording of an error. -/
def UsageError.message : UsageError → String
  | .argument error => error.message
  | .schemaMissing => "Missing argument 'PATH'."
  | .surplus [one] => s!"Got unexpected extra argument ({one})"
  | .surplus arguments =>
      let list := String.intercalate " " arguments
      s!"Got unexpected extra arguments ({list})"
  | .badPath parameter path problem =>
      s!"Invalid value for {parameter.hint}: {parameter.noun} {Text.quoted path} {problem.message}."

/-- Whether the usage is shown with an error. -/
def UsageError.showsUsage : UsageError → Bool
  | .argument (.valueMissing _) => false
  | .argument (.valueSurplus _) => false
  | _ => true

/-- What is printed for an error. -/
def UsageError.report (e : UsageError) : String :=
  let usage :=
    if e.showsUsage then usageLine ++ "Try 'content_schema_to_ts --help' for help.\n\n" else ""
  usage ++ "Error: " ++ e.message ++ "\n"

end ContentTypes.CommandLine
