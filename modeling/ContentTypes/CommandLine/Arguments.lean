import ContentTypes.CommandLine.Similar
import ContentTypes.Text.Quoted

/-!
# Arguments

The options of the command and how they are read from the arguments. An option has a long name and
may have a letter; its value follows as the next argument, behind an equals sign, or behind the
letter. Letters may be written together. Options and other arguments may be mixed; all arguments
behind two dashes are no options.
-/

set_option autoImplicit false

namespace ContentTypes.CommandLine

/-- An option with a value. -/
inductive ValueOption where
  | config
  | outputDir
  deriving DecidableEq, Repr

/-- An option without a value. -/
inductive Switch where
  | schemaJson
  | force
  | noForce
  | verbose
  | help
  deriving DecidableEq, Repr

/-- An option. -/
inductive OptionKind where
  | value (o : ValueOption)
  | switch (s : Switch)
  deriving DecidableEq, Repr

/-- An option as it was given. -/
inductive Given where
  | value (o : ValueOption) (text : String)
  | switch (s : Switch)
  deriving DecidableEq, Repr

/-- The arguments of a run: the options in the order in which they were given, and the others. -/
structure Arguments where
  given : List Given
  others : List String
  deriving DecidableEq, Repr

/-- Why arguments cannot be read. -/
inductive ArgumentError where
  | unknownOption (name : String) (similar : List String)
  | valueMissing (name : String)
  | valueSurplus (name : String)
  deriving DecidableEq, Repr

/-- The wording of an error. -/
def ArgumentError.message : ArgumentError → String
  | .unknownOption name [] => s!"No such option {Text.quoted name}."
  | .unknownOption name [other] =>
      s!"No such option {Text.quoted name}. Did you mean {Text.quoted other}?"
  | .unknownOption name others =>
      let list := String.intercalate ", " ((others.mergeSort fun a b => decide (a ≤ b)).map Text.quoted)
      s!"No such option {Text.quoted name}. (Did you mean one of: {list}?)"
  | .valueMissing name => s!"Option {Text.quoted name} requires an argument."
  | .valueSurplus name => s!"Option {Text.quoted name} does not take a value."

/-- The long names of the options. -/
def longNames : List (String × OptionKind) :=
  [("--config", .value .config), ("--output-dir", .value .outputDir),
    ("--schema-json", .switch .schemaJson), ("--force", .switch .force),
    ("--no-force", .switch .noForce), ("--verbose", .switch .verbose), ("--help", .switch .help)]

/-- The letters of the options. -/
def letters : List (Char × OptionKind) :=
  [('c', .value .config), ('o', .value .outputDir), ('v', .switch .verbose)]

/-- An option whose value, if it takes one, is still to come. -/
abbrev Pending := Option (ValueOption × String)

/-- Reads letters written together: the options they give, and the option whose value is the next
argument. -/
def readLetters : List Char → Except ArgumentError (List Given × Pending)
  | [] => .ok ([], none)
  | c :: rest =>
      let name := String.ofList ['-', c]
      match letters.lookup c with
      | none => .error (.unknownOption name [])
      | some (.switch s) => (readLetters rest).map fun (given, pending) => (.switch s :: given, pending)
      | some (.value o) =>
          match rest with
          | [] => .ok ([], some (o, name))
          | _ => .ok ([.value o (String.ofList rest)], none)

/-- Cuts an argument at its first equals sign. -/
def splitValue (arg : List Char) : List Char × Option (List Char) :=
  match arg.dropWhile (· != '=') with
  | [] => (arg, none)
  | _ :: value => (arg.takeWhile (· != '='), some value)

/-- Reads an argument that is an option. -/
def readOption (arg : List Char) : Except ArgumentError (List Given × Pending) :=
  let (long, value) := splitValue arg
  let name := String.ofList long
  match longNames.lookup name, value with
  | some (.value o), some text => .ok ([.value o (String.ofList text)], none)
  | some (.value o), none => .ok ([], some (o, name))
  | some (.switch s), none => .ok ([.switch s], none)
  | some (.switch _), some _ => .error (.valueSurplus name)
  | none, _ =>
      match arg with
      | '-' :: '-' :: _ =>
          .error (.unknownOption name (Similar.similarWords (longNames.map (·.1)) name))
      | _ => readLetters arg.tail

/-- Whether an argument is an option: a dash with something behind it. -/
def isOption (arg : String) : Bool :=
  match arg.toList with
  | '-' :: _ :: _ => true
  | _ => false

/-- Reads arguments. -/
def readArguments : List String → Except ArgumentError Arguments
  | [] => .ok ⟨[], []⟩
  | arg :: rest =>
      if arg = "--" then .ok ⟨[], rest⟩
      else if isOption arg then
        match readOption arg.toList with
        | .error e => .error e
        | .ok (given, none) =>
            (readArguments rest).map fun a => { a with given := given ++ a.given }
        | .ok (given, some (o, name)) =>
            match rest with
            | [] => .error (.valueMissing name)
            | text :: rest =>
                (readArguments rest).map fun a =>
                  { a with given := given ++ .value o text :: a.given }
      else (readArguments rest).map fun a => { a with others := arg :: a.others }

namespace Arguments

/-- Whether a switch was given. -/
def has (a : Arguments) (s : Switch) : Bool := a.given.contains (.switch s)

/-- The value of an option, the last one if it was given more than once. -/
def value? (a : Arguments) (o : ValueOption) : Option String :=
  a.given.reverse.findSome? fun
    | .value o' text => if o' = o then some text else none
    | .switch _ => none

/-- The options with a value, in the order in which they were first given. -/
def valueOrder (a : Arguments) : List ValueOption :=
  (a.given.filterMap fun
    | .value o _ => some o
    | .switch _ => none).eraseDups

end Arguments

end ContentTypes.CommandLine
