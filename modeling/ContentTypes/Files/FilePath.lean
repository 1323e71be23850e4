import ContentTypes.Text.CodePoint

/-!
# File paths

A path is a root and the names below it. Reading a path drops empty names and the name `.`; the name
`..` is kept, since what it leads to depends on the files. Two slashes in front are a root of their
own, any other number of them is the plain root.

A path that is given to an operation on files has limits: no null character and no half of a surrogate
pair stands in it, and neither its text nor a name in it is longer than the files allow.
-/

set_option autoImplicit false

namespace ContentTypes

/-- What a path starts from. -/
inductive PathRoot where
  | current
  | root
  | doubleRoot
  deriving DecidableEq, Repr

/-- The text of a root in front of a path. -/
def PathRoot.text : PathRoot → String
  | .current => ""
  | .root => "/"
  | .doubleRoot => "//"

/-- A path: a root and names. -/
structure FilePath where
  root : PathRoot
  names : List String
  deriving DecidableEq, Repr

namespace FilePath

/-- The name of the directory above. -/
def upName : String := ".."

/-- The parts of a text between slashes. -/
def splitSlashes : List Char → List (List Char)
  | [] => [[]]
  | c :: rest =>
      if c = '/' then [] :: splitSlashes rest
      else match splitSlashes rest with
        | [] => [[c]]
        | part :: parts => (c :: part) :: parts

/-- The root that leading slashes stand for. -/
def rootOf (text : List Char) : PathRoot :=
  match (text.takeWhile (· = '/')).length with
  | 0 => .current
  | 2 => .doubleRoot
  | _ => .root

/-- Whether a part of a path is a name. -/
def isName (part : List Char) : Bool := !part.isEmpty && part != ['.']

/-- The path that a text stands for. -/
def ofText (text : String) : FilePath :=
  ⟨rootOf text.toList, ((splitSlashes text.toList).filter isName).map String.ofList⟩

/-- The text of a path. The path to the current directory is a dot. -/
def display (p : FilePath) : String :=
  match p.root, p.names with
  | .current, [] => "."
  | start, names => start.text ++ String.intercalate "/" names

/-- A path seen from another one. -/
def join (p q : FilePath) : FilePath :=
  match q.root with
  | .current => ⟨p.root, p.names ++ q.names⟩
  | _ => q

/-- The path of a name below a path. -/
def child (p : FilePath) (name : String) : FilePath := ⟨p.root, p.names ++ [name]⟩

/-- The path without its last name. -/
def parent (p : FilePath) : FilePath := ⟨p.root, p.names.dropLast⟩

/-- The last name of a path, empty if it has none. -/
def fileName (p : FilePath) : String := p.names.getLastD ""

/-! ## Limits -/

/-- The length in bytes of the longest name of a file. -/
def nameLimit : Nat := 255

/-- The length in bytes of the longest text of a path. -/
def pathLimit : Nat := 4095

/-- Whether a name is too long for a file. -/
def nameTooLong (name : String) : Bool := decide (nameLimit < Text.size name)

/-- Whether the text of a path is too long. -/
def isTooLong (p : FilePath) : Bool := decide (pathLimit < Text.size p.display)

/-- Whether a name has a null character. -/
def hasNull (name : String) : Bool := name.toList.contains '\x00'

end FilePath

end ContentTypes
