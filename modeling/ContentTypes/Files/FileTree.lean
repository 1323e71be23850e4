import ContentTypes.Files.FilePath
import ContentTypes.KeyedList

/-!
# File trees

Files and directories by their place below the root, and the directory that relative paths start
from. A path is followed name by name: each name but the last has to be a directory, and `..` leads
back to the directory above. `resolve` gives the place a path leads to; the operations look up,
create, replace and move what is there. An operation that fails leaves the tree as it is.

A path beyond the limits of paths leads nowhere. Whether its text has bytes, a null character and the
length of the whole are looked at first, the length of a name when its turn comes.
-/

set_option autoImplicit false

namespace ContentTypes

/-- The place of a file or directory: the names that lead to it from the root. -/
abbrev Location := List String

/-- What is at a place. -/
inductive Entry where
  | file (bytes : List UInt8)
  | directory
  deriving DecidableEq, Repr

/-- Files and directories. The root is a directory without an entry. -/
structure FileTree where
  current : Location
  entries : List (Location × Entry)

/-- Why an operation on files fails. -/
inductive FileFault where
  | missing
  | notDirectory
  | alreadyThere
  | isDirectory
  | busy
  | nameTooLong
  | nullCharacter
  | unencodable (fault : Text.EncodeFault)
  deriving DecidableEq, Repr

/-- The wording of a fault. -/
def FileFault.message : FileFault → String
  | .missing => "No such file or directory"
  | .notDirectory => "Not a directory"
  | .alreadyThere => "File exists"
  | .isDirectory => "Is a directory"
  | .busy => "Device or resource busy"
  | .nameTooLong => "File name too long"
  | .nullCharacter => "embedded null byte"
  | .unencodable fault => fault.message

/-- A fault with the path of the operation. -/
structure FileError where
  fault : FileFault
  path : FilePath
  deriving DecidableEq, Repr

/-- Where a path leads: to a directory that is there, or to a name in one. -/
inductive Target where
  | directory (place : Location)
  | name (place : Location)
  deriving DecidableEq, Repr

namespace FileTree

/-! ## Looking up -/

/-- What is at a place. -/
def get? (t : FileTree) : Location → Option Entry
  | [] => some .directory
  | place => t.entries.lookup place

/-- Where a path starts from. -/
def start (t : FileTree) (p : FilePath) : Location :=
  match p.root with
  | .current => t.current
  | _ => []

/-- What a directory has under a name, if the name is not too long. -/
def entryIn (t : FileTree) (here : Location) (name : String) : Except FileFault (Option Entry) :=
  if FilePath.nameTooLong name then .error .nameTooLong else .ok (t.get? (here ++ [name]))

/-- Follows names through directories. -/
def descend (t : FileTree) (here : Location) : List String → Except FileFault Location
  | [] => .ok here
  | name :: rest =>
      if name = FilePath.upName then descend t here.dropLast rest
      else match t.entryIn here name with
        | .ok (some .directory) => descend t (here ++ [name]) rest
        | .ok (some (.file _)) => .error .notDirectory
        | .ok none => .error .missing
        | .error fault => .error fault

/-- What is wrong with a path, whatever the files are. -/
def pathFault? (p : FilePath) : Option FileFault :=
  match Text.encodeFault? p.display with
  | some fault => some (.unencodable fault)
  | none =>
      if p.names.any FilePath.hasNull then some .nullCharacter
      else if p.isTooLong then some .nameTooLong
      else none

/-- Where a path leads. -/
def resolve (t : FileTree) (p : FilePath) : Except FileFault Target :=
  match pathFault? p with
  | some fault => .error fault
  | none => do
      let here ← t.descend (t.start p) p.names.dropLast
      match p.names.getLast? with
      | none => return .directory here
      | some name =>
          if name = FilePath.upName then return .directory here.dropLast
          else if FilePath.nameTooLong name then throw .nameTooLong
          else return .name (here ++ [name])

/-- What a path leads to. -/
def find (t : FileTree) (p : FilePath) : Except FileFault Entry :=
  match t.resolve p with
  | .error fault => .error fault
  | .ok (.directory _) => .ok .directory
  | .ok (.name place) =>
      match t.get? place with
      | some entry => .ok entry
      | none => .error .missing

/-- Whether a path leads to something. A name that is too long is a fault, while a path that can be none
just leads nowhere. -/
def isThere (t : FileTree) (p : FilePath) : Except FileFault Bool :=
  match t.find p with
  | .ok _ => .ok true
  | .error .nameTooLong => .error .nameTooLong
  | .error _ => .ok false

/-- Whether a path leads to a directory. -/
def isDirectory (t : FileTree) (p : FilePath) : Bool :=
  match t.find p with
  | .ok .directory => true
  | _ => false

/-- The content of a file. -/
def read (t : FileTree) (p : FilePath) : Except FileError (List UInt8) :=
  match t.find p with
  | .error fault => .error ⟨fault, p⟩
  | .ok .directory => .error ⟨.isDirectory, p⟩
  | .ok (.file bytes) => .ok bytes

/-! ## Changing -/

/-- Puts an entry at a place. -/
def put (t : FileTree) (place : Location) (entry : Entry) : FileTree :=
  { t with entries := KeyedList.upsert (· == ·) place entry t.entries }

/-- Takes away what is at a place. -/
def erase (t : FileTree) (place : Location) : FileTree :=
  { t with entries := t.entries.filter fun e => e.1 != place }

/-- What is found after an entry is put at a place other than the root. -/
theorem get?_put (t : FileTree) {place : Location} (entry : Entry) (h : place ≠ [])
    (place' : Location) :
    (t.put place entry).get? place' = if place' = place then some entry else t.get? place' := by
  cases place' with
  | nil => rw [if_neg (Ne.symm h)]; rfl
  | cons name names =>
      show (KeyedList.upsert (· == ·) place entry t.entries).lookup (name :: names) = _
      rw [KeyedList.lookup_upsert]
      by_cases hp : name :: names = place <;> simp [hp, get?]

/-- What is found after what is at a place other than the root is taken away. -/
theorem get?_erase (t : FileTree) {place : Location} (h : place ≠ []) (place' : Location) :
    (t.erase place).get? place' = if place' = place then none else t.get? place' := by
  cases place' with
  | nil => rw [if_neg (Ne.symm h)]; rfl
  | cons name names =>
      show (t.entries.filter fun e => e.1 != place).lookup (name :: names) = _
      rw [KeyedList.lookup_filter_ne]
      by_cases hp : name :: names = place <;> simp [hp, get?]

/-- Makes a directory where there is nothing yet. -/
def makeDir (t : FileTree) (p : FilePath) : Except FileFault FileTree :=
  match t.resolve p with
  | .error fault => .error fault
  | .ok (.directory _) => .error .alreadyThere
  | .ok (.name place) =>
      match t.get? place with
      | some _ => .error .alreadyThere
      | none => .ok (t.put place .directory)

/-- Makes a directory unless there is one. -/
def ensureDir (t : FileTree) (p : FilePath) : FileTree × Except FileError Unit :=
  match t.makeDir p with
  | .ok t' => (t', .ok ())
  | .error fault => if t.isDirectory p then (t, .ok ()) else (t, .error ⟨fault, p⟩)

/-- Makes a directory unless there is one, and before it the directories above it that are missing.
Those stay even if a later one cannot be made. -/
def makeDirs (t : FileTree) (p : FilePath) : FileTree × Except FileError Unit :=
  match t.ensureDir p with
  | (t, .error ⟨.missing, p'⟩) =>
      if p.names = [] then (t, .error ⟨.missing, p'⟩)
      else match t.makeDirs p.parent with
        | (t, .ok ()) => t.ensureDir p
        | (t, .error e) => (t, .error e)
  | result => result
termination_by p.names.length
decreasing_by
  have : p.names.length ≠ 0 := by simpa using ‹¬p.names = []›
  simp only [FilePath.parent, List.length_dropLast]
  omega

/-- Puts a file where a path leads, in place of a file that may be there. -/
def writeFile (t : FileTree) (p : FilePath) (bytes : List UInt8) : Except FileFault FileTree :=
  match t.resolve p with
  | .error fault => .error fault
  | .ok (.directory _) => .error .isDirectory
  | .ok (.name place) =>
      match t.get? place with
      | some .directory => .error .isDirectory
      | _ => .ok (t.put place (.file bytes))

/-- Adds to the end of the file at a place. -/
def append (t : FileTree) (place : Location) (bytes : List UInt8) : FileTree :=
  match t.get? place with
  | some (.file old) => t.put place (.file (old ++ bytes))
  | _ => t

/-- Moves the file at a place to where a path leads, in place of a file that may be there. -/
def rename (t : FileTree) (source : Location) (p : FilePath) : Except FileFault FileTree :=
  match t.get? source, t.resolve p with
  | none, _ => .error .missing
  | some _, .error fault => .error fault
  | some _, .ok (.directory _) => .error .busy
  | some entry, .ok (.name place) =>
      match t.get? place with
      | some .directory => .error .isDirectory
      | _ => if place = source then .ok t else .ok ((t.put place entry).erase source)

/-! ## Temporary files -/

/-- The length of the longest name in the tree. -/
def longestName (t : FileTree) : Nat :=
  t.entries.foldl (fun longest e => e.1.foldl (fun n name => max n name.length) longest) 0

/-- A name for a temporary file that stands for `name` until it is complete. It is longer than every
name in the tree. -/
def temporaryName (t : FileTree) (name : String) : String :=
  "." ++ name ++ "." ++ String.ofList (List.replicate (t.longestName + 1) 'x') ++ ".tmp"

/-- The number of bytes that the name of a temporary file counts beyond the name it stands for: three
dots, eight characters that make it fresh, and an ending of three. -/
def temporaryMargin : Nat := 14

/-- What is wrong with the name or the path of a temporary file for a path, in the directory that the path
leads to. -/
def temporaryFault? (directory : Location) (p : FilePath) : Option FileFault :=
  match Text.encodeFault? p.fileName with
  | some fault =>
      -- the name stands behind the directory and a dot
      let before : FilePath := ⟨.root, directory ++ ["."]⟩
      some (.unencodable { fault with start := (Text.points before.display).length + fault.start })
  | none =>
      let whole : FilePath := ⟨.root, directory ++ [p.fileName]⟩
      if FilePath.hasNull p.fileName then some .nullCharacter
      else if FilePath.nameLimit < Text.size p.fileName + temporaryMargin then some .nameTooLong
      else if FilePath.pathLimit < Text.size whole.display + temporaryMargin then some .nameTooLong
      else none

/-- The place of a temporary file for a path, in the directory that the path leads to. Its name and
its path from the root have to be within the limits too. -/
def temporaryPlace (t : FileTree) (p : FilePath) : Except FileFault Location :=
  match t.descend (t.start p) p.parent.names with
  | .error fault => .error fault
  | .ok directory =>
      match temporaryFault? directory p with
      | some fault => .error fault
      | none => .ok (directory ++ [t.temporaryName p.fileName])

end FileTree

end ContentTypes
