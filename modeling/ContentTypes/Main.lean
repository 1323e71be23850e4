import ContentTypes.CommandLine.Footprint

/-!
# The program

Fills in a file tree with the files that the arguments and the settings lead to, runs the command on
it, and carries over to the disk what the run has changed. A file is written beside its place and
then moved there.
-/

set_option autoImplicit false

namespace ContentTypes.CommandLine

/-- A text that comes from outside. -/
def given (text : String) : String := Text.ofPoints (text.toList.map .char)

/-- A text as it is shown outside, with an escape for each half of a surrogate pair. -/
def shown (text : String) : String :=
  String.ofList ((Text.points text).flatMap fun
    | .char c => [c]
    | .half i => Json.unitEscape (Text.CodePoint.unit i))

/-- What is at a place on the disk. What is there and cannot be read as a file is a directory. -/
def probe (place : Location) : IO (Option Entry) := do
  try
    let bytes ← IO.FS.readBinFile (shown (pathTo place).display)
    return some (.file bytes.toList)
  catch
    | .noFileOrDirectory .. => return none
    | _ => return some .directory

/-- The tree with what is at the given places on the disk. A place is looked at once, and only in a
directory. -/
def look (t : FileTree) (places : List Location) : IO FileTree :=
  places.foldlM (fun t place => do
    match t.get? place, t.get? place.dropLast with
    | none, some .directory =>
        match ← probe place with
        | some entry => return t.put place entry
        | none => return t
    | _, _ => return t) t

/-- Writes an entry of a tree to the disk. -/
def store (place : Location) : Entry → IO Unit
  | .directory => IO.FS.createDirAll (shown (pathTo place).display)
  | .file bytes => do
      let path := shown (pathTo place).display
      let temporary := path ++ ".tmp"
      IO.FS.writeBinFile temporary (ByteArray.mk bytes.toArray)
      IO.FS.rename temporary path

/-- The words in which the program reports an error that the command hands on. -/
def CommandError.text : CommandError → String
  | .unreadable e => s!"{e.fault.message}: {e.path.display}"
  | .settingsFile (.notJson e) => e.message
  | .settingsFile defect => defect.message
  | .settings e => e.message
  | .schemaFile defect => defect.message
  | .generate (.settings e) => e.message
  | .generate (.render e) => e.message
  | .generate (.write (.unencodable fault)) => fault.message
  | .generate (.write (.rejected reason)) => reason.message
  | .generate (.write (.refused path)) => refusal path
  | .generate (.write (.file e)) => s!"{e.fault.message}: {e.path.display}"

end ContentTypes.CommandLine

open ContentTypes ContentTypes.CommandLine in
/-- Runs the command on the files of the disk. -/
def main (args : List String) : IO UInt32 := do
  let args := args.map given
  let here := FilePath.ofText (given (← IO.currentDir).toString)
  let t : FileTree := ⟨here.names, []⟩
  let t ← look t (ancestry here.names ++ inputPlaces t args)
  let t ← look t (outputPlaces t args)
  let outcome := CommandLine.run t args
  (changedEntries t outcome.tree).forM fun (place, entry) => store place entry
  IO.print (shown outcome.stdout)
  IO.eprint (shown outcome.stderr)
  match outcome.escaped with
  | some error => IO.eprintln (shown error.text)
  | none => pure ()
  return outcome.exitCode
