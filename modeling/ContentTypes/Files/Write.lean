import ContentTypes.Files.FileTree

/-!
# Writing files

A file is written through a temporary file beside it, so that it never holds part of a text: the
directories above it are made, the temporary file is created and filled, the text is checked, and the
temporary file is moved to its place. If something fails on the way the temporary file is taken away,
unless the check ends the program.

A `WriteCall` is such a write with the stage it has come to; `WriteCall.step` is its next operation
on the files, and `WriteCall.run` runs it to its end. `writeInPlace` writes without a temporary
file: it empties the file, and then finds out whether the text has bytes.
-/

set_option autoImplicit false

namespace ContentTypes

/-- A check that a text has to pass before it is written. Of the reasons not to pass it, those that quit
are not for the write to handle: they end the program. -/
structure Check (ε : Type) where
  test : String → Except ε Unit
  quits : ε → Bool

/-- A check that never ends the program. -/
def Check.ordinary {ε : Type} (test : String → Except ε Unit) : Check ε := ⟨test, fun _ => false⟩

/-- Why a text is not written. -/
inductive WriteError (ε : Type) where
  /-- An operation on files failed. -/
  | file (error : FileError)
  /-- The text has no bytes. -/
  | unencodable (fault : Text.EncodeFault)
  /-- The text did not pass its check. -/
  | rejected (reason : ε)
  /-- The file is there already and is not to be replaced. -/
  | refused (path : FilePath)
  deriving Repr

/-- The wording of a refusal to replace what is there. -/
def refusal (path : FilePath) : String :=
  s!"Output file already exists: {path.display}. Use force mode to overwrite."

/-- How far a write has come. -/
inductive WriteStage (ε : Type) where
  | makingParents
  | creating
  | filling (temporary : Location) (pieces : List (List UInt8))
  | checking (temporary : Location)
  | moving (temporary : Location)
  | cleaning (temporary : Location) (error : WriteError ε)
  | finished (result : Except (WriteError ε) Unit)

/-- A write of a text to a path, with the pieces in which its bytes are written and the check it has
to pass, if any. -/
structure WriteCall (ε : Type) where
  path : FilePath
  text : String
  pieces : List (List UInt8)
  check : Option (Check ε)
  stage : WriteStage ε

variable {ε : Type}

/-- The check of a text, if there is one. -/
def runCheck (check : Option (Check ε)) (text : String) : Except ε Unit :=
  match check with
  | some check => check.test text
  | none => .ok ()

/-- Whether the check of a text ends the program for a reason. -/
def checkQuits (check : Option (Check ε)) (reason : ε) : Bool := check.any fun check => check.quits reason

namespace WriteCall

/-- The write of a text in one piece. -/
def start (path : FilePath) (text : String) (check : Option (Check ε)) : WriteCall ε :=
  ⟨path, text, [Text.bytes text], check, .makingParents⟩

/-- The call at another stage. -/
def withStage (c : WriteCall ε) (stage : WriteStage ε) : WriteCall ε := { c with stage := stage }

/-- The call at its end with a fault of the files. -/
def failed (c : WriteCall ε) (fault : FileFault) : WriteCall ε :=
  c.withStage (.finished (.error (.file ⟨fault, c.path⟩)))

/-- The next operation of a call. -/
def step (t : FileTree) (c : WriteCall ε) : FileTree × WriteCall ε :=
  match c.stage with
  | .makingParents =>
      match t.makeDirs c.path.parent with
      | (t, .ok ()) => (t, c.withStage .creating)
      | (t, .error e) => (t, c.withStage (.finished (.error (.file e))))
  | .creating =>
      match t.temporaryPlace c.path with
      | .error fault => (t, c.failed fault)
      | .ok temporary =>
          match Text.encodeFault? c.text with
          | some fault =>
              (t.put temporary (.file []), c.withStage (.cleaning temporary (.unencodable fault)))
          | none => (t.put temporary (.file []), c.withStage (.filling temporary c.pieces))
  | .filling temporary [] => (t, c.withStage (.checking temporary))
  | .filling temporary (piece :: rest) => (t.append temporary piece, c.withStage (.filling temporary rest))
  | .checking temporary =>
      match runCheck c.check c.text with
      | .ok () => (t, c.withStage (.moving temporary))
      | .error reason =>
          if checkQuits c.check reason then (t, c.withStage (.finished (.error (.rejected reason))))
          else (t, c.withStage (.cleaning temporary (.rejected reason)))
  | .moving temporary =>
      match t.rename temporary c.path with
      | .ok t => (t, c.withStage (.finished (.ok ())))
      | .error fault => (t, c.withStage (.cleaning temporary (.file ⟨fault, c.path⟩)))
  | .cleaning temporary error => (t.erase temporary, c.withStage (.finished (.error error)))
  | .finished _ => (t, c)

/-- A bound on the number of operations that are left. -/
def remaining (c : WriteCall ε) : Nat :=
  match c.stage with
  | .makingParents => c.pieces.length + 6
  | .creating => c.pieces.length + 5
  | .filling _ pieces => pieces.length + 4
  | .checking _ => 3
  | .moving _ => 2
  | .cleaning _ _ => 1
  | .finished _ => 0

/-- Each operation leaves fewer. -/
theorem remaining_step_lt (t : FileTree) (c : WriteCall ε) (h : c.remaining ≠ 0) :
    (step t c).2.remaining < c.remaining := by
  obtain ⟨path, text, pieces, check, stage⟩ := c
  cases stage with
  | makingParents => simp only [step]; split <;> simp [withStage, remaining]
  | creating =>
      simp only [step]
      split
      · simp [withStage, failed, remaining]
      · split <;> simp [withStage, remaining]
  | filling temporary rest => cases rest <;> simp [step, withStage, remaining]
  | checking =>
      simp only [step]
      split
      · simp [withStage, remaining]
      · split <;> simp [withStage, remaining]
  | moving => simp only [step]; split <;> simp [withStage, remaining]
  | cleaning => simp [step, withStage, remaining]
  | finished => simp [remaining] at h

/-- How a call ended, if it has. -/
def result? (c : WriteCall ε) : Option (Except (WriteError ε) Unit) :=
  match c.stage with
  | .finished result => some result
  | _ => none

theorem remaining_ne_zero (c : WriteCall ε) (h : c.result? = none) : c.remaining ≠ 0 := by
  obtain ⟨path, text, pieces, check, stage⟩ := c
  cases stage <;> simp_all [result?, remaining]

/-- Runs a call to its end. -/
def run (t : FileTree) (c : WriteCall ε) : FileTree × Except (WriteError ε) Unit :=
  match _h : c.result? with
  | some result => (t, result)
  | none => run (step t c).1 (step t c).2
termination_by c.remaining
decreasing_by exact remaining_step_lt t c (remaining_ne_zero c _h)

end WriteCall

/-- Writes a text through a temporary file. -/
def writeAtomically (t : FileTree) (path : FilePath) (text : String) (check : Option (Check ε)) :
    FileTree × Except (WriteError ε) Unit :=
  (WriteCall.start path text check).run t

/-- Writes a text to its place at once. The file is opened, and so emptied, before the text is encoded. -/
def writeInPlace (t : FileTree) (path : FilePath) (text : String) (check : Option (Check ε)) :
    FileTree × Except (WriteError ε) Unit :=
  match t.makeDirs path.parent with
  | (t, .error e) => (t, .error (.file e))
  | (t, .ok ()) =>
      match runCheck check text with
      | .error reason => (t, .error (.rejected reason))
      | .ok () =>
          match Text.encodeFault? text with
          | some encodeFault =>
              match t.writeFile path [] with
              | .ok t => (t, .error (.unencodable encodeFault))
              | .error fault => (t, .error (.file ⟨fault, path⟩))
          | none =>
              match t.writeFile path (Text.bytes text) with
              | .ok t => (t, .ok ())
              | .error fault => (t, .error (.file ⟨fault, path⟩))

/-- Writes a text, in either way, in place of a file that may be there. -/
def writeText (t : FileTree) (atomic : Bool) (path : FilePath) (text : String)
    (check : Option (Check ε)) : FileTree × Except (WriteError ε) Unit :=
  if atomic then writeAtomically t path text check else writeInPlace t path text check

/-- Writes a text unless its path leads to something already. -/
def writeNew (t : FileTree) (atomic : Bool) (path : FilePath) (text : String)
    (check : Option (Check ε)) : FileTree × Except (WriteError ε) Unit :=
  match t.isThere path with
  | .error fault => (t, .error (.file ⟨fault, path⟩))
  | .ok true => (t, .error (.refused path))
  | .ok false => writeText t atomic path text check

end ContentTypes
