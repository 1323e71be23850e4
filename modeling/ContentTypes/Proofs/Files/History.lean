import ContentTypes.Generation
import ContentTypes.Proofs.Files.Change
import Mathlib.Data.List.Induction

/-!
# Runs of calls

The calls that write files, one after the other, whatever becomes of each. A call that returns has put
its text where its path leads and changed no other file. A call that fails has changed no file at all, but
for the temporary file that it leaves if its check ends the program. Nothing else is added but directories
on the way (`FileCall.Outcome.effect`). So the files of a tree behave as a map that is updated by the texts
that are written and by those that are left (`runCalls_asMap`).

A text without bytes that is written in place is apart from this: it fails when its file is emptied.
-/

set_option autoImplicit false

namespace ContentTypes

open FileTree

variable {ε : Type}

/-! ## Calls -/

/-- A call that writes a file or makes a directory, with the check that its text has to pass, if any. -/
inductive FileCall (ε : Type) where
  | write (atomic : Bool) (path : FilePath) (text : String) (check : Option (Check ε))
  | writeNew (atomic : Bool) (path : FilePath) (text : String) (check : Option (Check ε))
  | makeArtifactsDir (directory : FilePath)
  | writeSchema (schema : Schema) (directory : FilePath)

/-- Why a call fails. -/
inductive CallError (ε : Type) where
  | write (error : WriteError ε)
  | directory (error : FileError)
  | schema (error : WriteError TypeScript.Unsound)

/-- What a call puts into a file: where, which text, the check that the text had to pass, and whether the
call returned. If it did not, the file is the temporary one that it has left. -/
structure Writing (ε : Type) where
  place : Location
  text : String
  check : Option (Check ε)
  returned : Bool

namespace Writing

/-- The bytes that a file holds after it is written. -/
def bytes (w : Writing ε) : List UInt8 := Text.bytes w.text

/-- The files with one that is written. -/
def applyTo (w : Writing ε) (files : FileMap) : FileMap :=
  Function.update files w.place (some w.bytes)

/-- Whether a text has passed its check or, if it is left in a temporary file, its check has ended the
program. -/
def Checked (w : Writing ε) : Prop :=
  if w.returned then runCheck w.check w.text = .ok ()
  else ∃ reason, runCheck w.check w.text = .error reason ∧ checkQuits w.check reason = true

end Writing

namespace FileCall

/-- The tree that a call leaves, and whether it returns. -/
def run (t : FileTree) : FileCall ε → FileTree × Except (CallError ε) Unit
  | .write atomic path text check =>
      ((writeText t atomic path text check).1,
        (writeText t atomic path text check).2.mapError .write)
  | .writeNew atomic path text check =>
      ((ContentTypes.writeNew t atomic path text check).1,
        (ContentTypes.writeNew t atomic path text check).2.mapError .write)
  | .makeArtifactsDir directory =>
      ((ContentTypes.makeArtifactsDir t directory).1,
        ((ContentTypes.makeArtifactsDir t directory).2.map fun _ => ()).mapError .directory)
  | .writeSchema schema directory =>
      ((ContentTypes.writeSchema t schema directory).1,
        ((ContentTypes.writeSchema t schema directory).2.map fun _ => ()).mapError .schema)

/-- The directory that a call makes, with all above it. -/
def way : FileCall ε → FilePath
  | .write _ path _ _ => path.parent
  | .writeNew _ path _ _ => path.parent
  | .makeArtifactsDir directory => directory
  | .writeSchema _ directory => directory

/-- The file that a call writes, if it writes one, and the text of it. -/
def target? : FileCall ε → Option (FilePath × String)
  | .write _ path text _ => some (path, text)
  | .writeNew _ path text _ => some (path, text)
  | .makeArtifactsDir _ => none
  | .writeSchema schema directory => some (directory.child schemaFileName, schema.toJson)

/-- The check that a text has to pass before it is written. -/
def check : FileCall ε → Option (Check ε)
  | .write _ _ _ check => check
  | .writeNew _ _ _ check => check
  | .makeArtifactsDir _ => none
  | .writeSchema _ _ => none

/-- Whether a call writes through a temporary file. -/
def atomic : FileCall ε → Bool
  | .write atomic _ _ _ | .writeNew atomic _ _ _ => atomic
  | .makeArtifactsDir _ | .writeSchema _ _ => true

/-- What a call leaves among the files that fails with an error. -/
def residue (c : FileCall ε) : CallError ε → Residue
  | .write e => e.residue c.atomic c.check
  | .directory _ | .schema _ => .nothing

/-- What a call has put into a file: the text it is to write, where its path leads, or where its temporary
file is if that is left. -/
def writing? (t : FileTree) (c : FileCall ε) : Option (Writing ε) :=
  match c.run t, c.target? with
  | (u, .ok ()), some (path, text) =>
      match u.resolve path with
      | .ok (.name place) => some ⟨place, text, c.check, true⟩
      | _ => none
  | (_, .error e), some (path, text) =>
      match c.residue e, (t.makeDirs path.parent).1.temporaryPlace path with
      | .temporary, .ok place => some ⟨place, text, c.check, false⟩
      | _, _ => none
  | _, none => none

/-- Whether a call is one in place that fails since its text has no bytes, and its file is at a place. -/
def Spoils (t : FileTree) (c : FileCall ε) (place : Location) : Prop :=
  ∃ e path text, (c.run t).2 = .error e ∧ c.residue e = .emptied ∧ c.target? = some (path, text) ∧
    (c.run t).1.resolve path = .ok (.name place)

end FileCall

/-! ## What a call does -/

/-- What becomes of a tree by a call. -/
structure FileCall.Outcome (c : FileCall ε) (t u : FileTree) (result : Except (CallError ε) Unit) :
    Prop where
  grows : t.Grows u c.way
  wrote : result = .ok () → ∀ path text, c.target? = some (path, text) → Written t u path text c.check
  left : ∀ e, result = .error e → ∀ path text, c.target? = some (path, text) →
    t.LeavesBehind u path text c.check (c.residue e)
  made : c.target? = none → u.files = t.files ∧ (result = .ok () → u.isDirectory c.way = true)

/-- A call that writes a file comes to what becomes of the file. -/
theorem FileCall.outcome_of_target {c : FileCall ε} {t u : FileTree}
    {result : Except (CallError ε) Unit} {path : FilePath} {text : String}
    (htarget : c.target? = some (path, text)) (hway : c.way = path.parent)
    (hwrote : result = .ok () → Written t u path text c.check)
    (hleft : ∀ e, result = .error e →
      t.Grows u path.parent ∧ t.LeavesBehind u path text c.check (c.residue e)) :
    c.Outcome t u result := by
  refine ⟨?_, ?_, ?_, ?_⟩
  · rw [hway]
    cases hresult : result with
    | error e => exact (hleft e hresult).1
    | ok a => exact (hwrote hresult).receives.spec.1
  · intro hresult path' text' heq
    rw [htarget] at heq
    cases heq
    exact hwrote hresult
  · intro e hresult path' text' heq
    rw [htarget] at heq
    cases heq
    exact (hleft e hresult).2
  · intro hnone
    rw [htarget] at hnone
    cases hnone

theorem outcome_write (t : FileTree) (atomic : Bool) (path : FilePath) (text : String)
    (check : Option (Check ε)) :
    (FileCall.write atomic path text check).Outcome t
      (writeText t atomic path text check).1
      ((writeText t atomic path text check).2.mapError .write) := by
  rcases hwrite : writeText t atomic path text check with ⟨u, e | ⟨⟩⟩
  · refine FileCall.outcome_of_target rfl rfl (fun h => nomatch h) ?_
    rintro _ ⟨⟩
    exact leaves_of_writeText_error hwrite
  · refine FileCall.outcome_of_target rfl rfl ?_ (fun _ h => nomatch h)
    intro _
    exact written_of_writeText hwrite

/-- A text that is not to replace a file is written as any other, or nothing is done. -/
theorem outcome_writeNew (t : FileTree) (atomic : Bool) (path : FilePath) (text : String)
    (check : Option (Check ε)) :
    (FileCall.writeNew atomic path text check).Outcome t
      (writeNew t atomic path text check).1
      ((writeNew t atomic path text check).2.mapError .write) := by
  have hnothing (e : WriteError ε) (hresidue : e.residue atomic check = .nothing) :
      (FileCall.writeNew atomic path text check).Outcome t t
        ((Except.error e : Except (WriteError ε) Unit).mapError .write) := by
    refine FileCall.outcome_of_target rfl rfl (fun h => nomatch h) ?_
    rintro _ ⟨⟩
    refine ⟨.refl t _, ?_⟩
    show t.LeavesBehind t path text check (e.residue atomic check)
    rw [hresidue]
    exact .nothing rfl
  unfold writeNew
  split
  · exact hnothing _ rfl
  · exact hnothing _ rfl
  · have hwrite := outcome_write t atomic path text check
    exact ⟨hwrite.grows, hwrite.wrote, hwrite.left, (fun hnone => nomatch hnone)⟩

theorem outcome_makeArtifactsDir (t : FileTree) (directory : FilePath) :
    (FileCall.makeArtifactsDir directory : FileCall ε).Outcome t
      (makeArtifactsDir t directory).1
      (((makeArtifactsDir t directory).2.map fun _ => ()).mapError .directory) := by
  unfold makeArtifactsDir
  rcases hdirs : t.makeDirs directory with ⟨u, e | ⟨⟩⟩
  · obtain ⟨hgrows, hfiles⟩ := grows_of_makeDirs hdirs
    exact ⟨hgrows, (fun h => nomatch h), (fun _ _ _ _ h => nomatch h),
      fun _ => ⟨hfiles, fun h => nomatch h⟩⟩
  · obtain ⟨hgrows, hfiles⟩ := grows_of_makeDirs hdirs
    exact ⟨hgrows, (fun _ _ _ h => nomatch h), (fun _ h => nomatch h),
      fun _ => ⟨hfiles, fun _ => (isDirectory_of_makeDirs hdirs).2⟩⟩

/-- The directories that are made before a file is written are on its way too. -/
theorem FileTree.Receives.of_grows {t t' u : FileTree} {path : FilePath} {bytes : List UInt8}
    (hgrows : t.Grows t' path.parent) (hfiles : t'.files = t.files) (h : t'.Receives u path bytes) :
    t.Receives u path bytes := by
  obtain ⟨t'', place, hgrows', hfiles', hrest⟩ := h
  exact ⟨t'', place, hgrows.trans hgrows', hfiles'.trans hfiles, hrest⟩

theorem outcome_writeSchema (t : FileTree) (schema : Schema) (directory : FilePath) :
    (FileCall.writeSchema schema directory : FileCall ε).Outcome t
      (writeSchema t schema directory).1
      (((writeSchema t schema directory).2.map fun _ => ()).mapError .schema) := by
  have hparent : (directory.child schemaFileName).parent = directory :=
    FilePath.parent_child directory schemaFileName
  unfold writeSchema makeArtifactsDir
  rcases hdirs : t.makeDirs directory with ⟨t', e | ⟨⟩⟩
  · -- the directory cannot be made
    obtain ⟨hgrows, hfiles⟩ := grows_of_makeDirs hdirs
    refine FileCall.outcome_of_target rfl hparent.symm (fun h => nomatch h) ?_
    rintro _ ⟨⟩
    rw [hparent]
    exact ⟨hgrows, .nothing hfiles⟩
  obtain ⟨hgrows, hfiles⟩ := grows_of_makeDirs hdirs
  dsimp only
  rcases hwrite : writeAtomically t' (directory.child schemaFileName) schema.toJson
    (none : Option (Check TypeScript.Unsound)) with ⟨u, e | ⟨⟩⟩
  · -- the file cannot be written
    refine FileCall.outcome_of_target rfl hparent.symm (fun h => nomatch h) ?_
    rintro _ ⟨⟩
    obtain ⟨hgrows', hleaves⟩ := leaves_of_writeAtomically_error hwrite
    have hresidue : e.residue true (none : Option (Check TypeScript.Unsound)) = .nothing := by
      cases e <;> rfl
    rw [hresidue] at hleaves
    rw [hparent] at hgrows' ⊢
    exact ⟨hgrows.trans hgrows', .nothing (hleaves.files_eq.trans hfiles)⟩
  · refine FileCall.outcome_of_target rfl hparent.symm ?_ (fun _ h => nomatch h)
    intro _
    have hwritten := written_of_writeAtomically hwrite
    refine ⟨.of_grows ?_ hfiles hwritten.receives, hwritten.encodable, rfl⟩
    rw [hparent]
    exact hgrows

/-- What becomes of a tree by any call. -/
theorem FileCall.outcome (t : FileTree) (c : FileCall ε) : c.Outcome t (c.run t).1 (c.run t).2 := by
  cases c with
  | write atomic path text check => exact outcome_write t atomic path text check
  | writeNew atomic path text check => exact outcome_writeNew t atomic path text check
  | makeArtifactsDir directory => exact outcome_makeArtifactsDir t directory
  | writeSchema schema directory => exact outcome_writeSchema t schema directory

/-- What a call does to a tree. Of a file that it empties nothing is said. -/
structure FileCall.Effect (c : FileCall ε) (t u : FileTree) (result : Except (CallError ε) Unit) :
    Prop where
  /-- All directories are still there, and new ones are on the way. -/
  grows : t.Grows u c.way
  /-- A call that fails leaves every file as it is. -/
  failed : ∀ e, result = .error e → c.residue e = .nothing → u.files = t.files
  /-- If its check ends the program, a new file is left in the directory that its path leads to, with all of
  the text, and every other file is as it was. -/
  quit : ∀ e, result = .error e → c.residue e = .temporary → ∀ path text, c.target? = some (path, text) →
    ∃ directory name, u.descend (u.start path) path.parent.names = .ok directory ∧
      t.get? (directory ++ [name]) = none ∧
      u.files = Function.update t.files (directory ++ [name]) (some (Text.bytes text))
  /-- A call that returns leaves its text, which has passed the check, where its path leads, and every
  other file as it is. -/
  returned : result = .ok () → ∀ path text, c.target? = some (path, text) →
    runCheck c.check text = .ok () ∧ u.read path = .ok (Text.bytes text) ∧
      ∃ place, u.resolve path = .ok (.name place) ∧
        u.files = Function.update t.files place (some (Text.bytes text))
  /-- A call that writes no file leaves its directory, and every file as it is. -/
  made : result = .ok () → c.target? = none → u.isDirectory c.way = true ∧ u.files = t.files

theorem read_of_receives {t u : FileTree} {path : FilePath} {bytes : List UInt8}
    (h : t.Receives u path bytes) : u.read path = .ok bytes := by
  obtain ⟨-, place, hleads, hfiles⟩ := h.spec
  have hget : u.get? place = some (.file bytes) := by
    rw [← files_eq_some_iff, hfiles, Function.update_self]
  exact read_of_get? (.refl u) hleads hget

theorem FileCall.Outcome.effect {c : FileCall ε} {t u : FileTree} {result : Except (CallError ε) Unit}
    (h : c.Outcome t u result) : c.Effect t u result where
  grows := h.grows
  failed := by
    intro e hresult hresidue
    rcases htarget : c.target? with _ | ⟨path, text⟩
    · exact (h.made htarget).1
    · exact (hresidue ▸ h.left e hresult path text htarget).files_eq
  quit := by
    intro e hresult hresidue path text htarget
    have hleft := h.left e hresult path text htarget
    rw [hresidue] at hleft
    cases hleft with
    | temporary _ hdirectory hfree _ hfiles => exact ⟨_, _, hdirectory, hfree, hfiles⟩
  returned := by
    intro hresult path text htarget
    have hwritten := h.wrote hresult path text htarget
    exact ⟨hwritten.passed, read_of_receives hwritten.receives, hwritten.receives.spec.2⟩
  made := fun hresult htarget => ⟨(h.made htarget).2 hresult, (h.made htarget).1⟩

/-! ## Runs -/

/-- The tree after calls, one after the other, whether they return or not. -/
def runCalls (t : FileTree) : List (FileCall ε) → FileTree
  | [] => t
  | c :: calls => runCalls (c.run t).1 calls

/-- What the calls put into files, in order. -/
def writings (t : FileTree) : List (FileCall ε) → List (Writing ε)
  | [] => []
  | c :: calls => (c.writing? t).toList ++ writings (c.run t).1 calls

/-- The last of some writings that went to a place. -/
def lastWriting? (place : Location) (ws : List (Writing ε)) : Option (Writing ε) :=
  (ws.filter fun w => w.place = place).getLast?

/-- A call changes no file, or the one that it has put its text into, or it empties one. -/
inductive FileCall.Changes (c : FileCall ε) (t u : FileTree) : Prop
  | nothing (hwriting : c.writing? t = none) (hfiles : u.files = t.files)
  | written {w : Writing ε} (hwriting : c.writing? t = some w) (hchecked : w.Checked)
      (hfiles : u.files = w.applyTo t.files)
  | spoiled {place : Location} (hwriting : c.writing? t = none) (hspoils : c.Spoils t place)
      (hfiles : u.files = Function.update t.files place (some []))

theorem FileCall.changes (t : FileTree) (c : FileCall ε) : c.Changes t (c.run t).1 := by
  have houtcome := c.outcome t
  rcases hrun : c.run t with ⟨u, result⟩
  rw [hrun] at houtcome
  rcases htarget : c.target? with _ | ⟨path, text⟩
  · refine .nothing ?_ (houtcome.made htarget).1
    simp only [writing?, hrun, htarget]
  rcases result with e | ⟨⟩
  · have hleft := houtcome.left e rfl path text htarget
    cases hresidue : c.residue e with
    | nothing =>
        rw [hresidue] at hleft
        refine .nothing ?_ hleft.files_eq
        simp only [writing?, hrun, htarget, hresidue]
    | emptied =>
        rw [hresidue] at hleft
        cases hleft with
        | emptied _ hleads hfiles =>
            refine .spoiled ?_ ⟨e, path, text, by rw [hrun], hresidue, htarget, by rw [hrun]; exact hleads⟩ hfiles
            simp only [writing?, hrun, htarget, hresidue]
    | temporary =>
        rw [hresidue] at hleft
        cases hleft with
        | @temporary directory name hquits _ _ htemporary hfiles =>
            refine .written (w := ⟨directory ++ [name], text, c.check, false⟩) ?_ hquits hfiles
            simp only [writing?, hrun, htarget, hresidue, htemporary]
  · have hwritten := houtcome.wrote rfl path text htarget
    obtain ⟨-, place, hleads, hfiles⟩ := hwritten.receives.spec
    refine .written (w := ⟨place, text, c.check, true⟩) ?_ hwritten.passed hfiles
    simp only [writing?, hrun, htarget, hleads]

/-- What a call has put into a file is the one change of the files, except where it empties one. -/
theorem FileCall.files_run (t : FileTree) (c : FileCall ε) {place : Location} (h : ¬c.Spoils t place) :
    (c.run t).1.files place =
      (c.writing? t).toList.foldl (fun files w => w.applyTo files) t.files place := by
  cases c.changes t with
  | nothing hwriting hfiles => simp [hwriting, hfiles]
  | written hwriting _ hfiles => simp [hwriting, hfiles]
  | @spoiled place' hwriting hspoils hfiles =>
      have hne : place ≠ place' := by
        rintro rfl
        exact h hspoils
      simp [hwriting, hfiles, hne]

theorem FileCall.checked_of_writing? (t : FileTree) (c : FileCall ε) : ∀ w ∈ c.writing? t, w.Checked := by
  cases c.changes t with
  | nothing hwriting => simp [hwriting]
  | written hwriting hchecked => simpa [hwriting] using hchecked
  | spoiled hwriting => simp [hwriting]

/-- A map that is updated holds the last of the updates of each place. -/
theorem foldl_applyTo (ws : List (Writing ε)) (files : FileMap) (place : Location) :
    ws.foldl (fun files w => w.applyTo files) files place =
      (lastWriting? place ws).elim (files place) fun w => some w.bytes := by
  induction ws using List.reverseRecOn with
  | nil => rfl
  | append_singleton ws w ih =>
      rw [List.foldl_append, lastWriting?, List.filter_append]
      show w.applyTo _ place = _
      rw [Writing.applyTo]
      by_cases hp : w.place = place
      · subst hp
        simp
      · rw [Function.update_of_ne (Ne.symm hp), ih]
        simp [lastWriting?, hp]

/-- A file after a run that empties none of its place: as before the run, updated by what was written, in
order. -/
theorem files_runCalls {place : Location} (t : FileTree) (calls : List (FileCall ε))
    (h : ∀ before c after, calls = before ++ c :: after → ¬c.Spoils (runCalls t before) place) :
    (runCalls t calls).files place =
      (writings t calls).foldl (fun files w => w.applyTo files) t.files place := by
  induction calls generalizing t with
  | nil => rfl
  | cons c calls ih =>
      have hrest := ih (c.run t).1 fun before c' after heq => h (c :: before) c' after (by rw [heq]; rfl)
      -- the later writings see the first one at this place only
      rw [runCalls, writings, hrest, foldl_applyTo, c.files_run t (h [] c calls rfl), List.foldl_append,
        foldl_applyTo (writings _ _)]

theorem keepsDirectories_runCalls (t : FileTree) (calls : List (FileCall ε)) :
    KeepsDirectories t (runCalls t calls) := by
  induction calls generalizing t with
  | nil => exact .refl t
  | cons c calls ih => exact (c.outcome t).grows.toKeepsDirectories.trans (ih (c.run t).1)

/-- The directories that a run adds are on the way of its calls. -/
theorem added_runCalls (t : FileTree) (calls : List (FileCall ε)) (place : Location)
    (h : (runCalls t calls).get? place = some .directory) :
    t.get? place = some .directory ∨ ∃ c ∈ calls, (runCalls t calls).OnWay c.way place := by
  induction calls generalizing t with
  | nil => exact .inl h
  | cons c calls ih =>
      rcases ih (c.run t).1 h with hdir | ⟨c', hc', hway⟩
      · -- added by the first call, and still on its way after the others
        refine ((c.outcome t).grows.added place hdir).imp id fun hway => ?_
        exact ⟨c, List.mem_cons_self, hway.of_keepsDirectories (keepsDirectories_runCalls _ calls)⟩
      · exact .inr ⟨c', List.mem_cons_of_mem c hc', hway⟩

theorem checked_of_mem_writings (t : FileTree) (calls : List (FileCall ε)) :
    ∀ w ∈ writings t calls, w.Checked := by
  induction calls generalizing t with
  | nil => simp [writings]
  | cons c calls ih =>
      intro w hw
      rcases List.mem_append.mp hw with hw | hw
      · exact c.checked_of_writing? t w (by simpa using hw)
      · exact ih (c.run t).1 w hw

/-- **The files are a map that is updated by the calls.** In a run of calls every call has its effect on the
tree that it finds. After the run each file that was not emptied holds the last text that a call has put
there, or what it held before; every such text has passed its check, or is in a temporary file because its
check has ended the program; and nothing that was there is gone, nor anything else added but directories on
the way of the calls. -/
theorem runCalls_asMap (t : FileTree) (calls : List (FileCall ε)) :
    (∀ before c after, calls = before ++ c :: after →
      c.Effect (runCalls t before) (c.run (runCalls t before)).1 (c.run (runCalls t before)).2) ∧
    (∀ place,
      (∀ before c after, calls = before ++ c :: after → ¬c.Spoils (runCalls t before) place) →
      (runCalls t calls).files place =
        (lastWriting? place (writings t calls)).elim (t.files place) fun w => some w.bytes) ∧
    (∀ w ∈ writings t calls, w.Checked) ∧
    (∀ place, t.get? place = some .directory → (runCalls t calls).get? place = some .directory) ∧
    ∀ place, (runCalls t calls).get? place = some .directory →
      t.get? place = some .directory ∨ ∃ c ∈ calls, (runCalls t calls).OnWay c.way place := by
  refine ⟨?_, ?_, checked_of_mem_writings t calls, (keepsDirectories_runCalls t calls).directory,
    added_runCalls t calls⟩
  · rintro before c after rfl
    exact (c.outcome (runCalls t before)).effect
  · intro place hspoils
    rw [files_runCalls t calls hspoils, foldl_applyTo]

/-- Two calls that fail and do not leave the files as they are: one leaves the temporary file since its check
ends the program, and one in place empties the file that was there since its text has no bytes. -/
theorem files_run_oldTree :
    ((FileCall.write true oldPath "text" (some (rejectAll true))).run oldTree).2 =
        .error (.write (.rejected ())) ∧
      oldTree.files ["work", ".index.d.ts.xxxxxxxxxxx.tmp"] = none ∧
      ((FileCall.write true oldPath "text" (some (rejectAll true))).run oldTree).1.files
        ["work", ".index.d.ts.xxxxxxxxxxx.tmp"] = some (Text.bytes "text") ∧
    ((FileCall.write false oldPath halfText none : FileCall Unit).run oldTree).2 =
        .error (.write (.unencodable ⟨0, 1, 0⟩)) ∧
      oldTree.files ["work", "index.d.ts"] = some [0x6F, 0x6C, 0x64] ∧
      ((FileCall.write false oldPath halfText none : FileCall Unit).run oldTree).1.files
        ["work", "index.d.ts"] = some [] := by
  have hatomic : writeText oldTree true oldPath "text" (some (rejectAll true)) = _ :=
    writeAtomically_rejectAll
  have hinPlace : writeText oldTree false oldPath halfText (none : Option (Check Unit)) = _ :=
    writeInPlace_halfText
  simp only [FileCall.run, hatomic, hinPlace]
  exact ⟨rfl, rfl, by rw [files_eq_some_iff]; rfl, rfl, rfl, rfl⟩

end ContentTypes
