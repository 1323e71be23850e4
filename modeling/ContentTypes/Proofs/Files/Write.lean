import ContentTypes.Files.Write
import ContentTypes.Proofs.Files.FileTree

/-!
# Writes run to their end

What a write through a temporary file comes to. `writeAtomically_eq` gives the run of its steps as one
equation. A write succeeds exactly on the files that the tree takes (`FileTree.Takes`), with a text
that has bytes and passes its check (`takes_of_writeAtomically`), and then the file holds the text and every
other place is as it was (`writeAtomically_of_takes`).
-/

set_option autoImplicit false

namespace ContentTypes

variable {ε : Type} {t t' u : FileTree} {path : FilePath} {place : Location} {text : String}
  {check : Option (Check ε)}

/-! ## The run of a write -/

theorem WriteCall.run_of_result {c : WriteCall ε} {result : Except (WriteError ε) Unit}
    (h : c.result? = some result) : c.run t = (t, result) := by
  rw [run]
  split
  · rename_i heq
    rw [h] at heq
    cases heq
    rfl
  · rename_i heq
    rw [h] at heq
    cases heq

theorem WriteCall.run_of_step {c : WriteCall ε} (h : c.result? = none) :
    c.run t = (step t c).2.run (step t c).1 := by
  rw [run]
  split
  · rename_i heq
    rw [h] at heq
    cases heq
  · rfl

/-- The tree with a new file that holds the bytes. -/
def FileTree.fill (t : FileTree) (place : Location) (bytes : List UInt8) : FileTree :=
  (t.put place (.file [])).append place bytes

/-- The steps of a write in one: the directories are made, the temporary file is filled beside the
file, and it is moved to its place, or taken away again, unless the check ends the program. -/
theorem writeAtomically_eq (t : FileTree) (path : FilePath) (text : String)
    (check : Option (Check ε)) :
    writeAtomically t path text check =
      match t.makeDirs path.parent with
      | (t, .error e) => (t, .error (.file e))
      | (t, .ok ()) =>
          match t.temporaryPlace path with
          | .error fault => (t, .error (.file ⟨fault, path⟩))
          | .ok temporary =>
              match Text.encodeFault? text with
              | some fault =>
                  ((t.put temporary (.file [])).erase temporary, .error (.unencodable fault))
              | none =>
                  let filled := t.fill temporary (Text.bytes text)
                  match runCheck check text with
                  | .error reason =>
                      (if checkQuits check reason then filled else filled.erase temporary,
                        .error (.rejected reason))
                  | .ok () =>
                      match filled.rename temporary path with
                      | .ok t => (t, .ok ())
                      | .error fault => (filled.erase temporary, .error (.file ⟨fault, path⟩)) := by
  open WriteCall in
  rw [writeAtomically, run_of_step rfl]
  -- the directories above the file
  simp only [step, start]
  rcases hdirs : t.makeDirs path.parent with ⟨t₁, e | ⟨⟩⟩
  · exact run_of_result rfl
  -- the temporary file, and the one piece it is filled with
  simp only [withStage]
  rw [run_of_step rfl]
  simp only [step]
  rcases htemp : t₁.temporaryPlace path with fault | temporary
  · exact run_of_result rfl
  rcases hbytes : Text.encodeFault? text with _ | fault
  swap
  · simp only [withStage]
    rw [run_of_step rfl]
    exact run_of_result rfl
  simp only [withStage]
  rw [run_of_step rfl]
  simp only [step, withStage]
  rw [run_of_step rfl]
  simp only [step, withStage]
  rw [run_of_step rfl]
  -- the check, and the move to the place of the file
  simp only [step]
  rcases hcheck : runCheck check text with reason | ⟨⟩
  · cases hquits : checkQuits check reason with
    | true =>
        simp only [withStage, hquits, if_true]
        exact run_of_result rfl
    | false =>
        simp only [withStage, hquits, Bool.false_eq_true, if_false]
        rw [run_of_step rfl]
        exact run_of_result rfl
  simp only [withStage]
  rw [run_of_step rfl]
  simp only [step, FileTree.fill]
  rcases hmove : FileTree.rename _ temporary path with fault | t₂
  · simp only [withStage]
    rw [run_of_step rfl]
    exact run_of_result rfl
  · exact run_of_result rfl

/-! ## What a tree takes -/

/-- Whether a file can be written to a path through a temporary file: the path leads to a name in a
directory, no directory has that name, and the temporary file stays within the limits. -/
structure FileTree.Takes (t : FileTree) (path : FilePath) (place : Location) : Prop where
  leads : t.resolve path = .ok (.name place)
  free : t.get? place ≠ some .directory
  nameRoom : Text.size path.fileName + temporaryMargin ≤ FilePath.nameLimit
  pathRoom : Text.size (⟨.root, place⟩ : FilePath).display + temporaryMargin ≤ FilePath.pathLimit

namespace FileTree

theorem fileName_of_getLast? {name : String} (h : path.names.getLast? = some name) :
    path.fileName = name := by
  rw [FilePath.fileName, List.getLastD_eq_getLast?, h]
  rfl

/-- What is found once the temporary file is filled. -/
theorem get?_fill (t : FileTree) {place : Location} (bytes : List UInt8) (h : place ≠ [])
    (place' : Location) :
    (t.fill place bytes).get? place' =
      if place' = place then some (.file bytes) else t.get? place' := by
  have hput : (t.put place (.file [])).get? place = some (.file []) := by
    rw [get?_put t _ h, if_pos rfl]
  rw [fill, append, hput]
  simp only [List.nil_append]
  rw [get?_put _ _ h, get?_put _ _ h]
  by_cases hp : place' = place
  · rw [if_pos hp, if_pos hp]
  · rw [if_neg hp, if_neg hp, if_neg hp]

theorem current_fill (t : FileTree) (place : Location) (bytes : List UInt8) :
    (t.fill place bytes).current = t.current := by
  unfold fill append
  split <;> rfl

/-- Filling a file in a place that was free changes no directory, neither way. -/
theorem keepsDirectories_fill {bytes : List UInt8} (hplace : place ≠ []) (h : t.get? place = none) :
    KeepsDirectories t (t.fill place bytes) ∧ KeepsDirectories (t.fill place bytes) t := by
  have hcurrent := current_fill t place bytes
  refine ⟨⟨hcurrent, ?_⟩, ⟨hcurrent.symm, ?_⟩⟩
  · intro place' hdir
    rw [get?_fill t bytes hplace]
    by_cases hp : place' = place
    · rw [hp, h] at hdir
      cases hdir
    · rw [if_neg hp]
      exact hdir
  · intro place' hdir
    rw [get?_fill t bytes hplace] at hdir
    by_cases hp : place' = place
    · rw [if_pos hp] at hdir
      cases hdir
    · rwa [if_neg hp] at hdir

theorem temporaryFault?_eq_none_iff {directory : Location} :
    temporaryFault? directory path = none ↔ FilePath.IsUsable path.fileName ∧
      Text.size path.fileName + temporaryMargin ≤ FilePath.nameLimit ∧
      Text.size (⟨.root, directory ++ [path.fileName]⟩ : FilePath).display + temporaryMargin ≤
        FilePath.pathLimit := by
  have husable : FilePath.IsUsable path.fileName ↔ Text.encodeFault? path.fileName = none ∧
      FilePath.hasNull path.fileName = false := ⟨fun h => ⟨h.1, h.2⟩, fun h => ⟨h.1, h.2⟩⟩
  rw [husable]
  unfold temporaryFault?
  cases Text.encodeFault? path.fileName with
  | some fault => simp
  | none =>
      cases FilePath.hasNull path.fileName with
      | true => simp
      | false =>
          simp only [Bool.false_eq_true, if_false, and_self, true_and]
          split
          · rename_i hlong
            exact iff_of_false nofun fun h => absurd h.1 (Nat.not_le.mpr hlong)
          · rename_i hname
            split
            · rename_i hlong
              exact iff_of_false nofun fun h => absurd h.2 (Nat.not_le.mpr hlong)
            · rename_i hpath
              exact iff_of_true rfl ⟨Nat.not_lt.mp hname, Nat.not_lt.mp hpath⟩

/-- A temporary file has a place if the names before the last lead to a directory and it stays within
the limits. -/
theorem temporaryPlace_eq_ok_iff {temporary : Location} :
    t.temporaryPlace path = .ok temporary ↔
      FilePath.IsUsable path.fileName ∧
      ∃ directory, t.descend (t.start path) path.names.dropLast = .ok directory ∧
        Text.size path.fileName + temporaryMargin ≤ FilePath.nameLimit ∧
        Text.size (⟨.root, directory ++ [path.fileName]⟩ : FilePath).display + temporaryMargin ≤
          FilePath.pathLimit ∧
        temporary = directory ++ [t.temporaryName path.fileName] := by
  unfold temporaryPlace
  have hparent : path.parent.names = path.names.dropLast := rfl
  rw [hparent]
  cases hd : t.descend (t.start path) path.names.dropLast with
  | error fault => simp
  | ok directory =>
      have hfault : temporaryFault? directory path = none ↔ _ := temporaryFault?_eq_none_iff
      simp only [Except.ok.injEq, exists_eq_left']
      rw [← and_assoc, ← and_assoc, and_assoc (a := FilePath.IsUsable _), ← hfault]
      cases temporaryFault? directory path with
      | some fault => simp
      | none => simp [@eq_comm _ temporary]

/-- A file is moved over what a path leads to, unless that is a directory. -/
theorem rename_eq_ok_iff {source : Location} {entry : Entry} (hsource : t.get? source = some entry) :
    t.rename source path = .ok u ↔
      ∃ place, t.resolve path = .ok (.name place) ∧ t.get? place ≠ some .directory ∧
        u = if place = source then t else (t.put place entry).erase source := by
  unfold rename
  rw [hsource]
  cases hleads : t.resolve path with
  | error fault => simp
  | ok target =>
      cases target with
      | directory place => simp
      | name place =>
          dsimp only
          constructor
          · intro h
            split at h
            · cases h
            · rename_i hfree
              refine ⟨place, rfl, hfree, ?_⟩
              split at h
              · cases h
                rw [if_pos ‹_›]
              · cases h
                rw [if_neg ‹_›]
          · rintro ⟨_, ⟨⟩, hfree, rfl⟩
            split
            · exact absurd ‹_› hfree
            · split <;> rfl

end FileTree

open FileTree

/-- **A write that is taken.** Where the directories can be made and the tree then takes the file, a
text that has bytes and passes its check is written: the file holds it, and every other place is as it was. -/
theorem writeAtomically_of_takes (hdirs : t.makeDirs path.parent = (t', .ok ()))
    (h : t'.Takes path place) (hbytes : Text.encodeFault? text = none)
    (hcheck : runCheck check text = .ok ()) :
    ∃ u, writeAtomically t path text check = (u, .ok ()) ∧ u.current = t'.current ∧
      ∀ place', u.get? place' =
        if place' = place then some (.file (Text.bytes text)) else t'.get? place' := by
  obtain ⟨hfault, directory, name, hd, hlast, hup, hlong, rfl⟩ := resolve_eq_name_iff.mp h.leads
  obtain rfl := fileName_of_getLast? hlast
  obtain ⟨temporary, htemporary⟩ : ∃ temporary : Location,
    temporary = directory ++ [t'.temporaryName path.fileName] := ⟨_, rfl⟩
  have htemp : t'.temporaryPlace path = .ok temporary :=
    temporaryPlace_eq_ok_iff.mpr
      ⟨isUsable_of_pathFault? hfault (List.mem_of_getLast? hlast), directory, hd, h.nameRoom, h.pathRoom, htemporary⟩
  have hnil : temporary ≠ [] := by simp [htemporary]
  have hfree : t'.get? temporary = none := htemporary ▸ get?_temporaryName t' directory _
  have hne : directory ++ [path.fileName] ≠ temporary := by
    rw [htemporary]
    intro heq
    exact temporaryName_ne t' path.fileName (List.singleton_inj.mp (List.append_cancel_left heq)).symm
  -- the temporary file is moved, since the path leads on where it led before
  obtain ⟨filled, hfilled⟩ : ∃ filled, filled = t'.fill temporary (Text.bytes text) :=
    ⟨_, rfl⟩
  have hget := get?_fill t' (Text.bytes text) hnil
  rw [← hfilled] at hget
  have hmove : filled.rename temporary path = .ok ((filled.put (directory ++ [path.fileName])
      (.file (Text.bytes text))).erase temporary) := by
    have hsource : filled.get? temporary = some (.file (Text.bytes text)) := by
      rw [hget, if_pos rfl]
    refine (rename_eq_ok_iff hsource).mpr ⟨directory ++ [path.fileName], ?_, ?_, ?_⟩
    · exact hfilled ▸ (keepsDirectories_fill hnil hfree).1.resolve_eq_name h.leads
    · rw [hget, if_neg hne]
      exact h.free
    · rw [if_neg hne]
  refine ⟨(filled.put (directory ++ [path.fileName])
    (.file (Text.bytes text))).erase temporary, ?_, ?_, ?_⟩
  · rw [writeAtomically_eq, hdirs]
    simp only [htemp, hbytes, ← hfilled, hcheck, hmove]
  · exact hfilled ▸ current_fill t' temporary _
  · intro place'
    rw [get?_erase _ hnil, get?_put _ _ (by simp), hget]
    by_cases hp : place' = temporary
    · rw [if_pos hp, if_neg (fun heq => hne (heq.symm.trans hp)), hp, hfree]
    · rw [if_neg hp, if_neg hp]

/-- A write that succeeds was taken. -/
theorem takes_of_writeAtomically (h : writeAtomically t path text check = (u, .ok ())) :
    ∃ t' place, t.makeDirs path.parent = (t', .ok ()) ∧ t'.Takes path place ∧
      Text.encodeFault? text = none ∧ runCheck check text = .ok () := by
  rw [writeAtomically_eq] at h
  rcases hdirs : t.makeDirs path.parent with ⟨t', e | ⟨⟩⟩
  · rw [hdirs] at h
    cases h
  simp only [hdirs] at h
  rcases htemp : t'.temporaryPlace path with fault | temporary
  · rw [htemp] at h
    cases h
  simp only [htemp] at h
  rcases hbytes : Text.encodeFault? text with _ | fault
  swap
  · rw [hbytes] at h
    cases h
  simp only [hbytes] at h
  rcases hcheck : runCheck check text with reason | ⟨⟩
  · rw [hcheck] at h
    cases h
  simp only [hcheck] at h
  rcases hmove : (t'.fill temporary (Text.bytes text)).rename temporary path with fault | u'
  · rw [hmove] at h
    cases h
  -- the move succeeded, so the path leads to the same name in the tree without the temporary file
  obtain ⟨-, directory, hd, hname, hpath, htemporary⟩ := temporaryPlace_eq_ok_iff.mp htemp
  have hnil : temporary ≠ [] := by simp [htemporary]
  have hfree : t'.get? temporary = none := htemporary ▸ get?_temporaryName t' directory _
  have hget := get?_fill t' (Text.bytes text) hnil
  have hsource := (hget temporary).trans (if_pos rfl)
  obtain ⟨place, hleads, hplace, -⟩ := (rename_eq_ok_iff hsource).mp hmove
  have hleads' := (keepsDirectories_fill hnil hfree).2.resolve_eq_name hleads
  obtain ⟨-, directory', name, hd', hlast, -, -, rfl⟩ := resolve_eq_name_iff.mp hleads'
  obtain rfl : directory = directory' := Except.ok.inj (hd.symm.trans hd')
  obtain rfl := fileName_of_getLast? hlast
  refine ⟨t', _, rfl, ⟨hleads', ?_, hname, hpath⟩, rfl, rfl⟩
  intro hdir
  exact hplace ((keepsDirectories_fill hnil hfree).1.directory _ hdir)

/-- A tree that differs in a file it has taken has all its directories still. -/
theorem FileTree.Takes.keepsDirectories {bytes : List UInt8} (h : t.Takes path place)
    (hcurrent : u.current = t.current)
    (hget : ∀ place', u.get? place' = if place' = place then some (.file bytes) else t.get? place') :
    KeepsDirectories t u := by
  refine ⟨hcurrent, ?_⟩
  intro place' hdir
  rw [hget, if_neg]
  · exact hdir
  · rintro rfl
    exact h.free hdir

/-- The file that was written is read as it was written. -/
theorem read_of_get? {bytes : List UInt8} (hkeeps : KeepsDirectories t u)
    (hleads : t.resolve path = .ok (.name place)) (hget : u.get? place = some (.file bytes)) :
    u.read path = .ok bytes := by
  have hleads' := hkeeps.resolve_eq_name hleads
  simp only [FileTree.read, FileTree.find, hleads', hget]

/-! ## Texts that are not written -/

/-- A text without bytes fails once the directories are made. -/
theorem makeDirs_of_writeAtomically_unencodable {fault : Text.EncodeFault}
    (h : writeAtomically t path text check = (u, .error (.unencodable fault))) :
    ∃ t', t.makeDirs path.parent = (t', .ok ()) ∧ Text.encodeFault? text = some fault := by
  rw [writeAtomically_eq] at h
  rcases hdirs : t.makeDirs path.parent with ⟨t', e | ⟨⟩⟩
  · rw [hdirs] at h
    cases h
  simp only [hdirs] at h
  split at h
  · cases h
  split at h
  · rename_i hbytes
    cases h
    exact ⟨t', rfl, hbytes⟩
  split at h
  · cases h
  split at h <;> cases h

section Rejected

variable {reason : ε} {atomic : Bool}

theorem runCheck_of_writeAtomically (h : writeAtomically t path text check = (u, .error (.rejected reason))) :
    runCheck check text = .error reason := by
  rw [writeAtomically_eq] at h
  rcases hdirs : t.makeDirs path.parent with ⟨t', e | ⟨⟩⟩
  · rw [hdirs] at h
    cases h
  simp only [hdirs] at h
  rcases htemp : t'.temporaryPlace path with fault | temporary
  · rw [htemp] at h
    cases h
  simp only [htemp] at h
  rcases hbytes : Text.encodeFault? text with _ | fault
  swap
  · rw [hbytes] at h
    cases h
  simp only [hbytes] at h
  rcases hcheck : runCheck check text with reason' | ⟨⟩
  · rw [hcheck] at h
    cases h
    rfl
  simp only [hcheck] at h
  rcases hmove : (t'.fill temporary (Text.bytes text)).rename temporary path with fault | u'
  · rw [hmove] at h
    cases h
  · rw [hmove] at h
    cases h

theorem runCheck_of_writeInPlace (h : writeInPlace t path text check = (u, .error (.rejected reason))) :
    runCheck check text = .error reason := by
  unfold writeInPlace at h
  rcases hdirs : t.makeDirs path.parent with ⟨t', e | ⟨⟩⟩
  · rw [hdirs] at h
    cases h
  simp only [hdirs] at h
  rcases hcheck : runCheck check text with reason' | ⟨⟩
  · rw [hcheck] at h
    cases h
    rfl
  simp only [hcheck] at h
  split at h
  · split at h <;> cases h
  · split at h <;> cases h

/-- A text is rejected only if it does not pass its check. -/
theorem runCheck_of_writeText (h : writeText t atomic path text check = (u, .error (.rejected reason))) :
    runCheck check text = .error reason := by
  unfold writeText at h
  split at h
  · exact runCheck_of_writeAtomically h
  · exact runCheck_of_writeInPlace h

theorem runCheck_of_writeNew (h : writeNew t atomic path text check = (u, .error (.rejected reason))) :
    runCheck check text = .error reason := by
  unfold writeNew at h
  split at h
  · cases h
  · cases h
  · exact runCheck_of_writeText h

end Rejected

end ContentTypes
