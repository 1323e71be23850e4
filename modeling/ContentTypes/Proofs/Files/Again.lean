import ContentTypes.Proofs.Files.Change

/-!
# Writing again

A write leaves a tree that is ready for the same write (`Ready`): the directories are there, and the path
leads to a file in one of them. A tree that is ready takes every text that has bytes and passes its check,
and changes in that one file only (`Ready.writeText`). In place a text without bytes is not written, but what
the file held is gone (`writeText_of_unencodable`). What is ready stays so as long as the directories
stay and none is put in the place of the file, so that writes of several files can be done again one after
the other.
-/

set_option autoImplicit false

namespace ContentTypes

variable {ε : Type} {t t' u : FileTree} {path : FilePath} {place : Location} {text : String}
  {check : Option (Check ε)} {atomic : Bool}

namespace FileTree

/-- Whether a tree is another one with bytes in the file at a place, and is the same everywhere else. -/
structure Stores (t u : FileTree) (place : Location) (bytes : List UInt8) : Prop where
  current : u.current = t.current
  get? : ∀ place', u.get? place' = if place' = place then some (.file bytes) else t.get? place'

/-- Whether nothing has to be made for a file to be written: the directory is there, the path leads to a
name in it that no directory has, and a temporary file, if one is used, stays within the limits. -/
structure Ready (t : FileTree) (atomic : Bool) (path : FilePath) (place : Location) : Prop where
  directory : t.isDirectory path.parent = true
  leads : t.resolve path = .ok (.name place)
  free : t.get? place ≠ some .directory
  nameRoom : atomic = true → Text.size path.fileName + temporaryMargin ≤ FilePath.nameLimit
  pathRoom : atomic = true →
    Text.size (⟨.root, place⟩ : FilePath).display + temporaryMargin ≤ FilePath.pathLimit

theorem Ready.of_keepsDirectories (h : t.Ready atomic path place) (hkeeps : KeepsDirectories t u)
    (hfree : u.get? place ≠ some .directory) : u.Ready atomic path place :=
  ⟨hkeeps.isDirectory h.directory, hkeeps.resolve_eq_name h.leads, hfree, h.nameRoom, h.pathRoom⟩

variable {bytes : List UInt8}

theorem Stores.keepsDirectories (h : t.Stores u place bytes) (hfree : t.get? place ≠ some .directory) :
    KeepsDirectories t u :=
  (Grows.of_file (p := ⟨.root, []⟩) h.current hfree h.get?).toKeepsDirectories

theorem Stores.get?_ne_directory (h : t.Stores u place bytes) {place' : Location}
    (hfree : t.get? place' ≠ some .directory) : u.get? place' ≠ some .directory := by
  rw [h.get?]
  split
  · simp
  · exact hfree

/-- A file that is written stays ready to be written. -/
theorem Ready.stores (h : t.Ready atomic path place) (hstores : t.Stores u place bytes) :
    u.Ready atomic path place :=
  h.of_keepsDirectories (hstores.keepsDirectories h.free) (hstores.get?_ne_directory h.free)

end FileTree

open FileTree

/-! ## Trees that are ready -/

/-- **A tree that is ready takes the text.** -/
theorem FileTree.Ready.writeText (h : t.Ready atomic path place)
    (hbytes : Text.encodeFault? text = none) (hcheck : runCheck check text = .ok ()) :
    ∃ u, writeText t atomic path text check = (u, .ok ()) ∧
      t.Stores u place (Text.bytes text) := by
  have hdirs := makeDirs_of_isDirectory h.directory
  cases atomic with
  | true =>
      have htakes : t.Takes path place := ⟨h.leads, h.free, h.nameRoom rfl, h.pathRoom rfl⟩
      obtain ⟨u, hwrite, hcurrent, hget⟩ := writeAtomically_of_takes hdirs htakes hbytes hcheck
      exact ⟨u, hwrite, hcurrent, hget⟩
  | false =>
      refine ⟨t.put place (.file (Text.bytes text)), ?_, rfl,
        get?_put t _ (ne_nil_of_resolve h.leads)⟩
      have hwrite : t.writeFile path (Text.bytes text) =
          .ok (t.put place (.file (Text.bytes text))) :=
        writeFile_eq_ok_iff.mpr ⟨place, h.leads, h.free, rfl⟩
      show writeInPlace t path text check = _
      simp only [writeInPlace, hdirs, hcheck, hbytes, hwrite]

/-- **A file in a tree that is ready to be written in place is emptied by a text without bytes.** -/
theorem writeText_of_unencodable {fault : Text.EncodeFault} (h : t.Ready false path place)
    (hbytes : Text.encodeFault? text = some fault) (hcheck : runCheck check text = .ok ()) :
    ∃ u, writeText t false path text check = (u, .error (.unencodable fault)) ∧ t.Stores u place [] := by
  refine ⟨t.put place (.file []), ?_, rfl, get?_put t _ (ne_nil_of_resolve h.leads)⟩
  have hopen : t.writeFile path [] = .ok (t.put place (.file [])) :=
    writeFile_eq_ok_iff.mpr ⟨place, h.leads, h.free, rfl⟩
  show writeInPlace t path text check = _
  simp only [writeInPlace, makeDirs_of_isDirectory h.directory, hcheck, hbytes, hopen]

/-- A tree is ready for a write once the directories are made with which the write succeeds. -/
theorem ready_of_writeAtomically (h : writeAtomically t path text check = (u, .ok ())) :
    ∃ t' place, t.makeDirs path.parent = (t', .ok ()) ∧ t'.Ready true path place := by
  obtain ⟨t', place, hdirs, htakes, -⟩ := takes_of_writeAtomically h
  exact ⟨t', place, hdirs, (isDirectory_of_makeDirs hdirs).2, htakes.leads, htakes.free,
    fun _ => htakes.nameRoom, fun _ => htakes.pathRoom⟩

theorem ready_of_writeInPlace (h : writeInPlace t path text check = (u, .ok ())) :
    ∃ t' place, t.makeDirs path.parent = (t', .ok ()) ∧ t'.Ready false path place := by
  have hbytes := (written_of_writeInPlace h).encodable
  unfold writeInPlace at h
  rcases hdirs : t.makeDirs path.parent with ⟨t', e | ⟨⟩⟩
  · rw [hdirs] at h
    cases h
  simp only [hdirs, hbytes] at h
  split at h
  · cases h
  · split at h
    · rename_i hwrite
      obtain ⟨place, hleads, hfree, -⟩ := writeFile_eq_ok_iff.mp hwrite
      exact ⟨t', place, rfl, (isDirectory_of_makeDirs hdirs).2, hleads, hfree, nofun, nofun⟩
    · cases h

/-- Once the directories are made a write goes on in the tree that has them. -/
theorem writeText_of_makeDirs (hdirs : t.makeDirs path.parent = (t', .ok ())) :
    writeText t atomic path text check = writeText t' atomic path text check := by
  have hagain := makeDirs_of_isDirectory (isDirectory_of_makeDirs hdirs).2
  cases atomic with
  | true =>
      show writeAtomically t path text check = writeAtomically t' path text check
      rw [writeAtomically_eq, writeAtomically_eq, hdirs, hagain]
  | false =>
      show writeInPlace t path text check = writeInPlace t' path text check
      rw [writeInPlace, writeInPlace, hdirs, hagain]

/-- What a write leaves that succeeds: directories are added on the way only, one file holds the bytes and
all others are as they were, and the tree is ready for another write of the file. -/
structure FileTree.Gains (t u : FileTree) (atomic : Bool) (path : FilePath) (place : Location)
    (bytes : List UInt8) : Prop where
  grows : t.Grows u path.parent
  ready : u.Ready atomic path place
  files : u.files = Function.update t.files place (some bytes)

theorem FileTree.Gains.files_self {bytes : List UInt8} (h : t.Gains u atomic path place bytes) :
    u.files place = some bytes := by
  rw [h.files, Function.update_self]

theorem FileTree.Gains.read_eq {bytes : List UInt8} (h : t.Gains u atomic path place bytes) :
    u.read path = .ok bytes :=
  read_of_get? (.refl u) h.ready.leads (files_eq_some_iff.mp h.files_self)

/-- Directories that are made before a file is written are on its way too. -/
theorem FileTree.Gains.of_grows {bytes : List UInt8} (hgrows : t.Grows t' path.parent)
    (hfiles : t'.files = t.files) (h : t'.Gains u atomic path place bytes) :
    t.Gains u atomic path place bytes :=
  ⟨hgrows.trans h.grows, h.ready, hfiles ▸ h.files⟩

/-- **A write that succeeds leaves a tree that is ready for it.** -/
theorem gains_of_writeText (h : writeText t atomic path text check = (u, .ok ())) :
    ∃ place, t.Gains u atomic path place (Text.bytes text) := by
  obtain ⟨t', place, hdirs, hready⟩ : ∃ t' place, t.makeDirs path.parent = (t', .ok ()) ∧
      t'.Ready atomic path place := by
    cases atomic with
    | true => exact ready_of_writeAtomically h
    | false => exact ready_of_writeInPlace h
  have hwritten := written_of_writeText h
  obtain ⟨u', hwrite, hstores⟩ := hready.writeText hwritten.encodable hwritten.passed
  obtain rfl : u = u' := by
    rw [writeText_of_makeDirs hdirs, hwrite] at h
    exact (congrArg Prod.fst h).symm
  have hgrows := grows_of_makeDirs hdirs
  exact ⟨place, .of_grows hgrows.1 hgrows.2
    ⟨.of_file hstores.current hready.free hstores.get?, hready.stores hstores,
      files_update hstores.get?⟩⟩

end ContentTypes
