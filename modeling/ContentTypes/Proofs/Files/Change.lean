import ContentTypes.Proofs.Files.Write
import Mathlib.Data.List.Basic
import Mathlib.Logic.Function.Basic

/-!
# What a write changes

The files of a tree are a map from places to bytes (`FileTree.files`). Making directories leaves the map
as it is, and only adds directories on the way of its path (`FileTree.Grows`). A write that succeeds sets
one place of the map, the one its path leads to (`FileTree.Receives.spec`). A write that fails leaves the
map as it is, with two exceptions (`leaves_of_writeText_error`): a check that ends the program leaves the
temporary file, and a text without bytes empties the file that it was to be written to in place. In all
cases nothing else is added but directories on the way.
-/

set_option autoImplicit false

namespace ContentTypes

variable {ε : Type} {t t' u v : FileTree} {p path : FilePath} {place : Location} {text : String}
  {check : Option (Check ε)} {bytes : List UInt8} {result : Except FileError Unit}

/-- The bytes of files by their places. -/
abbrev FileMap := Location → Option (List UInt8)

namespace FileTree

/-! ## Files as a map -/

/-- The files of a tree by their places. -/
def files (t : FileTree) : FileMap := fun place =>
  match t.get? place with
  | some (.file bytes) => some bytes
  | _ => none

theorem files_eq_some_iff : t.files place = some bytes ↔ t.get? place = some (.file bytes) := by
  unfold files
  split
  · rename_i bytes' heq
    simp [heq]
  · rename_i hfile
    constructor
    · intro h
      cases h
    · intro h
      exact absurd h (hfile bytes)

theorem files_congr (h : ∀ place, u.get? place = t.get? place) : u.files = t.files := by
  funext place
  rw [files, files, h]

/-- A file that is put in a place is the one change of the map. -/
theorem files_update
    (h : ∀ place', u.get? place' = if place' = place then some (.file bytes) else t.get? place') :
    u.files = Function.update t.files place (some bytes) := by
  funext place'
  by_cases hp : place' = place
  · rw [hp, Function.update_self, files_eq_some_iff, h, if_pos rfl]
  · rw [Function.update_of_ne hp, files, files, h, if_neg hp]

/-! ## Directories on the way -/

/-- Whether a place is on the way of a path: where some of its names, from the first on, lead. -/
def OnWay (t : FileTree) (p : FilePath) (place : Location) : Prop :=
  ∃ names, names <+: p.names ∧ t.descend (t.start p) names = .ok place

/-- Whether a tree has the directories of another one, and beside them only ones on the way of a path. -/
structure Grows (t u : FileTree) (p : FilePath) : Prop extends KeepsDirectories t u where
  added : ∀ place, u.get? place = some .directory →
    t.get? place = some .directory ∨ u.OnWay p place

theorem OnWay.of_keepsDirectories (hkeeps : KeepsDirectories t u) (h : t.OnWay p place) :
    u.OnWay p place := by
  obtain ⟨names, hnames, hplace⟩ := h
  refine ⟨names, hnames, ?_⟩
  rw [hkeeps.start_eq]
  exact hkeeps.descend hplace

theorem OnWay.of_parent (h : t.OnWay p.parent place) : t.OnWay p place := by
  obtain ⟨names, hnames, hplace⟩ := h
  exact ⟨names, hnames.trans (List.dropLast_prefix p.names), hplace⟩

theorem Grows.refl (t : FileTree) (p : FilePath) : Grows t t p :=
  ⟨.refl t, fun _ h => .inl h⟩

theorem Grows.trans (h : Grows t u p) (h' : Grows u v p) : Grows t v p := by
  refine ⟨h.toKeepsDirectories.trans h'.toKeepsDirectories, ?_⟩
  intro place hdir
  rcases h'.added place hdir with hdir | hway
  · exact (h.added place hdir).imp id (OnWay.of_keepsDirectories h'.toKeepsDirectories)
  · exact .inr hway

theorem Grows.of_parent (h : Grows t u p.parent) : Grows t u p :=
  ⟨h.toKeepsDirectories, fun place hdir => (h.added place hdir).imp id OnWay.of_parent⟩

/-- A tree with the same directories has grown by none. -/
theorem Grows.of_directories (hcurrent : u.current = t.current)
    (h : ∀ place, u.get? place = some .directory ↔ t.get? place = some .directory) : Grows t u p :=
  ⟨⟨hcurrent, fun place hdir => (h place).mpr hdir⟩, fun place hdir => .inl ((h place).mp hdir)⟩

/-- A file in a place that is no directory leaves the directories as they are. -/
theorem Grows.of_file (hcurrent : u.current = t.current) (hfree : t.get? place ≠ some .directory)
    (h : ∀ place', u.get? place' = if place' = place then some (.file bytes) else t.get? place') :
    Grows t u p := by
  refine .of_directories hcurrent ?_
  intro place'
  rw [h]
  by_cases hp : place' = place
  · subst hp
    simp [hfree]
  · rw [if_neg hp]

/-! ## Making directories -/

/-- Where a path leads to a directory, its names can be followed to it. -/
theorem descend_names_of_resolve (h : t.resolve p = .ok (.name place))
    (hdir : t.get? place = some .directory) : t.descend (t.start p) p.names = .ok place := by
  obtain ⟨-, directory, name, hd, hlast, hup, hlong, rfl⟩ := resolve_eq_name_iff.mp h
  have hnames : p.names = p.names.dropLast ++ [name] :=
    (List.dropLast_append_getLast? name hlast).symm
  rw [hnames, descend_append, hd]
  exact descend_singleton_eq_ok_iff.mpr (.inr ⟨hup, hlong, rfl, hdir⟩)

/-- A directory that is made is the one its path leads to, and no file changes. -/
theorem grows_makeDir (h : t.makeDir p = .ok u) : Grows t u p ∧ u.files = t.files := by
  obtain ⟨hkeeps, -⟩ := isDirectory_of_makeDir h
  obtain ⟨place, hplace, hfree, rfl⟩ := makeDir_eq_ok_iff.mp h
  have hget := get?_put t .directory (ne_nil_of_resolve hplace)
  refine ⟨⟨hkeeps, ?_⟩, ?_⟩
  · intro place' hdir
    rw [hget] at hdir
    by_cases hp : place' = place
    · subst hp
      have hthere := (hget place').trans (if_pos rfl)
      exact .inr ⟨p.names, List.prefix_refl _,
        descend_names_of_resolve (hkeeps.resolve_eq_name hplace) hthere⟩
    · rw [if_neg hp] at hdir
      exact .inl hdir
  · funext place'
    rw [files, files, hget]
    by_cases hp : place' = place
    · rw [if_pos hp, hp, hfree]
    · rw [if_neg hp]

theorem grows_ensureDir (t : FileTree) (p : FilePath) :
    Grows t (t.ensureDir p).1 p ∧ (t.ensureDir p).1.files = t.files := by
  unfold ensureDir
  split
  · exact grows_makeDir ‹_›
  · split
    · exact ⟨.refl t p, rfl⟩
    · exact ⟨.refl t p, rfl⟩

/-- **Making directories adds directories on the way only**, whether it succeeds or not, and leaves the
files as they are. -/
theorem grows_makeDirs (t : FileTree) (p : FilePath) :
    Grows t (t.makeDirs p).1 p ∧ (t.makeDirs p).1.files = t.files := by
  -- the induction is on the names of the path: the directories above are made first
  fun_induction makeDirs t p with
  | case1 t p t₁ p' hensure _ =>
      have hgrows := grows_ensureDir t p
      rwa [hensure] at hgrows
  | case2 t p t₁ p' hensure _ t₂ hparent ih =>
      obtain rfl : t₁ = t := ensureDir_error_fst hensure
      rw [hparent] at ih
      obtain ⟨hgrows, hfiles⟩ := grows_ensureDir t₂ p
      exact ⟨ih.1.of_parent.trans hgrows, hfiles.trans ih.2⟩
  | case3 t p t₁ p' hensure _ t₂ e hparent ih =>
      obtain rfl : t₁ = t := ensureDir_error_fst hensure
      rw [hparent] at ih
      exact ⟨ih.1.of_parent, ih.2⟩
  | case4 t p hensure => exact grows_ensureDir t p

theorem grows_of_makeDirs {p : FilePath} {result : Except FileError Unit} (h : t.makeDirs p = (u, result)) :
    Grows t u p ∧ u.files = t.files := by
  have hgrows := grows_makeDirs t p
  rwa [h] at hgrows

end FileTree

open FileTree

/-! ## Writing -/

/-- Whether a tree is another one with bytes put into the file that a path leads to, and directories
made on the way to it. -/
def FileTree.Receives (t u : FileTree) (path : FilePath) (bytes : List UInt8) : Prop :=
  ∃ t' place, Grows t t' path.parent ∧ t'.files = t.files ∧ t'.resolve path = .ok (.name place) ∧
    t'.get? place ≠ some .directory ∧ u.current = t'.current ∧
    ∀ place', u.get? place' = if place' = place then some (.file bytes) else t'.get? place'

/-- A file is put where a path leads, unless that is a directory. -/
theorem writeFile_eq_ok_iff :
    t.writeFile path bytes = .ok u ↔ ∃ place, t.resolve path = .ok (.name place) ∧
      t.get? place ≠ some .directory ∧ u = t.put place (.file bytes) := by
  unfold writeFile
  cases hleads : t.resolve path with
  | error fault => simp
  | ok target =>
      cases target with
      | directory place => simp
      | name place =>
          dsimp only
          constructor
          · intro h
            split at h
            · cases h
            · cases h
              exact ⟨place, rfl, ‹_›, rfl⟩
          · rintro ⟨_, ⟨⟩, hfree, rfl⟩
            split
            · exact absurd ‹_› hfree
            · rfl

/-- A file is put into the tree once the directories above it are made. -/
theorem receives_of_writeFile (hdirs : t.makeDirs path.parent = (t', .ok ()))
    (hwrite : t'.writeFile path bytes = .ok u) : t.Receives u path bytes := by
  have hgrows := grows_of_makeDirs hdirs
  obtain ⟨place, hleads, hfree, rfl⟩ := writeFile_eq_ok_iff.mp hwrite
  exact ⟨t', place, hgrows.1, hgrows.2, hleads, hfree, rfl, get?_put t' _ (ne_nil_of_resolve hleads)⟩

/-- What a file receives is found by the path it was written to, every other file is as it was, and
nothing else is added but directories on the way. -/
theorem FileTree.Receives.spec (h : t.Receives u path bytes) :
    Grows t u path.parent ∧ ∃ place, u.resolve path = .ok (.name place) ∧
      u.files = Function.update t.files place (some bytes) := by
  obtain ⟨t', place, hgrows, hfiles, hleads, hfree, hcurrent, hget⟩ := h
  have hput : Grows t' u path.parent := .of_file hcurrent hfree hget
  refine ⟨hgrows.trans hput, place, hput.toKeepsDirectories.resolve_eq_name hleads, ?_⟩
  rw [files_update hget, hfiles]

/-! ### Writes that succeed -/

/-- What a write that returns has done: the text has bytes, which are in the file its path leads to, and has
passed its check. -/
structure Written (t u : FileTree) (path : FilePath) (text : String) (check : Option (Check ε)) : Prop where
  receives : t.Receives u path (Text.bytes text)
  encodable : Text.encodeFault? text = none
  passed : runCheck check text = .ok ()

theorem written_of_writeAtomically (h : writeAtomically t path text check = (u, .ok ())) :
    Written t u path text check := by
  obtain ⟨t', place, hdirs, htakes, hbytes, hcheck⟩ := takes_of_writeAtomically h
  obtain ⟨u', hwrite, hcurrent, hget⟩ := writeAtomically_of_takes hdirs htakes hbytes hcheck
  obtain rfl : u = u' := by
    rw [h] at hwrite
    exact congrArg Prod.fst hwrite
  have hgrows := grows_of_makeDirs hdirs
  exact ⟨⟨t', place, hgrows.1, hgrows.2, htakes.leads, htakes.free, hcurrent, hget⟩, hbytes, hcheck⟩

theorem written_of_writeInPlace (h : writeInPlace t path text check = (u, .ok ())) :
    Written t u path text check := by
  unfold writeInPlace at h
  rcases hdirs : t.makeDirs path.parent with ⟨t', e | ⟨⟩⟩
  · rw [hdirs] at h
    cases h
  simp only [hdirs] at h
  rcases hcheck : runCheck check text with reason | ⟨⟩
  · rw [hcheck] at h
    cases h
  simp only [hcheck] at h
  cases hbytes : Text.encodeFault? text with
  | some fault =>
      simp only [hbytes] at h
      split at h <;> cases h
  | none =>
      simp only [hbytes] at h
      split at h
      · rename_i hwrite
        cases h
        exact ⟨receives_of_writeFile hdirs hwrite, hbytes, hcheck⟩
      · cases h

/-- A text that is written, in either way, has bytes, has passed its check and is in the file its path leads
to. -/
theorem written_of_writeText {atomic : Bool} (h : writeText t atomic path text check = (u, .ok ())) :
    Written t u path text check := by
  unfold writeText at h
  split at h
  · exact written_of_writeAtomically h
  · exact written_of_writeInPlace h

/-! ### Writes that fail -/

/-- What a write that fails can leave among the files: nothing, the file that was to be written with nothing
in it, or the temporary file with all of the text. -/
inductive Residue where
  | nothing
  | emptied
  | temporary
  deriving DecidableEq, Repr

/-- What a write leaves among the files that fails with an error. -/
def WriteError.residue (atomic : Bool) (check : Option (Check ε)) : WriteError ε → Residue
  | .unencodable _ => if atomic then .nothing else .emptied
  | .rejected reason => if atomic && checkQuits check reason then .temporary else .nothing
  | .file _ | .refused _ => .nothing

/-- Whether a tree has the files of another one, apart from what the write of a text to a path has left.
A temporary file is left by a check that ends the program, in the directory that the path leads to and in a
place where nothing was. -/
inductive FileTree.LeavesBehind (t u : FileTree) (path : FilePath) (text : String)
    (check : Option (Check ε)) : Residue → Prop
  | nothing (hfiles : u.files = t.files) : LeavesBehind t u path text check .nothing
  | emptied {place : Location} (hbytes : Text.encodeFault? text ≠ none)
      (hleads : u.resolve path = .ok (.name place))
      (hfiles : u.files = Function.update t.files place (some [])) :
      LeavesBehind t u path text check .emptied
  | temporary {directory : Location} {name : String}
      (hquits : ∃ reason, runCheck check text = .error reason ∧ checkQuits check reason = true)
      (hdirectory : u.descend (u.start path) path.parent.names = .ok directory)
      (hfree : t.get? (directory ++ [name]) = none)
      (htemporary : (t.makeDirs path.parent).1.temporaryPlace path = .ok (directory ++ [name]))
      (hfiles : u.files = Function.update t.files (directory ++ [name]) (some (Text.bytes text))) :
      LeavesBehind t u path text check .temporary

theorem FileTree.LeavesBehind.files_eq (h : t.LeavesBehind u path text check .nothing) : u.files = t.files := by
  cases h with
  | nothing hfiles => exact hfiles

/-- Whether two trees are the same at every place, and relative paths start from the same one. -/
structure FileTree.Same (t u : FileTree) : Prop where
  current : u.current = t.current
  get? : ∀ place, u.get? place = t.get? place

theorem FileTree.Same.refl (t : FileTree) : t.Same t := ⟨rfl, fun _ => rfl⟩

/-- A tree with something in a place that was free is as before once that is taken away. -/
theorem same_erase {entry : Entry} (hplace : place ≠ []) (hfree : t.get? place = none)
    (hcurrent : u.current = t.current)
    (hget : ∀ place', u.get? place' = if place' = place then some entry else t.get? place') :
    t.Same (u.erase place) := by
  refine ⟨hcurrent, fun place' => ?_⟩
  rw [get?_erase _ hplace, hget]
  by_cases hp : place' = place
  · rw [if_pos hp, hp, hfree]
  · rw [if_neg hp, if_neg hp]

/-- A temporary file that is filled and taken away again leaves everything as it was. -/
theorem same_erase_fill (hplace : place ≠ []) (hfree : t.get? place = none) (bytes : List UInt8) :
    t.Same ((t.fill place bytes).erase place) :=
  same_erase hplace hfree (current_fill t place bytes) (get?_fill t bytes hplace)

/-- A place that is found for a temporary file is free, and is not the root. -/
theorem free_of_temporaryPlace (h : t.temporaryPlace path = .ok place) :
    place ≠ [] ∧ t.get? place = none := by
  obtain ⟨-, directory, -, -, -, rfl⟩ := temporaryPlace_eq_ok_iff.mp h
  exact ⟨by simp, get?_temporaryName t directory _⟩

/-- A write has left nothing that has made its directories and changed nothing else. -/
theorem leaves_nothing (hdirs : t.makeDirs path.parent = (t', result)) (hsame : t'.Same u) :
    Grows t u path.parent ∧ t.LeavesBehind u path text check .nothing := by
  have hgrows := grows_of_makeDirs hdirs
  have hsame' : Grows t' u path.parent := .of_directories hsame.current fun place => by rw [hsame.get?]
  exact ⟨hgrows.1.trans hsame', .nothing ((files_congr hsame.get?).trans hgrows.2)⟩

/-- Where nothing is, nothing was before directories were added. -/
theorem get?_eq_none_of_grows (hgrows : Grows t u p) (hfiles : u.files = t.files)
    (hfree : u.get? place = none) : t.get? place = none := by
  cases hthere : t.get? place with
  | none => rfl
  | some entry =>
      cases entry with
      | directory =>
          rw [hgrows.directory _ hthere] at hfree
          cases hfree
      | file bytes =>
          rw [← files_eq_some_iff, ← hfiles, files_eq_some_iff, hfree] at hthere
          cases hthere

/-- A write has left its temporary file that has made its directories and filled that file. -/
theorem leaves_temporary {temporary : Location} {reason : ε}
    (hdirs : t.makeDirs path.parent = (t', .ok ())) (htemp : t'.temporaryPlace path = .ok temporary)
    (hcheck : runCheck check text = .error reason) (hquits : checkQuits check reason = true) :
    Grows t (t'.fill temporary (Text.bytes text)) path.parent ∧
      t.LeavesBehind (t'.fill temporary (Text.bytes text)) path text check .temporary := by
  have hgrows := grows_of_makeDirs hdirs
  obtain ⟨hnil, hfree⟩ := free_of_temporaryPlace htemp
  obtain ⟨directory, name, hd, rfl⟩ : ∃ directory name,
      t'.descend (t'.start path) path.parent.names = .ok directory ∧ temporary = directory ++ [name] := by
    obtain ⟨-, directory, hd, -, -, rfl⟩ := temporaryPlace_eq_ok_iff.mp htemp
    exact ⟨directory, _, hd, rfl⟩
  have hget := get?_fill t' (Text.bytes text) hnil
  have hfilled : Grows t' (t'.fill _ (Text.bytes text)) path.parent :=
    .of_file (current_fill t' _ _) (by simp [hfree]) hget
  have hkeeps := hfilled.toKeepsDirectories
  have hdirectory := hkeeps.descend hd
  rw [← hkeeps.start_eq path] at hdirectory
  have hfree' := get?_eq_none_of_grows hgrows.1 hgrows.2 hfree
  have htemp' : (t.makeDirs path.parent).1.temporaryPlace path = .ok (directory ++ [name]) := by
    rw [hdirs]
    exact htemp
  have hfiles := files_update hget
  rw [hgrows.2] at hfiles
  exact ⟨hgrows.1.trans hfilled, .temporary ⟨reason, hcheck, hquits⟩ hdirectory hfree' htemp' hfiles⟩

theorem leaves_of_writeAtomically_error {e : WriteError ε}
    (h : writeAtomically t path text check = (u, .error e)) :
    Grows t u path.parent ∧ t.LeavesBehind u path text check (e.residue true check) := by
  rw [writeAtomically_eq] at h
  rcases hdirs : t.makeDirs path.parent with ⟨t', e' | ⟨⟩⟩
  · rw [hdirs] at h
    cases h
    exact leaves_nothing hdirs (.refl u)
  simp only [hdirs] at h
  rcases htemp : t'.temporaryPlace path with fault | temporary
  · rw [htemp] at h
    cases h
    exact leaves_nothing hdirs (.refl u)
  simp only [htemp] at h
  -- from here on a failure takes the temporary file away, unless the check ends the program
  obtain ⟨hnil, hfree⟩ := free_of_temporaryPlace htemp
  cases hbytes : Text.encodeFault? text with
  | some fault =>
      rw [hbytes] at h
      cases h
      exact leaves_nothing hdirs (same_erase hnil hfree rfl (get?_put t' _ hnil))
  | none =>
  simp only [hbytes] at h
  rcases hcheck : runCheck check text with reason | ⟨⟩
  · rw [hcheck] at h
    cases h
    simp only [WriteError.residue, Bool.true_and]
    cases hquits : checkQuits check reason with
    | true => exact leaves_temporary hdirs htemp hcheck hquits
    | false => exact leaves_nothing hdirs (same_erase_fill hnil hfree _)
  simp only [hcheck] at h
  split at h
  · cases h
  · cases h
    exact leaves_nothing hdirs (same_erase_fill hnil hfree _)

theorem leaves_of_writeInPlace_error {e : WriteError ε}
    (h : writeInPlace t path text check = (u, .error e)) :
    Grows t u path.parent ∧ t.LeavesBehind u path text check (e.residue false check) := by
  unfold writeInPlace at h
  rcases hdirs : t.makeDirs path.parent with ⟨t', e' | ⟨⟩⟩
  · rw [hdirs] at h
    cases h
    exact leaves_nothing hdirs (.refl u)
  simp only [hdirs] at h
  split at h
  · cases h
    exact leaves_nothing hdirs (.refl u)
  cases hbytes : Text.encodeFault? text with
  | some fault =>
      simp only [hbytes] at h
      split at h
      · rename_i hwrite
        cases h
        obtain ⟨hgrows, place, hleads, hfiles⟩ := (receives_of_writeFile hdirs hwrite).spec
        exact ⟨hgrows, .emptied (by simp [hbytes]) hleads hfiles⟩
      · cases h
        exact leaves_nothing hdirs (.refl u)
  | none =>
      simp only [hbytes] at h
      split at h
      · cases h
      · cases h
        exact leaves_nothing hdirs (.refl u)

/-- **What a write leaves that fails.** It adds nothing but directories on the way, and leaves the files as
they are, apart from what the error says. -/
theorem leaves_of_writeText_error {atomic : Bool} {e : WriteError ε}
    (h : writeText t atomic path text check = (u, .error e)) :
    Grows t u path.parent ∧ t.LeavesBehind u path text check (e.residue atomic check) := by
  cases atomic with
  | true => exact leaves_of_writeAtomically_error h
  | false => exact leaves_of_writeInPlace_error h

/-! ### Writes that leave something -/

/-- A tree with a directory and a file where relative paths start. -/
def oldTree : FileTree :=
  ⟨["work"], [(["work"], .directory), (["work", "types"], .directory),
    (["work", "index.d.ts"], .file [0x6F, 0x6C, 0x64])]⟩

/-- The path of that file. -/
def oldPath : FilePath := ⟨.current, ["index.d.ts"]⟩

/-- A text without bytes. -/
def halfText : String := Text.ofPoints [.half 0]

/-- A check that no text passes, which ends the program or does not. -/
def rejectAll (quits : Bool) : Check Unit := ⟨fun _ => .error (), fun _ => quits⟩

/-- Above the names of the working directory there is nothing to make. -/
theorem makeDirs_oldTree (path : FilePath) (h : path.parent = ⟨.current, []⟩) :
    oldTree.makeDirs path.parent = (oldTree, .ok ()) := by
  rw [h]
  exact makeDirs_of_isDirectory rfl

theorem writeAtomically_rejectAll :
    writeAtomically oldTree oldPath "text" (some (rejectAll true)) =
      (oldTree.fill ["work", ".index.d.ts.xxxxxxxxxxx.tmp"] (Text.bytes "text"),
        .error (.rejected ())) := by
  rw [writeAtomically_eq, makeDirs_oldTree oldPath rfl]
  rfl

theorem writeInPlace_halfText :
    writeInPlace oldTree oldPath halfText (none : Option (Check Unit)) =
      (oldTree.put ["work", "index.d.ts"] (.file []), .error (.unencodable ⟨0, 1, 0⟩)) := by
  rw [writeInPlace, makeDirs_oldTree oldPath rfl]
  rfl

end ContentTypes
