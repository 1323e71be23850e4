import ContentTypes.Proofs.Files.Again

/-!
# The two ways of writing

A text can be written through a temporary file or in place. The first way makes and fills a file before
the text is checked and moves it afterwards, the second one checks the text and then writes; both make the
directories first. Seen from outside they are one: with the directories made, the text is either rejected,
or the path leads to a name in a directory, and then only a directory of that name stands in the way of
both (`writeText_modes`). They are told apart by a check that ends the program, which leaves the temporary
file of the first way.

Two things are left out of this. A temporary file has a longer name than the file it stands for, so that it
can be beyond the limits of paths where the file itself is not. And a text without bytes makes the second
way fail only when the file is emptied.
-/

set_option autoImplicit false

namespace ContentTypes

/-- Whether a fault is one of the limits of paths, and not of what is there already. -/
def FileFault.OfLimits : FileFault → Prop
  | .nameTooLong | .nullCharacter | .unencodable _ => True
  | .missing | .notDirectory | .alreadyThere | .isDirectory | .busy => False

variable {ε : Type} {t u : FileTree} {path : FilePath} {place : Location} {name text : String}
  {check : Option (Check ε)}

namespace FileTree

/-! ## Paths below a directory that is there -/

theorem ofLimits_of_pathFault? {fault : FileFault} (h : pathFault? path = some fault) :
    fault.OfLimits := by
  unfold pathFault? at h
  split at h
  · cases h
    trivial
  · split at h
    · cases h
      trivial
    · split at h
      · cases h
        trivial
      · cases h

theorem ofLimits_of_temporaryFault? {directory : Location} {fault : FileFault}
    (h : temporaryFault? directory path = some fault) : fault.OfLimits := by
  unfold temporaryFault? at h
  split at h
  · cases h
    trivial
  · dsimp only at h
    split at h
    · cases h
      trivial
    · split at h
      · cases h
        trivial
      · split at h
        · cases h
          trivial
        · cases h

/-- A path whose directory is there leads to a name in it, unless it is beyond the limits. -/
theorem resolve_of_isDirectory (hdir : t.isDirectory path.parent = true)
    (hlast : path.names.getLast? = some name) (hup : name ≠ FilePath.upName) :
    (∃ place, t.resolve path = .ok (.name place)) ∨
      ∃ fault, t.resolve path = .error fault ∧ fault.OfLimits := by
  obtain ⟨-, directory, hdirectory⟩ := isDirectory_iff.mp hdir
  have hdescend : t.descend (t.start path) path.names.dropLast = .ok directory := hdirectory
  cases hfault : pathFault? path with
  | some fault =>
      refine .inr ⟨fault, ?_, ofLimits_of_pathFault? hfault⟩
      rw [resolve, hfault]
  | none =>
      by_cases hlong : FilePath.nameTooLong name = true
      · refine .inr ⟨.nameTooLong, ?_, trivial⟩
        simp only [resolve, hfault, hdescend, hlast, if_neg hup, if_pos hlong, bind, Except.bind]
        rfl
      · refine .inl ⟨directory ++ [name], resolve_eq_name_iff.mpr ?_⟩
        exact ⟨hfault, directory, name, hdescend, hlast, hup, by simpa using hlong, rfl⟩

/-- A path whose directory is there has a place for a temporary file, unless that is beyond the limits. -/
theorem temporaryPlace_of_isDirectory (hdir : t.isDirectory path.parent = true) :
    (∃ temporary, t.temporaryPlace path = .ok temporary) ∨
      ∃ fault, t.temporaryPlace path = .error fault ∧ fault.OfLimits := by
  obtain ⟨-, directory, hdirectory⟩ := isDirectory_iff.mp hdir
  have hdescend : t.descend (t.start path) path.parent.names = .ok directory := hdirectory
  unfold temporaryPlace
  rw [hdescend]
  dsimp only
  cases hfault : temporaryFault? directory path with
  | some fault => exact .inr ⟨fault, rfl, ofLimits_of_temporaryFault? hfault⟩
  | none => exact .inl ⟨_, rfl⟩

/-! ## The last step of either way -/

theorem Same.symm (h : t.Same u) : u.Same t := ⟨h.current.symm, fun place => (h.get? place).symm⟩

/-- Moving a temporary file to where a path leads comes to the same as putting its bytes there. -/
theorem rename_fill_eq {temporary : Location} (hnil : temporary ≠ [])
    (hfree : t.get? temporary = none) (hleads : t.resolve path = .ok (.name place))
    (hne : place ≠ temporary) (bytes : List UInt8) :
    (∃ u u', (t.fill temporary bytes).rename temporary path = .ok u ∧
        t.writeFile path bytes = .ok u' ∧ Same u u') ∨
      (t.fill temporary bytes).rename temporary path = .error .isDirectory ∧
        t.writeFile path bytes = .error .isDirectory := by
  have hget := get?_fill t bytes hnil
  have hsource : (t.fill temporary bytes).get? temporary = some (.file bytes) :=
    (hget temporary).trans (if_pos rfl)
  have hkeeps : KeepsDirectories t (t.fill temporary bytes) := (keepsDirectories_fill hnil hfree).1
  have hleads' := hkeeps.resolve_eq_name hleads
  have hplace : (t.fill temporary bytes).get? place = t.get? place :=
    (hget place).trans (if_neg hne)
  by_cases hdir : t.get? place = some .directory
  · right
    constructor
    · simp only [rename, hsource, hleads', hplace, hdir]
    · simp only [writeFile, hleads, hdir]
  · left
    have hnilPlace := ne_nil_of_resolve hleads
    refine ⟨((t.fill temporary bytes).put place (.file bytes)).erase temporary,
      t.put place (.file bytes), ?_, writeFile_eq_ok_iff.mpr ⟨place, hleads, hdir, rfl⟩, ?_, ?_⟩
    · refine (rename_eq_ok_iff hsource).mpr ⟨place, hleads', ?_, ?_⟩
      · rwa [hplace]
      · rw [if_neg hne]
    · exact (current_fill t temporary bytes).symm
    · intro place'
      rw [get?_put _ _ hnilPlace, get?_erase _ hnil, get?_put _ _ hnilPlace, hget]
      by_cases htemporary : place' = temporary
      · rw [if_pos htemporary, htemporary, if_neg (Ne.symm hne), hfree]
      · rw [if_neg htemporary, if_neg htemporary]

/-- The place of a temporary file is not the one that its path leads to. -/
theorem ne_of_temporaryPlace {temporary : Location} (h : t.temporaryPlace path = .ok temporary)
    (hleads : t.resolve path = .ok (.name place)) : place ≠ temporary := by
  obtain ⟨-, directory, hd, -, -, rfl⟩ := temporaryPlace_eq_ok_iff.mp h
  obtain ⟨-, directory', name, hd', hlast, -, -, rfl⟩ := resolve_eq_name_iff.mp hleads
  obtain rfl : directory = directory' := Except.ok.inj (hd.symm.trans hd')
  obtain rfl := fileName_of_getLast? hlast
  intro heq
  exact temporaryName_ne t path.fileName (List.singleton_inj.mp (List.append_cancel_left heq)).symm

end FileTree

open FileTree

/-! ## Both ways -/

/-- **Writing through a temporary file and writing in place cannot be told apart.** For a text that has bytes
and a path that ends in a name, unless the limits of paths stop the temporary file, both ways return or both
fail, with the same error, and the trees they leave are the same at every place. Only if the text is
rejected by a check that ends the program, there is a new file in the directory of the path after the first
way, which holds the text. -/
theorem writeText_modes (hname : ∃ name, path.names.getLast? = some name ∧ name ≠ FilePath.upName)
    (hlimits : ∀ u e, writeText t true path text check = (u, .error (.file e)) → ¬e.fault.OfLimits)
    (hbytes : Text.encodeFault? text = none) :
    (writeText t true path text check).2 = (writeText t false path text check).2 ∧
      ((∀ reason, (writeText t true path text check).2 = .error (.rejected reason) →
          checkQuits check reason = false) →
        Same (writeText t true path text check).1 (writeText t false path text check).1) ∧
      ∀ reason, (writeText t true path text check).2 = .error (.rejected reason) →
        checkQuits check reason = true → ∃ u directory name, writeText t false path text check =
            (u, .error (.rejected reason)) ∧
          u.descend (u.start path) path.parent.names = .ok directory ∧
          u.get? (directory ++ [name]) = none ∧
          u.Stores (writeText t true path text check).1 (directory ++ [name]) (Text.bytes text) := by
  obtain ⟨name, hlast, hup⟩ := hname
  have hatomic : writeText t true path text check = writeAtomically t path text check := rfl
  have hinPlace : writeText t false path text check = writeInPlace t path text check := rfl
  rw [hatomic, writeAtomically_eq] at hlimits ⊢
  rw [hinPlace, writeInPlace]
  rcases hdirs : t.makeDirs path.parent with ⟨t', e | ⟨⟩⟩
  · exact ⟨rfl, fun _ => .refl t', by rintro _ ⟨⟩⟩
  obtain ⟨-, hthere⟩ := isDirectory_of_makeDirs hdirs
  simp only [hdirs] at hlimits ⊢
  -- the temporary file can be made, since its directory is there
  obtain ⟨temporary, htemp⟩ : ∃ temporary, t'.temporaryPlace path = .ok temporary := by
    refine (temporaryPlace_of_isDirectory hthere).resolve_right ?_
    rintro ⟨fault, hfault, hlimit⟩
    exact hlimits t' ⟨fault, path⟩ (by rw [hfault]) hlimit
  simp only [htemp, hbytes] at hlimits ⊢
  obtain ⟨hnil, hfree⟩ := free_of_temporaryPlace htemp
  rcases hcheck : runCheck check text with reason | ⟨⟩
  · -- a text that is rejected leaves the directories that were made, and the temporary file if that stays
    refine ⟨rfl, fun hordinary => ?_, ?_⟩
    · simp only [hordinary reason rfl, Bool.false_eq_true, if_false]
      exact (same_erase_fill hnil hfree _).symm
    · rintro _ ⟨⟩ hquits
      obtain ⟨-, directory, hd, -, -, rfl⟩ := temporaryPlace_eq_ok_iff.mp htemp
      refine ⟨t', directory, _, rfl, hd, hfree, ?_⟩
      simp only [hquits, if_true]
      exact ⟨current_fill t' _ _, get?_fill t' _ hnil⟩
  simp only [hcheck] at hlimits ⊢
  -- the path leads to a name, with the temporary file and without it, and both ways put the bytes there
  obtain ⟨bytes, hbytes⟩ : ∃ bytes, bytes = Text.bytes text := ⟨_, rfl⟩
  rw [← hbytes] at hlimits ⊢
  obtain ⟨hkeeps, hkeeps'⟩ : KeepsDirectories t' (t'.fill temporary bytes) ∧ _ :=
    keepsDirectories_fill hnil hfree
  obtain ⟨place, hfilled⟩ : ∃ place, (t'.fill temporary bytes).resolve path = .ok (.name place) := by
    refine (resolve_of_isDirectory (hkeeps.isDirectory hthere) hlast hup).resolve_right ?_
    rintro ⟨fault, hfault, hlimit⟩
    have hmove : (t'.fill temporary bytes).rename temporary path = .error fault := by
      rw [rename, (get?_fill t' _ hnil temporary).trans (if_pos rfl), hfault]
    exact hlimits _ ⟨fault, path⟩ (by rw [hmove]) hlimit
  have hleads := hkeeps'.resolve_eq_name hfilled
  have hne := ne_of_temporaryPlace htemp hleads
  rcases rename_fill_eq hnil hfree hleads hne bytes with ⟨u, u', hmove, hwrite, hsame⟩ | ⟨hmove, hwrite⟩
  · rw [hmove, hwrite]
    exact ⟨rfl, fun _ => hsame, by rintro _ ⟨⟩⟩
  · rw [hmove, hwrite]
    exact ⟨rfl, fun _ => (same_erase_fill hnil hfree _).symm, by rintro _ ⟨⟩⟩

/-! ### Writes beside a directory and a file -/

/-- A check that every text passes. -/
def acceptAll : Check Unit := .ordinary fun _ => .ok ()

/-- The path of a directory. -/
def blockedPath : FilePath := ⟨.current, ["types"]⟩

/-- The path of a name that is free. -/
def freePath : FilePath := ⟨.current, ["new.d.ts"]⟩

theorem writeText_modes_oldTree :
    (writeText oldTree true oldPath "text" (some acceptAll)).2 = .ok () ∧
      (writeText oldTree false oldPath "text" (some acceptAll)).2 = .ok () ∧
      Same (writeText oldTree true oldPath "text" (some acceptAll)).1
        (writeText oldTree false oldPath "text" (some acceptAll)).1 ∧
    (writeText oldTree false freePath "text" (some (rejectAll false))).2 = .error (.rejected ()) ∧
      Same (writeText oldTree true freePath "text" (some (rejectAll false))).1
        (writeText oldTree false freePath "text" (some (rejectAll false))).1 ∧
    (∃ place, (writeText oldTree true oldPath "text" (some (rejectAll true))).1.get? place =
      some (.file (Text.bytes "text"))) ∧
    (writeText oldTree false blockedPath "text" (some acceptAll)).2 =
        .error (.file ⟨.isDirectory, blockedPath⟩) ∧
      Same (writeText oldTree true blockedPath "text" (some acceptAll)).1
        (writeText oldTree false blockedPath "text" (some acceptAll)).1 := by
  have hbytes : Text.encodeFault? "text" = none := by decide
  have hname : ∃ name, oldPath.names.getLast? = some name ∧ name ≠ FilePath.upName :=
    ⟨"index.d.ts", rfl, by decide⟩
  -- a text that is written
  have hwritten : (writeText oldTree true oldPath "text" (some acceptAll)).2 = .ok () := by
    show (writeAtomically oldTree oldPath "text" _).2 = _
    rw [writeAtomically_eq, makeDirs_oldTree oldPath rfl]
    rfl
  obtain ⟨hresult₁, hsame₁, -⟩ := writeText_modes hname
    (fun u e h => by rw [h] at hwritten; cases hwritten) hbytes
  -- one that is rejected, with the program going on
  have hrejected : (writeText oldTree true freePath "text" (some (rejectAll false))).2 =
      .error (.rejected ()) := by
    show (writeAtomically oldTree freePath "text" _).2 = _
    rw [writeAtomically_eq, makeDirs_oldTree freePath rfl]
    rfl
  have hfree : ∃ name, freePath.names.getLast? = some name ∧ name ≠ FilePath.upName :=
    ⟨"new.d.ts", rfl, by decide⟩
  obtain ⟨hresult₂, hsame₂, -⟩ := writeText_modes hfree
    (fun u e h => by rw [h] at hrejected; cases hrejected) hbytes
  -- one that is rejected, with the program at its end
  have hquits : (writeText oldTree true oldPath "text" (some (rejectAll true))).2 =
      .error (.rejected ()) := by
    show (writeAtomically oldTree oldPath "text" _).2 = _
    rw [writeAtomically_eq, makeDirs_oldTree oldPath rfl]
    rfl
  obtain ⟨-, -, hleft⟩ := writeText_modes hname
    (fun u e h => by rw [h] at hquits; cases hquits) hbytes
  obtain ⟨u, directory, name, -, -, -, hstores⟩ := hleft () hquits rfl
  -- one that has a directory in the way
  have hblocked : (writeText oldTree true blockedPath "text" (some acceptAll)).2 =
      .error (.file ⟨.isDirectory, blockedPath⟩) := by
    show (writeAtomically oldTree blockedPath "text" _).2 = _
    rw [writeAtomically_eq, makeDirs_oldTree blockedPath rfl]
    rfl
  have hdirectory : ∃ name, blockedPath.names.getLast? = some name ∧ name ≠ FilePath.upName :=
    ⟨"types", rfl, by decide⟩
  obtain ⟨hresult₄, hsame₄, -⟩ := writeText_modes hdirectory
    (fun u e h => by rw [h] at hblocked; cases hblocked; exact id) hbytes
  exact ⟨hwritten, hresult₁ ▸ hwritten, hsame₁ fun _ _ => rfl, hresult₂ ▸ hrejected,
    hsame₂ fun _ _ => rfl, ⟨directory ++ [name], by rw [hstores.get?, if_pos rfl]⟩,
    hresult₄ ▸ hblocked, hsame₄ fun _ _ => rfl⟩

/-- Two writes that leave different trees in the two ways: one whose check ends the program, which leaves the
temporary file, and one of a text without bytes, which empties the file in place. -/
theorem not_same_writeText_oldTree :
    ¬Same (writeText oldTree true oldPath "text" (some (rejectAll true))).1
        (writeText oldTree false oldPath "text" (some (rejectAll true))).1 ∧
      ¬Same (writeText oldTree true oldPath halfText (none : Option (Check Unit))).1
        (writeText oldTree false oldPath halfText (none : Option (Check Unit))).1 := by
  constructor
  · intro h
    have hatomic : writeText oldTree true oldPath "text" (some (rejectAll true)) = _ :=
      writeAtomically_rejectAll
    have hinPlace : (writeInPlace oldTree oldPath "text" (some (rejectAll true))).1 = oldTree := by
      rw [writeInPlace, makeDirs_oldTree oldPath rfl]
      rfl
    have hget := h.get? ["work", ".index.d.ts.xxxxxxxxxxx.tmp"]
    rw [hatomic] at hget
    change (writeInPlace oldTree oldPath "text" (some (rejectAll true))).1.get? _ = _ at hget
    rw [hinPlace] at hget
    cases hget
  · intro h
    have hinPlace : writeText oldTree false oldPath halfText (none : Option (Check Unit)) = _ :=
      writeInPlace_halfText
    have hatomic : (writeAtomically oldTree oldPath halfText (none : Option (Check Unit))).1.get?
        ["work", "index.d.ts"] = some (.file [0x6F, 0x6C, 0x64]) := by
      rw [writeAtomically_eq, makeDirs_oldTree oldPath rfl]
      rfl
    have hget := h.get? ["work", "index.d.ts"]
    rw [hinPlace] at hget
    change _ = (writeAtomically oldTree oldPath halfText (none : Option (Check Unit))).1.get? _ at hget
    rw [hatomic] at hget
    cases hget

end ContentTypes
