import ContentTypes.Proofs.Files.Modes
import ContentTypes.Proofs.Files.Rooted

/-!
# What stands in the way of a file

Why files cannot be written to paths that never go up, in a tree in which everything stands in a directory.
Apart from the limits of paths there are two reasons that are on the way: a file above the directory of the
path, and a file in the place of that directory (`makeDirs_error`). A third one is a directory in the place
of the file itself (`writeAtomically_error`). Each of these is reported as a fault of its own, and none of
them lets the write return; nor does a text without bytes (`faultIff_writeAtomically`).
-/

set_option autoImplicit false

namespace ContentTypes

open FileTree

variable {ε : Type} {t t' u : FileTree} {p path : FilePath} {here place : Location}
  {names : List String} {text : String} {check : Option (Check ε)}

theorem FileFault.OfLimits.ne_alreadyThere {fault : FileFault} (h : fault.OfLimits) :
    fault ≠ .alreadyThere := by
  rintro rfl
  exact h

theorem FilePath.upName_notMem_parent (h : FilePath.upName ∉ p.names) : FilePath.upName ∉ p.parent.names :=
  fun hmem => h ((List.dropLast_prefix p.names).subset hmem)

namespace FileTree

/-! ## Places of paths -/

/-- The place of a path that never goes up. -/
def placeOf (t : FileTree) (p : FilePath) : Location := t.start p ++ p.names

/-- Whether there is a file above a place. -/
def LiesBelowFile (t : FileTree) (place : Location) : Prop :=
  ∃ above, above <+: place ∧ above ≠ place ∧ (t.files above).isSome = true

theorem placeOf_parent (t : FileTree) (hne : p.names ≠ []) : t.placeOf p.parent = (t.placeOf p).dropLast :=
  (List.dropLast_append_of_ne_nil hne).symm

theorem placeOf_parent_of_nil (t : FileTree) (hnil : p.names = []) : t.placeOf p.parent = t.start p := by
  rw [placeOf, FilePath.parent, hnil, List.dropLast_nil, List.append_nil]
  rfl

theorem prefix_placeOf (t : FileTree) (p : FilePath) : t.placeOf p.parent <+: t.placeOf p :=
  (List.prefix_append_right_inj _).mpr (List.dropLast_prefix p.names)

theorem KeepsDirectories.placeOf_eq (h : KeepsDirectories t u) (p : FilePath) :
    u.placeOf p = t.placeOf p := by
  rw [placeOf, placeOf, h.start_eq]

theorem LiesBelowFile.of_prefix {place' : Location} (h : t.LiesBelowFile place) (hle : place <+: place') :
    t.LiesBelowFile place' := by
  obtain ⟨above, habove, hne, hfile⟩ := h
  refine ⟨above, habove.trans hle, ?_, hfile⟩
  rintro rfl
  exact hne (habove.eq_of_length (Nat.le_antisymm habove.length_le hle.length_le))

/-- Nothing that is there in a rooted tree lies below a file. -/
theorem Rooted.not_liesBelowFile (h : t.Rooted) (hplace : (t.get? place).isSome = true) :
    ¬t.LiesBelowFile place := by
  rintro ⟨above, habove, hne, hfile⟩
  rw [files, h.of_below hplace habove hne] at hfile
  cases hfile

theorem Open.not_liesBelowFile (h : t.Open place) : ¬t.LiesBelowFile place := by
  rintro ⟨above, habove, -, hfile⟩
  rw [files, h above habove] at hfile
  cases hfile

/-- Where a path leads that never goes up. -/
theorem eq_placeOf_of_resolve (hup : FilePath.upName ∉ p.names)
    (hleads : t.resolve p = .ok (.name place)) : place = t.placeOf p := by
  obtain ⟨-, directory, name, hd, hlast, -, -, rfl⟩ := resolve_eq_name_iff.mp hleads
  have hnames := List.dropLast_append_getLast? name hlast
  have hinit : FilePath.upName ∉ p.names.dropLast := FilePath.upName_notMem_parent hup
  rw [placeOf, descend_eq_append hd hinit, List.append_assoc, hnames]

/-- What such a path leads to in a rooted tree is in its place. -/
theorem Rooted.get?_of_isDirectory (h : t.Rooted) (hup : FilePath.upName ∉ p.names)
    (hdir : t.isDirectory p = true) : t.get? (t.placeOf p) = some .directory := by
  obtain ⟨-, place, hd⟩ := isDirectory_iff.mp hdir
  rw [placeOf, ← descend_eq_append hd hup]
  exact (h.open_start p).descend hd _ (List.prefix_refl _)

theorem Rooted.isSome_of_isThere (h : t.Rooted) (hup : FilePath.upName ∉ p.names)
    (hthere : t.isThere p = .ok true) : (t.get? (t.placeOf p)).isSome = true := by
  rcases isThere_eq_true_iff.mp hthere with hdir | ⟨place, hleads, hfile⟩
  · rw [h.get?_of_isDirectory hup hdir]
    rfl
  · rw [← eq_placeOf_of_resolve hup hleads]
    exact isSome_get?_iff.mpr (.inr hfile)

/-! ## What stops on the way -/

/-- What keeps names from being followed from one place to another: on the way something is missing, or is a
file. -/
inductive Stopped (t : FileTree) (here place : Location) : FileFault → Prop
  | missing {above : Location} (hhere : here <+: above) (habove : above <+: place)
      (h : t.get? above = none) : Stopped t here place .missing
  | file {above : Location} (hhere : here <+: above) (habove : above <+: place)
      (h : (t.files above).isSome = true) : Stopped t here place .notDirectory

theorem Open.not_stopped (h : t.Open place) {fault : FileFault} : ¬t.Stopped here place fault := by
  rintro (⟨-, habove, hmissing⟩ | ⟨-, habove, hfile⟩)
  · rw [h _ habove] at hmissing
    cases hmissing
  · rw [files, h _ habove] at hfile
    cases hfile

/-- Nothing is missing on the way to what is there. -/
theorem Rooted.not_missing (h : t.Rooted) (hplace : (t.get? place).isSome = true) :
    ¬t.Stopped here place .missing := by
  rintro ⟨-, habove, hmissing⟩
  rename_i above
  by_cases heq : above = place
  · rw [← heq, hmissing] at hplace
    cases hplace
  · rw [h.of_below hplace habove heq] at hmissing
    cases hmissing

/-- A file on the way to the directory of a path is one above its place. -/
theorem Rooted.liesBelowFile_of_stopped (h : t.Rooted)
    (hstopped : t.Stopped (t.start p) (t.placeOf p.parent) .notDirectory) :
    t.LiesBelowFile (t.placeOf p) := by
  by_cases hnil : p.names = []
  · -- there is no way then
    rw [placeOf_parent_of_nil t hnil] at hstopped
    exact absurd hstopped (h.open_start p).not_stopped
  · cases hstopped with
    | @file above _ habove hfile =>
    refine ⟨above, habove.trans (prefix_placeOf t p), ?_, hfile⟩
    rintro rfl
    have hlength := habove.length_le
    have hpos : (t.placeOf p).length ≠ 0 := by simp [placeOf, hnil]
    rw [placeOf_parent t hnil, List.length_dropLast] at hlength
    omega

/-- Names that cannot be followed have one that is too long, or are stopped on the way. -/
theorem descend_eq_error (hup : FilePath.upName ∉ names) {fault : FileFault}
    (h : t.descend here names = .error fault) :
    fault = .nameTooLong ∨ t.Stopped here (here ++ names) fault := by
  obtain ⟨followed, name, rest, place, rfl, hd, hstop⟩ := exists_of_descend_error h
  have hfollowed : FilePath.upName ∉ followed :=
    fun hmem => hup (List.mem_append_left _ (List.mem_append_left _ hmem))
  obtain rfl := descend_eq_append hd hfollowed
  have hhere : here <+: here ++ followed ++ [name] := ⟨followed ++ [name], by simp⟩
  have habove : here ++ followed ++ [name] <+: here ++ (followed ++ [name] ++ rest) := ⟨rest, by simp⟩
  rcases (descend_singleton_eq_error hstop).2 with ⟨-, hfault⟩ | ⟨hmissing, rfl⟩ | ⟨hfile, rfl⟩
  · exact .inl hfault
  · exact .inr (.missing hhere habove hmissing)
  · exact .inr (.file hhere habove hfile)

/-! ## Making directories -/

/-- A path that never goes up leads nowhere if it is beyond the limits, or stopped on the way to its
directory. -/
theorem resolve_eq_error (hup : FilePath.upName ∉ p.names) {fault : FileFault}
    (h : t.resolve p = .error fault) :
    fault.OfLimits ∨ t.Stopped (t.start p) (t.placeOf p.parent) fault := by
  unfold resolve at h
  cases hfault : pathFault? p with
  | some fault' =>
      rw [hfault] at h
      cases h
      exact .inl (ofLimits_of_pathFault? hfault)
  | none =>
      rw [hfault] at h
      have hup' : FilePath.upName ∉ p.names.dropLast := FilePath.upName_notMem_parent hup
      cases hlast : p.names.getLast? with
      | none =>
          have hnil : p.names = [] := List.getLast?_eq_none_iff.mp hlast
          simp [hnil, descend, bind, Except.bind, pure, Except.pure] at h
      | some name =>
          have hname : name ≠ FilePath.upName := fun heq => hup (heq ▸ List.mem_of_getLast? hlast)
          rw [hlast] at h
          cases hd : t.descend (t.start p) p.names.dropLast with
          | error fault' =>
              rw [hd] at h
              cases h
              exact (descend_eq_error hup' hd).imp (by rintro rfl; trivial) id
          | ok directory =>
              simp only [hd, bind, Except.bind, if_neg hname] at h
              split at h
              · cases h
                exact .inl trivial
              · cases h

/-- A directory that cannot be made, and is not there, has a file in its place, or is stopped on the way to
the one above it. -/
theorem ensureDir_error (hup : FilePath.upName ∉ p.names) {e : FileError}
    (h : t.ensureDir p = (u, .error e)) : e.fault.OfLimits ∨
      e.fault = .alreadyThere ∧ (t.files (t.placeOf p)).isSome = true ∨
      t.Stopped (t.start p) (t.placeOf p.parent) e.fault := by
  unfold ensureDir at h
  split at h
  · cases h
  rename_i fault hmake
  split at h
  · cases h
  rename_i hnot
  cases h
  -- what is there already is a file, since a directory would be taken
  unfold makeDir at hmake
  split at hmake
  · rename_i hleads
    cases hmake
    exact (resolve_eq_error hup hleads).imp id .inr
  · rename_i hleads
    simp [isDirectory, find, hleads] at hnot
  · rename_i place hleads
    split at hmake
    · rename_i entry hentry
      cases hmake
      obtain rfl := eq_placeOf_of_resolve hup hleads
      refine .inr (.inl ⟨rfl, ?_⟩)
      cases entry with
      | file bytes => simp [files, hentry]
      | directory => simp [isDirectory, find, hleads, hentry] at hnot
    · cases hmake

theorem stopped_of_ensureDir_missing (hup : FilePath.upName ∉ p.names) {p' : FilePath}
    (h : t.ensureDir p = (u, .error ⟨.missing, p'⟩)) :
    t.Stopped (t.start p) (t.placeOf p.parent) .missing := by
  rcases ensureDir_error hup h with hlimits | ⟨hfault, -⟩ | hstopped
  · exact hlimits.elim
  · cases hfault
  · exact hstopped

/-- A directory that is made stands in directories, and so no file is above it or in its place. -/
theorem Rooted.open_of_makeDirs (h : t.Rooted) (hup : FilePath.upName ∉ p.names)
    (hdirs : t.makeDirs p = (u, .ok ())) : u.Open (t.placeOf p) := by
  obtain ⟨hkeeps, hthere⟩ := isDirectory_of_makeDirs hdirs
  obtain ⟨-, place, hd⟩ := isDirectory_iff.mp hthere
  have hplace := descend_eq_append hd hup
  have hopen : u.Open (u.start p) := by
    rw [hkeeps.start_eq]
    exact (h.open_start p).of_keepsDirectories hkeeps
  rw [← hkeeps.placeOf_eq, placeOf, ← hplace]
  exact hopen.descend hd

/-- **Why directories cannot be made.** Unless the path is beyond the limits, a file is in the place of the
last of them or above it. -/
theorem Rooted.makeDirs_error (h : t.Rooted) (hup : FilePath.upName ∉ p.names) {e : FileError}
    (hdirs : t.makeDirs p = (u, .error e)) : e.fault.OfLimits ∨
      e.fault = .alreadyThere ∧ (t.files (t.placeOf p)).isSome = true ∨
      e.fault = .notDirectory ∧ t.LiesBelowFile (t.placeOf p) := by
  -- the induction is on the names of the path; nothing is missing above a directory that was made
  fun_induction makeDirs t p generalizing u with
  | case1 t p t₁ p' hensure hnil =>
      have hstopped := stopped_of_ensureDir_missing hup hensure
      rw [placeOf_parent_of_nil t hnil] at hstopped
      exact absurd hstopped (h.open_start p).not_stopped
  | case2 t p t₁ p' hensure _ t₂ hparent ih =>
      obtain rfl : t₁ = t := ensureDir_error_fst hensure
      obtain ⟨hgrows, hfiles⟩ := grows_makeDirs t₁ p.parent
      rw [hparent] at hgrows hfiles
      have hkeeps := hgrows.toKeepsDirectories
      have hopen := h.open_of_makeDirs (FilePath.upName_notMem_parent hup) hparent
      rcases ensureDir_error hup hdirs with hlimits | ⟨hfault, hfile⟩ | hstopped
      · exact .inl hlimits
      · rw [hkeeps.placeOf_eq] at hfile
        exact .inr (.inl ⟨hfault, hfiles ▸ hfile⟩)
      · rw [hkeeps.placeOf_eq] at hstopped
        exact absurd hstopped hopen.not_stopped
  | case3 t p t₁ p' hensure _ t₂ e' hparent ih =>
      obtain rfl : t₁ = t := ensureDir_error_fst hensure
      cases hdirs
      rcases ih h (FilePath.upName_notMem_parent hup) hparent with hlimits | ⟨-, hfile⟩ | ⟨hfault, hbelow⟩
      · exact .inl hlimits
      · -- then nothing would have been missing
        have hthere : (t₁.get? (t₁.placeOf p.parent)).isSome = true := isSome_get?_iff.mpr (.inr hfile)
        exact absurd (stopped_of_ensureDir_missing hup hensure) (h.not_missing hthere)
      · exact .inr (.inr ⟨hfault, hbelow.of_prefix (prefix_placeOf t₁ p)⟩)
  | case4 t p hresult =>
      rcases ensureDir_error hup hdirs with hlimits | hfile | hstopped
      · exact .inl hlimits
      · exact .inr (.inl hfile)
      · obtain ⟨fault, path⟩ := e
        cases hstopped with
        | missing hhere habove hmissing => exact absurd hdirs (hresult u path)
        | file hhere habove hfile =>
            exact .inr (.inr ⟨rfl, h.liesBelowFile_of_stopped (.file hhere habove hfile)⟩)

/-- A file above the place of a directory, or in it, does not let the directory be made. -/
theorem Rooted.makeDirs_of_liesBelowFile (h : t.Rooted) (hup : FilePath.upName ∉ p.names)
    (hbelow : t.LiesBelowFile (t.placeOf p)) :
    ∃ u e, t.makeDirs p = (u, .error e) ∧ e.fault ≠ .alreadyThere := by
  rcases hdirs : t.makeDirs p with ⟨u, e | ⟨⟩⟩
  · refine ⟨u, e, rfl, ?_⟩
    rcases h.makeDirs_error hup hdirs with hlimits | ⟨-, hfile⟩ | ⟨hfault, -⟩
    · exact hlimits.ne_alreadyThere
    · exact absurd hbelow (h.not_liesBelowFile (isSome_get?_iff.mpr (.inr hfile)))
    · rw [hfault]
      decide
  · have hfiles := (grows_makeDirs t p).2
    rw [hdirs] at hfiles
    obtain ⟨above, habove, -, hfile⟩ := hbelow
    rw [← hfiles, files, h.open_of_makeDirs hup hdirs above habove] at hfile
    cases hfile

end FileTree

/-! ## Writing -/

section Write

variable {e : FileError}

/-- A directory is not made in the place of a file that is to be written. -/
theorem FileTree.Grows.get?_placeOf (hgrows : t.Grows u path.parent) (hup : FilePath.upName ∉ path.names)
    (hne : path.names ≠ []) (hdir : u.get? (t.placeOf path) = some .directory) :
    t.get? (t.placeOf path) = some .directory := by
  refine (hgrows.added _ hdir).resolve_right ?_
  rintro ⟨names, hnames, hd⟩
  have hnames' : names <+: path.names.dropLast := hnames
  have hplace := descend_eq_append hd fun hmem =>
    hup ((List.dropLast_prefix _).subset (hnames'.subset hmem))
  rw [placeOf, hgrows.start_eq] at hplace
  have hlength := hnames'.length_le
  rw [← List.append_cancel_left hplace, List.length_dropLast] at hlength
  have hpos := List.length_pos_iff.mpr hne
  omega

/-- A directory that a path leads to once the directories above it are made was there before. -/
theorem FileTree.Rooted.isDirectory_of_makeDirs_parent (h : t.Rooted) (hup : FilePath.upName ∉ path.names)
    (hne : path.names ≠ []) (hdirs : t.makeDirs path.parent = (t', .ok ()))
    (hleads : t'.resolve path = .ok (.name place)) (hdir : t'.get? place = some .directory) :
    t.isDirectory path = true := by
  obtain ⟨hgrows, hfiles⟩ := grows_makeDirs t path.parent
  rw [hdirs] at hgrows hfiles
  have hplace := eq_placeOf_of_resolve hup hleads
  rw [hgrows.toKeepsDirectories.placeOf_eq] at hplace
  have hdir' := hgrows.get?_placeOf hup hne (hplace ▸ hdir)
  have hleads' := (forward_of_notMem t hup).resolve h (.of_eq hgrows.toKeepsDirectories hfiles) hleads
    (by rw [hplace, hdir']; rfl)
  simp [isDirectory, find, hleads', hplace, hdir']

/-- The move of a temporary file fails at the limits of paths, or at a directory. -/
theorem rename_fill_error {temporary : Location} {bytes : List UInt8} {fault : FileFault}
    (hup : FilePath.upName ∉ path.names) (hne : path.names ≠ [])
    (hthere : t.isDirectory path.parent = true) (htemp : t.temporaryPlace path = .ok temporary)
    (hmove : (t.fill temporary bytes).rename temporary path = .error fault) : fault.OfLimits ∨
      fault = .isDirectory ∧ ∃ place, t.resolve path = .ok (.name place) ∧
        t.get? place = some .directory := by
  obtain ⟨hnil, hfree⟩ := free_of_temporaryPlace htemp
  obtain ⟨hkeeps, hkeeps'⟩ : KeepsDirectories t (t.fill temporary bytes) ∧
      KeepsDirectories (t.fill temporary bytes) t := keepsDirectories_fill hnil hfree
  have hlast := List.getLast?_eq_some_getLast hne
  have hname : path.names.getLast hne ≠ FilePath.upName := fun heq => hup (heq ▸ List.getLast_mem hne)
  rcases resolve_of_isDirectory (hkeeps.isDirectory hthere) hlast hname with ⟨place, hfilled⟩ |
    ⟨fault', hfilled, hlimits⟩
  · -- the path leads to the same place without the temporary file
    have hleads := hkeeps'.resolve_eq_name hfilled
    rcases rename_fill_eq hnil hfree hleads (ne_of_temporaryPlace htemp hleads) bytes with
      ⟨u, -, hmoved, -, -⟩ | ⟨hmoved, hfile⟩
    · rw [hmoved] at hmove
      cases hmove
    · rw [hmoved] at hmove
      cases hmove
      refine .inr ⟨rfl, place, hleads, ?_⟩
      unfold writeFile at hfile
      simp only [hleads] at hfile
      split at hfile
      · assumption
      · cases hfile
  · have hmoved : (t.fill temporary bytes).rename temporary path = .error fault' := by
      rw [rename, (get?_fill t _ hnil temporary).trans (if_pos rfl), hfilled]
    rw [hmoved] at hmove
    cases hmove
    exact .inl hlimits

/-- **Why a text is not written through a temporary file.** Unless the path is beyond the limits, a file is
in the place of its directory or above it, or a directory is in the place of the file, and then the text has
passed its check. -/
theorem FileTree.Rooted.writeAtomically_error (h : t.Rooted) (hup : FilePath.upName ∉ path.names)
    (hne : path.names ≠ []) (hwrite : writeAtomically t path text check = (u, .error (.file e))) :
    e.fault.OfLimits ∨
      e.fault = .alreadyThere ∧ (t.files (t.placeOf path.parent)).isSome = true ∨
      e.fault = .notDirectory ∧ t.LiesBelowFile (t.placeOf path.parent) ∨
      e.fault = .isDirectory ∧ runCheck check text = .ok () ∧ t.isDirectory path = true := by
  rw [writeAtomically_eq] at hwrite
  rcases hdirs : t.makeDirs path.parent with ⟨t', e' | ⟨⟩⟩
  · -- there is no directory for it
    rw [hdirs] at hwrite
    cases hwrite
    rcases h.makeDirs_error (FilePath.upName_notMem_parent hup) hdirs with hlimits | hfile | hbelow
    · exact .inl hlimits
    · exact .inr (.inl hfile)
    · exact .inr (.inr (.inl hbelow))
  obtain ⟨-, hthere⟩ := isDirectory_of_makeDirs hdirs
  simp only [hdirs] at hwrite
  rcases temporaryPlace_of_isDirectory hthere with ⟨temporary, htemp⟩ | ⟨fault, htemp, hlimits⟩
  · simp only [htemp] at hwrite
    cases hbytes : Text.encodeFault? text with
    | some fault =>
        simp only [hbytes] at hwrite
        cases hwrite
    | none =>
    simp only [hbytes] at hwrite
    rcases hcheck : runCheck check text with reason | ⟨⟩
    · simp only [hcheck] at hwrite
      cases hwrite
    -- what is left is the move
    simp only [hcheck] at hwrite
    split at hwrite
    · cases hwrite
    · rename_i fault hmove
      cases hwrite
      refine (rename_fill_error hup hne hthere htemp hmove).imp id ?_
      rintro ⟨hfault, place, hleads, hdir⟩
      exact .inr (.inr ⟨hfault, rfl, h.isDirectory_of_makeDirs_parent hup hne hdirs hleads hdir⟩)
  · -- there is no name for the temporary file
    simp only [htemp] at hwrite
    cases hwrite
    exact .inl hlimits

/-- Below a file nothing is written. -/
theorem FileTree.Rooted.writeAtomically_of_liesBelowFile (h : t.Rooted)
    (hup : FilePath.upName ∉ path.names) (hbelow : t.LiesBelowFile (t.placeOf path.parent)) (text : String)
    (check : Option (Check ε)) :
    ∃ e, (writeAtomically t path text check).2 = .error (.file e) ∧ e.fault ≠ .alreadyThere := by
  obtain ⟨u, e, hdirs, hfault⟩ := h.makeDirs_of_liesBelowFile (FilePath.upName_notMem_parent hup) hbelow
  exact ⟨e, by rw [writeAtomically_eq, hdirs], hfault⟩

theorem writeAtomically_ne_refused {p : FilePath} :
    writeAtomically t path text check ≠ (u, .error (.refused p)) := by
  intro h
  rw [writeAtomically_eq] at h
  split at h
  · cases h
  split at h
  · cases h
  split at h
  · cases h
  dsimp only at h
  split at h
  · cases h
  split at h <;> cases h

end Write

/-! ## Faults of the files -/

/-- Whether an error of a write is a fault of the files or of the text, and not that something is there
already. -/
def WriteError.IsFault : WriteError ε → Prop
  | .file e => e.fault ≠ .alreadyThere
  | .unencodable _ => True
  | .rejected _ | .refused _ => False

/-- Whether an error of a write is one of the limits of paths. -/
def WriteError.OfLimits : WriteError ε → Prop
  | .file e => e.fault.OfLimits
  | .unencodable _ | .rejected _ | .refused _ => False

/-- `FaultIff result p`: a write ends with a fault of the files or of the text if `p`, and only then, unless
the path is beyond the limits. -/
structure FaultIff {α : Type} (result : Except (WriteError ε) α) (p : Prop) : Prop where
  fault : p → ∃ error, result = .error error ∧ error.IsFault
  of_fault : ∀ error, result = .error error → error.IsFault → error.OfLimits ∨ p

section Fault

variable {α β : Type} {result : Except (WriteError ε) α} {p q : Prop}

/-- The faults are what the files report, and that the text has no bytes. -/
theorem FaultIff.of_file (hfault : p → ∃ error, result = .error error ∧ error.IsFault)
    (hbytes : ∀ fault, result = .error (.unencodable fault) → p)
    (h : ∀ e, result = .error (.file e) → e.fault ≠ .alreadyThere → e.fault.OfLimits ∨ p) :
    FaultIff result p := by
  refine ⟨hfault, fun error herror hisFault => ?_⟩
  cases error with
  | rejected reason => exact hisFault.elim
  | refused p => exact hisFault.elim
  | unencodable fault => exact .inr (hbytes fault herror)
  | file e => exact h e herror hisFault

theorem FaultIff.congr (h : FaultIff result p) (hpq : p ↔ q) : FaultIff result q := propext hpq ▸ h

theorem FaultIff.map (h : FaultIff result p) (f : α → β) : FaultIff (result.map f) p := by
  cases result with
  | error e =>
      refine ⟨fun hp => ?_, ?_⟩
      · obtain ⟨_, ⟨⟩, hfault⟩ := h.fault hp
        exact ⟨e, rfl, hfault⟩
      · rintro _ ⟨⟩
        exact h.of_fault e rfl
  | ok a =>
      refine ⟨fun hp => ?_, nofun⟩
      obtain ⟨error, herror, -⟩ := h.fault hp
      cases herror

end Fault

/-- Where directories can be made, there is no file in the place of the last. -/
theorem FileTree.Rooted.files_eq_none_of_makeDirs (h : t.Rooted) (hup : FilePath.upName ∉ p.names)
    (hdirs : t.makeDirs p = (u, .ok ())) : t.files (t.placeOf p) = none := by
  have hfiles := (grows_makeDirs t p).2
  rw [hdirs] at hfiles
  rw [← hfiles, files, h.open_of_makeDirs hup hdirs _ (List.prefix_refl _)]

/-- A text without bytes is not written, unless there is a file in the place of its directory. -/
theorem FileTree.Rooted.writeAtomically_of_unencodable (h : t.Rooted) (hup : FilePath.upName ∉ path.names)
    (hbytes : Text.encodeFault? text ≠ none) (hfree : t.files (t.placeOf path.parent) = none)
    (check : Option (Check ε)) :
    ∃ error, (writeAtomically t path text check).2 = .error error ∧ error.IsFault := by
  rw [writeAtomically_eq]
  rcases hdirs : t.makeDirs path.parent with ⟨t', e | ⟨⟩⟩
  · refine ⟨.file e, rfl, ?_⟩
    rcases h.makeDirs_error (FilePath.upName_notMem_parent hup) hdirs with hlimits | ⟨-, hfile⟩ | ⟨hfault, -⟩
    · exact hlimits.ne_alreadyThere
    · rw [hfree] at hfile
      cases hfile
    · exact ne_of_eq_of_ne hfault (by decide)
  obtain ⟨-, hthere⟩ := isDirectory_of_makeDirs hdirs
  rcases temporaryPlace_of_isDirectory hthere with ⟨temporary, htemp⟩ | ⟨fault, htemp, hlimits⟩
  · obtain ⟨fault, hfault⟩ := Option.ne_none_iff_exists'.mp hbytes
    exact ⟨.unencodable fault, by simp only [htemp, hfault], trivial⟩
  · exact ⟨.file ⟨fault, path⟩, by simp only [htemp], hlimits.ne_alreadyThere⟩

/-- A text is not written to a place where a directory is. -/
theorem FileTree.Rooted.writeAtomically_of_directory (h : t.Rooted) (hup : FilePath.upName ∉ path.names)
    (hne : path.names ≠ []) (hcheck : runCheck check text = .ok ())
    (hdir : t.get? (t.placeOf path) = some .directory) :
    ∃ error, (writeAtomically t path text check).2 = .error error ∧ error.IsFault := by
  rcases hwrite : writeAtomically t path text check with ⟨u, error | ⟨⟩⟩
  · refine ⟨error, rfl, ?_⟩
    cases error with
    | rejected reason =>
        rw [runCheck_of_writeAtomically hwrite] at hcheck
        cases hcheck
    | refused p => exact absurd hwrite writeAtomically_ne_refused
    | unencodable fault => trivial
    | file e =>
        rcases h.writeAtomically_error hup hne hwrite with hlimits | ⟨-, hfile⟩ | ⟨hfault, -⟩ | ⟨hfault, -⟩
        · exact hlimits.ne_alreadyThere
        · -- the directory of what is there is no file
          have hdir' := h.parent _ (show (t.get? (t.placeOf path)).isSome = true by rw [hdir]; rfl)
          rw [← placeOf_parent t hne] at hdir'
          rw [files, hdir'] at hfile
          cases hfile
        · exact ne_of_eq_of_ne hfault (by decide)
        · exact ne_of_eq_of_ne hfault (by decide)
  · obtain ⟨t', place, hdirs, htakes, -⟩ := takes_of_writeAtomically hwrite
    have hkeeps := (isDirectory_of_makeDirs hdirs).1
    have hplace := eq_placeOf_of_resolve hup htakes.leads
    rw [hkeeps.placeOf_eq] at hplace
    exact absurd (hkeeps.directory _ hdir) (hplace ▸ htakes.free)

/-- **When a text is not written through a temporary file.** A file is above the directory of the path, or
the text has no bytes, or it passes its check and a directory is in the place of the file. -/
theorem FileTree.Rooted.faultIff_writeAtomically (h : t.Rooted) (hup : FilePath.upName ∉ path.names)
    (hne : path.names ≠ []) (text : String) (check : Option (Check ε)) :
    FaultIff (writeAtomically t path text check).2 (t.LiesBelowFile (t.placeOf path.parent) ∨
      Text.encodeFault? text ≠ none ∧ t.files (t.placeOf path.parent) = none ∨
      runCheck check text = .ok () ∧ t.get? (t.placeOf path) = some .directory) := by
  refine .of_file ?_ (fun fault hwrite => ?_) fun e hwrite hfault => ?_
  · rintro (hbelow | ⟨hbytes, hfree⟩ | ⟨hcheck, hdir⟩)
    · obtain ⟨e, hwrite, hfault⟩ := h.writeAtomically_of_liesBelowFile hup hbelow text check
      exact ⟨.file e, hwrite, hfault⟩
    · exact h.writeAtomically_of_unencodable hup hbytes hfree check
    · exact h.writeAtomically_of_directory hup hne hcheck hdir
  · obtain ⟨t', hdirs, hbytes⟩ := makeDirs_of_writeAtomically_unencodable (Prod.ext rfl hwrite)
    exact .inr (.inl ⟨by simp [hbytes],
      h.files_eq_none_of_makeDirs (FilePath.upName_notMem_parent hup) hdirs⟩)
  · rcases h.writeAtomically_error hup hne (Prod.ext rfl hwrite) with
      hlimits | ⟨hthere, -⟩ | ⟨-, hbelow⟩ | ⟨-, hpassed, hdir⟩
    · exact .inl hlimits
    · exact absurd hthere hfault
    · exact .inr (.inl hbelow)
    · exact .inr (.inr (.inr ⟨hpassed, h.get?_of_isDirectory hup hdir⟩))

/-- A write of a new file is not stopped by a directory in its place, since that is refused. -/
theorem FileTree.Rooted.faultIff_writeNew (h : t.Rooted) (hup : FilePath.upName ∉ path.names)
    (hne : path.names ≠ []) (text : String) (check : Option (Check ε)) :
    FaultIff (writeNew t true path text check).2 (t.LiesBelowFile (t.placeOf path.parent) ∨
      Text.encodeFault? text ≠ none ∧ t.files (t.placeOf path.parent) = none ∧
        t.isThere path ≠ .ok true) := by
  unfold writeNew
  cases hthere : t.isThere path with
  | error fault =>
      have hlimits : fault.OfLimits := by
        unfold isThere at hthere
        split at hthere <;> cases hthere
        trivial
      refine .of_file (fun _ => ⟨_, rfl, hlimits.ne_alreadyThere⟩) nofun ?_
      rintro _ ⟨⟩ -
      exact .inl hlimits
  | ok there =>
      cases there with
      | true =>
          have hplace := h.isSome_of_isThere hup hthere
          refine .of_file ?_ nofun nofun
          rintro (hbelow | ⟨-, -, hfree⟩)
          · exact absurd (hbelow.of_prefix (prefix_placeOf t path)) (h.not_liesBelowFile hplace)
          · exact absurd rfl hfree
      | false =>
          refine .of_file ?_ (fun fault hwrite => ?_) fun e hwrite hfault => ?_
          · rintro (hbelow | ⟨hbytes, hfree, -⟩)
            · obtain ⟨e, hwrite, hfault⟩ := h.writeAtomically_of_liesBelowFile hup hbelow text check
              exact ⟨.file e, hwrite, hfault⟩
            · exact h.writeAtomically_of_unencodable hup hbytes hfree check
          · obtain ⟨t', hdirs, hbytes⟩ := makeDirs_of_writeAtomically_unencodable (Prod.ext rfl hwrite)
            exact .inr ⟨by simp [hbytes],
              h.files_eq_none_of_makeDirs (FilePath.upName_notMem_parent hup) hdirs, nofun⟩
          · rcases h.writeAtomically_error hup hne (Prod.ext rfl hwrite) with
              hlimits | ⟨hthere', -⟩ | ⟨-, hbelow⟩ | ⟨-, -, hdir⟩
            · exact .inl hlimits
            · exact absurd hthere' hfault
            · exact .inr (.inl hbelow)
            · rw [isThere_eq_true_iff.mpr (.inl hdir)] at hthere
              cases hthere

end ContentTypes
