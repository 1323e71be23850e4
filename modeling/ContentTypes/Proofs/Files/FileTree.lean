import ContentTypes.Files.FileTree
import ContentTypes.Proofs.Files.FilePath

/-!
# Paths in file trees

Where a path leads depends on the directories of a tree alone, so a change that keeps them
(`KeepsDirectories`) leaves the paths that lead somewhere as they are. Making a directory is such a
change, and so are the steps of a write. `isDirectory_iff` says what it means that a path leads to a
directory: its names can be followed to the end.
-/

set_option autoImplicit false

namespace ContentTypes

/-! ## A name below a path -/

namespace FilePath

variable (p : FilePath) (name : String)

theorem parent_child : (p.child name).parent = p := by
  simp [parent, child]

theorem names_child : (p.child name).names = p.names ++ [name] := rfl

theorem fileName_child : (p.child name).fileName = name := by
  simp [fileName, child, List.getLastD_eq_getLast?]

end FilePath

namespace FileTree

variable {t u : FileTree} {p : FilePath} {here place : Location} {name : String}
  {names : List String}

/-! ## Following names -/

theorem descend_append (t : FileTree) (here : Location) (names names' : List String) :
    t.descend here (names ++ names') =
      t.descend here names >>= fun place => t.descend place names' := by
  induction names generalizing here with
  | nil => rfl
  | cons name names ih =>
      rw [List.cons_append, descend, descend]
      by_cases hup : name = FilePath.upName
      · rw [if_pos hup, if_pos hup, ih]
      · rw [if_neg hup, if_neg hup]
        split
        · exact ih _
        all_goals rfl

theorem descend_append_of_ok (h : t.descend here names = .ok place) (rest : List String) :
    t.descend here (names ++ rest) = t.descend place rest := by
  rw [descend_append, h]
  rfl

/-- Following one name leads to the directory above or to a directory of that name. -/
theorem descend_singleton_eq_ok_iff :
    t.descend here [name] = .ok place ↔
      (name = FilePath.upName ∧ place = here.dropLast) ∨
        (name ≠ FilePath.upName ∧ FilePath.nameTooLong name = false ∧ place = here ++ [name] ∧
          t.get? place = some .directory) := by
  rw [descend]
  by_cases hup : name = FilePath.upName
  · rw [if_pos hup, descend, Except.ok.injEq]
    simp [hup, @eq_comm _ place]
  rw [if_neg hup, entryIn]
  by_cases hlong : FilePath.nameTooLong name = true
  · simp [hup, hlong]
  rw [if_neg hlong]
  rw [Bool.not_eq_true] at hlong
  constructor
  · intro h
    split at h
    · rename_i hdir
      cases h
      exact .inr ⟨hup, hlong, rfl, Except.ok.inj hdir⟩
    all_goals cases h
  · rintro (⟨h, -⟩ | ⟨-, -, rfl, hdir⟩)
    · exact absurd h hup
    · rw [hdir]
      rfl

/-! ## Changes that keep the directories -/

/-- The directories of one tree are directories of the other, and relative paths start from the same
place. -/
structure KeepsDirectories (t u : FileTree) : Prop where
  current : u.current = t.current
  directory : ∀ place, t.get? place = some .directory → u.get? place = some .directory

theorem KeepsDirectories.refl (t : FileTree) : KeepsDirectories t t := ⟨rfl, fun _ h => h⟩

theorem KeepsDirectories.trans {v : FileTree} (h : KeepsDirectories t u)
    (h' : KeepsDirectories u v) : KeepsDirectories t v :=
  ⟨h'.current.trans h.current, fun place hp => h'.directory place (h.directory place hp)⟩

theorem KeepsDirectories.start_eq (h : KeepsDirectories t u) (p : FilePath) :
    u.start p = t.start p := by
  rw [start, start, h.current]

theorem KeepsDirectories.descend (h : KeepsDirectories t u)
    (hd : t.descend here names = .ok place) : u.descend here names = .ok place := by
  -- name by name: a step goes through a directory, and that is one in the other tree too
  induction names generalizing here with
  | nil => exact hd
  | cons name names ih =>
      rw [← List.singleton_append, descend_append] at hd ⊢
      cases hn : t.descend here [name] with
      | error fault =>
          rw [hn] at hd
          cases hd
      | ok place' =>
          rw [hn] at hd
          have hn' : u.descend here [name] = .ok place' := by
            rw [descend_singleton_eq_ok_iff] at hn ⊢
            refine hn.imp id ?_
            rintro ⟨hup, hlong, hplace, hdir⟩
            exact ⟨hup, hlong, hplace, h.directory _ hdir⟩
          rw [hn']
          exact ih hd

/-- Putting something in a place that is no directory keeps the directories. -/
theorem keepsDirectories_put (entry : Entry) (hplace : place ≠ [])
    (h : t.get? place = some .directory → entry = .directory) :
    KeepsDirectories t (t.put place entry) := by
  refine ⟨rfl, ?_⟩
  intro place' hdir
  rw [get?_put t entry hplace]
  by_cases hp : place' = place
  · subst hp
    rw [if_pos rfl, h hdir]
  · rw [if_neg hp]
    exact hdir

/-! ## Where a path leads -/

/-- A path leads to a name in a directory if the names before its last lead to the directory. -/
theorem resolve_eq_name_iff :
    t.resolve p = .ok (.name place) ↔ pathFault? p = none ∧
      ∃ directory name, t.descend (t.start p) p.names.dropLast = .ok directory ∧
        p.names.getLast? = some name ∧ name ≠ FilePath.upName ∧
        FilePath.nameTooLong name = false ∧ place = directory ++ [name] := by
  unfold resolve
  cases hfault : pathFault? p with
  | some fault => simp
  | none =>
      cases hd : t.descend (t.start p) p.names.dropLast with
      | error fault => simp [bind, Except.bind]
      | ok directory =>
          cases hlast : p.names.getLast? with
          | none => simp [bind, Except.bind, pure, Except.pure]
          | some name =>
              by_cases hup : name = FilePath.upName
              · simp [bind, Except.bind, pure, Except.pure, hup]
              · by_cases hlong : FilePath.nameTooLong name = true
                · simp [bind, Except.bind, hup, hlong, throw, throwThe, MonadExceptOf.throw]
                · simp [bind, Except.bind, pure, Except.pure, hup, hlong, @eq_comm _ place]

/-- A path leads to a directory if all its names can be followed. -/
theorem isDirectory_iff :
    t.isDirectory p = true ↔
      pathFault? p = none ∧ ∃ place, t.descend (t.start p) p.names = .ok place := by
  have hfind : t.isDirectory p = true ↔ t.find p = .ok .directory := by
    unfold isDirectory
    split <;> simp_all
  rw [hfind, find, resolve]
  cases hfault : pathFault? p with
  | some fault => simp
  | none =>
      -- the names before the last are followed either way, so the last one decides
      rcases List.eq_nil_or_concat p.names with hnil | ⟨init, name, hnames⟩
      · simp [hnil, descend, bind, Except.bind, pure, Except.pure]
      rw [hnames, List.concat_eq_append, List.dropLast_concat, List.getLast?_concat, descend_append]
      cases hd : t.descend (t.start p) init with
      | error fault => simp [bind, Except.bind]
      | ok directory =>
          simp only [bind, Except.bind, descend_singleton_eq_ok_iff, true_and]
          by_cases hup : name = FilePath.upName
          · simp [pure, Except.pure, hup]
          by_cases hlong : FilePath.nameTooLong name = true
          · simp [hup, hlong, throw, throwThe, MonadExceptOf.throw]
          cases hget : t.get? (directory ++ [name]) with
          | none => simp [pure, Except.pure, hup, hlong, hget]
          | some entry => simp [pure, Except.pure, hup, hlong, hget]

theorem KeepsDirectories.isDirectory (h : KeepsDirectories t u) (hp : t.isDirectory p = true) :
    u.isDirectory p = true := by
  rw [isDirectory_iff] at hp ⊢
  obtain ⟨hfault, place, hplace⟩ := hp
  rw [h.start_eq]
  exact ⟨hfault, place, h.descend hplace⟩

theorem KeepsDirectories.resolve_eq_name (h : KeepsDirectories t u)
    (hp : t.resolve p = .ok (.name place)) : u.resolve p = .ok (.name place) := by
  rw [resolve_eq_name_iff] at hp ⊢
  obtain ⟨hfault, directory, name, hd, hrest⟩ := hp
  rw [h.start_eq]
  exact ⟨hfault, directory, name, h.descend hd, hrest⟩

/-- The place of a name in a directory is not the root. -/
theorem ne_nil_of_resolve (h : t.resolve p = .ok (.name place)) : place ≠ [] := by
  obtain ⟨-, directory, name, -, -, -, -, rfl⟩ := resolve_eq_name_iff.mp h
  simp

/-! ## Names in a directory -/

theorem start_child (t : FileTree) (p : FilePath) (name : String) :
    t.start (p.child name) = t.start p := rfl

/-- What is wrong with no path: its text has bytes, no name has a null character, and it is not too long. -/
theorem pathFault?_eq_none_iff : pathFault? p = none ↔
    Text.encodeFault? p.display = none ∧ p.names.any FilePath.hasNull = false ∧ p.isTooLong = false := by
  unfold pathFault?
  cases Text.encodeFault? p.display with
  | some fault => simp
  | none =>
      cases p.names.any FilePath.hasNull with
      | true => simp
      | false => cases p.isTooLong <;> simp

theorem isUsable_of_pathFault? (h : pathFault? p = none) (hname : name ∈ p.names) :
    FilePath.IsUsable name := by
  obtain ⟨hbytes, hnull, -⟩ := pathFault?_eq_none_iff.mp h
  refine ⟨(p.encodeFault?_display.mp hbytes) name hname, ?_⟩
  rw [List.any_eq_false] at hnull
  simpa using hnull name hname

/-- The limits of a path to a file are those of its length, if its directory is within the limits. -/
theorem pathFault?_child_eq_none_iff (h : pathFault? p = none) (hname : FilePath.IsUsable name) :
    pathFault? (p.child name) = none ↔ (p.child name).isTooLong = false := by
  obtain ⟨hbytes, hnull, -⟩ := pathFault?_eq_none_iff.mp h
  have hbytes' : Text.encodeFault? (p.child name).display = none := by
    rw [FilePath.encodeFault?_display, FilePath.names_child, List.forall_mem_append,
      List.forall_mem_singleton]
    exact ⟨p.encodeFault?_display.mp hbytes, hname.encodable⟩
  rw [pathFault?_eq_none_iff, FilePath.names_child, List.any_append, hnull]
  simp [hbytes', hname.noNull]

/-! ## Making directories -/

/-- A directory is made where a path leads to a name that is free. -/
theorem makeDir_eq_ok_iff :
    t.makeDir p = .ok u ↔
      ∃ place, t.resolve p = .ok (.name place) ∧ t.get? place = none ∧ u = t.put place .directory := by
  unfold makeDir
  split
  · rename_i heq
    simp [heq]
  · rename_i heq
    simp [heq]
  · rename_i place heq
    cases hget : t.get? place with
    | some entry => simp [heq, hget]
    | none => simp [heq, hget, @eq_comm _ u]

/-- What makes a directory leaves one. -/
theorem isDirectory_of_makeDir (h : t.makeDir p = .ok u) :
    KeepsDirectories t u ∧ u.isDirectory p = true := by
  obtain ⟨place, hplace, hfree, rfl⟩ := makeDir_eq_ok_iff.mp h
  have hne := ne_nil_of_resolve hplace
  have hkeeps : KeepsDirectories t (t.put place .directory) :=
    keepsDirectories_put .directory hne fun _ => rfl
  refine ⟨hkeeps, ?_⟩
  have hthere := hkeeps.resolve_eq_name hplace
  have hget : (t.put place .directory).get? place = some .directory := by
    rw [get?_put t .directory hne, if_pos rfl]
  simp [isDirectory, find, hthere, hget]

theorem isDirectory_of_ensureDir (h : t.ensureDir p = (u, .ok ())) :
    KeepsDirectories t u ∧ u.isDirectory p = true := by
  unfold ensureDir at h
  split at h
  · cases h
    exact isDirectory_of_makeDir ‹_›
  · split at h
    · cases h
      exact ⟨.refl _, ‹_›⟩
    · cases h

theorem ensureDir_error_fst {e : FileError} (h : t.ensureDir p = (u, .error e)) : u = t := by
  unfold ensureDir at h
  split at h
  · cases h
  · split at h <;> cases h
    rfl

/-- **Making directories leaves them**, and keeps those that are there. -/
theorem isDirectory_of_makeDirs (h : t.makeDirs p = (u, .ok ())) :
    KeepsDirectories t u ∧ u.isDirectory p = true := by
  fun_induction makeDirs t p generalizing u with
  | case1 => cases h
  | case2 t p t₁ p' hensure _ t₂ hparent ih =>
      -- the directories above are made first, and the failed attempt before left nothing
      have ht₁ : t₁ = t := ensureDir_error_fst hensure
      subst ht₁
      obtain ⟨hkeeps, -⟩ := ih hparent
      obtain ⟨hkeeps', hdir⟩ := isDirectory_of_ensureDir h
      exact ⟨hkeeps.trans hkeeps', hdir⟩
  | case3 => cases h
  | case4 => exact isDirectory_of_ensureDir h

/-- Where a directory is, none is made. -/
theorem makeDirs_of_isDirectory (h : t.isDirectory p = true) : t.makeDirs p = (t, .ok ()) := by
  have hensure : t.ensureDir p = (t, .ok ()) := by
    unfold ensureDir
    split
    · rename_i hmake
      obtain ⟨place, hplace, hfree, -⟩ := makeDir_eq_ok_iff.mp hmake
      simp [isDirectory, find, hplace, hfree] at h
    · rw [if_pos h]
  rw [makeDirs, hensure]

/-! ## Temporary files -/

theorem le_foldl {α : Type} {f : Nat → α → Nat} (hf : ∀ n a, n ≤ f n a) (n : Nat) (as : List α) :
    n ≤ as.foldl f n := by
  induction as generalizing n with
  | nil => exact Nat.le_refl n
  | cons a as ih => exact Nat.le_trans (hf n a) (ih (f n a))

theorem le_foldl_of_mem {α : Type} {f : Nat → α → Nat} (hf : ∀ n a, n ≤ f n a) {m : Nat} {a : α}
    (hm : ∀ n, m ≤ f n a) {as : List α} (ha : a ∈ as) (n : Nat) : m ≤ as.foldl f n := by
  induction as generalizing n with
  | nil => cases ha
  | cons a' as ih =>
      rcases List.mem_cons.mp ha with rfl | ha
      · exact Nat.le_trans (hm n) (le_foldl hf _ as)
      · exact ih ha _

/-- No name in the tree is longer than the longest. -/
theorem length_le_longestName {e : Location × Entry} (he : e ∈ t.entries) (hname : name ∈ e.1) :
    name.length ≤ t.longestName := by
  have hinner : ∀ n (name : String), n ≤ max n name.length := fun n name => Nat.le_max_left _ _
  refine le_foldl_of_mem (fun n e => le_foldl hinner n e.1) ?_ he 0
  intro n
  exact le_foldl_of_mem hinner (fun n => Nat.le_max_right _ _) hname n

theorem longestName_lt_length_temporaryName (t : FileTree) (name : String) :
    t.longestName < (t.temporaryName name).length := by
  simp only [temporaryName, String.length_append, String.length_ofList, List.length_replicate]
  omega

/-- The name of a temporary file is free in every directory. -/
theorem get?_temporaryName (t : FileTree) (here : Location) (name : String) :
    t.get? (here ++ [t.temporaryName name]) = none := by
  have hget : t.get? (here ++ [t.temporaryName name]) =
      t.entries.lookup (here ++ [t.temporaryName name]) := by
    cases here <;> rfl
  rw [hget]
  cases hentry : t.entries.lookup (here ++ [t.temporaryName name]) with
  | none => rfl
  | some entry =>
      obtain ⟨before, after, hentries, -⟩ := List.lookup_eq_some_iff.mp hentry
      have hmem : (here ++ [t.temporaryName name], entry) ∈ t.entries := by simp [hentries]
      have hle := length_le_longestName hmem (List.mem_append_right here List.mem_cons_self)
      have hlt := longestName_lt_length_temporaryName t name
      omega

/-- The name of a temporary file is longer than the name it stands for. -/
theorem temporaryName_ne (t : FileTree) (name : String) : t.temporaryName name ≠ name := by
  intro h
  have hlen := congrArg String.length h
  simp only [temporaryName, String.length_append, String.length_ofList, List.length_replicate] at hlen
  omega

end FileTree

end ContentTypes
