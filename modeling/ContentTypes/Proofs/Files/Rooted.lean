import ContentTypes.Proofs.Files.History

/-!
# What stays where it is

A call that writes files takes nothing away: every directory is still one afterwards, and every file is
still a file (`FileTree.Extends`). So a path that leads to something goes on to. That a path leads to
nothing may change, since the directories that a call makes on its way can open one. In a tree in which
everything stands in a directory (`FileTree.Rooted`) they open nothing that was there before, unless the
path goes up behind a name that is missing (`FileTree.Forward.resolve`).
-/

set_option autoImplicit false

namespace ContentTypes

open FileTree

variable {ε : Type} {t u v : FileTree} {p path : FilePath} {here place above : Location}
  {names : List String} {bytes : List UInt8}

namespace FileTree

/-! ## Trees that extend others -/

/-- Whether all that is in one tree is in the other: the directories, and a file for each file. -/
structure Extends (t u : FileTree) : Prop extends KeepsDirectories t u where
  file : ∀ place, (t.files place).isSome = true → (u.files place).isSome = true

theorem Extends.refl (t : FileTree) : t.Extends t := ⟨.refl t, fun _ h => h⟩

theorem Extends.trans (h : t.Extends u) (h' : u.Extends v) : t.Extends v :=
  ⟨h.toKeepsDirectories.trans h'.toKeepsDirectories, fun place hp => h'.file place (h.file place hp)⟩

theorem Extends.of_eq (hkeeps : KeepsDirectories t u) (h : u.files = t.files) : t.Extends u :=
  ⟨hkeeps, fun _ hp => h ▸ hp⟩

theorem Extends.of_update (hkeeps : KeepsDirectories t u)
    (h : u.files = Function.update t.files place (some bytes)) : t.Extends u := by
  refine ⟨hkeeps, fun place' hp => ?_⟩
  rw [h]
  by_cases hplace : place' = place
  · rw [hplace, Function.update_self]
    rfl
  · rwa [Function.update_of_ne hplace]

/-- What is at a place is a directory or a file. -/
theorem isSome_get?_iff : (t.get? place).isSome = true ↔
    t.get? place = some .directory ∨ (t.files place).isSome = true := by
  unfold files
  cases t.get? place with
  | none => simp
  | some entry => cases entry <;> simp

/-- A path that leads to something leads to a directory or to a file. -/
theorem isThere_eq_true_iff : t.isThere p = .ok true ↔ t.isDirectory p = true ∨
    ∃ place, t.resolve p = .ok (.name place) ∧ (t.files place).isSome = true := by
  unfold isThere isDirectory find
  cases hleads : t.resolve p with
  | error fault => cases fault <;> simp
  | ok target =>
      cases target with
      | directory place => simp
      | name place =>
          cases hget : t.get? place with
          | none => simp [files, hget]
          | some entry => cases entry <;> simp [files, hget]

/-- **A path that leads to something goes on to.** -/
theorem Extends.isThere (h : t.Extends u) (hp : t.isThere p = .ok true) : u.isThere p = .ok true := by
  rw [isThere_eq_true_iff] at hp ⊢
  refine hp.imp h.toKeepsDirectories.isDirectory ?_
  rintro ⟨place, hleads, hfile⟩
  exact ⟨place, h.toKeepsDirectories.resolve_eq_name hleads, h.file place hfile⟩

/-! ## Places that are open -/

/-- Whether a place and all above it are directories. -/
def Open (t : FileTree) (place : Location) : Prop :=
  ∀ above, above <+: place → t.get? above = some .directory

theorem Open.of_keepsDirectories (hkeeps : KeepsDirectories t u) (h : t.Open place) : u.Open place :=
  fun above habove => hkeeps.directory above (h above habove)

theorem Open.descend (h : t.Open here) (hd : t.descend here names = .ok place) : t.Open place := by
  -- name by name: going up stays above, and going down enters a directory
  induction names generalizing here with
  | nil =>
      cases hd
      exact h
  | cons name names ih =>
      rw [← List.singleton_append, descend_append] at hd
      cases hn : t.descend here [name] with
      | error fault =>
          rw [hn] at hd
          cases hd
      | ok place' =>
          rw [hn] at hd
          refine ih (fun above habove => ?_) hd
          rcases descend_singleton_eq_ok_iff.mp hn with ⟨-, rfl⟩ | ⟨-, -, rfl, hdir⟩
          · exact h above (habove.trans (List.dropLast_prefix here))
          · rcases List.prefix_concat_iff.mp habove with rfl | habove
            · exact hdir
            · exact h above habove

/-- A name that a path leads to stands in a directory. -/
theorem Open.directory_of_resolve (h : t.Open (t.start p)) (hleads : t.resolve p = .ok (.name place)) :
    t.get? place.dropLast = some .directory := by
  obtain ⟨-, directory, name, hd, -, -, -, rfl⟩ := resolve_eq_name_iff.mp hleads
  rw [List.dropLast_concat]
  exact h.descend hd _ (List.prefix_refl _)

/-! ## Rooted trees -/

/-- Whether everything in a tree stands in a directory, and relative paths start from one. -/
structure Rooted (t : FileTree) : Prop where
  current : t.get? t.current = some .directory
  parent : ∀ place, (t.get? place).isSome = true → t.get? place.dropLast = some .directory

/-- All that is above something is a directory. -/
theorem Rooted.of_below (h : t.Rooted) (hplace : (t.get? place).isSome = true) (habove : above <+: place)
    (hne : above ≠ place) : t.get? above = some .directory := by
  induction place using List.reverseRecOn with
  | nil => exact absurd (List.prefix_nil.mp habove) hne
  | append_singleton directory name ih =>
      have hdir := h.parent _ hplace
      rw [List.dropLast_concat] at hdir
      have habove' := (List.prefix_concat_iff.mp habove).resolve_left hne
      by_cases heq : above = directory
      · rwa [heq]
      · exact ih (by rw [hdir]; rfl) habove' heq

theorem Rooted.open_start (h : t.Rooted) (p : FilePath) : t.Open (t.start p) := by
  intro above habove
  unfold start at habove
  split at habove
  · by_cases heq : above = t.current
    · rw [heq]
      exact h.current
    · exact h.of_below (by rw [h.current]; rfl) habove heq
  · rw [List.prefix_nil.mp habove]
    rfl

/-- A rooted tree stays so if new files stand in directories, since what else is added is on a way that
has been followed. -/
theorem Rooted.of_grows (h : t.Rooted) (hgrows : t.Grows u p)
    (hfiles : ∀ place, (u.files place).isSome = true →
      (t.files place).isSome = true ∨ u.get? place.dropLast = some .directory) : u.Rooted := by
  have hkeeps := hgrows.toKeepsDirectories
  have hopen : u.Open (u.start p) := by
    rw [hkeeps.start_eq]
    exact (h.open_start p).of_keepsDirectories hkeeps
  have hold {place : Location} (hplace : (t.get? place).isSome = true) :
      u.get? place.dropLast = some .directory := hkeeps.directory _ (h.parent place hplace)
  refine ⟨?_, fun place hplace => ?_⟩
  · rw [hkeeps.current]
    exact hkeeps.directory _ h.current
  rcases isSome_get?_iff.mp hplace with hdir | hfile
  · rcases hgrows.added place hdir with hdir | ⟨names, -, hway⟩
    · exact hold (isSome_get?_iff.mpr (.inl hdir))
    · exact hopen.descend hway _ (List.dropLast_prefix place)
  · rcases hfiles place hfile with hfile | hdir
    · exact hold (isSome_get?_iff.mpr (.inr hfile))
    · exact hdir

theorem rooted_of_entries (hcurrent : t.get? t.current = some .directory)
    (h : ∀ e ∈ t.entries, t.get? e.1.dropLast = some .directory) : t.Rooted := by
  refine ⟨hcurrent, fun place hplace => ?_⟩
  cases place with
  | nil => rfl
  | cons name names =>
      obtain ⟨entry, hentry⟩ := Option.isSome_iff_exists.mp hplace
      have hlookup : t.entries.lookup (name :: names) = some entry := hentry
      obtain ⟨before, after, hentries, -⟩ := List.lookup_eq_some_iff.mp hlookup
      exact h (name :: names, entry) (by simp [hentries])

/-! ## Paths that go forward -/

/-- Whether a path does not go up behind a name that is missing. -/
def Forward (t : FileTree) (p : FilePath) : Prop :=
  ∀ names rest, p.names = names ++ rest → t.descend (t.start p) names = .error .missing →
    FilePath.upName ∉ rest

/-- A path that never goes up goes forward in every tree. -/
theorem forward_of_notMem (t : FileTree) (h : FilePath.upName ∉ p.names) : t.Forward p := by
  intro names rest hnames _ hup
  exact h (hnames ▸ List.mem_append_right names hup)

theorem descend_eq_append (h : t.descend here names = .ok place) (hup : FilePath.upName ∉ names) :
    place = here ++ names := by
  induction names generalizing here with
  | nil =>
      cases h
      exact (List.append_nil _).symm
  | cons name names ih =>
      rw [List.mem_cons, not_or] at hup
      rw [← List.singleton_append, descend_append] at h
      cases hn : t.descend here [name] with
      | error fault =>
          rw [hn] at h
          cases h
      | ok place' =>
          rw [hn] at h
          rcases descend_singleton_eq_ok_iff.mp hn with ⟨heq, -⟩ | ⟨-, -, rfl, -⟩
          · exact absurd heq.symm hup.1
          · rw [ih h hup.2, List.append_assoc, List.singleton_append]

/-- One name cannot be followed if it is too long, missing, or the name of a file. -/
theorem descend_singleton_eq_error {name : String} {fault : FileFault}
    (h : t.descend here [name] = .error fault) : name ≠ FilePath.upName ∧
      (FilePath.nameTooLong name = true ∧ fault = .nameTooLong ∨
        t.get? (here ++ [name]) = none ∧ fault = .missing ∨
        (t.files (here ++ [name])).isSome = true ∧ fault = .notDirectory) := by
  rw [descend] at h
  split at h
  · cases h
  rename_i hup
  refine ⟨hup, ?_⟩
  by_cases hlong : FilePath.nameTooLong name = true
  · rw [entryIn, if_pos hlong] at h
    cases h
    exact .inl ⟨hlong, rfl⟩
  rw [entryIn, if_neg hlong] at h
  cases hget : t.get? (here ++ [name]) with
  | none =>
      rw [hget] at h
      cases h
      exact .inr (.inl ⟨rfl, rfl⟩)
  | some entry =>
      cases entry with
      | file bytes =>
          rw [hget] at h
          cases h
          exact .inr (.inr ⟨by simp [files, hget], rfl⟩)
      | directory =>
          rw [hget] at h
          cases h

/-- Names that cannot be followed can be followed up to one that cannot. -/
theorem exists_of_descend_error {fault : FileFault} (h : t.descend here names = .error fault) :
    ∃ followed name rest place, names = followed ++ [name] ++ rest ∧
      t.descend here followed = .ok place ∧ t.descend place [name] = .error fault := by
  induction names generalizing here with
  | nil => cases h
  | cons name names ih =>
      rw [← List.singleton_append, descend_append] at h
      cases hn : t.descend here [name] with
      | error fault' =>
          rw [hn] at h
          cases h
          exact ⟨[], name, names, here, rfl, rfl, hn⟩
      | ok place' =>
          rw [hn] at h
          obtain ⟨followed, stop, rest, place, rfl, hd, hstop⟩ := ih h
          refine ⟨name :: followed, stop, rest, place, rfl, ?_, hstop⟩
          rw [← List.singleton_append, descend_append, hn]
          exact hd

/-- **A path that goes forward is opened to nothing that was there before.** If it leads to a name in a
tree that extends a rooted one, and something was there in the rooted one, then it has led there. -/
theorem Forward.resolve (h : t.Forward p) (hrooted : t.Rooted) (hext : t.Extends u)
    (hleads : u.resolve p = .ok (.name place)) (hthere : (t.get? place).isSome = true) :
    t.resolve p = .ok (.name place) := by
  rw [resolve_eq_name_iff] at hleads ⊢
  obtain ⟨hfault, directory, name, hd, hlast, hup, hlong, rfl⟩ := hleads
  rw [hext.start_eq] at hd
  refine ⟨hfault, directory, name, ?_, hlast, hup, hlong, rfl⟩
  cases hd' : t.descend (t.start p) p.names.dropLast with
  | ok directory' => rw [← hd, hext.toKeepsDirectories.descend hd']
  | error fault =>
      -- the name that stops the one tree is a directory of the other
      obtain ⟨followed, stop, rest, place, hnames, hfollowed, hstop⟩ := exists_of_descend_error hd'
      obtain ⟨hnotUp, hwhy⟩ := descend_singleton_eq_error hstop
      rw [hnames, descend_append, descend_append, hext.toKeepsDirectories.descend hfollowed] at hd
      change u.descend place [stop] >>= _ = _ at hd
      cases hn : u.descend place [stop] with
      | error fault =>
          rw [hn] at hd
          cases hd
      | ok place' =>
          rw [hn] at hd
          obtain ⟨-, hshort, rfl, hdir⟩ :=
            (descend_singleton_eq_ok_iff.mp hn).resolve_left fun h => hnotUp h.1
          rcases hwhy with ⟨hlong, -⟩ | ⟨hnone, rfl⟩ | ⟨hfile, -⟩
          · rw [hshort] at hlong
            cases hlong
          · -- it was missing, and then so was all below it
            have hwhole : p.names = followed ++ [stop] ++ (rest ++ [name]) := by
              rw [← List.dropLast_append_getLast? name hlast, hnames, List.append_assoc]
            have hmissing : t.descend (t.start p) (followed ++ [stop]) = .error .missing := by
              rw [descend_append, hfollowed]
              exact hstop
            have hrest := h _ _ hwhole hmissing
            rw [List.mem_append, not_or] at hrest
            obtain rfl := descend_eq_append hd hrest.1
            have habove : place ++ [stop] <+: place ++ [stop] ++ rest ++ [name] :=
              ⟨rest ++ [name], (List.append_assoc ..).symm⟩
            have hdir' := hrooted.of_below hthere habove (by simp)
            rw [hnone] at hdir'
            cases hdir'
          · have hfile' := hext.file _ hfile
            rw [files, hdir] at hfile'
            cases hfile'

end FileTree

/-! ## Calls -/

/-- Where a call may change a file: where its path leads, or in a free place beside that. -/
def FileCall.Reaches (c : FileCall ε) (t u : FileTree) (place : Location) : Prop :=
  ∃ path text, c.target? = some (path, text) ∧ (u.resolve path = .ok (.name place) ∨
    t.get? place = none ∧ u.descend (u.start path) path.parent.names = .ok place.dropLast)

/-- A call changes at most one file. -/
theorem FileCall.Outcome.files_eq_or {c : FileCall ε} {result : Except (CallError ε) Unit}
    (h : c.Outcome t u result) : u.files = t.files ∨ ∃ place bytes, c.Reaches t u place ∧
      u.files = Function.update t.files place (some bytes) := by
  rcases htarget : c.target? with _ | ⟨path, text⟩
  · exact .inl (h.made htarget).1
  rcases result with e | ⟨⟩
  · have hleft := h.left e rfl path text htarget
    generalize c.residue e = residue at hleft
    cases hleft with
    | nothing hfiles => exact .inl hfiles
    | emptied _ hleads hfiles => exact .inr ⟨_, _, ⟨path, text, htarget, .inl hleads⟩, hfiles⟩
    | temporary _ hdirectory hfree _ hfiles =>
        refine .inr ⟨_, _, ⟨path, text, htarget, .inr ⟨hfree, ?_⟩⟩, hfiles⟩
        rwa [List.dropLast_concat]
  · obtain ⟨-, place, hleads, hfiles⟩ := (h.wrote rfl path text htarget).receives.spec
    exact .inr ⟨place, _, ⟨path, text, htarget, .inl hleads⟩, hfiles⟩

/-- **A call takes nothing away.** -/
theorem FileCall.Outcome.extends {c : FileCall ε} {result : Except (CallError ε) Unit}
    (h : c.Outcome t u result) : t.Extends u := by
  rcases h.files_eq_or with hfiles | ⟨place, bytes, -, hfiles⟩
  · exact .of_eq h.grows.toKeepsDirectories hfiles
  · exact .of_update h.grows.toKeepsDirectories hfiles

theorem FileCall.Outcome.rooted {c : FileCall ε} {result : Except (CallError ε) Unit}
    (h : c.Outcome t u result) (hrooted : t.Rooted) : u.Rooted := by
  refine hrooted.of_grows h.grows fun place hfile => ?_
  rcases h.files_eq_or with hfiles | ⟨place', bytes, ⟨path, text, -, hreaches⟩, hfiles⟩
  · exact .inl (hfiles ▸ hfile)
  · by_cases hplace : place = place'
    · have hkeeps := h.grows.toKeepsDirectories
      have hopen : u.Open (u.start path) := by
        rw [hkeeps.start_eq]
        exact (hrooted.open_start path).of_keepsDirectories hkeeps
      rcases hreaches with hleads | ⟨-, hdirectory⟩
      · exact .inr (hplace ▸ hopen.directory_of_resolve hleads)
      · exact .inr (hplace ▸ hopen.descend hdirectory _ (List.prefix_refl _))
    · rw [hfiles, Function.update_of_ne hplace] at hfile
      exact .inl hfile

end ContentTypes
