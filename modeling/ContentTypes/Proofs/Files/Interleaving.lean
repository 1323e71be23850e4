import ContentTypes.Proofs.Files.Change
import Mathlib.Logic.Function.Basic

/-!
# Writes that overlap

Several writes of one path, each through a temporary file of its own, with their steps in any order. A
write may be broken off between two steps: either an exception is raised in it, or it is never taken up
again. Whatever the order is, the file that the path leads to is never seen half written
(`Writers.target_whole`).

The idea is that a step of a write only touches its own temporary file, whose name is no name that the
path can lead to, until the step that moves it to its place (`WriteCall.StepEffect`). What holds of the
temporary files between the steps (`Writers.Sound`) makes the file that is moved a whole text.
-/

set_option autoImplicit false

namespace ContentTypes

open FileTree

/-- The place that a target is at. -/
def Target.place : Target → Location
  | .directory place => place
  | .name place => place

variable {ι ε : Type} {t u : FileTree} {path : FilePath} {place temporary : Location}
  {c c' : WriteCall ε}

/-! ## Writers -/

/-- A text that is to be written, with the pieces in which its bytes are written and the check it has to
pass, if any. -/
structure Draft (ε : Type) where
  text : String
  pieces : List (List UInt8)
  check : Option (Check ε)
  whole : pieces.flatten = Text.bytes text

namespace Draft

/-- The bytes of a file that holds the whole text. -/
def bytes (d : Draft ε) : List UInt8 := Text.bytes d.text

/-- Whether a text has bytes and passes its check. -/
def Passes (d : Draft ε) : Prop := Text.encodeFault? d.text = none ∧ runCheck d.check d.text = .ok ()

/-- A text that is written in one piece. -/
def inOnePiece (text : String) (check : Option (Check ε)) : Draft ε :=
  ⟨text, [Text.bytes text], check, List.flatten_singleton⟩

/-- The write of a draft before its first step. -/
def call (d : Draft ε) (path : FilePath) : WriteCall ε :=
  ⟨path, d.text, d.pieces, d.check, .makingParents⟩

end Draft

/-- A write in which an exception is raised: if its temporary file is there, it is going to be taken away.
A second exception leaves the file where it is. -/
def WriteCall.interrupt (c : WriteCall ε) (error : WriteError ε) : WriteCall ε :=
  match c.stage with
  | .makingParents => c.withStage (.finished (.error error))
  | .creating => c.withStage (.finished (.error error))
  | .filling temporary _ => c.withStage (.cleaning temporary error)
  | .checking temporary => c.withStage (.cleaning temporary error)
  | .moving temporary => c.withStage (.cleaning temporary error)
  | .cleaning _ _ => c.withStage (.finished (.error error))
  | .finished _ => c

/-- A tree and the writes that work on it, by their writers. -/
structure Writers (ι ε : Type) where
  tree : FileTree
  call : ι → WriteCall ε

/-- What happens next: a writer makes a step, or an exception is raised in its write. -/
inductive WriterEvent (ι ε : Type) where
  | advance (writer : ι)
  | interrupt (writer : ι) (error : WriteError ε)

namespace Writers

/-- The writers of drafts for a path, before the first step. -/
def start (t : FileTree) (path : FilePath) (drafts : ι → Draft ε) : Writers ι ε :=
  ⟨t, fun i => (drafts i).call path⟩

variable [DecidableEq ι]

/-- The writers after an event. -/
def after (s : Writers ι ε) : WriterEvent ι ε → Writers ι ε
  | .advance i =>
      ⟨((s.call i).step s.tree).1, Function.update s.call i ((s.call i).step s.tree).2⟩
  | .interrupt i error => ⟨s.tree, Function.update s.call i ((s.call i).interrupt error)⟩

/-- The writers after events in order. A write that is never taken up again is one without further
events. -/
def run (s : Writers ι ε) (events : List (WriterEvent ι ε)) : Writers ι ε := events.foldl after s

end Writers

/-! ## Temporary files -/

/-- Whether a place is one for the temporary files of a path: in the directory of its target, under a name
that is not the name of the target. -/
def FileTree.IsTemporary (t : FileTree) (path : FilePath) (place : Location) : Prop :=
  ∃ directory name, t.descend (t.start path) path.names.dropLast = .ok directory ∧
    place = directory ++ [name] ∧ name ≠ path.fileName

namespace FileTree

theorem IsTemporary.of_keepsDirectories (h : t.IsTemporary path place)
    (hkeeps : KeepsDirectories t u) : u.IsTemporary path place := by
  obtain ⟨directory, name, hd, hrest⟩ := h
  refine ⟨directory, name, ?_, hrest⟩
  rw [hkeeps.start_eq]
  exact hkeeps.descend hd

theorem IsTemporary.ne_nil (h : t.IsTemporary path place) : place ≠ [] := by
  obtain ⟨directory, name, -, rfl, -⟩ := h
  simp

/-- The place that is found for a temporary file is one for temporary files. -/
theorem isTemporary_of_temporaryPlace (h : t.temporaryPlace path = .ok place) :
    t.IsTemporary path place := by
  obtain ⟨-, directory, hd, -, -, hplace⟩ := temporaryPlace_eq_ok_iff.mp h
  exact ⟨directory, _, hd, hplace, temporaryName_ne t path.fileName⟩

/-- A path that leads to a directory by its last name leads to where its other names do, or above. -/
theorem resolve_eq_directory (h : t.resolve path = .ok (.directory place)) :
    ∃ directory, t.descend (t.start path) path.names.dropLast = .ok directory ∧
      place.length ≤ directory.length := by
  unfold resolve at h
  split at h
  · cases h
  cases hd : t.descend (t.start path) path.names.dropLast with
  | error fault => simp [hd, bind, Except.bind] at h
  | ok directory =>
      refine ⟨directory, rfl, ?_⟩
      simp only [hd, bind, Except.bind] at h
      split at h
      · cases h
        exact Nat.le_refl _
      · split at h
        · cases h
          simp
        · split at h <;> cases h

/-- **A temporary file is never what the path leads to.** -/
theorem IsTemporary.ne_target (h : t.IsTemporary path place) {target : Target}
    (hleads : t.resolve path = .ok target) : place ≠ target.place := by
  obtain ⟨directory, name, hd, rfl, hname⟩ := h
  cases target with
  | directory place' =>
      obtain ⟨directory', hd', hlength⟩ := resolve_eq_directory hleads
      obtain rfl : directory = directory' := Except.ok.inj (hd.symm.trans hd')
      rintro rfl
      simp only [List.length_append, List.length_singleton] at hlength
      omega
  | name place' =>
      obtain ⟨-, directory', name', hd', hlast, -, -, rfl⟩ := resolve_eq_name_iff.mp hleads
      obtain rfl : directory = directory' := Except.ok.inj (hd.symm.trans hd')
      intro heq
      obtain rfl : name = name' := List.singleton_inj.mp (List.append_cancel_left heq)
      exact hname (fileName_of_getLast? hlast).symm

/-- Bytes that are read are in a file that the path leads to. -/
theorem exists_of_read {bytes : List UInt8} (h : t.read path = .ok bytes) :
    ∃ place, t.resolve path = .ok (.name place) ∧ t.get? place = some (.file bytes) := by
  unfold read at h
  split at h
  · cases h
  · cases h
  rename_i bytes' hfind
  cases h
  unfold find at hfind
  split at hfind
  · cases hfind
  · cases hfind
  rename_i place hleads
  split at hfind
  · rename_i entry hget
    cases hfind
    exact ⟨place, hleads, hget⟩
  · cases hfind

/-- Making directories leaves what is at a place, unless there was nothing and now there is a directory
on the way. -/
theorem Grows.get?_eq (h : Grows t u path) (hfiles : u.files = t.files) (place : Location) :
    u.get? place = t.get? place ∨
      (t.get? place = none ∧ u.get? place = some .directory ∧ u.OnWay path place) := by
  cases hu : u.get? place with
  | none =>
      left
      cases ht : t.get? place with
      | none => rfl
      | some entry =>
          cases entry with
          | directory => rw [h.directory place ht] at hu; cases hu
          | file bytes =>
              rw [← files_eq_some_iff, ← hfiles, files_eq_some_iff, hu] at ht
              cases ht
  | some entry =>
      cases entry with
      | file bytes =>
          left
          rw [← files_eq_some_iff, hfiles, files_eq_some_iff] at hu
          exact hu.symm
      | directory =>
          rcases h.added place hu with ht | hway
          · exact .inl ht.symm
          cases ht : t.get? place with
          | none => exact .inr ⟨rfl, rfl, hway⟩
          | some entry =>
              cases entry with
              | directory => exact .inl rfl
              | file bytes =>
                  rw [← files_eq_some_iff, ← hfiles, files_eq_some_iff, hu] at ht
                  cases ht

end FileTree

namespace WriteCall

/-- The bytes of the whole text. -/
def bytes (c : WriteCall ε) : List UInt8 := Text.bytes c.text

/-- The temporary file of a write, from when it is created until it is moved or taken away. -/
def temporary? (c : WriteCall ε) : Option Location :=
  match c.stage with
  | .filling temporary _ => some temporary
  | .checking temporary => some temporary
  | .moving temporary => some temporary
  | .cleaning temporary _ => some temporary
  | _ => none

/-- Whether the text of a write has bytes and passes its check. -/
def Passes (c : WriteCall ε) : Prop := Text.encodeFault? c.text = none ∧ runCheck c.check c.text = .ok ()

/-- Whether the temporary file of a write holds what it should: what is written so far of a text that has
bytes, the whole text once nothing is left, and a text that has passed its check when it is to be moved. A
file that is to be taken away holds anything. -/
def Holds (t : FileTree) (c : WriteCall ε) : Prop :=
  match c.stage with
  | .filling temporary rest => Text.encodeFault? c.text = none ∧
      ∃ written, t.get? temporary = some (.file written) ∧ written ++ rest.flatten = c.bytes
  | .checking temporary => Text.encodeFault? c.text = none ∧ t.get? temporary = some (.file c.bytes)
  | .moving temporary => c.Passes ∧ t.get? temporary = some (.file c.bytes)
  | .cleaning temporary _ => ∃ written, t.get? temporary = some (.file written)
  | _ => True

theorem exists_file_of_holds (h : c.Holds t) (htemporary : c.temporary? = some temporary) :
    ∃ written, t.get? temporary = some (.file written) := by
  obtain ⟨path, text, pieces, check, stage⟩ := c
  cases stage with
  | makingParents => cases htemporary
  | creating => cases htemporary
  | filling temporary rest =>
      cases htemporary
      obtain ⟨-, written, hget, -⟩ := h
      exact ⟨written, hget⟩
  | checking temporary =>
      cases htemporary
      exact ⟨_, h.2⟩
  | moving temporary =>
      cases htemporary
      exact ⟨_, h.2⟩
  | cleaning temporary error =>
      cases htemporary
      exact h
  | finished result => cases htemporary

/-- What a write holds depends on its temporary file alone. -/
theorem Holds.congr (h : c.Holds t)
    (hget : ∀ temporary, c.temporary? = some temporary → u.get? temporary = t.get? temporary) :
    c.Holds u := by
  obtain ⟨path, text, pieces, check, stage⟩ := c
  cases stage with
  | makingParents => trivial
  | creating => trivial
  | filling temporary rest =>
      obtain ⟨hbytes, written, hwritten, hrest⟩ := h
      exact ⟨hbytes, written, (hget temporary rfl).trans hwritten, hrest⟩
  | checking temporary => exact ⟨h.1, (hget temporary rfl).trans h.2⟩
  | moving temporary => exact ⟨h.1, (hget temporary rfl).trans h.2⟩
  | cleaning temporary error =>
      obtain ⟨written, hwritten⟩ := h
      exact ⟨written, (hget temporary rfl).trans hwritten⟩
  | finished result => trivial

/-! ## One step -/

/-- What a step of a write does, from one tree and stage to the next. -/
structure StepEffect (t : FileTree) (c : WriteCall ε) (u : FileTree) (c' : WriteCall ε) : Prop where
  /-- All directories are still there. -/
  keeps : KeepsDirectories t u
  /-- It is a write of the same text to the same path, with the same check. -/
  same : c'.withStage .makingParents = c.withStage .makingParents
  /-- The temporary file holds what it should. -/
  holds : c'.Holds u
  /-- The temporary file is the one before, or is new in a place that was free. -/
  temporary : ∀ temporary, c'.temporary? = some temporary →
    c.temporary? = some temporary ∨ (t.get? temporary = none ∧ u.IsTemporary c.path temporary)
  /-- Every place is as it was but for the temporary file, directories on the way, and the target, which
  holds the whole text once it has passed its check. -/
  frame : ∀ place, u.get? place = t.get? place ∨
    c.temporary? = some place ∨ c'.temporary? = some place ∨
    (t.get? place = none ∧ u.get? place = some .directory ∧ u.OnWay c.path.parent place) ∨
    (u.resolve c.path = .ok (.name place) ∧ u.get? place = some (.file c.bytes) ∧ c.Passes)

/-- A step that leaves the tree as it is and starts no temporary file. -/
theorem StepEffect.of_tree {stage : WriteStage ε} (hholds : (c.withStage stage).Holds t)
    (htemporary : ∀ temporary, (c.withStage stage).temporary? = some temporary →
      c.temporary? = some temporary) :
    StepEffect t c t (c.withStage stage) :=
  ⟨.refl t, rfl, hholds, fun temporary h => .inl (htemporary temporary h), fun _ => .inl rfl⟩

/-- A step that changes nothing but the temporary file. -/
theorem StepEffect.of_temporary {stage : WriteStage ε} (hkeeps : KeepsDirectories t u)
    (hholds : (c.withStage stage).Holds u) (hc : c.temporary? = some temporary)
    (htemporary : ∀ temporary', (c.withStage stage).temporary? = some temporary' →
      c.temporary? = some temporary')
    (hget : ∀ place, place ≠ temporary → u.get? place = t.get? place) :
    StepEffect t c u (c.withStage stage) := by
  refine ⟨hkeeps, rfl, hholds, fun temporary' h => .inl (htemporary temporary' h), ?_⟩
  intro place
  by_cases hp : place = temporary
  · exact .inr (.inl (hp ▸ hc))
  · exact .inl (hget place hp)

theorem stepEffect_makingParents (c : WriteCall ε) :
    StepEffect t (c.withStage .makingParents) ((c.withStage .makingParents).step t).1
      ((c.withStage .makingParents).step t).2 := by
  obtain ⟨hgrows, hfiles⟩ := grows_makeDirs t c.path.parent
  have hframe := hgrows.get?_eq hfiles
  simp only [step, withStage]
  rcases hdirs : t.makeDirs c.path.parent with ⟨u, e | ⟨⟩⟩
  all_goals
    rw [hdirs] at hgrows hframe
    refine ⟨hgrows.toKeepsDirectories, rfl, trivial, (fun _ h => by cases h), fun place => ?_⟩
    exact (hframe place).imp id fun hmade => .inr (.inr (.inl hmade))

theorem stepEffect_creating (c : WriteCall ε) (hwhole : c.pieces.flatten = c.bytes) :
    StepEffect t (c.withStage .creating) ((c.withStage .creating).step t).1
      ((c.withStage .creating).step t).2 := by
  simp only [step, withStage]
  cases htemp : t.temporaryPlace c.path with
  | error fault => exact .of_tree trivial fun _ h => by cases h
  | ok temporary =>
      obtain ⟨hnil, hfree⟩ := free_of_temporaryPlace htemp
      have hget := get?_put t (.file []) hnil
      have hkeeps : KeepsDirectories t (t.put temporary (.file [])) := by
        refine keepsDirectories_put _ hnil fun hdir => ?_
        rw [hfree] at hdir
        cases hdir
      have hplace := (isTemporary_of_temporaryPlace htemp).of_keepsDirectories hkeeps
      have hframe (place : Location) : (t.put temporary (.file [])).get? place = t.get? place ∨
          some temporary = some place := by
        by_cases hp : place = temporary
        · exact .inr (congrArg some hp.symm)
        · exact .inl ((hget place).trans (if_neg hp))
      have hempty : (t.put temporary (.file [])).get? temporary = some (.file []) :=
        (hget temporary).trans (if_pos rfl)
      -- with bytes the file is filled next, and without it is taken away
      cases hbytes : Text.encodeFault? c.text with
      | some fault =>
          refine ⟨hkeeps, rfl, ⟨[], hempty⟩, ?_, fun place => (hframe place).imp id fun h => .inr (.inl h)⟩
          rintro temporary' ⟨⟩
          exact .inr ⟨hfree, hplace⟩
      | none =>
          refine ⟨hkeeps, rfl, ⟨hbytes, [], hempty, hwhole⟩, ?_,
            fun place => (hframe place).imp id fun h => .inr (.inl h)⟩
          rintro temporary' ⟨⟩
          exact .inr ⟨hfree, hplace⟩

theorem stepEffect_filling (c : WriteCall ε) {rest : List (List UInt8)} (hnil : temporary ≠ [])
    (hholds : (c.withStage (.filling temporary rest)).Holds t) :
    StepEffect t (c.withStage (.filling temporary rest))
      ((c.withStage (.filling temporary rest)).step t).1
      ((c.withStage (.filling temporary rest)).step t).2 := by
  obtain ⟨hbytes, written, hwritten, hrest⟩ := hholds
  cases rest with
  | nil =>
      refine .of_tree ?_ fun _ h => h
      rw [List.flatten_nil, List.append_nil] at hrest
      rw [hrest] at hwritten
      exact ⟨hbytes, hwritten⟩
  | cons piece rest =>
      -- a piece is added to the end of the temporary file
      have happend : t.append temporary piece = t.put temporary (.file (written ++ piece)) := by
        rw [append, hwritten]
      have hget := get?_put t (.file (written ++ piece)) hnil
      have hkeeps : KeepsDirectories t (t.put temporary (.file (written ++ piece))) := by
        refine keepsDirectories_put _ hnil fun hdir => ?_
        rw [hwritten] at hdir
        cases hdir
      show StepEffect t _ (t.append temporary piece) _
      rw [happend]
      refine .of_temporary hkeeps ⟨hbytes, written ++ piece, (hget temporary).trans (if_pos rfl), ?_⟩ rfl
        (fun _ h => h) fun place hp => (hget place).trans (if_neg hp)
      rw [List.append_assoc]
      exact hrest

theorem stepEffect_checking (c : WriteCall ε)
    (hholds : (c.withStage (.checking temporary)).Holds t) :
    StepEffect t (c.withStage (.checking temporary)) ((c.withStage (.checking temporary)).step t).1
      ((c.withStage (.checking temporary)).step t).2 := by
  simp only [step, withStage]
  cases hcheck : runCheck c.check c.text with
  | ok a => exact .of_tree ⟨⟨hholds.1, hcheck⟩, hholds.2⟩ fun _ h => h
  | error reason =>
      -- a check that ends the program leaves the file where it is
      cases hquits : checkQuits c.check reason with
      | true =>
          simp only [hquits, if_true]
          exact .of_tree trivial fun _ h => by cases h
      | false =>
          simp only [hquits, Bool.false_eq_true, if_false]
          exact .of_tree ⟨_, hholds.2⟩ fun _ h => h

theorem stepEffect_moving (c : WriteCall ε) (hplace : t.IsTemporary c.path temporary)
    (hholds : (c.withStage (.moving temporary)).Holds t) :
    StepEffect t (c.withStage (.moving temporary)) ((c.withStage (.moving temporary)).step t).1
      ((c.withStage (.moving temporary)).step t).2 := by
  obtain ⟨hpasses, hwritten⟩ := hholds
  simp only [step, withStage]
  cases hmove : t.rename temporary c.path with
  | error fault => exact .of_tree ⟨_, hwritten⟩ fun _ h => h
  | ok u =>
      obtain ⟨place, hleads, hfree, hu⟩ := (rename_eq_ok_iff hwritten).mp hmove
      have hne : place ≠ temporary := fun heq => hplace.ne_target hleads heq.symm
      rw [if_neg hne] at hu
      have hget (place' : Location) : u.get? place' =
          if place' = temporary then none
          else if place' = place then some (.file c.bytes) else t.get? place' := by
        rw [hu, get?_erase _ hplace.ne_nil, get?_put _ _ (ne_nil_of_resolve hleads)]
        rfl
      have hkeeps : KeepsDirectories t u := by
        refine ⟨by rw [hu]; rfl, fun place' hdir => ?_⟩
        rw [hget, if_neg, if_neg]
        · exact hdir
        · rintro rfl
          exact hfree hdir
        · rintro rfl
          rw [hwritten] at hdir
          cases hdir
      refine ⟨hkeeps, rfl, trivial, (fun _ h => by cases h), fun place' => ?_⟩
      by_cases htemp : place' = temporary
      · exact .inr (.inl (congrArg some htemp.symm))
      by_cases htarget : place' = place
      · subst htarget
        have hwhole := (hget place').trans ((if_neg htemp).trans (if_pos rfl))
        exact .inr (.inr (.inr (.inr ⟨hkeeps.resolve_eq_name hleads, hwhole, hpasses⟩)))
      · exact .inl ((hget place').trans ((if_neg htemp).trans (if_neg htarget)))

theorem stepEffect_cleaning (c : WriteCall ε) {error : WriteError ε} (hnil : temporary ≠ [])
    (hholds : (c.withStage (.cleaning temporary error)).Holds t) :
    StepEffect t (c.withStage (.cleaning temporary error))
      ((c.withStage (.cleaning temporary error)).step t).1
      ((c.withStage (.cleaning temporary error)).step t).2 := by
  obtain ⟨written, hwritten⟩ := hholds
  have hget := get?_erase t hnil
  have hkeeps : KeepsDirectories t (t.erase temporary) := by
    refine ⟨rfl, fun place hdir => ?_⟩
    rw [hget, if_neg]
    · exact hdir
    · rintro rfl
      rw [hwritten] at hdir
      cases hdir
  exact .of_temporary hkeeps trivial rfl (fun _ h => by cases h) fun place hp =>
    (hget place).trans (if_neg hp)

/-- **What a step does**, at every stage, if the temporary file holds what it should. -/
theorem stepEffect (hwhole : c.pieces.flatten = c.bytes) (hholds : c.Holds t)
    (hplace : ∀ temporary, c.temporary? = some temporary → t.IsTemporary c.path temporary) :
    StepEffect t c (c.step t).1 (c.step t).2 := by
  obtain ⟨path, text, pieces, check, stage⟩ := c
  let c : WriteCall ε := ⟨path, text, pieces, check, .makingParents⟩
  cases stage with
  | makingParents => exact stepEffect_makingParents c
  | creating => exact stepEffect_creating c hwhole
  | filling temporary rest => exact stepEffect_filling c (hplace _ rfl).ne_nil hholds
  | checking temporary => exact stepEffect_checking c hholds
  | moving temporary => exact stepEffect_moving c (hplace _ rfl) hholds
  | cleaning temporary error => exact stepEffect_cleaning c (hplace _ rfl).ne_nil hholds
  | finished result => exact .of_tree hholds fun _ h => h

/-- An exception touches no file, and leaves a temporary file that is to be taken away, or none. -/
theorem interruptEffect (c : WriteCall ε) (error : WriteError ε) (hholds : c.Holds t) :
    StepEffect t c t (c.interrupt error) := by
  obtain ⟨path, text, pieces, check, stage⟩ := c
  cases stage with
  | makingParents => exact .of_tree trivial fun _ h => by cases h
  | creating => exact .of_tree trivial fun _ h => by cases h
  | filling temporary rest => exact .of_tree (exists_file_of_holds hholds rfl) fun _ h => h
  | checking temporary => exact .of_tree (exists_file_of_holds hholds rfl) fun _ h => h
  | moving temporary => exact .of_tree (exists_file_of_holds hholds rfl) fun _ h => h
  | cleaning temporary error => exact .of_tree trivial fun _ h => by cases h
  | finished result => exact .of_tree hholds fun _ h => h

end WriteCall

/-! ## All steps -/

/-- Whether a place shows nothing of a text that is not whole or not accepted: it is as it was at the
start, or holds the whole text of a draft that has passed its check, or nothing was there and it is a
directory on the way to the target. -/
def Intact (t : FileTree) (path : FilePath) (drafts : ι → Draft ε) (u : FileTree) (place : Location) :
    Prop :=
  u.get? place = t.get? place ∨
    (∃ i, u.get? place = some (.file (drafts i).bytes) ∧ (drafts i).Passes) ∨
    (t.get? place = none ∧ u.get? place = some .directory ∧ u.OnWay path.parent place)

namespace Writers

variable {drafts : ι → Draft ε} {s s' : Writers ι ε}

/-- What holds between the steps of writers that started from a tree. -/
structure Sound (t : FileTree) (path : FilePath) (drafts : ι → Draft ε) (s : Writers ι ε) : Prop where
  /-- All directories are still there. -/
  keeps : KeepsDirectories t s.tree
  /-- Each writer writes its draft. -/
  begun : ∀ i, (s.call i).withStage .makingParents = (drafts i).call path
  /-- The temporary files hold what they should. -/
  holds : ∀ i, (s.call i).Holds s.tree
  /-- The temporary files are in places for them. -/
  temporary : ∀ i place, (s.call i).temporary? = some place → s.tree.IsTemporary path place
  /-- No two writers share a temporary file. -/
  apart : ∀ i j place, (s.call i).temporary? = some place → (s.call j).temporary? = some place → i = j
  /-- Every place but those for temporary files is intact. -/
  intact : ∀ place, Intact t path drafts s.tree place ∨ s.tree.IsTemporary path place

theorem sound_start (t : FileTree) (path : FilePath) (drafts : ι → Draft ε) :
    (start t path drafts).Sound t path drafts :=
  ⟨.refl t, fun _ => rfl, fun _ => trivial, nofun, nofun, fun _ => .inl (.inl rfl)⟩

theorem Sound.path_eq (h : s.Sound t path drafts) (i : ι) : (s.call i).path = path :=
  congrArg WriteCall.path (h.begun i)

theorem Sound.bytes_eq (h : s.Sound t path drafts) (i : ι) : (s.call i).bytes = (drafts i).bytes :=
  congrArg WriteCall.bytes (h.begun i)

theorem Sound.passes_iff (h : s.Sound t path drafts) (i : ι) :
    (s.call i).Passes ↔ (drafts i).Passes :=
  iff_of_eq (congrArg WriteCall.Passes (h.begun i))

theorem Sound.whole (h : s.Sound t path drafts) (i : ι) :
    (s.call i).pieces.flatten = (s.call i).bytes :=
  (congrArg (fun c : WriteCall ε => c.pieces.flatten) (h.begun i)).trans
    ((drafts i).whole.trans (h.bytes_eq i).symm)

/-- The step of one writer leaves the temporary files of the others as they are. -/
theorem Sound.get?_other (h : s.Sound t path drafts) {i j : ι} (hne : j ≠ i)
    (heffect : WriteCall.StepEffect s.tree (s.call i) s'.tree (s'.call i))
    (hj : (s.call j).temporary? = some temporary) :
    s'.tree.get? temporary = s.tree.get? temporary := by
  obtain ⟨written, hwritten⟩ := WriteCall.exists_file_of_holds (h.holds j) hj
  have hplace := (h.temporary j temporary hj).of_keepsDirectories heffect.keeps
  rcases heffect.frame temporary with hsame | hi | hi' | ⟨hfree, -⟩ | ⟨hleads, -⟩
  · exact hsame
  · exact absurd (h.apart j i temporary hj hi) hne
  · rcases heffect.temporary temporary hi' with hi | ⟨hfree, -⟩
    · exact absurd (h.apart j i temporary hj hi) hne
    · rw [hfree] at hwritten
      cases hwritten
  · rw [hfree] at hwritten
    cases hwritten
  · rw [h.path_eq i] at hleads
    exact absurd rfl (hplace.ne_target hleads)

/-- A temporary file after the step of a writer was one before, or is the new one of that writer. -/
theorem Sound.temporary_of_effect (h : s.Sound t path drafts) {i j : ι}
    (heffect : WriteCall.StepEffect s.tree (s.call i) s'.tree (s'.call i))
    (hothers : ∀ j, j ≠ i → s'.call j = s.call j) (hj : (s'.call j).temporary? = some place) :
    ((s.call j).temporary? = some place ∧ s.tree.get? place ≠ none) ∨
      (j = i ∧ s.tree.get? place = none ∧ s'.tree.IsTemporary path place) := by
  have hbefore (hj : (s.call j).temporary? = some place) :
      (s.call j).temporary? = some place ∧ s.tree.get? place ≠ none := by
    obtain ⟨written, hwritten⟩ := WriteCall.exists_file_of_holds (h.holds j) hj
    exact ⟨hj, by simp [hwritten]⟩
  by_cases hji : j = i
  · subst hji
    refine (heffect.temporary place hj).imp hbefore fun hnew => ⟨rfl, hnew.1, ?_⟩
    rw [← h.path_eq j]
    exact hnew.2
  · rw [hothers j hji] at hj
    exact .inl (hbefore hj)

/-- The step of a writer leaves places intact. -/
theorem Sound.intact_of_effect (h : s.Sound t path drafts) {i : ι}
    (heffect : WriteCall.StepEffect s.tree (s.call i) s'.tree (s'.call i)) (place : Location) :
    Intact t path drafts s'.tree place ∨ s'.tree.IsTemporary path place := by
  have hframe := heffect.frame place
  rw [h.path_eq i, h.bytes_eq i, h.passes_iff i] at hframe
  rcases h.intact place with hintact | htemporary
  · rcases hframe with hsame | hi | hi' | ⟨hfree, hdir, hway⟩ | ⟨-, hwhole, hpasses⟩
    · left
      rcases hintact with hstart | ⟨j, hwhole, hpasses⟩ | ⟨hnone, hdir, hway⟩
      · exact .inl (hsame.trans hstart)
      · exact .inr (.inl ⟨j, hsame.trans hwhole, hpasses⟩)
      · exact .inr (.inr ⟨hnone, hsame.trans hdir, hway.of_keepsDirectories heffect.keeps⟩)
    · exact .inr ((h.temporary i place hi).of_keepsDirectories heffect.keeps)
    · rcases heffect.temporary place hi' with hi | ⟨-, hplace⟩
      · exact .inr ((h.temporary i place hi).of_keepsDirectories heffect.keeps)
      · exact .inr (h.path_eq i ▸ hplace)
    · -- a directory is made only where nothing was, and nothing is there only from the start
      rcases hintact with hstart | ⟨j, hwhole, -⟩ | ⟨-, hdir', -⟩
      · exact .inl (.inr (.inr ⟨hstart.symm.trans hfree, hdir, hway⟩))
      · rw [hfree] at hwhole
        cases hwhole
      · rw [hfree] at hdir'
        cases hdir'
    · exact .inl (.inr (.inl ⟨i, hwhole, hpasses⟩))
  · exact .inr (htemporary.of_keepsDirectories heffect.keeps)

/-- **What one writer does keeps all sound.** -/
theorem Sound.of_effect (h : s.Sound t path drafts) (i : ι)
    (heffect : WriteCall.StepEffect s.tree (s.call i) s'.tree (s'.call i))
    (hothers : ∀ j, j ≠ i → s'.call j = s.call j) : s'.Sound t path drafts := by
  have htemporary {j : ι} {place : Location} (hj : (s'.call j).temporary? = some place) :=
    h.temporary_of_effect heffect hothers hj
  refine ⟨h.keeps.trans heffect.keeps, ?_, ?_, ?_, ?_, h.intact_of_effect heffect⟩
  · intro j
    by_cases hji : j = i
    · subst hji
      exact heffect.same.trans (h.begun j)
    · rw [hothers j hji]
      exact h.begun j
  · intro j
    by_cases hji : j = i
    · subst hji
      exact heffect.holds
    · rw [hothers j hji]
      exact (h.holds j).congr fun temporary hj => h.get?_other hji heffect hj
  · intro j place hj
    rcases htemporary hj with ⟨hj, -⟩ | ⟨-, -, hplace⟩
    · exact (h.temporary j place hj).of_keepsDirectories heffect.keeps
    · exact hplace
  · intro j k place hj hk
    rcases htemporary hj with ⟨hj, hthere⟩ | ⟨rfl, hfree, -⟩
    · rcases htemporary hk with ⟨hk, -⟩ | ⟨-, hfree, -⟩
      · exact h.apart j k place hj hk
      · exact absurd hfree hthere
    · rcases htemporary hk with ⟨-, hthere⟩ | ⟨rfl, -, -⟩
      · exact absurd hfree hthere
      · rfl

/-! ## Runs -/

variable [DecidableEq ι]

/-- What an event does is a step of the writer it is about. -/
theorem Sound.effect (h : s.Sound t path drafts) (event : WriterEvent ι ε) :
    ∃ i, WriteCall.StepEffect s.tree (s.call i) (s.after event).tree ((s.after event).call i) ∧
      ∀ j, j ≠ i → (s.after event).call j = s.call j := by
  cases event with
  | advance i =>
      have hplace (temporary : Location) (hi : (s.call i).temporary? = some temporary) :
          s.tree.IsTemporary (s.call i).path temporary := by
        rw [h.path_eq i]
        exact h.temporary i temporary hi
      refine ⟨i, ?_, fun j hji => Function.update_of_ne hji _ _⟩
      simp only [after, Function.update_self]
      exact WriteCall.stepEffect (h.whole i) (h.holds i) hplace
  | interrupt i error =>
      refine ⟨i, ?_, fun j hji => Function.update_of_ne hji _ _⟩
      simp only [after, Function.update_self]
      exact WriteCall.interruptEffect (s.call i) error (h.holds i)

/-- **A run keeps all sound**, and the directories that are there. -/
theorem Sound.run (h : s.Sound t path drafts) (events : List (WriterEvent ι ε)) :
    (s.run events).Sound t path drafts ∧ KeepsDirectories s.tree (s.run events).tree := by
  -- the induction is on the events: each of them is a step of one writer
  induction events generalizing s with
  | nil => exact ⟨h, .refl s.tree⟩
  | cons event events ih =>
      obtain ⟨i, heffect, hothers⟩ := h.effect event
      obtain ⟨hsound, hkeeps⟩ := ih (h.of_effect i heffect hothers)
      exact ⟨hsound, heffect.keeps.trans hkeeps⟩

/-- **No reader sees part of a text.** Writers write to one path, each through a temporary file, with their
steps in any order, and some of them broken off. Whatever the moment, the place that the path leads to then
or later is as it was at the start, or holds the whole text of one of the writers that has passed its check,
or nothing was there and it is a directory on the way to it. So what can be read by the path is what was
there at the start, or such a text. -/
theorem target_whole (t : FileTree) (path : FilePath) (drafts : ι → Draft ε)
    (events later : List (WriterEvent ι ε)) {target : Target}
    (h : ((start t path drafts).run (events ++ later)).tree.resolve path = .ok target) :
    Intact t path drafts ((start t path drafts).run events).tree target.place ∧
      ∀ bytes, ((start t path drafts).run events).tree.read path = .ok bytes →
        t.files target.place = some bytes ∨ ∃ i, (drafts i).bytes = bytes ∧ (drafts i).Passes := by
  obtain ⟨hsound, -⟩ := (sound_start t path drafts).run events
  obtain ⟨-, hkeeps⟩ := hsound.run later
  have hlater : ((start t path drafts).run events).run later =
      (start t path drafts).run (events ++ later) := (List.foldl_append ..).symm
  rw [hlater] at hkeeps
  have hintact : Intact t path drafts ((start t path drafts).run events).tree target.place := by
    rcases hsound.intact target.place with hintact | htemporary
    · exact hintact
    · exact absurd rfl ((htemporary.of_keepsDirectories hkeeps).ne_target h)
  refine ⟨hintact, fun bytes hread => ?_⟩
  obtain ⟨place, hleads, hget⟩ := exists_of_read hread
  obtain rfl : target = .name place := Except.ok.inj (h.symm.trans (hkeeps.resolve_eq_name hleads))
  rcases hintact with hstart | ⟨i, hwhole, hpasses⟩ | ⟨-, hdir, -⟩
  · exact .inl (files_eq_some_iff.mpr (hstart.symm.trans hget))
  · have heq : (drafts i).bytes = bytes := by
      rw [Target.place, hget] at hwhole
      cases hwhole
      rfl
    exact .inr ⟨i, heq, hpasses⟩
  · rw [Target.place, hget] at hdir
    cases hdir

/-! ### Two writers of one file, and a target that is made a directory -/

/-- A tree without files, in which relative paths start from the root. -/
def bareTree : FileTree := ⟨[], []⟩

/-- A path to a file in the directory that is there. -/
def declarationsPath : FilePath := ⟨.current, ["types.ts"]⟩

/-- Two texts, the second of which is empty and does not pass its check. -/
def pairDrafts (writer : Bool) : Draft Unit :=
  .inOnePiece (if writer then "export type A = \x7b\x7d" else "")
    (some (.ordinary fun text => if text.isEmpty then .error () else .ok ()))

/-- The two writers take turns, until an exception is raised in the first write. -/
def pairEvents : List (WriterEvent Bool Unit) :=
  [.advance true, .advance false, .advance true, .advance false, .advance true, .advance false,
    .interrupt true (.rejected ()), .advance false]

theorem target_whole_pair :
    ((start bareTree declarationsPath pairDrafts).run (pairEvents ++ [.advance true])).tree.resolve
        declarationsPath = .ok (.name ["types.ts"]) ∧
      Intact bareTree declarationsPath pairDrafts
        ((start bareTree declarationsPath pairDrafts).run pairEvents).tree ["types.ts"] := by
  have hkeeps := ((sound_start bareTree declarationsPath pairDrafts).run
    (pairEvents ++ [.advance true])).2
  have hstart : bareTree.resolve declarationsPath = .ok (.name ["types.ts"]) := rfl
  have hleads := hkeeps.resolve_eq_name hstart
  exact ⟨hleads, (target_whole bareTree declarationsPath pairDrafts pairEvents [.advance true] hleads).1⟩

/-- A path that leads through the place of its own target. -/
def throughItself : FilePath := ⟨.current, ["x", "..", "x"]⟩

theorem makeDirs_throughItself :
    bareTree.makeDirs throughItself.parent = (bareTree.put ["x"] .directory, .ok ()) := by
  -- the path to the directory leads nowhere until the directory above it is made
  have hmissing : bareTree.ensureDir throughItself.parent =
      (bareTree, .error ⟨.missing, throughItself.parent⟩) := rfl
  have habove : bareTree.makeDirs throughItself.parent.parent =
      (bareTree.put ["x"] .directory, .ok ()) := by
    rw [FileTree.makeDirs]
    rfl
  rw [FileTree.makeDirs, hmissing]
  simp only [habove]
  rfl

/-- A directory can come to be in the place of the target: making the directories above it makes one
there. -/
theorem target_becomes_directory :
    ((start bareTree throughItself pairDrafts).run [.advance true]).tree.resolve throughItself =
        .ok (.name ["x"]) ∧
      ¬(((start bareTree throughItself pairDrafts).run [.advance true]).tree.get? ["x"] =
            bareTree.get? ["x"] ∨
          ∃ i, ((start bareTree throughItself pairDrafts).run [.advance true]).tree.get? ["x"] =
              some (.file (pairDrafts i).bytes) ∧ (pairDrafts i).Passes) := by
  have htree : ((start bareTree throughItself pairDrafts).run [.advance true]).tree =
      bareTree.put ["x"] .directory := by
    show ((((pairDrafts true).call throughItself).step bareTree).1 : FileTree) = _
    simp only [WriteCall.step, Draft.call, makeDirs_throughItself]
  rw [htree]
  refine ⟨rfl, ?_⟩
  rintro (h | ⟨i, h, -⟩)
  · cases h
  · cases h

end Writers

end ContentTypes
