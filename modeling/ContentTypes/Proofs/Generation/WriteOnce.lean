import ContentTypes.Proofs.Files.Rooted
import ContentTypes.Proofs.Generation.Changes

/-!
# Files that are not to be replaced

Runs of calls that are not to replace a file: writes of new files, and generations in the mode that
refuses to replace. A call that returns has made its path lead to something, which it goes on to do, so
that no other call returns on that path. A call whose path leads to something already fails; it leaves the
tree as it is, but for the schema beside other artifacts that a generation writes before it looks.

A call looks whether its path leads to something before it makes the directories on the way. A path that
goes up behind a name that is missing leads to nothing then, and to a file that is there afterwards, which
is replaced (`contents_goUpPath`). Files keep their content in a run in which every path goes forward in the
tree that its call finds (`runNew_writeOnce`).
-/

set_option autoImplicit false

namespace ContentTypes

open FileTree TypeScript

variable {ε : Type} {t t₁ u : FileTree} {path : FilePath} {place : Location} {text : String}
  {check : Option (Check ε)} {atomic : Bool} {bytes : List UInt8}

/-! ## Calls -/

/-- Settings of an output that is not to be replaced. -/
structure RefusingSettings where
  settings : Settings
  output : OutputSettings
  output_eq : settings.output = .settings output
  mode_eq : output.mode = .known .refuse

namespace RefusingSettings

variable (s : RefusingSettings)

/-- The path of the module, if there are texts that name it. -/
def target? : Option FilePath := s.settings.targetPath.toOption

/-- The directory of artifacts, if the schema is to be written and there is a text that names one. -/
def artifacts? : Option FilePath :=
  if s.settings.generateSchemaJson.holds then (FilePath.ofValue s.output.artifactsDir).toOption
  else none

end RefusingSettings

/-- A call that is not to replace a file. -/
inductive NewCall (ε : Type) where
  | write (atomic : Bool) (path : FilePath) (text : String) (check : Option (Check ε))
  | generate (s : RefusingSettings) (schema : Schema)

/-- Why such a call fails. -/
inductive NewCallError (ε : Type) where
  | write (error : WriteError ε)
  | generate (error : GenerateError)

namespace NewCall

/-- The tree that a call leaves, and whether it returns. -/
def run (t : FileTree) : NewCall ε → FileTree × Except (NewCallError ε) Unit
  | .write atomic path text check =>
      ((writeNew t atomic path text check).1, (writeNew t atomic path text check).2.mapError .write)
  | .generate s schema =>
      ((ContentTypes.generate t s.settings schema).tree,
        ((ContentTypes.generate t s.settings schema).result.map fun _ => ()).mapError .generate)

/-- The path of the file that a call is to write, if it names one. -/
def target? : NewCall ε → Option FilePath
  | .write _ path _ _ => some path
  | .generate s _ => s.target?

/-- The path of the file of the schema, if a call writes one beside its own. -/
def schemaFile? : NewCall ε → Option FilePath
  | .write .. => none
  | .generate s _ => s.artifacts?.map fun directory => directory.child schemaFileName

end NewCall

/-! ## New files -/

theorem extends_writeNew (t : FileTree) (atomic : Bool) (path : FilePath) (text : String)
    (check : Option (Check ε)) : t.Extends (writeNew t atomic path text check).1 :=
  (outcome_writeNew t atomic path text check).extends

theorem writeNew_of_isThere (h : t.isThere path = .ok true) :
    writeNew t atomic path text check = (t, .error (.refused path)) := by
  rw [writeNew, h]

/-- **A new file is put in the place of none**, if its path goes forward in a tree in which everything
stands in a directory, whatever has been added to that tree meanwhile. -/
theorem files_writeNew (hforward : t.Forward path) (hrooted : t.Rooted) (hext : t.Extends t₁)
    (hfile : (t.files place).isSome = true) :
    (writeNew t₁ atomic path text check).1.files place = t₁.files place := by
  by_cases hthere : t₁.isThere path = .ok true
  · rw [writeNew_of_isThere hthere]
  have houtcome := outcome_writeNew t₁ atomic path text check
  rcases houtcome.files_eq_or with hfiles | ⟨place', bytes, ⟨path', text', htarget, hreaches⟩, hfiles⟩
  · rw [hfiles]
  cases htarget
  have hplace : place ≠ place' := by
    rintro rfl
    rcases hreaches with hleads | ⟨hfree, -⟩
    · -- the path would have led to the file before the directories were made
      have hsome : (t.get? place).isSome = true := isSome_get?_iff.mpr (.inr hfile)
      have hleads' := hforward.resolve hrooted (hext.trans houtcome.extends) hleads hsome
      exact hthere (hext.isThere (isThere_eq_true_iff.mpr (.inr ⟨place, hleads', hfile⟩)))
    · -- a temporary file is put where nothing is
      have hfile' := hext.file place hfile
      rw [files, hfree] at hfile'
      cases hfile'
  rw [hfiles, Function.update_of_ne hplace]

/-- A new file that is written was not there, and is there. -/
theorem isThere_of_writeNew (h : writeNew t atomic path text check = (u, .ok ())) :
    t.isThere path ≠ .ok true ∧ u.isThere path = .ok true := by
  have houtcome := outcome_writeNew t atomic path text check
  rw [h] at houtcome
  obtain ⟨-, -, place, hleads, hfiles⟩ := houtcome.effect.returned rfl path text rfl
  refine ⟨?_, isThere_eq_true_iff.mpr (.inr ⟨place, hleads, ?_⟩)⟩
  · intro hthere
    rw [writeNew, hthere] at h
    cases h
  · rw [hfiles, Function.update_self]
    rfl

/-! ## The schema before the module -/

variable {s : RefusingSettings} {schema : Schema}

/-- Whether a tree is another one, or what writing the schema into the directory of artifacts leaves of
it. -/
def SchemaStep (t u : FileTree) (s : RefusingSettings) (schema : Schema) : Prop :=
  u = t ∨ ∃ directory, s.artifacts? = some directory ∧ u = (writeSchema t schema directory).1

theorem schemaStep_generateSchema (t : FileTree) (s : RefusingSettings) (schema : Schema) :
    SchemaStep t (generateSchema t s.settings schema).1 s schema := by
  unfold generateSchema
  rw [s.output_eq]
  by_cases hholds : s.settings.generateSchemaJson.holds = true
  · rw [if_pos hholds]
    cases hdirectory : FilePath.ofValue s.output.artifactsDir with
    | error e =>
        simp only [Output.get, hdirectory]
        exact .inl rfl
    | ok directory =>
        refine .inr ⟨directory, ?_, ?_⟩
        · rw [RefusingSettings.artifacts?, if_pos hholds, hdirectory]
          rfl
        · rcases hwrite : writeSchema t schema directory with ⟨u, e | path⟩
          · simp only [Output.get, hdirectory, hwrite]
          · simp only [Output.get, hdirectory, hwrite]
  · rw [if_neg hholds]
    exact .inl rfl

theorem SchemaStep.extends (h : SchemaStep t u s schema) : t.Extends u := by
  rcases h with rfl | ⟨directory, -, rfl⟩
  · exact .refl _
  · exact (outcome_writeSchema (ε := Unsound) t schema directory).extends

theorem SchemaStep.rooted (h : SchemaStep t u s schema) (hrooted : t.Rooted) : u.Rooted := by
  rcases h with rfl | ⟨directory, -, rfl⟩
  · exact hrooted
  · exact (outcome_writeSchema (ε := Unsound) t schema directory).rooted hrooted

/-- What may be left of a tree where a module is refused: the tree as it is, or directories on the way to
the artifacts and all of the schema there, or none of it. -/
def SchemaOnly (t u : FileTree) (s : RefusingSettings) (schema : Schema) : Prop :=
  u = t ∨ ∃ directory, s.artifacts? = some directory ∧ t.Grows u directory ∧
    (u.files = t.files ∨ ∃ place, u.resolve (directory.child schemaFileName) = .ok (.name place) ∧
      u.files = Function.update t.files place (some schema.bytes))

theorem SchemaStep.schemaOnly (h : SchemaStep t u s schema) : SchemaOnly t u s schema := by
  rcases h with rfl | ⟨directory, hdirectory, rfl⟩
  · exact .inl rfl
  have houtcome := outcome_writeSchema (ε := Unsound) t schema directory
  refine .inr ⟨directory, hdirectory, houtcome.grows, ?_⟩
  rcases hwrite : writeSchema t schema directory with ⟨u, e | path⟩
  · rw [hwrite] at houtcome
    exact .inl (houtcome.left _ rfl _ _ rfl).files_eq
  · rw [hwrite] at houtcome
    exact .inr (houtcome.wrote rfl _ _ rfl).receives.spec.2

/-- A generation writes the schema, if it is to, and then the module as a new file, unless it fails before
that. -/
theorem generate_steps (t : FileTree) (s : RefusingSettings) (schema : Schema) :
    ∃ t₁, SchemaStep t t₁ s schema ∧
      ((generate t s.settings schema).tree = t₁ ∧ (∃ e, (generate t s.settings schema).result = .error e) ∨
      ∃ path text, s.target? = some path ∧
        ∃ result, writeNew t₁ s.output.atomicWrite.holds path text s.output.check =
            ((generate t s.settings schema).tree, result) ∧
          ((∃ path', (generate t s.settings schema).result = .ok path') → result = .ok ())) := by
  have hstep := schemaStep_generateSchema t s schema
  rcases generate_cases s.output_eq t schema with ⟨e, hschema, hresult⟩ | ⟨t₁, written, hschema, hmodule⟩
  · rw [hschema] at hstep
    exact ⟨_, hstep, .inl ⟨rfl, e, hresult⟩⟩
  rw [hschema] at hstep
  refine ⟨t₁, hstep, ?_⟩
  unfold generateModule at hmodule
  rw [s.output_eq] at hmodule
  simp only [Output.get] at hmodule
  split at hmodule
  · obtain ⟨htree, hresult⟩ := Prod.mk.inj hmodule
    exact .inl ⟨htree.symm, _, hresult.symm⟩
  rename_i text htext
  split at hmodule
  · obtain ⟨htree, hresult⟩ := Prod.mk.inj hmodule
    exact .inl ⟨htree.symm, _, hresult.symm⟩
  rename_i path hpath
  have htarget : s.target? = some path := by
    rw [RefusingSettings.target?, Settings.targetPath, s.output_eq]
    simp only [Output.get, bind, Except.bind, hpath, Except.toOption]
  rw [writeModule_of_refuse s.mode_eq] at hmodule
  refine .inr ⟨path, text, htarget, ?_⟩
  rcases hwrite : writeNew t₁ s.output.atomicWrite.holds path text s.output.check with ⟨u, e | ⟨⟩⟩
  · rw [hwrite] at hmodule
    obtain ⟨htree, hresult⟩ := Prod.mk.inj hmodule
    refine ⟨.error e, by rw [← htree], ?_⟩
    rintro ⟨path', hok⟩
    rw [← hresult] at hok
    cases hok
  · rw [hwrite] at hmodule
    obtain ⟨htree, hresult⟩ := Prod.mk.inj hmodule
    exact ⟨.ok (), by rw [← htree], fun _ => rfl⟩

/-! ## What a call does -/

/-- What a call does to a tree. -/
structure NewCall.Effect (c : NewCall ε) (t u : FileTree) (result : Except (NewCallError ε) Unit) :
    Prop where
  /-- Nothing is taken away. -/
  ext : t.Extends u
  rooted : t.Rooted → u.Rooted
  /-- If the path goes forward, files keep their content but for the file of the schema. -/
  kept : t.Rooted → (∀ path, c.target? = some path → t.Forward path) → ∀ place bytes,
    t.files place = some bytes → u.files place = some bytes ∨
      ∃ path, c.schemaFile? = some path ∧ u.resolve path = .ok (.name place)
  /-- A call that returns has made its path lead to something. -/
  returned : result = .ok () → ∃ path, c.target? = some path ∧ t.isThere path ≠ .ok true ∧
    u.isThere path = .ok true

theorem effect_newWrite (t : FileTree) (atomic : Bool) (path : FilePath) (text : String)
    (check : Option (Check ε)) : (NewCall.write atomic path text check).Effect t
      (writeNew t atomic path text check).1
      ((writeNew t atomic path text check).2.mapError .write) where
  ext := extends_writeNew t atomic path text check
  rooted := (outcome_writeNew t atomic path text check).rooted
  kept := by
    intro hrooted hforward place bytes hfile
    have hsame : (writeNew t atomic path text check).1.files place = t.files place :=
      files_writeNew (hforward path rfl) hrooted (.refl t) (by rw [hfile]; rfl)
    exact .inl (hsame.trans hfile)
  returned := by
    intro hok
    refine ⟨path, rfl, ?_⟩
    rcases hwrite : writeNew t atomic path text check with ⟨u, e | ⟨⟩⟩
    · rw [hwrite] at hok
      cases hok
    · exact isThere_of_writeNew hwrite

/-- Where only the schema is written, files keep their content but for the file of the schema. -/
theorem SchemaOnly.files_or (h : SchemaOnly t u s schema) (hfile : t.files place = some bytes) :
    u.files place = some bytes ∨ ∃ directory, s.artifacts? = some directory ∧
      u.resolve (directory.child schemaFileName) = .ok (.name place) := by
  rcases h with rfl | ⟨directory, hdirectory, -, hfiles | ⟨place', hleads, hfiles⟩⟩
  · exact .inl hfile
  · exact .inl (hfiles ▸ hfile)
  · by_cases hplace : place = place'
    · exact .inr ⟨directory, hdirectory, hplace ▸ hleads⟩
    · rw [hfiles, Function.update_of_ne hplace]
      exact .inl hfile

theorem effect_newGenerate (t : FileTree) (s : RefusingSettings) (schema : Schema) :
    (NewCall.generate s schema : NewCall ε).Effect t (generate t s.settings schema).tree
      (((generate t s.settings schema).result.map fun _ => ()).mapError .generate) := by
  obtain ⟨t₁, hstep, ⟨htree, e, hresult⟩ | ⟨path, text, htarget, result, hwrite, hok⟩⟩ :=
    generate_steps t s schema
  · -- it fails behind the schema
    rw [htree, hresult]
    refine ⟨hstep.extends, hstep.rooted, fun _ _ place bytes hfile => ?_, fun h => by cases h⟩
    refine (hstep.schemaOnly.files_or hfile).imp id ?_
    rintro ⟨directory, hdirectory, hleads⟩
    exact ⟨_, by rw [NewCall.schemaFile?, hdirectory]; rfl, hleads⟩
  have hnew := outcome_writeNew t₁ s.output.atomicWrite.holds path text s.output.check
  rw [hwrite] at hnew
  refine ⟨hstep.extends.trans hnew.extends, fun h => hnew.rooted (hstep.rooted h), ?_, ?_⟩
  · intro hrooted hforward place bytes hfile
    have hsame : (writeNew t₁ s.output.atomicWrite.holds path text s.output.check).1.files place =
        t₁.files place :=
      files_writeNew (hforward path htarget) hrooted hstep.extends (by rw [hfile]; rfl)
    rw [hwrite] at hsame
    refine (hstep.schemaOnly.files_or hfile).imp hsame.trans ?_
    rintro ⟨directory, hdirectory, hleads⟩
    exact ⟨_, by rw [NewCall.schemaFile?, hdirectory]; rfl,
      hnew.extends.toKeepsDirectories.resolve_eq_name hleads⟩
  · intro hresult
    have hreturned : ∃ path', (generate t s.settings schema).result = .ok path' := by
      cases hgen : (generate t s.settings schema).result with
      | error e =>
          rw [hgen] at hresult
          cases hresult
      | ok path' => exact ⟨path', rfl⟩
    rw [hok hreturned] at hwrite
    obtain ⟨hnot, hthere⟩ := isThere_of_writeNew hwrite
    exact ⟨path, htarget, fun h => hnot (hstep.extends.isThere h), hthere⟩

theorem NewCall.effect (t : FileTree) (c : NewCall ε) : c.Effect t (c.run t).1 (c.run t).2 := by
  cases c with
  | write atomic path text check => exact effect_newWrite t atomic path text check
  | generate s schema => exact effect_newGenerate t s schema

/-- How a call fails whose path leads to something: a write leaves the tree as it is, and a generation at
most writes the schema. -/
def NewCall.Refused (t : FileTree) : NewCall ε → Prop
  | .write atomic path text check =>
      writeNew t atomic path text check = (t, .error (.refused path))
  | .generate s schema =>
      (∃ e, (ContentTypes.generate t s.settings schema).result = .error e) ∧
        SchemaOnly t (ContentTypes.generate t s.settings schema).tree s schema

/-- **A call is refused whose path leads to something already.** -/
theorem NewCall.refused_of_isThere {c : NewCall ε} (htarget : c.target? = some path)
    (h : t.isThere path = .ok true) : c.Refused t := by
  cases c with
  | write atomic path' text check =>
      cases htarget
      exact writeNew_of_isThere h
  | generate s schema =>
      obtain ⟨t₁, hstep, ⟨htree, e, hresult⟩ | ⟨path', text, htarget', result, hwrite, hok⟩⟩ :=
        generate_steps t s schema
      · exact ⟨⟨e, hresult⟩, htree ▸ hstep.schemaOnly⟩
      -- the module is refused in the tree with the schema
      obtain rfl : path' = path := Option.some.inj (htarget'.symm.trans htarget)
      rw [writeNew_of_isThere (hstep.extends.isThere h)] at hwrite
      obtain ⟨htree, hresult⟩ := Prod.mk.inj hwrite
      refine ⟨?_, htree ▸ hstep.schemaOnly⟩
      cases hgen : (ContentTypes.generate t s.settings schema).result with
      | error e => exact ⟨e, rfl⟩
      | ok path'' =>
          rw [← hresult] at hok
          cases hok ⟨path'', hgen⟩

theorem NewCall.Refused.ne_ok {c : NewCall ε} (h : c.Refused t) : (c.run t).2 ≠ .ok () := by
  intro hok
  cases c with
  | write atomic path text check =>
      rw [run, h] at hok
      cases hok
  | generate s schema =>
      obtain ⟨⟨e, hresult⟩, -⟩ := h
      rw [run, hresult] at hok
      cases hok

/-! ## Runs -/

/-- The tree after calls, one after the other, whether they return or not. -/
def runNew (t : FileTree) : List (NewCall ε) → FileTree
  | [] => t
  | c :: calls => runNew (c.run t).1 calls

/-- Whether the path of every call goes forward in the tree that the call finds. -/
def GoForward (t : FileTree) : List (NewCall ε) → Prop
  | [] => True
  | c :: calls => (∀ path, c.target? = some path → t.Forward path) ∧ GoForward (c.run t).1 calls

variable {c c' : NewCall ε} {calls before between after : List (NewCall ε)}

theorem runNew_append (t : FileTree) (before after : List (NewCall ε)) :
    runNew t (before ++ after) = runNew (runNew t before) after := by
  induction before generalizing t with
  | nil => rfl
  | cons c before ih => exact ih (c.run t).1

/-- Paths that never go up go forward whatever the calls do. -/
theorem goForward_of_notMem (t : FileTree)
    (h : ∀ c ∈ calls, ∀ path, c.target? = some path → FilePath.upName ∉ path.names) :
    GoForward t calls := by
  induction calls generalizing t with
  | nil => trivial
  | cons c calls ih =>
      rw [List.forall_mem_cons] at h
      exact ⟨fun path htarget => forward_of_notMem t (h.1 path htarget), ih (c.run t).1 h.2⟩

theorem extends_runNew (t : FileTree) (calls : List (NewCall ε)) : t.Extends (runNew t calls) := by
  induction calls generalizing t with
  | nil => exact .refl t
  | cons c calls ih => exact (c.effect t).ext.trans (ih (c.run t).1)

theorem rooted_runNew (hrooted : t.Rooted) (calls : List (NewCall ε)) :
    (runNew t calls).Rooted := by
  induction calls generalizing t with
  | nil => exact hrooted
  | cons c calls ih => exact ih ((c.effect t).rooted hrooted)

/-- Files keep their content in a run whose paths go forward, but for the files of schemas. -/
theorem files_runNew (hrooted : t.Rooted) (hforward : GoForward t calls)
    (hfile : t.files place = some bytes)
    (hschema : ∀ c ∈ calls, ∀ path, c.schemaFile? = some path →
      (runNew t calls).resolve path ≠ .ok (.name place)) :
    (runNew t calls).files place = some bytes := by
  induction calls generalizing t with
  | nil => exact hfile
  | cons c calls ih =>
      have heffect := c.effect t
      rcases heffect.kept hrooted hforward.1 place bytes hfile with hfile' | ⟨path, hpath, hleads⟩
      · exact ih (heffect.rooted hrooted) hforward.2 hfile'
          fun c' hc' => hschema c' (List.mem_cons_of_mem c hc')
      · -- the path of the schema goes on to lead there
        have hkeeps := (extends_runNew (c.run t).1 calls).toKeepsDirectories
        exact absurd (hkeeps.resolve_eq_name hleads) (hschema c List.mem_cons_self path hpath)

/-- No call returns on a path on which one has returned before. -/
theorem ne_ok_of_returned (hok : (c.run t).2 = .ok ()) (htarget : c.target? = some path)
    (htarget' : c'.target? = some path) (between : List (NewCall ε)) :
    (c'.run (runNew t (c :: between))).2 ≠ .ok () := by
  obtain ⟨path', hpath', -, hthere⟩ := (c.effect t).returned hok
  obtain rfl : path = path' := Option.some.inj (htarget.symm.trans hpath')
  have hthere' := (extends_runNew (c.run t).1 between).isThere hthere
  exact (NewCall.refused_of_isThere htarget' hthere').ne_ok

/-- **What is there is not replaced.** In a run of calls that are not to replace a file, whether they return
or not, directories stay, files stay files, at most one call returns on a path, and a call on a path that
leads to something is refused. Files keep their content, from any call on, if everything stands in a
directory and paths go forward, but for the files of schemas. -/
theorem runNew_writeOnce (t : FileTree) (calls : List (NewCall ε)) :
    (∀ before after, calls = before ++ after → (runNew t before).Extends (runNew t calls)) ∧
    (t.Rooted → ∀ before after, calls = before ++ after → GoForward (runNew t before) after →
      ∀ place bytes, (runNew t before).files place = some bytes →
        (∀ c ∈ after, ∀ path, c.schemaFile? = some path →
          (runNew t calls).resolve path ≠ .ok (.name place)) →
        (runNew t calls).files place = some bytes) ∧
    (∀ before c between c' after path, calls = before ++ c :: between ++ c' :: after →
      c.target? = some path → c'.target? = some path → (c.run (runNew t before)).2 = .ok () →
        (c'.run (runNew t (before ++ c :: between))).2 ≠ .ok ()) ∧
    ∀ before c after path, calls = before ++ c :: after → c.target? = some path →
      (runNew t before).isThere path = .ok true → c.Refused (runNew t before) := by
  refine ⟨?_, ?_, ?_, ?_⟩
  · rintro before after rfl
    rw [runNew_append]
    exact extends_runNew _ after
  · rintro hrooted before after rfl hforward place bytes hfile hschema
    rw [runNew_append] at hschema ⊢
    exact files_runNew (rooted_runNew hrooted before) hforward hfile hschema
  · intro before c between c' after path _ htarget htarget' hok
    rw [runNew_append]
    exact ne_ok_of_returned hok htarget htarget' between
  · intro before c after path _ htarget hthere
    exact NewCall.refused_of_isThere htarget hthere

/-! ### A path that is written, and refused then -/

/-- Settings that name a file in the directory that relative paths start from, and do not replace it. -/
def refusingHere : RefusingSettings where
  settings :=
    { Settings.initial with output := .settings { hereOutput with mode := .known .refuse } }
  output := { hereOutput with mode := .known .refuse }
  output_eq := rfl
  mode_eq := rfl

/-- A write of a new file. -/
def workWrite : NewCall Unit := .write true herePlaces.target "export \x7b\x7d" none

/-- A generation of the same file. -/
def workGenerate : NewCall Unit := .generate refusingHere ⟨[], []⟩

theorem rooted_workTree : workTree.Rooted := rooted_of_entries rfl (by decide)

theorem target?_workGenerate : workGenerate.target? = some herePlaces.target := by decide

/-- The write finds nothing and writes its text. -/
theorem run_workWrite : ∃ u, workWrite.run workTree = (u, .ok ()) ∧
    workTree.Stores u ["work", "index.d.ts"] (Text.bytes "export \x7b\x7d") := by
  have hnothing : workTree.isThere herePlaces.target = .ok false := by decide
  have hbytes : Text.encodeFault? "export \x7b\x7d" = none := by decide
  have hcheck : runCheck (none : Option (Check Unit)) "export \x7b\x7d" = .ok () := rfl
  obtain ⟨u, hwrite, hstores⟩ := ready_target_workTree.writeText hbytes hcheck
  refine ⟨u, ?_, hstores⟩
  rw [workWrite, NewCall.run, writeNew, hnothing]
  simp only [hwrite]
  rfl

theorem goForward_work : GoForward workTree [workWrite, workGenerate] := by
  refine goForward_of_notMem workTree ?_
  simp only [List.forall_mem_cons, target?_workGenerate]
  refine ⟨?_, ?_, List.forall_mem_nil _⟩
  · rintro path ⟨⟩
    decide
  · rintro path ⟨⟩
    decide

theorem runNew_writeOnce_work :
    workTree.Rooted ∧ GoForward workTree [workWrite, workGenerate] ∧
      (runNew workTree [workWrite, workGenerate]).files ["work", "index.d.ts"] =
        some (Text.bytes "export \x7b\x7d") ∧
      workGenerate.Refused (runNew workTree [workWrite]) ∧
      (workGenerate.run (runNew workTree [workWrite])).2 ≠ .ok () := by
  obtain ⟨u, hwrite, hstores⟩ := run_workWrite
  have htree : runNew workTree [workWrite] = u := congrArg Prod.fst hwrite
  have hfile : u.files ["work", "index.d.ts"] = some (Text.bytes "export \x7b\x7d") := by
    rw [files_update hstores.get?, Function.update_self]
  obtain ⟨-, hkept, honce, hrefused⟩ := runNew_writeOnce workTree [workWrite, workGenerate]
  refine ⟨rooted_workTree, goForward_work, ?_, ?_, ?_⟩
  · refine hkept rooted_workTree [workWrite] [workGenerate] rfl goForward_work.2 _ _ (htree ▸ hfile) ?_
    rintro c hc path hpath
    rw [List.mem_singleton.mp hc] at hpath
    cases hpath
  · have hleads := (hstores.keepsDirectories ready_target_workTree.free).resolve_eq_name
      ready_target_workTree.leads
    have hthere : u.isThere herePlaces.target = .ok true :=
      isThere_eq_true_iff.mpr (.inr ⟨_, hleads, by rw [hfile]; rfl⟩)
    exact hrefused [workWrite] workGenerate [] _ rfl target?_workGenerate (htree ▸ hthere)
  · exact honce [] workWrite [] workGenerate [] _ rfl rfl target?_workGenerate
      (congrArg Prod.snd hwrite)

/-! ### A path that goes up behind a missing name -/

/-- A tree with a file. -/
def heldTree : FileTree :=
  ⟨["work"], [(["work"], .directory), (["work", "index.d.ts"], .file [])]⟩

/-- A path to that file, through a directory that is missing. -/
def goUpPath : FilePath := ⟨.current, ["types", FilePath.upName, "index.d.ts"]⟩

/-- The tree with the missing directory. -/
def openedTree : FileTree := heldTree.put ["work", "types"] .directory

theorem makeDirs_goUpPath : heldTree.makeDirs goUpPath.parent = (openedTree, .ok ()) := by
  have hmake : heldTree.makeDir goUpPath.parent.parent = .ok openedTree :=
    makeDir_eq_ok_iff.mpr ⟨["work", "types"], by decide, by decide, rfl⟩
  have hparent : heldTree.makeDirs goUpPath.parent.parent = (openedTree, .ok ()) := by
    rw [makeDirs, ensureDir, hmake]
  have hmissing : heldTree.ensureDir goUpPath.parent =
      (heldTree, .error ⟨.missing, goUpPath.parent⟩) := rfl
  have hthere : openedTree.ensureDir goUpPath.parent = (openedTree, .ok ()) := rfl
  rw [makeDirs, hmissing]
  simp only [hparent, hthere]
  rfl

/-- The path leads to nothing when it is looked at, and to the file once the directory is made. -/
theorem writeNew_goUpPath (atomic : Bool) {text : String} (hbytes : Text.encodeFault? text = none) :
    ∃ u, writeNew heldTree atomic goUpPath text (none : Option (Check Unit)) = (u, .ok ()) ∧
      u.files ["work", "index.d.ts"] = some (Text.bytes text) := by
  have hready : openedTree.Ready atomic goUpPath ["work", "index.d.ts"] :=
    ⟨by decide, by decide, by decide, fun _ => by decide,
      fun _ => by decide⟩
  have hnothing : heldTree.isThere goUpPath = .ok false := by decide
  have hcheck : runCheck (none : Option (Check Unit)) text = .ok () := rfl
  obtain ⟨u, hwrite, hstores⟩ := hready.writeText hbytes hcheck
  refine ⟨u, ?_, ?_⟩
  · rw [writeNew, hnothing]
    exact (writeText_of_makeDirs makeDirs_goUpPath).trans hwrite
  · rw [files_update hstores.get?, Function.update_self]

/-- **A path that goes up behind a missing name replaces a file.** -/
theorem contents_goUpPath :
    heldTree.Rooted ∧ ¬∀ (calls : List (NewCall Unit)) (place : Location) (bytes : List UInt8),
      (∀ c ∈ calls, c.schemaFile? = none) → heldTree.files place = some bytes →
        (runNew heldTree calls).files place = some bytes := by
  refine ⟨rooted_of_entries rfl (by decide), ?_⟩
  intro h
  have hbytes : Text.encodeFault? "export \x7b\x7d" = none := by decide
  obtain ⟨u, hwrite, hfile⟩ := writeNew_goUpPath true hbytes
  have hkept := h [.write true goUpPath "export \x7b\x7d" none] ["work", "index.d.ts"] []
    (List.forall_mem_singleton.mpr rfl) (by decide)
  have htree : runNew heldTree [.write true goUpPath "export \x7b\x7d" (none : Option (Check Unit))] = u :=
    congrArg Prod.fst hwrite
  rw [htree, hfile] at hkept
  exact absurd hkept (by decide)

end ContentTypes
