import ContentTypes.Proofs.Files.Again
import ContentTypes.Proofs.Files.History
import ContentTypes.Proofs.Schema.Artifact
import ContentTypes.Proofs.TypeScript.Encoding
import ContentTypes.Proofs.TypeScript.Module

/-!
# What a run changes

A run writes up to two files, the schema beside other artifacts and then the module. Each of them is
written as a whole or not at all, so that a run that fails has changed no file, or only the one of the
schema, which then holds all of it (`GenerateEffect`). There is one exception: a module that has no bytes,
since a half of a surrogate pair shows in it, empties its file if it is written in place
(`not_empties_of_showsUnmarked`, `files_generate_halfSchema`). A run that returns leaves a tree that is
settled (`Settled`): both files hold what the run has written, and are ready to be written once more. From
a settled tree the same run gets as far again and changes nothing, unless it is not to replace what is
there.
-/

set_option autoImplicit false

namespace ContentTypes

open FileTree TypeScript

variable {t t' u : FileTree} {settings : Settings} {output : OutputSettings} {schema : Schema}
  {text : String}

/-! ## The paths of an output -/

/-- The texts that name the paths of an output. -/
structure OutputPlaces where
  targetDir : String
  fileName : String
  artifactsDir : String

namespace OutputPlaces

/-- The path of the module: its name, seen from its directory. -/
def target (p : OutputPlaces) : FilePath :=
  (FilePath.ofText p.targetDir).join (FilePath.ofText p.fileName)

/-- The directory of artifacts. -/
def artifacts (p : OutputPlaces) : FilePath := FilePath.ofText p.artifactsDir

/-- The path of the schema. -/
def schemaFile (p : OutputPlaces) : FilePath := p.artifacts.child schemaFileName

end OutputPlaces

/-- Whether settings have an output that names its paths by these texts. -/
structure Settings.Names (settings : Settings) (output : OutputSettings) (places : OutputPlaces) :
    Prop where
  output_eq : settings.output = .settings output
  targetDir : output.targetDir = .str places.targetDir
  fileName : output.fileName = .str places.fileName
  artifactsDir : output.artifactsDir = .str places.artifactsDir

variable {places : OutputPlaces}

/-- The bytes of the file of a schema. -/
def Schema.bytes (schema : Schema) : List UInt8 := Text.bytes schema.toJson

/-- The check that a module has to pass before it is written, if any. -/
def OutputSettings.check (output : OutputSettings) : Option (Check Unsound) :=
  if output.validateBeforeWrite.holds then some (.ordinary checkDeclarations) else none

/-! ## Writing the schema -/

/-- A schema that is written is in its file, as any text that is written. -/
theorem gains_of_writeSchema {directory path : FilePath}
    (h : writeSchema t schema directory = (u, .ok path)) :
    ∃ place, t.Gains u true (directory.child schemaFileName) place schema.bytes := by
  obtain ⟨-, t', hdirs, hwrite⟩ := writeSchema_eq_ok_iff.mp h
  have hgrows := grows_of_makeDirs hdirs
  have htext : writeText t' true (directory.child schemaFileName) schema.toJson
      (none : Option (Check Unsound)) = (u, .ok ()) := hwrite
  obtain ⟨place, hgains⟩ := gains_of_writeText htext
  refine ⟨place, .of_grows ?_ hgrows.2 hgains⟩
  rw [FilePath.parent_child]
  exact hgrows.1

theorem grows_of_writeSchema_error {directory : FilePath} {e : WriteError Unsound}
    (h : writeSchema t schema directory = (u, .error e)) :
    t.Grows u directory ∧ u.files = t.files := by
  have houtcome := outcome_writeSchema (ε := Unsound) t schema directory
  rw [h] at houtcome
  exact ⟨houtcome.grows, (houtcome.left _ rfl _ _ rfl).files_eq⟩

/-- The text of a schema has bytes. -/
theorem writeSchema_ne_unencodable {directory : FilePath} {fault : Text.EncodeFault} :
    writeSchema t schema directory ≠ (u, .error (.unencodable fault)) := by
  intro h
  unfold writeSchema at h
  split at h
  · cases h
  · dsimp only at h
    split at h
    · cases h
    · rename_i hwrite
      cases h
      obtain ⟨-, -, hbytes⟩ := makeDirs_of_writeAtomically_unencodable hwrite
      rw [schema.encodeFault?_toJson] at hbytes
      cases hbytes

/-- A tree that is ready for the file of a schema takes the schema. -/
theorem FileTree.Ready.writeSchema {directory : FilePath} {place : Location}
    (h : t.Ready true (directory.child schemaFileName) place) (schema : Schema) :
    ∃ u, writeSchema t schema directory = (u, .ok (directory.child schemaFileName)) ∧
      t.Stores u place schema.bytes := by
  have hcheck : runCheck (none : Option (Check Unsound)) schema.toJson = .ok () := rfl
  obtain ⟨u, hwrite, hstores⟩ := h.writeText schema.encodeFault?_toJson hcheck
  have hdir := h.directory
  rw [FilePath.parent_child] at hdir
  exact ⟨u, writeSchema_eq_ok_iff.mpr ⟨rfl, t, makeDirs_of_isDirectory hdir, hwrite⟩, hstores⟩

/-- The schema is written if the settings ask for it. -/
theorem generateSchema_eq (h : settings.Names output places) (t : FileTree) (schema : Schema) :
    generateSchema t settings schema =
      if settings.generateSchemaJson.holds then
        match writeSchema t schema places.artifacts with
        | (t, .ok path) => (t, .ok (some path))
        | (t, .error e) => (t, .error (.write e))
      else (t, .ok none) := by
  unfold generateSchema
  rw [h.output_eq]
  simp only [Output.get, h.artifactsDir, FilePath.ofValue]
  rfl

theorem eq_of_generateSchema {result : Except GenerateError (Option FilePath)}
    (h : settings.Names output places) (hholds : settings.generateSchemaJson.holds = false)
    (hrun : generateSchema t settings schema = (u, result)) : u = t := by
  rw [generateSchema_eq h, hholds] at hrun
  exact (congrArg Prod.fst hrun).symm

theorem gains_of_generateSchema {written : Option FilePath} (h : settings.Names output places)
    (hholds : settings.generateSchemaJson.holds = true)
    (hrun : generateSchema t settings schema = (u, .ok written)) :
    ∃ place, t.Gains u true places.schemaFile place schema.bytes := by
  rw [generateSchema_eq h, if_pos hholds] at hrun
  split at hrun
  · rename_i hwrite
    cases hrun
    exact gains_of_writeSchema hwrite
  · cases hrun

theorem grows_of_generateSchema_error {e : GenerateError} (h : settings.Names output places)
    (hrun : generateSchema t settings schema = (u, .error e)) :
    settings.generateSchemaJson.holds = true ∧ t.Grows u places.artifacts ∧ u.files = t.files ∧
      ∃ error, e = .write error ∧ ∀ fault, error ≠ .unencodable fault := by
  rw [generateSchema_eq h] at hrun
  split at hrun
  · rename_i hholds
    split at hrun
    · cases hrun
    · rename_i hwrite
      cases hrun
      obtain ⟨hgrows, hfiles⟩ := grows_of_writeSchema_error hwrite
      refine ⟨hholds, hgrows, hfiles, _, rfl, ?_⟩
      rintro fault rfl
      exact writeSchema_ne_unencodable hwrite
  · cases hrun

/-! ## Writing the module -/

theorem writeModule_of_refuse (h : output.mode = .known .refuse) (t : FileTree) (path : FilePath)
    (text : String) : writeModule t output path text =
      writeNew t output.atomicWrite.holds path text output.check := by
  unfold writeModule
  rw [h]
  rfl

theorem writeModule_of_ne (h : output.mode ≠ .known .refuse) (t : FileTree) (path : FilePath)
    (text : String) : writeModule t output path text =
      writeText t output.atomicWrite.holds path text output.check := by
  unfold writeModule
  cases hmode : output.mode with
  | known mode =>
      cases mode with
      | replace => rfl
      | refuse => exact absurd hmode h
  | other v => rfl

/-- A module that is written is written as any text. -/
theorem writeText_of_writeModule {path : FilePath}
    (h : writeModule t output path text = (u, .ok ())) :
    writeText t output.atomicWrite.holds path text output.check = (u, .ok ()) := by
  by_cases hmode : output.mode = .known .refuse
  · rw [writeModule_of_refuse hmode, writeNew] at h
    split at h
    · cases h
    · cases h
    · exact h
  · rwa [writeModule_of_ne hmode] at h

theorem leaves_of_writeModule_error {path : FilePath} {e : WriteError Unsound}
    (h : writeModule t output path text = (u, .error e)) :
    t.Grows u path.parent ∧
      t.LeavesBehind u path text output.check (e.residue output.atomicWrite.holds output.check) := by
  by_cases hmode : output.mode = .known .refuse
  · rw [writeModule_of_refuse hmode] at h
    have houtcome := outcome_writeNew t output.atomicWrite.holds path text output.check
    rw [h] at houtcome
    exact ⟨houtcome.grows, houtcome.left _ rfl _ _ rfl⟩
  · rw [writeModule_of_ne hmode] at h
    exact leaves_of_writeText_error h

theorem generateModule_eq (h : settings.Names output places) (t : FileTree) (schema : Schema) :
    generateModule t settings schema =
      match moduleText settings schema with
      | .error e => (t, .error (.render e))
      | .ok text =>
          match writeModule t output places.target text with
          | (t, .ok ()) => (t, .ok places.target)
          | (t, .error e) => (t, .error (.write e)) := by
  have htarget : output.targetPath = .ok places.target := by
    rw [OutputSettings.targetPath, h.targetDir, h.fileName]
    rfl
  unfold generateModule
  rw [h.output_eq]
  cases moduleText settings schema with
  | error e => rfl
  | ok text =>
      rcases hwrite : writeModule t output places.target text with ⟨u, e | ⟨⟩⟩
      · simp only [Output.get, htarget, hwrite]
      · simp only [Output.get, htarget, hwrite]

theorem gains_of_generateModule {path : FilePath} (h : settings.Names output places)
    (hrun : generateModule t settings schema = (u, .ok path)) :
    path = places.target ∧ ∃ text place, moduleText settings schema = .ok text ∧
      Text.encodeFault? text = none ∧ runCheck output.check text = .ok () ∧
      t.Gains u output.atomicWrite.holds places.target place (Text.bytes text) := by
  rw [generateModule_eq h] at hrun
  split at hrun
  · cases hrun
  · rename_i text htext
    split at hrun
    · rename_i hwrite
      cases hrun
      have hwrite' := writeText_of_writeModule hwrite
      obtain ⟨place, hgains⟩ := gains_of_writeText hwrite'
      have hwritten := written_of_writeText hwrite'
      exact ⟨rfl, text, place, htext, hwritten.encodable, hwritten.passed, hgains⟩
    · cases hrun

/-- Whether an error is that a module to be written in place has no bytes. -/
def GenerateError.Empties (e : GenerateError) (output : OutputSettings) : Prop :=
  output.atomicWrite.holds = false ∧ ∃ fault, e = .write (.unencodable fault)

/-- What is left among the files by a module that is not written: nothing, or its file with nothing in it. -/
inductive ModuleLeft (t u : FileTree) (settings : Settings) (output : OutputSettings)
    (places : OutputPlaces) (schema : Schema) (e : GenerateError) : Prop where
  | nothing (hnot : ¬e.Empties output) (hfiles : u.files = t.files)
  | emptied {text : String} {place : Location} (hempties : e.Empties output)
      (htext : moduleText settings schema = .ok text) (hbytes : Text.encodeFault? text ≠ none)
      (hleads : u.resolve places.target = .ok (.name place))
      (hfiles : u.files = Function.update t.files place (some []))

/-- The check of a module never ends the program. -/
theorem checkQuits_check (output : OutputSettings) (reason : Unsound) :
    checkQuits output.check reason = false := by
  unfold OutputSettings.check
  split <;> rfl

theorem moduleLeft_of_writeModule {e : WriteError Unsound}
    (htext : moduleText settings schema = .ok text)
    (h : writeModule t output places.target text = (u, .error e)) :
    ModuleLeft t u settings output places schema (.write e) := by
  have hleaves := (leaves_of_writeModule_error h).2
  cases e with
  | file e => exact .nothing (by rintro ⟨-, fault, ⟨⟩⟩) hleaves.files_eq
  | refused p => exact .nothing (by rintro ⟨-, fault, ⟨⟩⟩) hleaves.files_eq
  | rejected reason =>
      simp only [WriteError.residue, checkQuits_check, Bool.and_false, Bool.false_eq_true, if_false] at hleaves
      exact .nothing (by rintro ⟨-, fault, ⟨⟩⟩) hleaves.files_eq
  | unencodable fault =>
      cases hatomic : output.atomicWrite.holds with
      | true =>
          rw [hatomic] at hleaves
          refine .nothing ?_ hleaves.files_eq
          rintro ⟨hnot, -⟩
          rw [hatomic] at hnot
          cases hnot
      | false =>
          rw [hatomic] at hleaves
          cases hleaves with
          | emptied hbytes hleads hfiles => exact .emptied ⟨hatomic, fault, rfl⟩ htext hbytes hleads hfiles

theorem leaves_of_generateModule_error {e : GenerateError} (h : settings.Names output places)
    (hrun : generateModule t settings schema = (u, .error e)) :
    t.Grows u places.target.parent ∧ ModuleLeft t u settings output places schema e ∧
      ((∃ error, e = .render error) → u = t) := by
  rw [generateModule_eq h] at hrun
  split at hrun
  · cases hrun
    exact ⟨.refl _ _, .nothing (by rintro ⟨-, fault, ⟨⟩⟩) rfl, fun _ => rfl⟩
  · rename_i text htext
    split at hrun
    · cases hrun
    · rename_i hwrite
      cases hrun
      exact ⟨(leaves_of_writeModule_error hwrite).1, moduleLeft_of_writeModule htext hwrite, nofun⟩

/-! ## Runs -/

/-- A run ends where the schema cannot be written, or else as the module is written behind it. -/
theorem generate_cases (h : settings.output = .settings output) (t : FileTree) (schema : Schema) :
    (∃ e, generateSchema t settings schema = ((generate t settings schema).tree, .error e) ∧
      (generate t settings schema).result = .error e) ∨
    ∃ t₁ written, generateSchema t settings schema = (t₁, .ok written) ∧
      generateModule t₁ settings schema =
        ((generate t settings schema).tree, (generate t settings schema).result) := by
  unfold generate
  rw [h]
  simp only [Output.demand]
  rcases hschema : generateSchema t settings schema with ⟨t₁, e | written⟩
  · exact .inl ⟨e, rfl, rfl⟩
  · refine .inr ⟨t₁, written, rfl, ?_⟩
    rcases hmodule : generateModule t₁ settings schema with ⟨u, e | path⟩
    · simp only [hmodule]
    · simp only [hmodule]

/-- What the schema and the module come to is what a run comes to. -/
theorem generate_eq_of_parts {t₁ : FileTree} {written : Option FilePath}
    {result : Except GenerateError FilePath} (h : settings.Names output places)
    (hschema : generateSchema t settings schema = (t₁, .ok written))
    (hmodule : generateModule t₁ settings schema = (u, result)) :
    (generate t settings schema).tree = u ∧ (generate t settings schema).result = result := by
  rcases generate_cases h.output_eq t schema with ⟨e, herror, -⟩ | ⟨t₂, written', hschema', hmodule'⟩
  · rw [hschema] at herror
    cases herror
  · rw [hschema] at hschema'
    cases hschema'
    rw [hmodule] at hmodule'
    obtain ⟨htree, hresult⟩ := Prod.mk.inj hmodule'
    exact ⟨htree.symm, hresult.symm⟩

/-- Whether a tree is another one with the schema in its file, if the settings ask for it. -/
inductive SchemaLeft (t u : FileTree) (settings : Settings) (places : OutputPlaces)
    (schema : Schema) : Prop where
  | none (hholds : settings.generateSchemaJson.holds = false) (heq : u = t)
  | written {place : Location} (hholds : settings.generateSchemaJson.holds = true)
      (hgains : t.Gains u true places.schemaFile place schema.bytes)

theorem SchemaLeft.eq_of_not (h : SchemaLeft t u settings places schema)
    (hnot : settings.generateSchemaJson.holds = false) : u = t := by
  cases h with
  | none _ heq => exact heq
  | written hholds =>
      rw [hnot] at hholds
      cases hholds

theorem SchemaLeft.exists_gains (h : SchemaLeft t u settings places schema)
    (hholds : settings.generateSchemaJson.holds = true) :
    ∃ place, t.Gains u true places.schemaFile place schema.bytes := by
  cases h with
  | none hnot =>
      rw [hnot] at hholds
      cases hholds
  | written _ hgains => exact ⟨_, hgains⟩

/-- The directories that are made for the schema are on the way to the artifacts. -/
theorem FileTree.Gains.grows_artifacts {place : Location}
    (h : t.Gains u true places.schemaFile place schema.bytes) : t.Grows u places.artifacts := by
  have hgrows := h.grows
  rwa [OutputPlaces.schemaFile, FilePath.parent_child] at hgrows

theorem schemaLeft_of_generateSchema {written : Option FilePath} (h : settings.Names output places)
    (hrun : generateSchema t settings schema = (u, .ok written)) :
    SchemaLeft t u settings places schema := by
  cases hholds : settings.generateSchemaJson.holds with
  | false => exact .none hholds (eq_of_generateSchema h hholds hrun)
  | true =>
      obtain ⟨place, hgains⟩ := gains_of_generateSchema h hholds hrun
      exact .written hholds hgains

/-- A run that returns has left the schema, if it is to be written, and the module. -/
theorem gains_of_generate {path : FilePath} (h : settings.Names output places)
    (hok : (generate t settings schema).result = .ok path) :
    path = places.target ∧ ∃ t₁ text place, SchemaLeft t t₁ settings places schema ∧
      moduleText settings schema = .ok text ∧ Text.encodeFault? text = none ∧
      runCheck output.check text = .ok () ∧
      t₁.Gains (generate t settings schema).tree output.atomicWrite.holds places.target place
        (Text.bytes text) := by
  rcases generate_cases h.output_eq t schema with ⟨e, -, herror⟩ | ⟨t₁, written, hschema, hmodule⟩
  · rw [hok] at herror
    cases herror
  · rw [hok] at hmodule
    obtain ⟨hpath, text, place, htext, hbytes, hcheck, hgains⟩ := gains_of_generateModule h hmodule
    exact ⟨hpath, t₁, text, place, schemaLeft_of_generateSchema h hschema, htext, hbytes, hcheck, hgains⟩

/-- A run that fails has not written the schema, or it has left the schema, if it is to be written, and
not written the module. -/
theorem leaves_of_generate_error {e : GenerateError} (h : settings.Names output places)
    (herror : (generate t settings schema).result = .error e) :
    (settings.generateSchemaJson.holds = true ∧
      t.Grows (generate t settings schema).tree places.artifacts ∧
      (generate t settings schema).tree.files = t.files ∧
      ∃ error, e = .write error ∧ ∀ fault, error ≠ .unencodable fault) ∨
    ∃ t₁, SchemaLeft t t₁ settings places schema ∧
      t₁.Grows (generate t settings schema).tree places.target.parent ∧
      ModuleLeft t₁ (generate t settings schema).tree settings output places schema e ∧
      ((∃ error, e = .render error) → (generate t settings schema).tree = t₁) := by
  rcases generate_cases h.output_eq t schema with ⟨e', hschema, herror'⟩ | ⟨t₁, written, hschema, hmodule⟩
  · rw [herror] at herror'
    cases herror'
    exact .inl (grows_of_generateSchema_error h hschema)
  · rw [herror] at hmodule
    exact .inr ⟨t₁, schemaLeft_of_generateSchema h hschema, leaves_of_generateModule_error h hmodule⟩

/-! ## Runs that are repeated -/

/-- Whether a tree holds the files of a run that returned, each ready to be written again. Where both are
the same file it holds the module. -/
structure Settled (u : FileTree) (settings : Settings) (output : OutputSettings)
    (places : OutputPlaces) (schema : Schema) (text : String) (place : Location) : Prop where
  ready : u.Ready output.atomicWrite.holds places.target place
  module : u.get? place = some (.file (Text.bytes text))
  schema : settings.generateSchemaJson.holds = true → ∃ place',
    u.Ready true places.schemaFile place' ∧
      (place' ≠ place → u.get? place' = some (.file schema.bytes))

theorem settled_of_gains {t₁ : FileTree} {place : Location}
    (hschema : SchemaLeft t t₁ settings places schema)
    (h : t₁.Gains u output.atomicWrite.holds places.target place (Text.bytes text)) :
    Settled u settings output places schema text place := by
  refine ⟨h.ready, files_eq_some_iff.mp h.files_self, fun hholds => ?_⟩
  obtain ⟨place', hgains⟩ := hschema.exists_gains hholds
  -- the module is written into a file, so that the one of the schema is a file still
  have hkept : place' ≠ place → u.files place' = some schema.bytes := by
    intro hne
    rw [h.files, Function.update_of_ne hne, hgains.files_self]
  refine ⟨place', hgains.ready.of_keepsDirectories h.grows.toKeepsDirectories ?_, fun hne =>
    files_eq_some_iff.mp (hkept hne)⟩
  by_cases hplace : place' = place
  · rw [hplace]
    exact h.ready.free
  · rw [files_eq_some_iff.mp (hkept hplace)]
    simp

/-- What is stored in a file that holds it already changes nothing. -/
theorem FileTree.Stores.same {bytes : List UInt8} {place : Location} (h : t.Stores u place bytes)
    (hthere : t.get? place = some (.file bytes)) : t.Same u := by
  refine ⟨h.current, fun place' => ?_⟩
  rw [h.get?]
  split
  · rename_i heq
    rw [heq, hthere]
  · rfl

/-- A module that may replace a file is written into a tree that is ready for it. -/
theorem FileTree.Ready.generateModule {place : Location} (h : settings.Names output places)
    (hready : t.Ready output.atomicWrite.holds places.target place)
    (hmode : output.mode ≠ .known .refuse) (htext : moduleText settings schema = .ok text)
    (hbytes : Text.encodeFault? text = none) (hcheck : runCheck output.check text = .ok ()) :
    ∃ u, generateModule t settings schema = (u, .ok places.target) ∧
      t.Stores u place (Text.bytes text) := by
  obtain ⟨u, hwrite, hstores⟩ := hready.writeText hbytes hcheck
  refine ⟨u, ?_, hstores⟩
  rw [generateModule_eq h, htext]
  simp only [writeModule_of_ne hmode, hwrite]

/-- A module without bytes that is written in place empties its file. -/
theorem stores_of_generateModule_unencodable {place : Location} {fault : Text.EncodeFault}
    (h : settings.Names output places) (hatomic : output.atomicWrite.holds = false)
    (hready : t.Ready false places.target place) (hmode : output.mode ≠ .known .refuse)
    (htext : moduleText settings schema = .ok text) (hbytes : Text.encodeFault? text = some fault)
    (hcheck : runCheck output.check text = .ok ()) :
    ∃ u, generateModule t settings schema = (u, .error (.write (.unencodable fault))) ∧
      t.Stores u place [] := by
  obtain ⟨u, hwrite, hstores⟩ := writeText_of_unencodable hready hbytes hcheck
  refine ⟨u, ?_, hstores⟩
  rw [generateModule_eq h, htext]
  simp only [writeModule_of_ne hmode, hatomic, hwrite]

/-- **A settled tree stays as it is.** The run that left it returns once more and changes nothing. -/
theorem Settled.generate {place : Location} (h : settings.Names output places)
    (hsettled : Settled t settings output places schema text place)
    (hmode : output.mode ≠ .known .refuse) (htext : moduleText settings schema = .ok text)
    (hbytes : Text.encodeFault? text = none) (hcheck : runCheck output.check text = .ok ()) :
    (generate t settings schema).result = .ok places.target ∧
      t.Same (generate t settings schema).tree := by
  suffices ∃ t₁ u written, generateSchema t settings schema = (t₁, .ok written) ∧
      generateModule t₁ settings schema = (u, .ok places.target) ∧ t.Same u by
    obtain ⟨t₁, u, written, hschema, hmodule, hsame⟩ := this
    obtain ⟨htree, hresult⟩ := generate_eq_of_parts h hschema hmodule
    exact ⟨hresult, htree ▸ hsame⟩
  cases hholds : settings.generateSchemaJson.holds with
  | false =>
      obtain ⟨u, hmodule, hstores⟩ := hsettled.ready.generateModule h hmode htext hbytes hcheck
      refine ⟨t, u, none, ?_, hmodule, hstores.same hsettled.module⟩
      rw [generateSchema_eq h, hholds]
      rfl
  | true =>
      obtain ⟨place', hready, hkept⟩ := hsettled.schema hholds
      obtain ⟨t₁, hwrite, hstores⟩ := hready.writeSchema schema
      -- the file of the schema is no directory before or after, so the module can still be written
      have hready₁ := hsettled.ready.of_keepsDirectories (hstores.keepsDirectories hready.free)
        (hstores.get?_ne_directory hsettled.ready.free)
      obtain ⟨u, hmodule, hstores'⟩ := hready₁.generateModule h hmode htext hbytes hcheck
      refine ⟨t₁, u, some places.schemaFile, ?_, hmodule,
        hstores'.current.trans hstores.current, fun x => ?_⟩
      · rw [generateSchema_eq h, if_pos hholds, hwrite]
        rfl
      · rw [hstores'.get?, hstores.get?]
        by_cases hx : x = place
        · rw [if_pos hx, hx, hsettled.module]
        · rw [if_neg hx]
          by_cases hx' : x = place'
          · rw [if_pos hx', hx', hkept (hx' ▸ hx)]
          · rw [if_neg hx']

/-- What a run does to a tree. -/
structure GenerateEffect (t : FileTree) (settings : Settings) (output : OutputSettings)
    (places : OutputPlaces) (schema : Schema) (run : GenerateRun) : Prop where
  /-- All directories are still there. -/
  kept : KeepsDirectories t run.tree
  /-- New directories are on the way to the module, or to the schema if it is to be written. -/
  added : ∀ place, run.tree.get? place = some .directory → t.get? place = some .directory ∨
    run.tree.OnWay places.target.parent place ∨
      settings.generateSchemaJson.holds = true ∧ run.tree.OnWay places.artifacts place
  /-- A run that returns gives the path of the module, which leads to the text of the module. The schema
  is in its file, if it is to be written and that is another file. No other file has changed. -/
  returned : ∀ path, run.result = .ok path → path = places.target ∧ ∃ text place,
    moduleText settings schema = .ok text ∧ run.tree.resolve places.target = .ok (.name place) ∧
      run.tree.read places.target = .ok (Text.bytes text) ∧
      (settings.generateSchemaJson.holds = false →
        run.tree.files = Function.update t.files place (some (Text.bytes text))) ∧
      (settings.generateSchemaJson.holds = true → ∃ place',
        run.tree.resolve places.schemaFile = .ok (.name place') ∧
        (place' ≠ place → run.tree.read places.schemaFile = .ok schema.bytes) ∧
        run.tree.files = Function.update (Function.update t.files place' (some schema.bytes)) place
          (some (Text.bytes text)))
  /-- The same run behind one that returned returns too and leaves the same tree, unless it is not to
  replace a file. -/
  again : ∀ path, run.result = .ok path → output.mode ≠ .known .refuse →
    (generate run.tree settings schema).result = .ok path ∧
      run.tree.Same (generate run.tree settings schema).tree
  /-- A run that fails leaves all files as they are, or has written all of the schema and nothing else,
  unless a module to be written in place has no bytes. -/
  failed : ∀ e, run.result = .error e → ¬e.Empties output → run.tree.files = t.files ∨
    settings.generateSchemaJson.holds = true ∧ ∃ place',
      run.tree.resolve places.schemaFile = .ok (.name place') ∧
        run.tree.files = Function.update t.files place' (some schema.bytes)
  /-- The file of such a module is emptied, and that is the one change but for the schema. -/
  emptied : ∀ e, run.result = .error e → e.Empties output → ∃ text place,
    moduleText settings schema = .ok text ∧ Text.encodeFault? text ≠ none ∧
      run.tree.resolve places.target = .ok (.name place) ∧
      (settings.generateSchemaJson.holds = false →
        run.tree.files = Function.update t.files place (some [])) ∧
      (settings.generateSchemaJson.holds = true → ∃ place',
        run.tree.resolve places.schemaFile = .ok (.name place') ∧
        run.tree.files = Function.update (Function.update t.files place' (some schema.bytes)) place
          (some []))
  /-- A run that fails because a name or a type cannot be written has not looked for the place of the
  module: it leaves the tree as it is, or with the schema in it and directories on the way there. -/
  unwritable : ∀ e, run.result = .error (.render e) →
    (settings.generateSchemaJson.holds = false → run.tree = t) ∧
    (settings.generateSchemaJson.holds = true → t.Grows run.tree places.artifacts ∧ ∃ place',
      run.tree.resolve places.schemaFile = .ok (.name place') ∧
        run.tree.files = Function.update t.files place' (some schema.bytes))

/-! ## The effect of a run -/

theorem SchemaLeft.keepsDirectories {t₁ : FileTree} (h : SchemaLeft t t₁ settings places schema) :
    KeepsDirectories t t₁ := by
  cases h with
  | none _ heq => exact heq ▸ .refl t
  | written _ hgains => exact hgains.grows.toKeepsDirectories

/-- The directories that are added behind the schema are on the way to it or on the way that is gone
next. -/
theorem SchemaLeft.added {t₁ : FileTree} {p : FilePath} {place : Location}
    (h : SchemaLeft t t₁ settings places schema) (hgrows : t₁.Grows u p)
    (hdir : u.get? place = some .directory) : t.get? place = some .directory ∨ u.OnWay p place ∨
      settings.generateSchemaJson.holds = true ∧ u.OnWay places.artifacts place := by
  rcases hgrows.added place hdir with hdir | hway
  · cases h with
    | none _ heq => exact .inl (heq ▸ hdir)
    | written hholds hgains =>
        refine (hgains.grows_artifacts.added place hdir).imp id fun hway => .inr ⟨hholds, ?_⟩
        exact hway.of_keepsDirectories hgrows.toKeepsDirectories
  · exact .inr (.inl hway)

/-- The schema is in its file still when the module is written behind it, unless that is the same file. -/
theorem read_schemaFile {t₁ : FileTree} {place place' : Location}
    (hgains : t.Gains t₁ true places.schemaFile place' schema.bytes)
    (h : t₁.Gains u output.atomicWrite.holds places.target place (Text.bytes text)) :
    u.resolve places.schemaFile = .ok (.name place') ∧
      (place' ≠ place → u.read places.schemaFile = .ok schema.bytes) := by
  have hleads := h.grows.toKeepsDirectories.resolve_eq_name hgains.ready.leads
  refine ⟨hleads, fun hne => read_of_get? (.refl u) hleads (files_eq_some_iff.mp ?_)⟩
  rw [h.files, Function.update_of_ne hne, hgains.files_self]

theorem effect_of_ok {path : FilePath} (h : settings.Names output places)
    (hok : (generate t settings schema).result = .ok path) :
    GenerateEffect t settings output places schema (generate t settings schema) := by
  obtain ⟨rfl, t₁, text, place, hleft, htext, hbytes, hcheck, hgains⟩ := gains_of_generate h hok
  have hnot : ∀ e, (generate t settings schema).result ≠ .error e := by
    intro e herror
    rw [hok] at herror
    cases herror
  refine ⟨hleft.keepsDirectories.trans hgains.grows.toKeepsDirectories,
    fun _ hdir => hleft.added hgains.grows hdir, ?_, ?_, fun e herror => absurd herror (hnot e),
    fun e herror => absurd herror (hnot e), fun e herror => absurd herror (hnot _)⟩
  · intro path' hok'
    rw [hok] at hok'
    cases hok'
    refine ⟨rfl, text, place, htext, hgains.ready.leads, hgains.read_eq, fun hholds => ?_,
      fun hholds => ?_⟩
    · exact hleft.eq_of_not hholds ▸ hgains.files
    · obtain ⟨place', hgains'⟩ := hleft.exists_gains hholds
      obtain ⟨hleads, hread⟩ := read_schemaFile hgains' hgains
      exact ⟨place', hleads, hread, hgains'.files ▸ hgains.files⟩
  · intro path' hok' hmode
    rw [hok] at hok'
    cases hok'
    exact (settled_of_gains hleft hgains).generate h hmode htext hbytes hcheck

theorem not_ok_of_error {e : GenerateError} {run : GenerateRun} (herror : run.result = .error e) :
    ∀ path, run.result ≠ .ok path := by
  intro path hok
  rw [herror] at hok
  cases hok

/-- The effect of a run that ends with the schema: directories, and nothing else. -/
theorem effect_of_schema_error {run : GenerateRun} {error : WriteError Unsound}
    (herror : run.result = .error (.write error)) (hnone : ∀ fault, error ≠ .unencodable fault)
    (hholds : settings.generateSchemaJson.holds = true) (hgrows : t.Grows run.tree places.artifacts)
    (hfiles : run.tree.files = t.files) : GenerateEffect t settings output places schema run := by
  refine ⟨hgrows.toKeepsDirectories, fun place hdir => ?_,
    fun path hok => absurd hok (not_ok_of_error herror path),
    fun path hok => absurd hok (not_ok_of_error herror path), fun _ _ _ => .inl hfiles,
    fun e herror' hempties => ?_, fun e herror' => ?_⟩
  · exact (hgrows.added place hdir).imp id fun hway => .inr ⟨hholds, hway⟩
  · obtain ⟨-, fault, rfl⟩ := hempties
    rw [herror] at herror'
    cases herror'
    exact absurd rfl (hnone fault)
  · rw [herror] at herror'
    cases herror'

/-- The effect of a run that ends with the module: what the schema left, and what the module did. -/
theorem effect_of_module_error {run : GenerateRun} {t₁ : FileTree} {e : GenerateError}
    (herror : run.result = .error e) (hleft : SchemaLeft t t₁ settings places schema)
    (hgrows : t₁.Grows run.tree places.target.parent)
    (hmodule : ModuleLeft t₁ run.tree settings output places schema e)
    (hrender : (∃ error, e = .render error) → run.tree = t₁) :
    GenerateEffect t settings output places schema run := by
  have hkeeps := hgrows.toKeepsDirectories
  refine ⟨hleft.keepsDirectories.trans hkeeps, fun _ hdir => hleft.added hgrows hdir,
    fun path hok => absurd hok (not_ok_of_error herror path),
    fun path hok => absurd hok (not_ok_of_error herror path),
    fun e' herror' hnotEmpties => ?_, fun e' herror' hempties => ?_, fun e' herror' => ?_⟩
  · rw [herror] at herror'
    cases herror'
    cases hmodule with
    | emptied hempties => exact absurd hempties hnotEmpties
    | nothing _ hfiles =>
        cases hleft with
        | none _ heq => exact .inl (heq ▸ hfiles)
        | @written place' hholds hgains =>
            exact .inr ⟨hholds, place', hkeeps.resolve_eq_name hgains.ready.leads,
              hfiles.trans hgains.files⟩
  · rw [herror] at herror'
    cases herror'
    cases hmodule with
    | nothing hnotEmpties => exact absurd hempties hnotEmpties
    | @emptied text place _ htext hbytes hleads hfiles =>
        refine ⟨text, place, htext, hbytes, hleads, fun hholds => ?_, fun hholds => ?_⟩
        · exact hleft.eq_of_not hholds ▸ hfiles
        · obtain ⟨place', hgains⟩ := hleft.exists_gains hholds
          exact ⟨place', hkeeps.resolve_eq_name hgains.ready.leads, hgains.files ▸ hfiles⟩
  · rw [herror] at herror'
    cases herror'
    rw [hrender ⟨e', rfl⟩]
    refine ⟨hleft.eq_of_not, fun hholds => ?_⟩
    obtain ⟨place', hgains⟩ := hleft.exists_gains hholds
    exact ⟨hgains.grows_artifacts, place', hgains.ready.leads, hgains.files⟩

theorem effect_of_error {e : GenerateError} (h : settings.Names output places)
    (herror : (generate t settings schema).result = .error e) :
    GenerateEffect t settings output places schema (generate t settings schema) := by
  rcases leaves_of_generate_error h herror with
    ⟨hholds, hgrows, hfiles, error, rfl, hnone⟩ | ⟨t₁, hleft, hgrows, hmodule, hrender⟩
  · exact effect_of_schema_error herror hnone hholds hgrows hfiles
  · exact effect_of_module_error herror hleft hgrows hmodule hrender

/-- A run empties no file if no half of a surrogate pair shows in the module. -/
theorem not_empties_of_showsUnmarked {e : GenerateError} (h : settings.Names output places)
    (hglobal : ShowsUnmarked settings.globalInterfacePrefix)
    (hmarkdown : ShowsUnmarked settings.markdownImportModule) (hshows : SchemaShows ShowsUnmarked schema)
    (herror : (generate t settings schema).result = .error e) : ¬e.Empties output := by
  intro hempties
  obtain ⟨text, -, htext, hbytes, -⟩ := (effect_of_error h herror).emptied e herror hempties
  exact hbytes (encodeFault?_moduleText hglobal hmarkdown hshows htext)

/-- **A run changes the files it is to write and no others.** If it returns, the module is in its file and
the schema in its own, if that is asked for, and the same run once more returns and leaves all as it is,
unless it is not to replace a file. If it fails, no file has changed but that of the schema, which then
holds all of it, and that of a module without bytes that is written in place, which is emptied. Either way
no other file is there than before, and new directories are only on the way to what is written. -/
theorem generate_changes (h : settings.Names output places) (t : FileTree) (schema : Schema) :
    GenerateEffect t settings output places schema (generate t settings schema) := by
  cases hresult : (generate t settings schema).result with
  | ok path => exact effect_of_ok h hresult
  | error e => exact effect_of_error h hresult

/-! ### A run that writes both files -/

/-- An output in the directory that relative paths start from. -/
def hereOutput : OutputSettings :=
  { OutputSettings.initial with targetDir := .str ".", artifactsDir := .str "." }

def herePlaces : OutputPlaces := ⟨".", "index.d.ts", "."⟩

/-- Settings that ask for the schema too. -/
def hereSettings : Settings :=
  { Settings.initial with generateSchemaJson := .bool true, output := .settings hereOutput }

theorem names_hereSettings : hereSettings.Names hereOutput herePlaces := ⟨rfl, rfl, rfl, rfl⟩

theorem mode_hereOutput : hereOutput.mode ≠ .known .refuse := by
  intro h
  cases h

theorem ready_schemaFile_workTree :
    workTree.Ready true herePlaces.schemaFile ["work", "schema.json"] :=
  ⟨rfl, rfl, by decide, fun _ => by decide, fun _ => by decide⟩

theorem ready_target_workTree :
    workTree.Ready true herePlaces.target ["work", "index.d.ts"] :=
  ⟨rfl, rfl, by decide, fun _ => by decide, fun _ => by decide⟩

/-- With these settings every schema that can be written is written into the empty directory, if no half of a
surrogate pair shows in it. -/
theorem result_hereSettings_of_writable {schema : Schema} (h : SchemaWritable schema)
    (hshows : SchemaShows ShowsUnmarked schema) :
    (generate workTree hereSettings schema).result = .ok herePlaces.target := by
  have hs : SettingsWritable hereSettings := ⟨⟨_, rfl, by decide⟩, by decide⟩
  obtain ⟨text, htext, hpasses, hexport⟩ := exists_moduleText hs h
  have hglobal : ShowsUnmarked hereSettings.globalInterfacePrefix := by decide
  have hmarkdown : ShowsUnmarked hereSettings.markdownImportModule := unmarked_ofList (by decide)
  have hbytes := encodeFault?_moduleText hglobal hmarkdown hshows htext
  obtain ⟨t₁, hwrite, hstores⟩ := ready_schemaFile_workTree.writeSchema schema
  have hready := ready_target_workTree.of_keepsDirectories
    (hstores.keepsDirectories ready_schemaFile_workTree.free)
    (hstores.get?_ne_directory ready_target_workTree.free)
  obtain ⟨u, hmodule, -⟩ := hready.generateModule names_hereSettings mode_hereOutput htext hbytes
    (checkDeclarations_eq_ok hpasses hexport)
  have hholds : hereSettings.generateSchemaJson.holds = true := rfl
  have hfirst : generateSchema workTree hereSettings schema = (t₁, .ok (some herePlaces.schemaFile)) := by
    rw [generateSchema_eq names_hereSettings, if_pos hholds, hwrite]
    rfl
  exact (generate_eq_of_parts names_hereSettings hfirst hmodule).2

theorem result_hereSettings :
    (generate workTree hereSettings ⟨[], []⟩).result = .ok herePlaces.target :=
  result_hereSettings_of_writable ⟨List.forall_mem_nil _, List.forall_mem_nil _⟩
    ⟨List.forall_mem_nil _, List.forall_mem_nil _⟩

theorem generate_changes_hereSettings :
    hereSettings.Names hereOutput herePlaces ∧
      ∃ run text, run = generate workTree hereSettings ⟨[], []⟩ ∧
        run.result = .ok herePlaces.target ∧
        run.tree.read herePlaces.target = .ok (Text.bytes text) ∧
        run.tree.read herePlaces.schemaFile = .ok (Schema.bytes ⟨[], []⟩) ∧
        (generate run.tree hereSettings ⟨[], []⟩).result = .ok herePlaces.target := by
  have heffect := generate_changes names_hereSettings workTree ⟨[], []⟩
  obtain ⟨-, text, place, -, hleads, hread, -, hwritten⟩ := heffect.returned _ result_hereSettings
  obtain ⟨place', hleads', hread', -⟩ := hwritten rfl
  -- the paths lead where they led before, so to two files
  rw [heffect.kept.resolve_eq_name ready_target_workTree.leads] at hleads
  rw [heffect.kept.resolve_eq_name ready_schemaFile_workTree.leads] at hleads'
  cases hleads
  cases hleads'
  exact ⟨names_hereSettings, _, text, rfl, result_hereSettings, hread, hread' (by decide),
    (heffect.again _ result_hereSettings mode_hereOutput).1⟩

/-! ### A run that empties a file -/

/-- A kind of object with a half of a surrogate pair for a label. -/
def halfSchema : Schema where
  documents := []
  objects := [(.str "A", { name := .str "A", label := .str halfText, description := .null, fields := [] })]

/-- An output that is written in place. -/
def inPlaceOutput : OutputSettings :=
  { OutputSettings.initial with targetDir := .str ".", atomicWrite := .bool false }

def inPlacePlaces : OutputPlaces := ⟨".", "index.d.ts", OutputSettings.initial.artifactsDir.display⟩

def inPlaceSettings : Settings := { Settings.initial with output := .settings inPlaceOutput }

theorem names_inPlaceSettings : inPlaceSettings.Names inPlaceOutput inPlacePlaces := ⟨rfl, rfl, rfl, rfl⟩

theorem ready_target_oldTree : oldTree.Ready false inPlacePlaces.target ["work", "index.d.ts"] :=
  ⟨rfl, rfl, by decide, nofun, nofun⟩

/-- The module of that schema has no bytes, since the label is in a comment. -/
theorem encodeFault?_halfSchema :
    ∀ text, moduleText inPlaceSettings halfSchema = .ok text → ∃ fault, Text.encodeFault? text = some fault := by
  have hchars : ∀ text ∈ (moduleText inPlaceSettings halfSchema).toOption,
      ∃ chars ∈ (Utf8.decode text.toByteArray.data.toList).toOption,
        Utf8.encode chars = text.toByteArray.data.toList ∧
          (Text.faultFrom? 0 (Text.pointsOf chars)).isSome = true := by
    decide +kernel
  intro text htext
  obtain ⟨chars, -, hencode, hfault⟩ := hchars text (by rw [htext]; rfl)
  rw [Text.encodeFault?, Text.points, Text.toList_eq_of_encode hencode]
  exact Option.isSome_iff_exists.mp hfault

/-- **A half of a surrogate pair in a label empties the file of the module.** -/
theorem files_generate_halfSchema :
    oldTree.files ["work", "index.d.ts"] = some [0x6F, 0x6C, 0x64] ∧
      ∃ fault, (generate oldTree inPlaceSettings halfSchema).result = .error (.write (.unencodable fault)) ∧
        (generate oldTree inPlaceSettings halfSchema).tree.files ["work", "index.d.ts"] = some [] := by
  have hs : SettingsWritable inPlaceSettings := ⟨⟨_, rfl, by decide⟩, by decide⟩
  have hremark : IsRemark halfText := by decide
  have hschema : SchemaWritable halfSchema :=
    ⟨List.forall_mem_nil _, List.forall_mem_singleton.mpr
      ⟨⟨_, rfl, by decide⟩, nofun, fun _ _ => hremark, trivial⟩⟩
  obtain ⟨text, htext, hpasses, hexport⟩ := exists_moduleText hs hschema
  obtain ⟨fault, hbytes⟩ := encodeFault?_halfSchema text htext
  have hmode : inPlaceOutput.mode ≠ .known .refuse := nofun
  obtain ⟨u, hmodule, hstores⟩ := stores_of_generateModule_unencodable names_inPlaceSettings rfl
    ready_target_oldTree hmode htext hbytes (checkDeclarations_eq_ok hpasses hexport)
  have hfirst : generateSchema oldTree inPlaceSettings halfSchema = (oldTree, .ok none) :=
    generateSchema_eq names_inPlaceSettings oldTree halfSchema
  obtain ⟨htree, hresult⟩ := generate_eq_of_parts names_inPlaceSettings hfirst hmodule
  refine ⟨rfl, fault, hresult, ?_⟩
  rw [htree, files_update hstores.get?, Function.update_self]

end ContentTypes
