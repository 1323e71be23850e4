import ContentTypes.Proofs.CommandLine.Run
import ContentTypes.Proofs.Files.FilePath
import ContentTypes.Proofs.Generation.Faults
import ContentTypes.Proofs.Schema.Requirement
import ContentTypes.Proofs.TypeScript.Totality

/-!
# What the command reports

A run ends with the path of the module, or with a report of what is wrong, or it hands an error on to its
caller. The last of these is not what the command is to do, and `run_reports` says for every run without a
settings file when it does it all the same: where the schema file is no text, where something is used as a
key that cannot be one, where a name is no text, where half of a surrogate pair gets into the module, and
where the files do not let an output be written for another reason than that something is there already
(`Invocation.HandsOn`); and where a path is beyond the limits. Everything else is reported.

A reader of JSON may give up on a number with too many digits and on values that are nested too deep, which
the one here does not. `WithinLimits` is about the files that no reader gives up on.
-/

set_option autoImplicit false

namespace ContentTypes

open FileTree TypeScript

namespace CommandLine

variable {t u : FileTree} {args : List String} {i : Invocation} {bytes : List UInt8} {schema : Schema}
  {place : Location}

/-! ## Working trees -/

/-- Whether the names of a place are names of a path that never goes up. -/
def IsPlain (place : Location) : Prop := ∀ name ∈ place, FilePath.IsProper name ∧ name ≠ FilePath.upName

/-- Whether a tree is one that a command can run in: everything stands in a directory, and relative paths
start from a plain place. -/
structure IsWorking (t : FileTree) : Prop extends t.Rooted where
  plain : IsPlain t.current

theorem isPlain_absolute {p : FilePath} (hstart : IsPlain (t.start p))
    (hnames : ∀ name ∈ p.names, FilePath.IsProper name) : IsPlain (absolute t p) := by
  unfold absolute
  generalize t.start p = here at hstart
  generalize p.names = names at hnames
  -- name by name: going up leaves the names above, and going down adds a name that is not to go up
  induction names generalizing here with
  | nil => exact hstart
  | cons name names ih =>
      obtain ⟨hname, hnames⟩ := List.forall_mem_cons.mp hnames
      refine ih _ ?_ hnames
      dsimp only
      split
      · exact fun n hn => hstart n ((List.dropLast_prefix here).subset hn)
      · rename_i hup
        exact List.forall_mem_append.mpr ⟨hstart, List.forall_mem_singleton.mpr ⟨hname, hup⟩⟩

/-- What a text names in a working tree is plain. -/
theorem IsWorking.isPlain_named (h : IsWorking t) (text : String) : IsPlain (named t text) := by
  refine isPlain_absolute ?_ fun name hname => FilePath.isProper_of_mem_ofText hname
  unfold FileTree.start
  split
  · exact h.plain
  · exact List.forall_mem_nil _

/-! ## Files within the limits of a reader -/

/-- The brackets that may be open at once. How many more a reader takes depends on where it runs. -/
def depthLimit : Nat := 100

/-- The digits that a reader takes in a row. -/
def digitLimit : Nat := 4300

/-- Where a reader of JSON stands: how many brackets are open and how many digits are right behind it, and
whether it is in a string, at a character that is escaped there or not. -/
structure Standing where
  depth : Nat
  digits : Nat
  quoted : Bool
  escaped : Bool

namespace Standing

/-- Where a text begins. -/
def start : Standing := ⟨0, 0, false, false⟩

/-- Where a reader stands behind a character. -/
def next (r : Standing) (c : Char) : Standing :=
  if r.escaped then { r with escaped := false }
  else if r.quoted then { r with quoted := c ≠ '"', escaped := c = '\\' }
  else if c.isDigit then { r with digits := r.digits + 1 }
  else
    { r with
      depth := if c = '[' ∨ c = '\x7b' then r.depth + 1
        else if c = ']' ∨ c = '\x7d' then r.depth - 1 else r.depth
      digits := 0
      quoted := c = '"' }

end Standing

/-- Whether a reader stays within its limits all through a file that is a text. -/
def WithinLimits (bytes : List UInt8) : Prop :=
  ∀ text ∈ (Utf8.decode bytes).toOption, ∀ r ∈ text.scanl Standing.next .start,
    r.depth ≤ depthLimit ∧ r.digits ≤ digitLimit

instance (bytes : List UInt8) : Decidable (WithinLimits bytes) :=
  inferInstanceAs (Decidable (∀ text ∈ (Utf8.decode bytes).toOption, ∀ r ∈ text.scanl Standing.next .start,
    r.depth ≤ depthLimit ∧ r.digits ≤ digitLimit))

/-! ## What arguments lead to -/

theorem exists_readArguments (h : request t args = .ok (.invocation i)) :
    ∃ a, readArguments args = .ok a := by
  unfold request at h
  cases hread : readArguments args with
  | error e =>
      rw [hread] at h
      cases h
  | ok a => exact ⟨a, rfl⟩

/-- The schema file of arguments that are accepted can be read. -/
theorem exists_read_of_request (h : request t args = .ok (.invocation i)) :
    ∃ bytes, t.read (pathTo i.schema) = .ok bytes := by
  obtain ⟨a, hread⟩ := exists_readArguments h
  obtain ⟨-, places, path, place, -, -, hplace, rfl⟩ := (request_eq_ok_iff_exists hread).mp h
  obtain ⟨⟨-, hproblem⟩, rfl⟩ := resolveParameter_eq_ok_iff.mp hplace
  show ∃ bytes, t.read (pathTo (named t path)) = .ok bytes
  unfold FileTree.read
  cases hfind : t.find (pathTo (named t path)) with
  | error fault =>
      rw [hfind] at hproblem
      cases hproblem
  | ok entry =>
      cases entry with
      | file bytes => exact ⟨bytes, rfl⟩
      | directory =>
          rw [hfind] at hproblem
          cases hproblem

/-- The directory that arguments give for the module is one that a text names. -/
theorem exists_named_of_request (h : request t args = .ok (.invocation i)) (hplace : i.outputDir = some place) :
    ∃ text, place = named t text := by
  obtain ⟨a, hread⟩ := exists_readArguments h
  obtain ⟨-, places, path, schema, hplaces, -, -, rfl⟩ := (request_eq_ok_iff_exists hread).mp h
  obtain ⟨-, hresolve⟩ := (lookup_resolveOptions hplaces .outputDir place).mp hplace
  exact ⟨_, (resolveParameter_eq_ok_iff.mp hresolve).2⟩

/-! ## The places of the outputs -/

/-- The directory of the module of an invocation without a settings file. -/
def Invocation.moduleDirectory (t : FileTree) (i : Invocation) : Location :=
  i.outputDir.getD (t.current ++ ["node_modules", "@types", "contentlayer", "types"])

/-- The place of the module. -/
def Invocation.modulePlace (t : FileTree) (i : Invocation) : Location :=
  i.moduleDirectory t ++ ["index.d.ts"]

/-- The place of the schema, if it is to be written. -/
def schemaPlace (t : FileTree) : Location := t.current ++ [".contentlayer", schemaFileName]

/-- The texts that name the paths of the output. -/
def Invocation.places (i : Invocation) : OutputPlaces where
  targetDir := match i.outputDir with
    | some place => (pathTo place).display
    | none => "node_modules/@types/contentlayer/types"
  fileName := "index.d.ts"
  artifactsDir := ".contentlayer"

theorem names_configured (i : Invocation) :
    (i.configured .initial).Names (i.configuredOutput .initial) i.places := by
  refine ⟨rfl, ?_, rfl, rfl⟩
  unfold Invocation.configuredOutput Invocation.places
  cases i.outputDir <;> rfl

theorem target_places (i : Invocation) :
    i.places.target = (FilePath.ofText i.places.targetDir).child "index.d.ts" := by
  have hname : FilePath.ofText "index.d.ts" = ⟨.current, ["index.d.ts"]⟩ := by decide
  rw [OutputPlaces.target, show i.places.fileName = "index.d.ts" from rfl, hname]
  rfl

theorem artifacts_places (i : Invocation) : i.places.artifacts = ⟨.current, [".contentlayer"]⟩ := by
  show FilePath.ofText ".contentlayer" = _
  decide

/-- The path of the module's directory never goes up and leads to its place. -/
theorem placeOf_targetDir (h : IsWorking t) (hrequest : request t args = .ok (.invocation i)) :
    FilePath.upName ∉ (FilePath.ofText i.places.targetDir).names ∧
      t.placeOf (FilePath.ofText i.places.targetDir) = i.moduleDirectory t := by
  unfold Invocation.places Invocation.moduleDirectory
  cases hdir : i.outputDir with
  | none =>
      have hpath : FilePath.ofText "node_modules/@types/contentlayer/types" =
          ⟨.current, ["node_modules", "@types", "contentlayer", "types"]⟩ := by decide
      dsimp only
      rw [hpath]
      exact ⟨by decide, rfl⟩
  | some place =>
      obtain ⟨text, rfl⟩ := exists_named_of_request hrequest hdir
      have hplain := h.isPlain_named text
      dsimp only
      rw [pathTo, FilePath.ofText_display fun name hname => (hplain name hname).1]
      exact ⟨fun hup => (hplain _ hup).2 rfl, rfl⟩

/-- The schema is not written if a directory is in its place, since its directory is below the working
directory. -/
theorem IsWorking.faultIff_writeSchema (h : IsWorking t) (i : Invocation) (schema : Schema) :
    FaultIff (writeSchema t schema i.places.artifacts).2 (t.get? (schemaPlace t) = some .directory) := by
  have hup : FilePath.upName ∉ i.places.artifacts.names := by
    rw [artifacts_places]
    decide
  refine (h.toRooted.faultIff_writeSchema hup schema).congr ?_
  -- all that is above it is the working directory and what that stands in
  have hbelow : ¬t.LiesBelowFile (t.placeOf i.places.artifacts) := by
    rintro ⟨above, habove, hne, hfile⟩
    rw [artifacts_places] at habove hne
    have habove' : above <+: t.current := (List.prefix_concat_iff.mp habove).resolve_left hne
    rw [files, h.open_start ⟨.current, []⟩ above habove'] at hfile
    cases hfile
  have hplace : t.placeOf (i.places.artifacts.child schemaFileName) = schemaPlace t := by
    rw [artifacts_places]
    rfl
  rw [hplace, or_iff_right hbelow]

theorem IsWorking.faultIff_writeModule (h : IsWorking t) (hrequest : request t args = .ok (.invocation i))
    (hrooted : u.Rooted) (hkeeps : KeepsDirectories t u) (text : String) :
    FaultIff (writeModule u (i.configuredOutput .initial) i.places.target text).2
      (u.LiesBelowFile (i.moduleDirectory t) ∨
        (Text.encodeFault? text ≠ none ∧ u.files (i.moduleDirectory t) = none ∧
          (i.mode = some .refuse → u.isThere i.places.target ≠ .ok true)) ∨
        i.mode ≠ some .refuse ∧ checkDeclarations text = .ok () ∧
          u.get? (i.modulePlace t) = some .directory) := by
  obtain ⟨hup, hplace⟩ := placeOf_targetDir h hrequest
  have hmode : (i.configuredOutput .initial).mode = .known .refuse ↔ i.mode = some .refuse := by
    unfold Invocation.configuredOutput
    cases i.mode with
    | none => simp [OutputSettings.initial]
    | some mode => simp
  have htarget : FilePath.upName ∉ i.places.target.names := by
    rw [target_places, FilePath.names_child, List.mem_append, not_or]
    exact ⟨hup, by decide⟩
  have hne : i.places.target.names ≠ [] := by simp [target_places, FilePath.child]
  have hatomic : (i.configuredOutput .initial).atomicWrite.holds = true := rfl
  have hwrite := hrooted.faultIff_writeModule htarget hne hatomic text
  have hdirectory : u.placeOf i.places.target.parent = i.moduleDirectory t := by
    rw [target_places, FilePath.parent_child, hkeeps.placeOf_eq, hplace]
  have hmodule : u.placeOf i.places.target = i.modulePlace t := by
    rw [hkeeps.placeOf_eq, target_places, Invocation.modulePlace, ← hplace, placeOf, placeOf,
      FilePath.names_child, List.append_assoc]
    rfl
  simp only [hdirectory, hmodule, ne_eq, hmode] at hwrite
  exact hwrite

/-! ## Errors that are handed on -/

/-- Whether the command has no words for an error. -/
def CommandError.HandedOn (e : CommandError) : Prop := ∀ text, ¬Reported e text

/-- Whether an error is one of the limits of paths. -/
def CommandError.OfLimits : CommandError → Prop
  | .generate (.write error) => error.OfLimits
  | _ => False

theorem handedOn_write_iff {error : WriteError Unsound} :
    (CommandError.generate (.write error)).HandedOn ↔ error.IsFault := by
  cases error with
  | rejected reason => exact iff_of_false (fun h => h _ (.unsound reason)) id
  | refused path => exact iff_of_false (fun h => h _ (.refused path)) id
  | unencodable fault => exact iff_of_true nofun trivial
  | file e =>
      obtain ⟨fault, path⟩ := e
      constructor
      · rintro h rfl
        exact h _ (.alreadyThere path)
      · rintro h _ ⟨⟩
        exact h rfl

theorem handedOn_render (e : RenderError) : (CommandError.generate (.render e)).HandedOn := by
  rintro _ ⟨⟩

/-- What is handed on about a schema file is that it is no text, or that a key of it cannot be one. -/
theorem handedOn_schemaFile_iff {defect : FileDefect} : (CommandError.schemaFile defect).HandedOn ↔
    (∃ fault, defect = .notText fault) ∨ ∃ kind, defect = .notSchema (.unusableKey kind) := by
  cases defect with
  | notText fault => exact iff_of_true nofun (.inl ⟨fault, rfl⟩)
  | notJson fault => exact iff_of_false (fun h => h _ (.notJson fault)) (by simp)
  | notSchema error =>
      cases error with
      | malformed place problem => exact iff_of_false (fun h => h _ (.malformed place problem)) (by simp)
      | unusableKey kind => exact iff_of_true nofun (.inr ⟨kind, rfl⟩)

/-! ## When an error is handed on -/

/-- Whether a run without a settings file, whose schema file has these bytes, hands an error on that is not
one of the limits of paths. -/
inductive Invocation.HandsOn (t : FileTree) (i : Invocation) (bytes : List UInt8) : Prop where
  /-- The schema file is no text. -/
  | notText {fault : Utf8.Fault} (h : Utf8.decode bytes = .error fault)
  /-- What is wrong with the schema first is that a kind or a name is no scalar. -/
  | key {raw : Value} {r : Requirement} (hraw : Schema.valueOfBytes bytes = .ok raw)
      (hfirst : FirstUnmet raw r) (hkey : r.demand = .key)
  /-- A directory is in the place of the schema that is to be written. -/
  | schemaFile {schema : Schema} (hload : Schema.ofBytes bytes = .ok schema) (hasked : i.schemaJson = true)
      (hdir : t.get? (schemaPlace t) = some .directory)
  /-- A name that has to be a text is none. -/
  | misnamed {schema : Schema} {u : FileTree} {written : Option FilePath}
      (hload : Schema.ofBytes bytes = .ok schema)
      (hschema : generateSchema t (i.configured .initial) schema = (u, .ok written))
      (hmisnamed : schema.Misnamed)
  /-- A file is above the directory of the module, once the schema is written. -/
  | belowFile {schema : Schema} {u : FileTree} {written : Option FilePath}
      (hload : Schema.ofBytes bytes = .ok schema)
      (hschema : generateSchema t (i.configured .initial) schema = (u, .ok written))
      (hnamed : ¬schema.Misnamed) (hbelow : u.LiesBelowFile (i.moduleDirectory t))
  /-- The module has no bytes, and is written since its directory is no file and it is not refused. -/
  | unencodable {schema : Schema} {u : FileTree} {written : Option FilePath} {text : String}
      (hload : Schema.ofBytes bytes = .ok schema)
      (hschema : generateSchema t (i.configured .initial) schema = (u, .ok written))
      (htext : moduleText (i.configured .initial) schema = .ok text) (hbytes : Text.encodeFault? text ≠ none)
      (hfree : u.files (i.moduleDirectory t) = none)
      (hmode : i.mode = some .refuse → u.isThere i.places.target ≠ .ok true)
  /-- A directory is in the place of the module, which is sound and may be replaced. -/
  | directory {schema : Schema} {u : FileTree} {written : Option FilePath} {text : String}
      (hload : Schema.ofBytes bytes = .ok schema)
      (hschema : generateSchema t (i.configured .initial) schema = (u, .ok written))
      (htext : moduleText (i.configured .initial) schema = .ok text) (hsound : checkDeclarations text = .ok ())
      (hmode : i.mode ≠ some .refuse) (hdir : u.get? (i.modulePlace t) = some .directory)

theorem generateSchemaJson_configured (i : Invocation) :
    (i.configured .initial).generateSchemaJson.holds = i.schemaJson := by
  unfold Invocation.configured
  cases i.schemaJson <;> rfl

theorem snd_loadAndGenerate (hread : t.read (pathTo place) = .ok bytes) (settings : Settings) :
    (loadAndGenerate t place settings).2 =
      match Schema.ofBytes bytes with
      | .error defect => .error (.schemaFile defect)
      | .ok schema => (generate t settings schema).result.mapError .generate := by
  simp only [loadAndGenerate, loadSchema, hread, Except.mapError, bind, Except.bind]
  cases Schema.ofBytes bytes <;> rfl

theorem handsOn_of_schemaFile {defect : FileDefect} (hload : Schema.ofBytes bytes = .error defect)
    (hhanded : (CommandError.schemaFile defect).HandedOn) : i.HandsOn t bytes := by
  rcases handedOn_schemaFile_iff.mp hhanded with ⟨fault, rfl⟩ | ⟨kind, rfl⟩
  · exact .notText (Schema.ofBytes_eq_error_notText_iff.mp hload)
  · obtain ⟨raw, hraw, hkey⟩ := Schema.ofBytes_eq_error_notSchema_iff.mp hload
    obtain ⟨r, hfirst, herror⟩ := Schema.ofValue_eq_error_iff.mp hkey
    exact .key hraw hfirst (r.exists_error_eq_unusableKey_iff.mp ⟨kind, herror⟩)

/-- What is handed on since the schema is not written. -/
theorem IsWorking.handsOn_of_generateSchema (h : IsWorking t) {e : GenerateError}
    (hload : Schema.ofBytes bytes = .ok schema)
    (hschema : generateSchema t (i.configured .initial) schema = (u, .error e))
    (hhanded : (CommandError.generate e).HandedOn) :
    (CommandError.generate e).OfLimits ∨ i.HandsOn t bytes := by
  rw [generateSchema_eq (names_configured i), generateSchemaJson_configured] at hschema
  split at hschema
  · rename_i hasked
    split at hschema
    · cases hschema
    · rename_i error hwrite
      cases hschema
      have hfault := (h.faultIff_writeSchema i schema).of_fault error (congrArg Prod.snd hwrite)
        (handedOn_write_iff.mp hhanded)
      exact hfault.imp id fun hdir => .schemaFile hload hasked hdir
  · cases hschema

/-- What is handed on since there is no module, or since it is not written. -/
theorem IsWorking.handsOn_of_generateModule (h : IsWorking t)
    (hrequest : request t args = .ok (.invocation i)) {written : Option FilePath} {e : GenerateError}
    (hload : Schema.ofBytes bytes = .ok schema)
    (hschema : generateSchema t (i.configured .initial) schema = (u, .ok written))
    (hmodule : (generateModule u (i.configured .initial) schema).2 = .error e)
    (hhanded : (CommandError.generate e).HandedOn) :
    (CommandError.generate e).OfLimits ∨ i.HandsOn t bytes := by
  obtain ⟨hrooted, hkeeps⟩ := h.of_generateSchema (names_configured i) hschema
  rw [generateModule_eq (names_configured i)] at hmodule
  -- without a module there is nothing to write, and with one the write is what fails
  by_cases hmisnamed : schema.Misnamed
  · exact .inr (.misnamed hload hschema hmisnamed)
  obtain ⟨text, htext⟩ : ∃ text, moduleText (i.configured .initial) schema = .ok text :=
    exists_moduleText_iff.mpr hmisnamed
  simp only [htext] at hmodule
  split at hmodule
  · cases hmodule
  · rename_i error hwrite
    cases hmodule
    have hfault := (h.faultIff_writeModule hrequest hrooted hkeeps text).of_fault error
      (congrArg Prod.snd hwrite) (handedOn_write_iff.mp hhanded)
    rcases hfault with hlimits | hbelow | ⟨hbytes, hfree, hmode⟩ | ⟨hmode, hsound, hdir⟩
    · exact .inl hlimits
    · exact .inr (.belowFile hload hschema hmisnamed hbelow)
    · exact .inr (.unencodable hload hschema htext hbytes hfree hmode)
    · exact .inr (.directory hload hschema htext hsound hmode hdir)

/-- What is handed on by a run is one of the limits of paths, or what `Invocation.HandsOn` says. -/
theorem IsWorking.handsOn_of_error (h : IsWorking t) (hrequest : request t args = .ok (.invocation i))
    (hread : t.read (pathTo i.schema) = .ok bytes) {e : CommandError}
    (herror : (loadAndGenerate t i.schema (i.configured .initial)).2 = .error e) (hhanded : e.HandedOn) :
    e.OfLimits ∨ i.HandsOn t bytes := by
  rw [snd_loadAndGenerate hread] at herror
  cases hload : Schema.ofBytes bytes with
  | error defect =>
      rw [hload] at herror
      cases herror
      exact .inr (handsOn_of_schemaFile hload hhanded)
  | ok schema =>
      simp only [hload, result_generate (names_configured i)] at herror
      rcases hschema : generateSchema t (i.configured .initial) schema with ⟨u, error | written⟩
      · rw [hschema] at herror
        cases herror
        exact h.handsOn_of_generateSchema hload hschema hhanded
      · simp only [hschema] at herror
        cases hmodule : (generateModule u (i.configured .initial) schema).2 with
        | error error =>
            rw [hmodule] at herror
            cases herror
            exact h.handsOn_of_generateModule hrequest hload hschema hmodule hhanded
        | ok path =>
            rw [hmodule] at herror
            cases herror

/-- A module that cannot be written for a fault of the files ends the run with it. -/
theorem exists_error_of_writeModule {written : Option FilePath} {text : String}
    (hread : t.read (pathTo i.schema) = .ok bytes) (hload : Schema.ofBytes bytes = .ok schema)
    (hschema : generateSchema t (i.configured .initial) schema = (u, .ok written))
    (htext : moduleText (i.configured .initial) schema = .ok text)
    (hfault : ∃ error, (writeModule u (i.configuredOutput .initial) i.places.target text).2 = .error error ∧
      error.IsFault) :
    ∃ e, (loadAndGenerate t i.schema (i.configured .initial)).2 = .error e ∧ e.HandedOn := by
  obtain ⟨error, herror, hfault⟩ := hfault
  refine ⟨_, ?_, handedOn_write_iff.mpr hfault⟩
  rw [snd_loadAndGenerate hread, hload]
  simp only [result_generate (names_configured i), hschema, generateModule_eq (names_configured i), htext]
  rcases hwrite : writeModule u (i.configuredOutput .initial) i.places.target text with ⟨v, error' | ⟨⟩⟩
  · rw [hwrite] at herror
    cases herror
    rfl
  · rw [hwrite] at herror
    cases herror

/-- What `Invocation.HandsOn` says is handed on. -/
theorem IsWorking.exists_error_of_handsOn (h : IsWorking t)
    (hrequest : request t args = .ok (.invocation i)) (hread : t.read (pathTo i.schema) = .ok bytes)
    (hhands : i.HandsOn t bytes) :
    ∃ e, (loadAndGenerate t i.schema (i.configured .initial)).2 = .error e ∧ e.HandedOn := by
  cases hhands with
  | @notText fault hdecode =>
      refine ⟨_, ?_, handedOn_schemaFile_iff.mpr (.inl ⟨fault, rfl⟩)⟩
      rw [snd_loadAndGenerate hread, Schema.ofBytes_eq_error_notText_iff.mpr hdecode]
  | @key raw r hraw hfirst hkey =>
      obtain ⟨kind, herror⟩ := r.exists_error_eq_unusableKey_iff.mpr hkey
      have hdefect := Schema.ofValue_eq_error_iff.mpr ⟨r, hfirst, herror⟩
      have hload := Schema.ofBytes_eq_error_notSchema_iff.mpr ⟨raw, hraw, hdefect⟩
      refine ⟨_, ?_, handedOn_schemaFile_iff.mpr (.inr ⟨kind, rfl⟩)⟩
      rw [snd_loadAndGenerate hread, hload]
  | @schemaFile schema hload hasked hdir =>
      obtain ⟨error, herror, hfault⟩ := (h.faultIff_writeSchema i schema).fault hdir
      refine ⟨_, ?_, handedOn_write_iff.mpr hfault⟩
      rw [snd_loadAndGenerate hread, hload]
      simp only [result_generate (names_configured i), generateSchema_eq (names_configured i),
        generateSchemaJson_configured, if_pos hasked]
      rcases hwrite : writeSchema t schema i.places.artifacts with ⟨v, error' | path⟩
      · rw [hwrite] at herror
        cases herror
        rfl
      · rw [hwrite] at herror
        cases herror
  | @misnamed schema u written hload hschema hmisnamed =>
      cases htext : moduleText (i.configured .initial) schema with
      | ok text => exact absurd hmisnamed (exists_moduleText_iff.mp ⟨text, htext⟩)
      | error error =>
          refine ⟨_, ?_, handedOn_render error⟩
          rw [snd_loadAndGenerate hread, hload]
          simp only [result_generate (names_configured i), hschema,
            generateModule_eq (names_configured i), htext]
          rfl
  | belowFile hload hschema hnamed hbelow =>
      obtain ⟨hrooted, hkeeps⟩ := h.of_generateSchema (names_configured i) hschema
      obtain ⟨text, htext⟩ := exists_moduleText_iff.mpr hnamed
      exact exists_error_of_writeModule hread hload hschema htext
        ((h.faultIff_writeModule hrequest hrooted hkeeps text).fault (.inl hbelow))
  | @unencodable schema u written text hload hschema htext hbytes hfree hmode =>
      obtain ⟨hrooted, hkeeps⟩ := h.of_generateSchema (names_configured i) hschema
      exact exists_error_of_writeModule hread hload hschema htext
        ((h.faultIff_writeModule hrequest hrooted hkeeps text).fault (.inr (.inl ⟨hbytes, hfree, hmode⟩)))
  | @directory schema u written text hload hschema htext hsound hmode hdir =>
      obtain ⟨hrooted, hkeeps⟩ := h.of_generateSchema (names_configured i) hschema
      exact exists_error_of_writeModule hread hload hschema htext
        ((h.faultIff_writeModule hrequest hrooted hkeeps text).fault (.inr (.inr ⟨hmode, hsound, hdir⟩)))

/-! ## Runs -/

/-- Whether a run has ended with the path of the module, or with a report of an error. -/
inductive Outcome.Reports (o : Outcome) : Prop where
  | written {path : FilePath} (hcode : o.exitCode = 0) (hstdout : o.stdout = successText path)
      (hescaped : o.escaped = none)
  | error {log text : String} (hcode : o.exitCode = 1) (hstderr : o.stderr = log ++ "Error: " ++ text ++ "\n")
      (hescaped : o.escaped = none)

theorem settings_of_config_eq_none (hconfig : i.config = none) :
    i.settings t = .ok (i.configured .initial) := by
  have hbase : i.base t = .ok .initial := by rw [Invocation.base, hconfig]
  rw [settings_of_base hbase, Invocation.override_of_canSet (.inl ⟨_, rfl⟩)]
  rfl

/-- A run reports how it ended, unless that is an error that is handed on. -/
theorem Outcome.Shows.reports_or {o : Outcome} {verbose : Bool} {result : Except CommandError FilePath}
    (h : o.Shows verbose result) :
    o.Reports ∨ ∃ e, result = .error e ∧ e.HandedOn ∧ o.exitCode = 1 ∧ o.escaped = some e := by
  cases hresult : result with
  | ok path =>
      obtain ⟨hcode, hstdout, hescaped, -⟩ := h.returned path hresult
      exact .inl (.written hcode hstdout hescaped)
  | error e =>
      by_cases hhanded : e.HandedOn
      · obtain ⟨hcode, -, hescaped, -⟩ := h.passed e hresult hhanded
        exact .inr ⟨e, rfl, hhanded, hcode, hescaped⟩
      · obtain ⟨text, htext⟩ := not_forall_not.mp hhanded
        obtain ⟨hcode, -, hescaped, log, hstderr, -⟩ := h.reported e text hresult htext
        exact .inl (.error hcode hstderr hescaped)

/-- **What the command reports, and what it hands on.** A run without a settings file, with arguments that
are accepted in a working tree, reads the schema file. If that is within the limits of a reader, the run ends
with the path of the module or with a report, or it hands an error on, and then that is one of the limits of
paths or what is wrong is one of these: the file is no text; what is wrong with the schema first is a kind or
a name that is no scalar; a directory is in the place of the schema; a name that has to be a text is none; a
file is above the directory of the module; the module has no bytes, and there is a directory for it, or room
for one; or a directory is in the place of the module, unless the module is not sound or not to replace
anything. In each of these cases an error is handed on. -/
theorem run_reports (h : IsWorking t) (hrequest : request t args = .ok (.invocation i))
    (hconfig : i.config = none) :
    ∃ bytes, t.read (pathTo i.schema) = .ok bytes ∧ (WithinLimits bytes →
      ((run t args).Reports ∨ ∃ e, (run t args).exitCode = 1 ∧ (run t args).escaped = some e ∧
        (e.OfLimits ∨ i.HandsOn t bytes)) ∧
      (i.HandsOn t bytes → ∃ e, (run t args).escaped = some e)) := by
  obtain ⟨bytes, hread⟩ := exists_read_of_request hrequest
  obtain ⟨-, hshows⟩ := run_of_settings hrequest (settings_of_config_eq_none hconfig)
  refine ⟨bytes, hread, fun _ => ⟨?_, fun hhands => ?_⟩⟩
  · refine hshows.reports_or.imp id ?_
    rintro ⟨e, herror, hhanded, hcode, hescaped⟩
    exact ⟨e, hcode, hescaped, h.handsOn_of_error hrequest hread herror hhanded⟩
  · obtain ⟨e, herror, hhanded⟩ := h.exists_error_of_handsOn hrequest hread hhands
    obtain ⟨-, -, hescaped, -⟩ := hshows.passed e herror hhanded
    exact ⟨e, hescaped⟩

/-! ### A directory below the schema file, and a schema file that is no text -/

/-- A working directory with a file of these bytes in it. -/
def fileTree (bytes : List UInt8) : FileTree :=
  ⟨["work"], [(["work"], .directory), (["work", "s.json"], .file bytes)]⟩

theorem isWorking_fileTree (bytes : List UInt8) : IsWorking (fileTree bytes) := by
  have hrooted : (fileTree bytes).Rooted := by
    refine rooted_of_entries rfl ?_
    simp only [fileTree, List.forall_mem_cons]
    exact ⟨rfl, rfl, List.forall_mem_nil _⟩
  refine ⟨hrooted, List.forall_mem_singleton.mpr ⟨⟨by decide, by decide⟩, by decide⟩⟩

/-- What arguments ask for that name the file as the schema and a directory below it for the module. -/
def belowInvocation : Invocation :=
  ⟨["work", "s.json"], none, some ["work", "s.json", "types"], false, none, false⟩

theorem run_reports_below :
    IsWorking (fileTree (Schema.bytes ⟨[], []⟩)) ∧
      request (fileTree (Schema.bytes ⟨[], []⟩)) ["s.json", "-o", "s.json/types"] =
        .ok (.invocation belowInvocation) ∧
      belowInvocation.config = none ∧ WithinLimits (Schema.bytes ⟨[], []⟩) ∧
      ∃ e, (run (fileTree (Schema.bytes ⟨[], []⟩)) ["s.json", "-o", "s.json/types"]).escaped = some e := by
  have hrequest : request (fileTree (Schema.bytes ⟨[], []⟩)) ["s.json", "-o", "s.json/types"] =
      .ok (.invocation belowInvocation) := rfl
  have hload : Schema.ofBytes (Schema.bytes ⟨[], []⟩) = .ok ⟨[], []⟩ :=
    Schema.WellFormed.ofBytes_toJson
      ⟨⟨List.nodup_nil, List.forall_mem_nil _⟩, ⟨List.nodup_nil, List.forall_mem_nil _⟩,
        List.forall_mem_nil _, List.forall_mem_nil _⟩
      (by simp [Schema.toValue, Value.WellKeyed, WellKeyedMembers])
      (by simp (disch := decide) [Schema.toValue, Value.WellCoded, WellCodedMembers, Text.wellCoded_of_notMem])
      (by simp [Schema.toValue, Value.FloatFree, FloatFreeMembers])
  -- the file is in the way of the directory that is to be below it
  have hlimits : WithinLimits (Schema.bytes ⟨[], []⟩) := by decide
  obtain ⟨bytes, hread, hreports⟩ := run_reports (isWorking_fileTree _) hrequest rfl
  have hread' : (fileTree (Schema.bytes ⟨[], []⟩)).read (pathTo belowInvocation.schema) =
      .ok (Schema.bytes ⟨[], []⟩) := rfl
  obtain rfl : Schema.bytes ⟨[], []⟩ = bytes := Except.ok.inj (hread'.symm.trans hread)
  have hnamed : ¬Schema.Misnamed ⟨[], []⟩ := by
    rintro (⟨hd, -⟩ | ⟨hd, -⟩) <;> cases hd
  exact ⟨isWorking_fileTree _, hrequest, rfl, hlimits, (hreports hlimits).2 (.belowFile hload rfl hnamed
    ⟨["work", "s.json"], ⟨["types"], rfl⟩, by decide, rfl⟩)⟩

/-- The bytes of a schema file that is no text are not reported but handed on. -/
theorem run_notText :
    request (fileTree [0xff]) ["s.json"] =
        .ok (.invocation ⟨["work", "s.json"], none, none, false, none, false⟩) ∧
      (run (fileTree [0xff]) ["s.json"]).stderr = "" ∧
      ∃ fault, (run (fileTree [0xff]) ["s.json"]).escaped = some (.schemaFile (.notText fault)) :=
  ⟨rfl, rfl, _, rfl⟩

end CommandLine

end ContentTypes
