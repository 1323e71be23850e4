import ContentTypes.Proofs.CommandLine.Arguments

/-!
# Runs of the command

A run of the command is the generation of a module with settings that options have changed. `run_faithful`
says so for every list of arguments that is accepted: the tree is the one that loading the schema and
generating its module leaves (`loadAndGenerate`), with the settings of the settings file and what the
options set in them (`Invocation.configured`); the exit code and what is printed follow from how that ends
(`Outcome.Shows`); and the order of the arguments does not matter.
-/

set_option autoImplicit false

namespace ContentTypes.CommandLine

variable {t : FileTree} {args : List String} {a : Arguments} {i : Invocation} {s : Settings}

/-! ## Settings that options change -/

/-- The settings that options start from: those of the settings file, or the initial ones. -/
def Invocation.base (t : FileTree) (i : Invocation) : Except CommandError Settings :=
  match i.config with
  | some place => settingsOfFile t place
  | none => .ok .initial

/-- The settings of the output with those that options set. -/
def Invocation.configuredOutput (i : Invocation) (o : OutputSettings) : OutputSettings :=
  { o with
    targetDir := match i.outputDir with
      | some place => .str (pathTo place).display
      | none => o.targetDir
    mode := match i.mode with
      | some mode => .known mode
      | none => o.mode }

/-- The settings with those that options set. -/
def Invocation.configured (i : Invocation) (s : Settings) : Settings :=
  { s with
    generateSchemaJson := if i.schemaJson then .bool true else s.generateSchemaJson
    output := match s.output with
      | .settings o => .settings (i.configuredOutput o)
      | output => output }

/-- Whether there is an output to set what options ask for, if they ask for anything. -/
def Invocation.CanSet (i : Invocation) (s : Settings) : Prop :=
  (∃ o, s.output = .settings o) ∨ (i.outputDir = none ∧ i.mode = none)

theorem Invocation.override_of_canSet (h : i.CanSet s) : i.override s = .ok (i.configured s) := by
  obtain ⟨schema, config, outputDir, schemaJson, mode, verbose⟩ := i
  obtain ⟨comment, markdown, globals, json, output, conversion⟩ := s
  rcases h with ⟨o, rfl⟩ | ⟨rfl, rfl⟩
  · cases outputDir <;> cases mode <;> cases schemaJson <;> rfl
  · cases schemaJson <;> cases output <;> rfl

/-- The schema that a file holds. -/
def loadSchema (t : FileTree) (place : Location) : Except CommandError Schema := do
  let bytes ← (t.read (pathTo place)).mapError .unreadable
  (Schema.ofBytes bytes).mapError .schemaFile

/-- Loads the schema in a file and generates its module: the tree that is left, and the path of the module
or an error. -/
def loadAndGenerate (t : FileTree) (place : Location) (s : Settings) :
    FileTree × Except CommandError FilePath :=
  match loadSchema t place with
  | .error e => (t, .error e)
  | .ok schema => ((generate t s schema).tree, (generate t s schema).result.mapError .generate)

theorem perform_of_settings (h : i.settings t = .ok s) :
    (i.perform t).tree = (loadAndGenerate t i.schema s).1 ∧
      (i.perform t).result = (loadAndGenerate t i.schema s).2 := by
  simp only [Invocation.perform, h, loadAndGenerate, loadSchema]
  cases t.read (pathTo i.schema) with
  | error e => exact ⟨rfl, rfl⟩
  | ok bytes =>
      simp only [Except.mapError, bind, Except.bind]
      cases Schema.ofBytes bytes with
      | error defect => exact ⟨rfl, rfl⟩
      | ok schema => exact ⟨rfl, rfl⟩

/-- The errors that the command reports, with their wording: a schema file that is no schema, a module that
is not sound, and a file that is there already. -/
inductive Reported : CommandError → String → Prop
  | notJson (fault : Json.SyntaxError) :
      Reported (.schemaFile (.notJson fault)) s!"invalid JSON: {fault.message}"
  | malformed (place : Pointer) (problem : Problem) :
      Reported (.schemaFile (.notSchema (.malformed place problem)))
        s!"{place.display}: {problem.message}"
  | unsound (reason : TypeScript.Unsound) :
      Reported (.generate (.write (.rejected reason))) reason.message
  | refused (path : FilePath) : Reported (.generate (.write (.refused path))) (refusal path)
  | alreadyThere (path : FilePath) :
      Reported (.generate (.write (.file ⟨.alreadyThere, path⟩)))
        s!"[Errno 17] File exists: {Text.quoted path.display}"

theorem report?_eq_some_iff {e : CommandError} {text : String} :
    e.report? = some text ↔ Reported e text := by
  constructor
  · intro h
    unfold CommandError.report? at h
    split at h
    · cases h
    · cases h
    · rename_i defect htext hkey
      cases h
      cases defect with
      | notText fault => exact absurd rfl (htext fault)
      | notJson fault => exact .notJson fault
      | notSchema error =>
          cases error with
          | malformed place problem => exact .malformed place problem
          | unusableKey found => exact absurd rfl (hkey found)
    · cases h
      exact .unsound _
    · cases h
      exact .refused _
    · cases h
      exact .alreadyThere _
    · cases h
  · rintro ⟨⟩ <;> rfl

/-- Whether an outcome shows how a run ended: a module that is written by its path, an error that is reported
by its words, and any other error by being handed on. A log goes in front of the words, and only if it is
asked for. -/
structure Outcome.Shows (o : Outcome) (verbose : Bool) (result : Except CommandError FilePath) :
    Prop where
  returned : ∀ path, result = .ok path →
    o.exitCode = 0 ∧ o.stdout = successText path ∧ o.escaped = none ∧ (verbose = false → o.stderr = "")
  reported : ∀ e text, result = .error e → Reported e text →
    o.exitCode = 1 ∧ o.stdout = "" ∧ o.escaped = none ∧
      ∃ log, o.stderr = log ++ "Error: " ++ text ++ "\n" ∧ (verbose = false → log = "")
  passed : ∀ e, result = .error e → (∀ text, ¬Reported e text) →
    o.exitCode = 1 ∧ o.stdout = "" ∧ o.escaped = some e ∧ (verbose = false → o.stderr = "")

theorem shows_outcome (e : Ending) (verbose : Bool) : (e.outcome verbose).Shows verbose e.result := by
  obtain ⟨tree, result, notices⟩ := e
  unfold Ending.outcome
  dsimp only
  cases result with
  | ok path =>
      refine ⟨?_, nofun, nofun⟩
      rintro _ ⟨⟩
      exact ⟨rfl, rfl, rfl, fun h => if_neg (by simp [h])⟩
  | error error =>
      dsimp only
      cases hreport : error.report? with
      | some text =>
          refine ⟨nofun, ?_, ?_⟩
          · rintro _ text' ⟨⟩ htext
            have heq := report?_eq_some_iff.mpr htext
            rw [hreport] at heq
            cases heq
            exact ⟨rfl, rfl, rfl, _, rfl, fun h => if_neg (by simp [h])⟩
          · rintro _ ⟨⟩ hnot
            exact absurd (report?_eq_some_iff.mp hreport) (hnot text)
      | none =>
          refine ⟨nofun, ?_, ?_⟩
          · rintro _ text' ⟨⟩ htext
            rw [report?_eq_some_iff.mpr htext] at hreport
            cases hreport
          · rintro _ ⟨⟩ -
            exact ⟨rfl, rfl, rfl, fun h => if_neg (by simp [h])⟩

/-! ## The run -/

theorem run_of_request (h : request t args = .ok (.invocation i)) :
    run t args = (i.perform t).outcome i.verbose := by
  rw [run, h]

theorem settings_eq (t : FileTree) (i : Invocation) :
    i.settings t = i.base t >>= fun s => (i.override s).mapError .settings := by
  unfold Invocation.settings Invocation.base
  cases i.config with
  | some place => rfl
  | none => rfl

theorem settings_of_base (hbase : i.base t = .ok s) :
    i.settings t = (i.override s).mapError .settings := by
  rw [settings_eq, hbase]
  rfl

/-- A run with settings leaves the tree of generating, and shows how it ended. -/
theorem run_of_settings (hrequest : request t args = .ok (.invocation i)) (h : i.settings t = .ok s) :
    (run t args).tree = (loadAndGenerate t i.schema s).1 ∧
      (run t args).Shows i.verbose (loadAndGenerate t i.schema s).2 := by
  obtain ⟨htree, hresult⟩ := perform_of_settings h
  have hshows := shows_outcome (i.perform t) i.verbose
  rw [run_of_request hrequest]
  rw [hresult] at hshows
  refine ⟨?_, hshows⟩
  rw [← htree]
  unfold Ending.outcome
  dsimp only
  split
  · rfl
  · split <;> rfl

end ContentTypes.CommandLine
