import ContentTypes.Proofs.Files.Obstacle
import ContentTypes.Proofs.Generation.Changes

/-!
# Faults of the files in a run

When a run ends because of the files, and not because of what it writes to them: the schema is not written,
or the module is not. What stands in the way of each of them is what stands in the way of any text.
-/

set_option autoImplicit false

namespace ContentTypes

open FileTree TypeScript

variable {t u : FileTree} {settings : Settings} {output : OutputSettings} {places : OutputPlaces}
  {schema : Schema} {path : FilePath}

/-! ## The schema -/

/-- A schema is written into a directory as any text is written to a file in it. -/
theorem snd_writeSchema (t : FileTree) (schema : Schema) (directory : FilePath) :
    (writeSchema t schema directory).2 =
      (writeText t true (directory.child schemaFileName) schema.toJson none).2.map
        fun _ => directory.child schemaFileName := by
  -- the directory is made before the file is written, and again as the one above the file
  unfold writeSchema makeArtifactsDir
  rcases hdirs : t.makeDirs directory with ⟨t', e | ⟨⟩⟩
  · have hwrite : writeText t true (directory.child schemaFileName) schema.toJson
        (none : Option (Check Unsound)) = (t', .error (.file e)) := by
      show writeAtomically _ _ _ _ = _
      rw [writeAtomically_eq, FilePath.parent_child, hdirs]
    rw [hwrite]
    rfl
  · have hparent : t.makeDirs (directory.child schemaFileName).parent = (t', .ok ()) := by
      rwa [FilePath.parent_child]
    rw [writeText_of_makeDirs hparent, writeText, if_pos rfl]
    dsimp only
    rcases writeAtomically t' (directory.child schemaFileName) schema.toJson
      (none : Option (Check Unsound)) with ⟨u, e | ⟨⟩⟩ <;> rfl

theorem FileTree.Rooted.faultIff_writeSchema {directory : FilePath} (h : t.Rooted)
    (hup : FilePath.upName ∉ directory.names) (schema : Schema) :
    FaultIff (writeSchema t schema directory).2
      (t.LiesBelowFile (t.placeOf directory) ∨
        t.get? (t.placeOf (directory.child schemaFileName)) = some .directory) := by
  have hup' : FilePath.upName ∉ (directory.child schemaFileName).names := by
    rw [FilePath.names_child, List.mem_append, not_or]
    exact ⟨hup, by decide⟩
  have hne : (directory.child schemaFileName).names ≠ [] := by simp [FilePath.names_child]
  rw [snd_writeSchema]
  refine ((h.faultIff_writeAtomically hup' hne schema.toJson none).map _).congr ?_
  have hcheck : runCheck (none : Option (Check Unsound)) schema.toJson = .ok () := rfl
  simp [FilePath.parent_child, schema.encodeFault?_toJson, hcheck]

/-- The tree with the schema in it has everything in directories still. -/
theorem FileTree.Rooted.of_generateSchema (h : t.Rooted) (hnames : settings.Names output places)
    {result : Except GenerateError (Option FilePath)}
    (hschema : generateSchema t settings schema = (u, result)) : u.Rooted ∧ KeepsDirectories t u := by
  rw [generateSchema_eq hnames] at hschema
  split at hschema
  · have houtcome := outcome_writeSchema (ε := Unsound) t schema places.artifacts
    have hrooted := houtcome.rooted h
    split at hschema
    all_goals
      rename_i hwrite
      cases hschema
      rw [hwrite] at hrooted houtcome
      exact ⟨hrooted, houtcome.grows.toKeepsDirectories⟩
  · cases hschema
    exact ⟨h, .refl t⟩

/-! ## The module -/

/-- The module is written to its place if it has bytes, or refused if something is there and is not to be
replaced. -/
theorem FileTree.Rooted.faultIff_writeModule (h : t.Rooted) (hup : FilePath.upName ∉ path.names)
    (hne : path.names ≠ []) (hatomic : output.atomicWrite.holds = true) (text : String) :
    FaultIff (writeModule t output path text).2
      (t.LiesBelowFile (t.placeOf path.parent) ∨
        (Text.encodeFault? text ≠ none ∧ t.files (t.placeOf path.parent) = none ∧
          (output.mode = .known .refuse → t.isThere path ≠ .ok true)) ∨
        output.mode ≠ .known .refuse ∧
          runCheck output.check text = .ok () ∧ t.get? (t.placeOf path) = some .directory) := by
  by_cases hmode : output.mode = .known .refuse
  · rw [writeModule_of_refuse hmode, hatomic]
    refine (h.faultIff_writeNew hup hne text output.check).congr (or_congr_right ?_)
    simp only [hmode, ne_eq, not_true, forall_const, false_and, or_false]
  · rw [writeModule_of_ne hmode, hatomic]
    refine (h.faultIff_writeAtomically hup hne text output.check).congr (or_congr_right ?_)
    simp only [hmode, ne_eq, not_false_iff, false_imp_iff, and_true, true_and]

/-! ## Runs -/

/-- A run ends with what ends the schema, or else with how the module ends. -/
theorem result_generate (hnames : settings.Names output places) (t : FileTree) (schema : Schema) :
    (generate t settings schema).result =
      match generateSchema t settings schema with
      | (_, .error e) => .error e
      | (u, .ok _) => (generateModule u settings schema).2 := by
  rcases generate_cases hnames.output_eq t schema with ⟨e, hschema, hresult⟩ |
    ⟨u, written, hschema, hmodule⟩
  · rw [hschema, hresult]
  · rw [hschema]
    exact (congrArg Prod.snd hmodule).symm

end ContentTypes
