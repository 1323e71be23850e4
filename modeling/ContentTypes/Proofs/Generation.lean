import ContentTypes.Generation
import ContentTypes.Proofs.Files.Write
import ContentTypes.Proofs.TypeScript.Module

/-!
# Generation passes its own check

A run that generates the module of a schema that can be written never fails because the module does
not pass the check of declarations (`generate_sound`).
-/

set_option autoImplicit false

namespace ContentTypes

open TypeScript

variable {t u : FileTree} {settings : Settings} {schema : Schema} {reason : Unsound}

/-! ## Where a text is rejected -/

/-- The schema is written without a check, so it is never rejected. -/
theorem writeSchema_ne_rejected {directory : FilePath} :
    writeSchema t schema directory ≠ (u, .error (.rejected reason)) := by
  intro h
  unfold writeSchema at h
  split at h
  · cases h
  · dsimp only at h
    split at h
    · cases h
    · rename_i hwrite
      cases h
      have hcheck := runCheck_of_writeAtomically hwrite
      cases hcheck

theorem generateSchema_ne_rejected :
    generateSchema t settings schema ≠ (u, .error (.write (.rejected reason))) := by
  intro h
  unfold generateSchema at h
  split at h
  · split at h
    · cases h
    · split at h
      · cases h
      · split at h
        · cases h
        · rename_i hwrite
          cases h
          exact writeSchema_ne_rejected hwrite
  · cases h

/-- A module is rejected only if it does not pass the check of declarations. -/
theorem checkDeclarations_of_writeModule {output : OutputSettings} {path : FilePath} {text : String}
    (h : writeModule t output path text = (u, .error (.rejected reason))) :
    checkDeclarations text = .error reason := by
  obtain ⟨check, hcheck⟩ : ∃ check : Option (Check Unsound), check =
    (if output.validateBeforeWrite.holds then some (.ordinary checkDeclarations) else none) := ⟨_, rfl⟩
  have hrun : runCheck check text = .error reason := by
    unfold writeModule at h
    simp only [← hcheck] at h
    split at h
    · exact runCheck_of_writeNew h
    · exact runCheck_of_writeText h
  split at hcheck
  · rwa [hcheck] at hrun
  · rw [hcheck] at hrun
    cases hrun

theorem checkDeclarations_of_generateModule
    (h : generateModule t settings schema = (u, .error (.write (.rejected reason)))) :
    ∃ text, moduleText settings schema = .ok text ∧ checkDeclarations text = .error reason := by
  unfold generateModule at h
  split at h
  · cases h
  · rename_i text htext
    refine ⟨text, htext, ?_⟩
    split at h
    · cases h
    · split at h
      · cases h
      · split at h
        · cases h
        · rename_i hwrite
          cases h
          exact checkDeclarations_of_writeModule hwrite

/-- A run is rejected only if the module does not pass the check of declarations. -/
theorem checkDeclarations_of_generate
    (h : (generate t settings schema).result = .error (.write (.rejected reason))) :
    ∃ text, moduleText settings schema = .ok text ∧ checkDeclarations text = .error reason := by
  unfold generate at h
  split at h
  · cases h
  · split at h
    · rename_i hschema
      cases h
      exact absurd hschema generateSchema_ne_rejected
    · split at h
      · cases h
      · rename_i hmodule
        cases h
        exact checkDeclarations_of_generateModule hmodule

/-! ## Sound modules -/

/-- **Generation passes its own check.** The module of a schema that can be written is written, the
braces of its skeleton are properly nested, it passes the check of declarations, and no run is rejected
by the check. -/
theorem generate_sound (settings : Settings) (schema : Schema) (hs : SettingsWritable settings)
    (h : SchemaWritable schema) :
    ∃ text, moduleText settings schema = .ok text ∧ ProperlyNested (skeleton text.toList) ∧
      checkDeclarations text = .ok () ∧
      ∀ (t : FileTree) (reason : Unsound),
        (generate t settings schema).result ≠ .error (.write (.rejected reason)) := by
  obtain ⟨text, htext, hpasses, hexport⟩ := exists_moduleText hs h
  have hcheck := checkDeclarations_eq_ok hpasses hexport
  refine ⟨text, htext, hpasses.properlyNested, hcheck, ?_⟩
  intro t reason hrejected
  obtain ⟨text', htext', hcheck'⟩ := checkDeclarations_of_generate hrejected
  rw [htext] at htext'
  cases htext'
  rw [hcheck] at hcheck'
  cases hcheck'

/-- A schema with braces and quotes where they are written into comments, literals and types. -/
def sampleSchema : Schema where
  documents := [(.str "Post",
    { name := .str "Post"
      label := .str "It's \x7b"
      description := .null
      fields := [⟨.str "tag", .bool true, .str "`\x7d", .null,
        .list (some (.inlineObject [⟨.str "kind", .bool false, .null, .null,
          .enumeration [.str "\x7b", .str "/*"]⟩]))⟩]
      computed := [⟨.str "url", .str "\x7b at: '\x7d' \x7d", .null⟩]
      filePathPattern := .null })]
  objects := []

theorem generate_sound_sampleSchema :
    SettingsWritable .initial ∧ SchemaWritable sampleSchema ∧
      ∃ text, moduleText .initial sampleSchema = .ok text ∧ ProperlyNested (skeleton text.toList) ∧
        checkDeclarations text = .ok () ∧
        ∀ (t : FileTree) (reason : Unsound),
          (generate t .initial sampleSchema).result ≠ .error (.write (.rejected reason)) := by
  have hs : SettingsWritable .initial := ⟨⟨_, rfl, by decide⟩, by decide⟩
  have hkind : FieldWritable
      ⟨.str "kind", .bool false, .null, .null, .enumeration [.str "\x7b", .str "/*"]⟩ :=
    ⟨⟨_, rfl, by decide⟩, fun h => absurd h (by decide), by simp only [TypeWritable]; decide⟩
  have htype : Passes 0 ("\x7b at: " ++ "'" ++ "\x7d" ++ "'" ++ " \x7d") 0 := by
    have hopen : Passes 0 "\x7b at: " 1 := passes_of_quiet (by decide) rfl
    exact (hopen.quoted (by decide)).append (passes_of_quiet (by decide) rfl)
  obtain ⟨bones, hscan, hnests⟩ := htype.scan
  have hurl : ComputedWritable ⟨.str "url", .str "\x7b at: '\x7d' \x7d", .null⟩ :=
    ⟨⟨_, rfl, by decide⟩, fun h => absurd h (by decide), bones, hscan, hnests.properlyNested⟩
  have h : SchemaWritable sampleSchema := by
    refine ⟨List.forall_mem_singleton.mpr ⟨⟨⟨_, rfl, by decide⟩, ?_, ?_, ?_⟩, ?_⟩, List.forall_mem_nil _⟩
    · exact fun h => absurd h (by decide)
    · exact fun _ _ => by decide
    · exact ⟨⟨⟨_, rfl, by decide⟩, fun _ => by decide, hkind, trivial⟩, trivial⟩
    · exact List.forall_mem_singleton.mpr hurl
  exact ⟨hs, h, generate_sound .initial sampleSchema hs h⟩

end ContentTypes
