import ContentTypes.Proofs.Sorting
import ContentTypes.Proofs.TypeScript.Balance
import ContentTypes.TypeScript.Module
import ContentTypes.TypeScript.Skeleton

/-!
# Modules close what they open

The module of a schema that can be written is written, the braces of its skeleton are properly nested,
and so it passes the check of declarations (`exists_moduleText`, `checkDeclarations_eq_ok`).
-/

set_option autoImplicit false

namespace ContentTypes.TypeScript

/-- Whether the settings that show in a module can be written. -/
structure SettingsWritable (s : Settings) : Prop where
  globalInterfacePrefix : IsName s.globalInterfacePrefix
  markdownImportModule : IsQuotable s.markdownImportModule.display

/-- Whether all definitions of a schema can be written. -/
structure SchemaWritable (schema : Schema) : Prop where
  documents : ∀ entry ∈ schema.documents, DocumentWritable entry.2
  objects : ∀ entry ∈ schema.objects, DefinitionWritable entry.2

/-! ## Preamble -/

theorem passes_preamble {s : Settings} (h : SettingsWritable s) : Passes 0 (preamble s) 0 := by
  have hname := balanced_name h.globalInterfacePrefix
  have hcomment : PassesAll 0
      (if s.addGenerationComment.holds then [generationComment] else []) 0 := by
    split
    · exact .cons (passes_of_quiet (by decide) rfl) .nil
    · exact .nil
  have himport : Passes 0
      ("import type \x7b Markdown \x7d from '" ++ s.markdownImportModule.display ++ "'") 0 := by
    have hfrom : Passes 0 "import type \x7b Markdown \x7d from " 0 := passes_of_quiet (by decide) rfl
    exact hfrom.quoted h.markdownImportModule
  have htypes : Passes 0
      ("export interface " ++ s.globalInterfacePrefix.display ++ "GenTypes \x7b") 1 := by
    have hexport : Passes 0 "export interface " 0 := passes_of_quiet (by decide) rfl
    exact (hexport.append (hname 0)).append (passes_of_quiet (by decide) rfl)
  have hgen : Passes 1 ("  interface " ++ s.globalInterfacePrefix.display ++ "Gen extends " ++
      s.globalInterfacePrefix.display ++ "GenTypes \x7b\x7d") 1 := by
    have hinterface : Passes 1 "  interface " 1 := passes_of_quiet (by decide) rfl
    have hextends : Passes 1 "Gen extends " 1 := passes_of_quiet (by decide) rfl
    have hempty : Passes 1 "GenTypes \x7b\x7d" 1 := passes_of_quiet (by decide) rfl
    exact (((hinterface.append (hname 1)).append hextends).append (hname 1)).append hempty
  refine PassesAll.intercalate (hcomment.append ?_) balanced_line
  exact
    .cons himport <|
    .cons (passes_empty 0) <|
    .cons (passes_of_quiet (by decide) rfl) <|
    .cons (passes_of_quiet (by decide) rfl) <|
    .cons (passes_empty 0) <|
    .cons htypes <|
    .cons (passes_of_quiet (by decide) rfl) <|
    .cons (passes_of_quiet (by decide) rfl) <|
    .cons (passes_of_quiet (by decide) rfl) <|
    .cons (passes_of_quiet (by decide) rfl) <|
    .cons (passes_of_quiet (by decide) rfl) <|
    .cons (passes_empty 0) <|
    .cons (passes_of_quiet (by decide) rfl) <|
    .cons hgen <|
    .cons (passes_of_quiet (by decide) rfl) .nil

/-! ## Definitions in order -/

/-- Names that are texts have an order. -/
theorem answers_nameBefore {α : Type} (nameOf : α → Value) :
    Sorting.Answers (fun d e => nameBefore (nameOf d) (nameOf e)) fun d =>
      ∃ text, nameOf d = .str text := by
  rintro d e ⟨text, hd⟩ ⟨text', he⟩
  refine ⟨decide (text < text'), ?_⟩
  simp only [hd, he, nameBefore_str]

theorem exists_sortByName {α : Type} (nameOf : α → Value) {definitions : List α}
    (h : ∀ d ∈ definitions, ∃ text, nameOf d = .str text) :
    ∃ sorted, sortByName nameOf definitions = .ok sorted ∧ sorted.Perm definitions := by
  obtain ⟨sorted, hsorted⟩ := Sorting.exists_sort (answers_nameBefore nameOf) h
  exact ⟨sorted, hsorted, Sorting.perm_of_sort hsorted⟩

/-- The definitions of a schema that can be written can be put in order. -/
theorem exists_sortedDefinitions {schema : Schema} (h : SchemaWritable schema) :
    ∃ documents objects, sortedDefinitions schema = .ok (documents, objects) ∧
      (∀ d ∈ documents, DocumentWritable d) ∧ ∀ d ∈ objects, DefinitionWritable d := by
  have hdocuments : ∀ d ∈ schema.documents.map (·.2), DocumentWritable d :=
    List.forall_mem_map.mpr h.documents
  have hobjects : ∀ d ∈ schema.objects.map (·.2), DefinitionWritable d :=
    List.forall_mem_map.mpr h.objects
  obtain ⟨documents, hsort, hperm⟩ :=
    exists_sortByName (fun d : Document => d.name) fun d hd => (hdocuments d hd).name.imp fun _ => (·.1)
  obtain ⟨objects, hsort', hperm'⟩ :=
    exists_sortByName (fun d : Definition => d.name) fun d hd => (hobjects d hd).name.imp fun _ => (·.1)
  refine ⟨documents, objects, ?_, ?_, ?_⟩
  · simp only [sortedDefinitions, hsort, hsort', bind, Except.bind, pure, Except.pure]
  · exact fun d hd => hdocuments d (hperm.mem_iff.mp hd)
  · exact fun d hd => hobjects d (hperm'.mem_iff.mp hd)

theorem exists_mapM {α β ε : Type} {f : α → Except ε β} {p : β → Prop} {xs : List α}
    (h : ∀ x ∈ xs, ∃ y, f x = .ok y ∧ p y) : ∃ ys, xs.mapM f = .ok ys ∧ ∀ y ∈ ys, p y := by
  induction xs with
  | nil => exact ⟨[], rfl, List.forall_mem_nil _⟩
  | cons x xs ih =>
      rw [List.forall_mem_cons] at h
      obtain ⟨⟨y, hy, hp⟩, h⟩ := h
      obtain ⟨ys, hys, hps⟩ := ih h
      refine ⟨y :: ys, ?_, List.forall_mem_cons.mpr ⟨hp, hps⟩⟩
      rw [List.mapM_cons, hy, hys]
      rfl

/-! ## Sections -/

theorem exists_nameUnion {names : List Value} (h : ∀ name ∈ names, IsName name) :
    ∃ text, nameUnion names = .ok text ∧ Balanced text := by
  unfold nameUnion
  by_cases hempty : names.isEmpty = true
  · rw [if_pos hempty]
    exact ⟨"never", rfl, fun _ => passes_of_quiet (by decide) rfl⟩
  · rw [if_neg hempty]
    obtain ⟨texts, rfl⟩ : ∃ texts : List String, names = texts.map Value.str := by
      refine ⟨names.map Value.display, ?_⟩
      rw [List.map_map]
      refine (List.map_id names).symm.trans (List.map_congr_left ?_)
      intro name hname
      obtain ⟨text, rfl, -⟩ := h name hname
      rfl
    refine ⟨_, union_texts texts, balanced_intercalate balanced_unionBar ?_⟩
    intro text htext
    exact balanced_name (h (.str text) (List.mem_map_of_mem htext))

theorem passes_documentTable {names : List Value} (h : ∀ name ∈ names, IsName name) :
    Passes 0 (documentTable names) 0 := by
  have hopen : Passes 0 "export type DocumentTypeMap = \x7b\n" 1 := passes_of_quiet (by decide) rfl
  have hclose : Passes 1 "\x7d" 0 := passes_of_quiet (by decide) rfl
  have hlines : Passes 1 (String.join (names.map fun name =>
      "  " ++ name.display ++ ": " ++ name.display ++ "\n")) 1 := by
    apply (passesAll_of_forall ?_).join
    intro line hline
    obtain ⟨name, hname, rfl⟩ := List.mem_map.mp hline
    have hbalanced := balanced_name (h name hname) 1
    have hcolon : Passes 1 ": " 1 := passes_of_quiet (by decide) rfl
    exact (((balanced_indent 1).append hbalanced).append hcolon |>.append hbalanced).append
      (balanced_line 1)
  exact (hopen.append hlines).append hclose

/-- The line of a union of names and the line that names its member pass. -/
theorem passes_typeUnion {title : String} (ending : String) {text : String} (htitle : Passes 0 title 0)
    (hending : Passes 0 ending 0) (h : Balanced text) :
    Passes 0 (title ++ text ++ (ending ++ "'" ++ "_typeName" ++ "'" ++ "]")) 0 := by
  have htypeName : Passes 0 (ending ++ "'" ++ "_typeName" ++ "'") 0 := hending.quoted (by decide)
  exact (htitle.append (h 0)).append (htypeName.append (passes_of_quiet (by decide) rfl))

/-- The sections of a module leave nothing open, and one of them starts with the declaration of a
type. -/
theorem exists_sections {settings : Settings} {documents objects : List Declaration}
    (hs : SettingsWritable settings) (hdocuments : ∀ d ∈ documents, d.Sound)
    (hobjects : ∀ d ∈ objects, d.Sound) :
    ∃ texts, sections settings documents objects = .ok texts ∧ PassesAll 0 texts 0 ∧
      ∃ text ∈ texts, "export type ".toList <+: text.toList := by
  have hdocumentNames : ∀ name ∈ documents.map (·.name), IsName name :=
    List.forall_mem_map.mpr fun d hd => (hdocuments d hd).name
  have hobjectNames : ∀ name ∈ objects.map (·.name), IsName name :=
    List.forall_mem_map.mpr fun d hd => (hobjects d hd).name
  obtain ⟨documentUnion, hunion, hbalanced⟩ := exists_nameUnion hdocumentNames
  obtain ⟨objectUnion, hunion', hbalanced'⟩ := exists_nameUnion hobjectNames
  -- the unions, each with the line that names its member
  have hdocumentTypes : Passes 0 ("export type DocumentTypes = " ++ documentUnion ++
      "\nexport type DocumentTypeNames = DocumentTypes['_typeName']") 0 :=
    passes_typeUnion "\nexport type DocumentTypeNames = DocumentTypes["
      (passes_of_quiet (by decide) rfl) (passes_of_quiet (by decide) rfl) hbalanced
  have hobjectTypes : Passes 0 ("export type ObjectTypes = " ++ objectUnion ++
      "\nexport type ObjectTypeNames = ObjectTypes['_typeName']") 0 :=
    passes_typeUnion "\nexport type ObjectTypeNames = ObjectTypes["
      (passes_of_quiet (by decide) rfl) (passes_of_quiet (by decide) rfl) hbalanced'
  obtain ⟨allTypes, hshape⟩ : ∃ allTypes, allTypes = "export type AllTypes = DocumentTypes | ObjectTypes" ++
      "\nexport type AllTypeNames = DocumentTypeNames | ObjectTypeNames" := ⟨_, rfl⟩
  have hallTypes : Passes 0 allTypes 0 := by
    have hfirst : Passes 0 "export type AllTypes = DocumentTypes | ObjectTypes" 0 :=
      passes_of_quiet (by decide) rfl
    rw [hshape]
    exact hfirst.append (passes_of_quiet (by decide) rfl)
  have hexport : "export type ".toList <+: allTypes.toList := by
    rw [hshape, String.toList_append]
    exact List.prefix_append_of_prefix (by decide)
  -- the two parts of the module, each under its comment
  have hdocumentComment : Passes 0 "/** Document types */" 0 :=
    passes_comment 0 (by decide : IsRemark "Document types")
  have hobjectComment : Passes 0 "/** Object types */" 0 :=
    passes_comment 0 (by decide : IsRemark "Object types")
  have hdocumentTexts : PassesAll 0 (documents.map (·.text)) 0 :=
    passesAll_of_forall (List.forall_mem_map.mpr fun d hd => (hdocuments d hd).text 0)
  have hobjectTexts : PassesAll 0 (objects.map (·.text)) 0 :=
    passesAll_of_forall (List.forall_mem_map.mpr fun d hd => (hobjects d hd).text 0)
  simp only [sections, hunion, hunion', bind, Except.bind, pure, Except.pure, ← hshape]
  refine ⟨_, rfl, ?_, allTypes, by simp, hexport⟩
  · refine .append (.append (.append ?_ hdocumentTexts) ?_) hobjectTexts
    · exact .cons (passes_preamble hs) <| .cons hdocumentTypes <| .cons hallTypes <|
        .cons (passes_documentTable hdocumentNames) <| .cons hdocumentComment .nil
    · exact .cons hobjectComment <| .cons hobjectTypes .nil

/-! ## The module -/

theorem infix_intercalate {separator text : String} {texts : List String} (h : text ∈ texts) :
    text.toList <:+: (String.intercalate separator texts).toList := by
  induction texts with
  | nil => cases h
  | cons first texts ih =>
      cases texts with
      | nil =>
          have heq : String.intercalate separator [first] = text := by
            rw [String.intercalate_singleton, List.mem_singleton.mp h]
          exact heq ▸ List.infix_rfl
      | cons second texts =>
          rw [String.intercalate_cons_cons, String.toList_append]
          rcases List.mem_cons.mp h with rfl | h
          · rw [String.toList_append, List.append_assoc]
            exact (List.prefix_append _ _).isInfix
          · exact (ih h).trans (List.suffix_append _ _).isInfix

/-- A text that passes from no open brace to none, with the declaration of a type in it, passes the check
of declarations. -/
theorem checkDeclarations_eq_ok {text : String} (h : Passes 0 text 0)
    (hexport : "export type ".toList <:+: text.toList) : checkDeclarations text = .ok () := by
  rw [checkDeclarations, if_pos ((occursIn_iff _ _).mpr hexport)]
  exact if_pos h.properlyNested.2

/-- The module of a schema that can be written is written, and leaves nothing open. -/
theorem exists_moduleText {settings : Settings} {schema : Schema} (hs : SettingsWritable settings)
    (h : SchemaWritable schema) :
    ∃ text, moduleText settings schema = .ok text ∧ Passes 0 text 0 ∧
      "export type ".toList <:+: text.toList := by
  obtain ⟨documents, objects, hsorted, hdocuments, hobjects⟩ := exists_sortedDefinitions h
  obtain ⟨documentTexts, hdocumentTexts, hdocumentSound⟩ :=
    exists_mapM fun d hd => exists_documentDeclaration (hdocuments d hd)
  obtain ⟨objectTexts, hobjectTexts, hobjectSound⟩ :=
    exists_mapM fun d hd => exists_objectDeclaration (hobjects d hd)
  obtain ⟨texts, hsections, hpasses, text, hmem, hexport⟩ :=
    exists_sections hs hdocumentSound hobjectSound
  have hseparator : ∀ depth, Passes depth "\n\n" depth := fun _ => passes_of_quiet (by decide) rfl
  refine ⟨String.intercalate "\n\n" texts ++ "\n", ?_, ?_, ?_⟩
  · simp only [moduleText, hsorted, hdocumentTexts, hobjectTexts, hsections, bind, Except.bind, pure,
      Except.pure]
  · exact (hpasses.intercalate hseparator).append (balanced_line 0)
  · rw [String.toList_append]
    exact (hexport.isInfix.trans (infix_intercalate hmem)).trans (List.prefix_append _ _).isInfix

end ContentTypes.TypeScript
