import ContentTypes.Proofs.TypeScript.Mention
import ContentTypes.Proofs.TypeScript.Totality

/-!
# Modules without dangling names

Where every object and every document that the fields of a schema stand for is one of its definitions, the
module of the schema mentions no name that it does not declare: the names for types in the members of a
declaration are built in, or those of declarations of the module (`moduleText_closed`). The types of
computed fields are written as they stand, so nothing is said about the names in them.
-/

set_option autoImplicit false

namespace ContentTypes

/-! ## What fields stand for -/

/-- The objects and documents that a type names, itself or as what it lists. -/
def FieldType.named : FieldType → List Value
  | .object name => [name]
  | type => type.items.filterMap ItemType.name?

/-- Whether all objects and documents that fields name, at any depth, are definitions of the schema. -/
def Schema.Linked (schema : Schema) : Prop :=
  ∀ d ∈ schema.definitions, ∀ f, Within f d.fields → ∀ name ∈ f.type.named,
    ∃ d' ∈ schema.definitions, d'.name = name

namespace TypeScript

/-- The names for types that need no definition. -/
def builtinNames : List String :=
  ["string", "boolean", "Image", "Markdown", "undefined", "Record", "any"]

/-- Whether a name is that of an object or a document which fields name at some depth. -/
def NamedWithin (name : String) (fields : List Field) : Prop :=
  ∃ f, Within f fields ∧ ∃ v ∈ f.type.named, name = v.display

theorem NamedWithin.append_left {name : String} {fields : List Field} (h : NamedWithin name fields)
    (fields' : List Field) : NamedWithin name (fields ++ fields') :=
  h.imp fun _ hf => ⟨within_append.mpr (.inl hf.1), hf.2⟩

theorem NamedWithin.append_right {name : String} {fields' : List Field} (h : NamedWithin name fields')
    (fields : List Field) : NamedWithin name (fields ++ fields') :=
  h.imp fun _ hf => ⟨within_append.mpr (.inr hf.1), hf.2⟩

mutual

/-- What a type mentions is built in, or named by it or by fields below it. -/
theorem of_mem_typeMentions {name : String} : ∀ type : FieldType, name ∈ typeMentions type →
    name ∈ builtinNames ∨ (∃ v ∈ type.named, name = v.display) ∨ NamedWithin name type.fields
  | .boolean, h | .string, h | .date, h | .image, h | .markdown, h | .reference _, h => by
      rw [typeMentions, List.mem_singleton] at h
      exact .inl (h ▸ by decide)
  | .object v, h => by
      rw [typeMentions, List.mem_singleton] at h
      exact .inr (.inl ⟨v, List.mem_singleton_self v, h⟩)
  | .inlineObject fields, h => (of_mem_fieldsMention fields h).imp id .inr
  | .list (some item), h => by
      rcases of_mem_itemMentions item h with hbuiltin | ⟨v, hv, hname⟩ | hwithin
      · exact .inl hbuiltin
      · exact .inr (.inl ⟨v, by simp [FieldType.named, FieldType.items, hv], hname⟩)
      · refine .inr (.inr ?_)
        show NamedWithin name ([item].flatMap ItemType.fields)
        rwa [List.flatMap_singleton]
  | .polymorphicList items, h => of_mem_itemsMention items h
  | .enumeration _, h | .list none, h | .unknown _ _, h | .plain, h => by cases h

theorem of_mem_fieldMentions {name : String} : ∀ field : FieldOf FieldType,
    name ∈ fieldMentions field → name ∈ builtinNames ∨ NamedWithin name [field]
  | ⟨fieldName, required, description, default, type⟩, h => by
      rcases List.mem_append.mp h with h | h
      · rcases of_mem_typeMentions type h with hbuiltin | hnamed | ⟨f, hf, hnamed⟩
        · exact .inl hbuiltin
        · exact .inr ⟨_, .here (List.mem_singleton_self _), hnamed⟩
        · exact .inr ⟨f, .deeper (List.mem_singleton_self _) hf, hnamed⟩
      · split at h
        · cases h
        · rw [List.mem_singleton.mp h]
          exact .inl (by decide)

theorem of_mem_fieldsMention {name : String} : ∀ fields : List (FieldOf FieldType),
    name ∈ fieldsMention fields → name ∈ builtinNames ∨ NamedWithin name fields
  | [], h => by cases h
  | field :: fields, h => by
      rcases List.mem_append.mp h with h | h
      · exact (of_mem_fieldMentions field h).imp id fun hnamed => hnamed.append_left fields
      · exact (of_mem_fieldsMention fields h).imp id fun hnamed => hnamed.append_right [field]

theorem of_mem_itemMentions {name : String} : ∀ item : ItemType, name ∈ itemMentions item →
    name ∈ builtinNames ∨ (∃ v, item.name? = some v ∧ name = v.display) ∨ NamedWithin name item.fields
  | .boolean, h | .string, h => by
      rw [itemMentions, List.mem_singleton] at h
      exact .inl (h ▸ by decide)
  | .object v, h | .reference v, h => by
      rw [itemMentions, List.mem_singleton] at h
      exact .inr (.inl ⟨v, rfl, h⟩)
  | .inlineObject fields, h => (of_mem_fieldsMention fields h).imp id .inr
  | .enumeration _, h | .unknown _ _, h | .plain, h => by cases h

theorem of_mem_itemsMention {name : String} : ∀ items : List ItemType, name ∈ itemsMention items →
    name ∈ builtinNames ∨ (∃ v ∈ items.filterMap ItemType.name?, name = v.display) ∨
      NamedWithin name (items.flatMap ItemType.fields)
  | [], h => by cases h
  | item :: items, h => by
      rw [List.flatMap_cons]
      rcases List.mem_append.mp h with h | h
      · rcases of_mem_itemMentions item h with hbuiltin | ⟨v, hv, hname⟩ | hnamed
        · exact .inl hbuiltin
        · exact .inr (.inl ⟨v, List.mem_filterMap.mpr ⟨item, List.mem_cons_self, hv⟩, hname⟩)
        · exact .inr (.inr (hnamed.append_left _))
      · rcases of_mem_itemsMention items h with hbuiltin | ⟨v, hv, hname⟩ | hnamed
        · exact .inl hbuiltin
        · refine .inr (.inl ⟨v, ?_, hname⟩)
          obtain ⟨item', hitem', hv⟩ := List.mem_filterMap.mp hv
          exact List.mem_filterMap.mpr ⟨item', List.mem_cons_of_mem item hitem', hv⟩
        · exact .inr (.inr (hnamed.append_right _))

end

/-! ## Blocks -/

/-- The declared members of a definition: what identifies it, and its fields. -/
def declaredMembers (identity : List String) (d : Definition) : Except RenderError (List String) := do
  let lines ← fieldLines d.fields
  return identity ++ ["  _typeName: '" ++ d.name.display ++ "'", "  _raw?: Record<string, any>"] ++ lines

/-- The text of a declaration with these declared and computed members. -/
def blockText (d : Definition) (members computed : List String) : String :=
  String.intercalate "\n"
    (commentLines d ++ [openingLine d.name.display] ++ members ++ computed ++ ["\x7d"])

theorem declarationText_eq (d : Definition) (identity lines computed : List String) :
    declarationText d identity (lines ++ computed) =
      blockText d (identity ++ ["  _typeName: '" ++ d.name.display ++ "'", "  _raw?: Record<string, any>"] ++
        lines) computed := by
  simp only [declarationText, blockText, openingLine, List.append_assoc]

theorem documentDeclaration_eq (d : Document) :
    documentDeclaration d = (declaredMembers ["  _id: string"] d.toDefinition).map fun members =>
      ⟨d.name, blockText d.toDefinition members (d.computed.map computedLine)⟩ := by
  unfold documentDeclaration documentMembers declaredMembers
  cases fieldLines d.fields with
  | error e => rfl
  | ok lines =>
      show Except.ok (⟨d.name, declarationText d.toDefinition _ (lines ++ _)⟩ : Declaration) = _
      rw [declarationText_eq]
      rfl

theorem objectDeclaration_eq (d : Definition) :
    objectDeclaration d = (declaredMembers [] d).map fun members => ⟨d.name, blockText d members []⟩ := by
  unfold objectDeclaration objectMembers declaredMembers
  cases fieldLines d.fields with
  | error e => rfl
  | ok lines =>
      show Except.ok (⟨d.name, declarationText d [] lines⟩ : Declaration) = _
      have htext := declarationText_eq d [] lines []
      rw [List.append_nil] at htext
      rw [htext]
      rfl

theorem readsApart_typeName {name : Value} (h : IsName name) :
    ReadsApart ("  _typeName: '" ++ name.display ++ "'") [] := by
  have hindent : ReadsAs "  " [] := reads_signs (by decide)
  have hmember : ReadsAs ("_typeName" ++ ":") [] := reads_memberName (by decide) rfl (.inl rfl)
  have hspace : ReadsAs " " [] := reads_signs (by decide)
  have hquoted := reads_quoted (isQuotable_name h)
  have hshape : "  _typeName: '" ++ name.display ++ "'" =
      "  " ++ ("_typeName" ++ ":") ++ " " ++ ("'" ++ name.display ++ "'") := by
    simp only [← String.append_assoc]
    rfl
  rw [hshape]
  exact (((hindent.append hmember).append hspace).append hquoted).apart

theorem readsApart_raw : ReadsApart "  _raw?: Record<string, any>" ["Record", "string", "any"] := by
  have hindent : ReadsAs "  " [] := reads_signs (by decide)
  have hmember : ReadsAs ("_raw" ++ "?") [] := reads_memberName (by decide) rfl (.inr rfl)
  have hcolon : ReadsAs ": " [] := reads_signs (by decide)
  have hrecord : ReadsApart "Record" ["Record"] := readsApart_name (by decide)
  have hkey : ReadsApart "string" ["string"] := readsApart_name (by decide)
  have hvalue : ReadsApart "any" ["any"] := readsApart_name (by decide)
  have hopen : ReadsAs "<" [] := reads_signs (by decide)
  have hcomma : ReadsAs ", " [] := reads_signs (by decide)
  have hclose : ReadsAs ">" [] := reads_signs (by decide)
  have hfront := (hindent.append hmember).append hcolon
  have hwhole := (((hfront.append_apart hrecord).append hopen rfl (by decide)).append_apart hkey)
    |>.append hcomma rfl (by decide)
  exact ((hwhole.append_apart hvalue).append hclose rfl (by decide)).apart

theorem readsApart_id : ReadsApart "  _id: string" ["string"] := by
  have hindent : ReadsAs "  " [] := reads_signs (by decide)
  have hmember : ReadsAs ("_id" ++ ":") [] := reads_memberName (by decide) rfl (.inl rfl)
  have hspace : ReadsAs " " [] := reads_signs (by decide)
  have hstring : ReadsApart "string" ["string"] := readsApart_name (by decide)
  exact ((hindent.append hmember).append hspace).append_apart hstring

/-- The declared members of a definition mention built-in names, and what its fields mention. -/
theorem exists_declaredMembers {d : Definition} (h : DefinitionWritable d) {identity names : List String}
    (hidentity : ReadsEach identity names) :
    ∃ members, declaredMembers identity d = .ok members ∧
      typeNames (String.intercalate "\n" members).toList =
        names ++ ["Record", "string", "any"] ++ fieldsMention d.fields := by
  obtain ⟨lines, hlines, hreads⟩ := reads_fields d.fields h.fields
  refine ⟨identity ++ ["  _typeName: '" ++ d.name.display ++ "'", "  _raw?: Record<string, any>"] ++ lines,
    ?_, ?_⟩
  · rw [declaredMembers, hlines]
    rfl
  · have hfixed := ReadsEach.cons (readsApart_typeName h.name) (.cons readsApart_raw .nil)
    exact ((hidentity.append hfixed).append hreads).lines.typeNames_eq

/-! ## Unions and tables of names -/

theorem readsEach_names {names : List String} (h : ∀ name ∈ names, IsIdentifier name) :
    ReadsEach names names := by
  induction names with
  | nil => exact .nil
  | cons name names ih =>
      rw [List.forall_mem_cons] at h
      exact .cons (readsApart_name h.1) (ih h.2)

/-- A union of names mentions the names, or that there is no value if there are none. -/
theorem typeNames_unionOfNames {names : List String} (h : ∀ name ∈ names, IsIdentifier name) :
    typeNames (unionOfNames names).toList = if names = [] then ["never"] else names := by
  unfold unionOfNames
  by_cases hnames : names = []
  · rw [if_pos hnames, if_pos hnames]
    exact (readsApart_name (by decide : IsIdentifier "never")).typeNames_eq
  · rw [if_neg hnames, if_neg hnames]
    exact (readsEach_names h).union.typeNames_eq

/-- The lines of the table of documents. -/
def tableLines (names : List String) : String :=
  String.join (names.map fun name => "  " ++ name ++ ": " ++ name ++ "\n")

theorem reads_tableLines {names : List String} (h : ∀ name ∈ names, IsIdentifier name) :
    ReadsAs (tableLines names) names := by
  induction names with
  | nil => exact reads_empty
  | cons name names ih =>
      rw [List.forall_mem_cons] at h
      have hindent : ReadsAs "  " [] := reads_signs (by decide)
      have hmember : ReadsAs (name ++ ":") [] := reads_memberName h.1 rfl (.inl rfl)
      have hspace : ReadsAs " " [] := reads_signs (by decide)
      have hbreak : ReadsAs "\n" [] := reads_signs (by decide)
      have hline := (((hindent.append hmember).append hspace).append_apart (readsApart_name h.1))
        |>.append hbreak rfl (by decide)
      have hshape : "  " ++ name ++ ": " ++ name ++ "\n" =
          "  " ++ (name ++ ":") ++ " " ++ name ++ "\n" := by
        simp only [String.append_assoc]
        rfl
      rw [tableLines, List.map_cons, String.join_cons, hshape]
      exact hline.append (ih h.2)

/-- The table of documents mentions the documents. -/
theorem typeNames_tableLines {names : List String} (h : ∀ name ∈ names, IsIdentifier name) :
    typeNames (tableLines names).toList = names :=
  (reads_tableLines h).apart.typeNames_eq

/-! ## The module -/

/-- Names and blocks of a map of definitions in which nothing dangles: the names are the keys of the map,
each block is the one that its definition has alone, and the names for types in its declared members are
built in, or known. The union of the names mentions the names. -/
structure ClosedBlocks {α : Type} (definition : α → Definition) (identity : List String)
    (computed : α → List String) (map : List (Value × α)) (known names blocks : List String) : Prop where
  keys : (names.map Value.str).Perm (map.map (·.1))
  blocks : List.Forall₂ (fun name block => ∃ d, (Value.str name, d) ∈ map ∧
    (definition d).name = .str name ∧ ∃ members, declaredMembers identity (definition d) = .ok members ∧
      block = blockText (definition d) members (computed d) ∧
      ∀ n ∈ typeNames (String.intercalate "\n" members).toList, n ∈ builtinNames ∨ n ∈ known) names blocks
  union : typeNames (unionOfNames names).toList = if names = [] then ["never"] else names

section Closed

variable {α : Type} {nameOf : α → Value} {declaration : α → Except RenderError Declaration}
  {map : List (Value × α)} {names blocks known : List String}

/-- A definition of a map is covered under its name. -/
theorem Covers.mem_names (h : Covers nameOf declaration map names blocks) (hmap : KeyedByName nameOf map)
    {e : Value × α} (he : e ∈ map) : (nameOf e.2).display ∈ names := by
  obtain ⟨name, hkey, hname⟩ := hmap.text e he
  have hmem : Value.str name ∈ names.map Value.str :=
    h.keys.mem_iff.mpr (hkey ▸ List.mem_map_of_mem he)
  rw [hname]
  exact (List.mem_map_of_injective fun _ _ => Value.str.inj).mp hmem

theorem Covers.isIdentifier (h : Covers nameOf declaration map names blocks)
    (hnames : ∀ e ∈ map, IsName (nameOf e.2)) : ∀ name ∈ names, IsIdentifier name := by
  have htexts := h.texts
  clear h
  induction htexts with
  | nil => exact List.forall_mem_nil _
  | cons hd _ ih =>
      obtain ⟨d, he, hname, -⟩ := hd
      refine List.forall_mem_cons.mpr ⟨?_, ih⟩
      obtain ⟨text, htext, hidentifier⟩ := hnames _ he
      rw [hname] at htext
      cases htext
      exact hidentifier

/-- Blocks that cover a map are closed if what the fields of its definitions mention is known. -/
theorem Covers.closed (definition : α → Definition) {identity identityNames : List String}
    {computed : α → List String}
    (h : Covers (fun d => (definition d).name) declaration map names blocks)
    (hdeclaration : ∀ d, declaration d = (declaredMembers identity (definition d)).map fun members =>
      ⟨(definition d).name, blockText (definition d) members (computed d)⟩)
    (hidentity : ReadsEach identity identityNames) (hbuiltin : ∀ n ∈ identityNames, n ∈ builtinNames)
    (hwritable : ∀ e ∈ map, DefinitionWritable (definition e.2))
    (hknown : ∀ e ∈ map, ∀ n ∈ fieldsMention (definition e.2).fields, n ∈ builtinNames ∨ n ∈ known) :
    ClosedBlocks definition identity computed map known names blocks := by
  refine ⟨h.keys, h.texts.imp ?_, typeNames_unionOfNames (h.isIdentifier fun e he => (hwritable e he).name)⟩
  have hfixed : ∀ n ∈ ["Record", "string", "any"], n ∈ builtinNames := by decide
  rintro name block ⟨d, he, hname, hdeclared⟩
  obtain ⟨members, hmembers, hread⟩ := exists_declaredMembers (hwritable _ he) hidentity
  refine ⟨d, he, hname, members, hmembers, ?_, ?_⟩
  · rw [hdeclaration, hmembers] at hdeclared
    exact (congrArg Declaration.text (Except.ok.inj hdeclared)).symm
  · intro n hn
    rw [hread, List.append_assoc] at hn
    rcases List.mem_append.mp hn with hn | hn
    · exact .inl (hbuiltin n hn)
    rcases List.mem_append.mp hn with hn | hn
    · exact .inl (hfixed n hn)
    · exact hknown _ he n hn

end Closed

/-- A definition that can be written names by texts what has to be a text. -/
theorem DefinitionWritable.namedByText {d : Definition} (h : DefinitionWritable d) : d.NamedByText := by
  obtain ⟨text, hname, -⟩ := h.name
  obtain ⟨lines, hlines, -⟩ := reads_fields d.fields h.fields
  exact ⟨⟨text, hname⟩, (writesIff_fieldLines d.fields).of_ok lines hlines⟩

theorem infix_moduleSections {part separator : String} {settings : Settings}
    {documentNames documentTexts objectNames objectTexts : List String}
    (h : part.toList <:+: (preamble settings).toList) :
    part.toList <:+: (String.intercalate separator
      (moduleSections settings documentNames documentTexts objectNames objectTexts) ++ "\n").toList := by
  have hpreamble : preamble settings ∈
      moduleSections settings documentNames documentTexts objectNames objectTexts := by
    simp [moduleSections]
  rw [String.toList_append]
  exact (h.trans (infix_intercalate hpreamble)).trans (List.prefix_append _ _).isInfix

/-- **Nothing dangles in a module.** A schema whose definitions can be written, and whose fields stand for
objects and documents that it defines, has a module. The names for types in the declared members of each
declaration are built in, or names of declarations of the module, of which each name has its own; so are
the names in the unions and in the table of documents. `Image` is declared by the module too, and
`Markdown` imported. -/
theorem moduleText_closed {settings : Settings} {raw : Value} {schema : Schema}
    (hschema : Schema.ofValue raw = .ok schema)
    (hwritable : ∀ d ∈ schema.definitions, DefinitionWritable d) (hlinked : schema.Linked) :
    ∃ text documentNames documentTexts objectNames objectTexts,
      moduleText settings schema = .ok text ∧
      text = String.intercalate "\n\n"
        (moduleSections settings documentNames documentTexts objectNames objectTexts) ++ "\n" ∧
      ClosedBlocks Document.toDefinition ["  _id: string"] (fun d => d.computed.map computedLine)
        schema.documents (documentNames ++ objectNames) documentNames documentTexts ∧
      ClosedBlocks id [] (fun _ => []) schema.objects (documentNames ++ objectNames) objectNames
        objectTexts ∧
      typeNames (tableLines documentNames).toList = documentNames ∧
      "export type Image = string".toList <:+: text.toList ∧
      "import type \x7b Markdown \x7d from '".toList <:+: text.toList := by
  have hdocuments : ∀ e ∈ schema.documents, DefinitionWritable e.2.toDefinition :=
    fun e he => (Schema.forall_mem_definitions.mp hwritable).1 e.2 (List.mem_map_of_mem he)
  have hobjects : ∀ e ∈ schema.objects, DefinitionWritable e.2 :=
    fun e he => (Schema.forall_mem_definitions.mp hwritable).2 e.2 (List.mem_map_of_mem he)
  have hdocumentNames : ∀ e ∈ schema.documents, ∃ name, e.2.name = .str name :=
    fun e he => (hdocuments e he).name.imp fun _ h => h.1
  have hobjectNames : ∀ e ∈ schema.objects, ∃ name, e.2.name = .str name :=
    fun e he => (hobjects e he).name.imp fun _ h => h.1
  obtain ⟨text, htext⟩ := (writesIff_moduleText settings schema).exists_ok
    fun d hd => (hwritable d hd).namedByText
  obtain ⟨documentNames, documentTexts, objectNames, objectTexts, body, hcovers, hcovers', rfl, rfl, -, -⟩ :=
    moduleText_covers hschema hdocumentNames hobjectNames htext
  obtain ⟨hkeyed, hkeyed'⟩ :=
    (Schema.ofValue_eq_ok_iff.mp hschema).keyedByName hdocumentNames hobjectNames
  -- what a field stands for is a definition, and those are all listed
  have hlisted : ∀ d ∈ schema.definitions, d.name.display ∈ documentNames ++ objectNames := by
    refine Schema.forall_mem_definitions.mpr ⟨?_, ?_⟩
    · refine List.forall_mem_map.mpr fun e he => List.mem_append_left _ ?_
      exact hcovers.mem_names hkeyed he
    · refine List.forall_mem_map.mpr fun e he => List.mem_append_right _ ?_
      exact hcovers'.mem_names hkeyed' he
  have hknown : ∀ d ∈ schema.definitions, ∀ n ∈ fieldsMention d.fields,
      n ∈ builtinNames ∨ n ∈ documentNames ++ objectNames := by
    intro d hd n hn
    refine (of_mem_fieldsMention d.fields hn).imp id ?_
    rintro ⟨f, hf, v, hv, rfl⟩
    obtain ⟨d', hd', rfl⟩ := hlinked d hd f hf v hv
    exact hlisted d' hd'
  obtain ⟨hknown, hknown'⟩ := Schema.forall_mem_definitions.mp hknown
  refine ⟨_, documentNames, documentTexts, objectNames, objectTexts, htext, rfl, ?_, ?_, ?_, ?_, ?_⟩
  · exact hcovers.closed Document.toDefinition documentDeclaration_eq (.cons readsApart_id .nil)
      (by decide) hdocuments fun e he => hknown e.2 (List.mem_map_of_mem he)
  · exact hcovers'.closed id objectDeclaration_eq .nil (List.forall_mem_nil _) hobjects
      fun e he => hknown' e.2 (List.mem_map_of_mem he)
  · exact typeNames_tableLines (hcovers.isIdentifier fun e he => (hdocuments e he).name)
  · refine infix_moduleSections ?_
    rw [preamble]
    exact infix_intercalate (by simp)
  · have himport : ("import type \x7b Markdown \x7d from '" ++ settings.markdownImportModule.display ++
        "'").toList <:+: (preamble settings).toList := by
      rw [preamble]
      exact infix_intercalate (by simp)
    refine infix_moduleSections (.trans ?_ himport)
    rw [String.append_assoc, String.toList_append]
    exact (List.prefix_append _ _).isInfix

/-! ### A page of sections -/

/-- A document whose sections are objects, or records that list documents. -/
def pageValue : Value :=
  .obj [("documentDefMap", .obj [("Page", .obj [("fieldDefs", .arr [
      .obj [("name", .str "sections"), ("type", .str "polymorphic_list"), ("of", .arr [
        .obj [("type", .str "object"), ("objectName", .str "Teaser")],
        .obj [("type", .str "inline_object"), ("fieldDefs", .arr [
          .obj [("name", .str "links"), ("type", .str "list"),
            ("of", .obj [("type", .str "reference"), ("documentName", .str "Page")])]])]])]])])]),
    ("objectDefMap", .obj [("Teaser", .obj [])])]

/-- The list of pages in the records. -/
def linksField : Field := ⟨.str "links", .bool false, .null, .null, .list (some (.reference (.str "Page")))⟩

/-- The list of objects and records. -/
def sectionsField : Field :=
  ⟨.str "sections", .bool false, .null, .null,
    .polymorphicList [.object (.str "Teaser"), .inlineObject [linksField]]⟩

/-- The schema of `pageValue`. -/
def pageSchema : Schema where
  documents := [(.str "Page", ⟨⟨.str "Page", .str "", .null, [sectionsField]⟩, [], .null⟩)]
  objects := [(.str "Teaser", ⟨.str "Teaser", .str "", .null, []⟩)]

theorem ofValue_pageValue : Schema.ofValue pageValue = .ok pageSchema := by
  have hlinks : FieldForm (.obj [("name", .str "links"), ("type", .str "list"),
      ("of", .obj [("type", .str "reference"), ("documentName", .str "Page")])]) linksField :=
    .field rfl rfl (.list rfl (.item rfl .reference))
  apply Schema.ofValue_eq_ok_iff.mpr
  apply @SchemaForm.schema _ _ _ (pageSchema.documents.map (·.2)) (pageSchema.objects.map (·.2))
  · exact .object rfl
  · refine .cons ⟨.document (.list rfl) (.cons (.field rfl rfl ?_) .nil) (.missing rfl) .nil, rfl⟩ .nil
    exact .polymorphicList (.list rfl) (.cons (.item rfl .object)
      (.cons (.item rfl (.inlineObject (.list rfl) (.cons hlinks .nil))) .nil))
  · exact .object rfl
  · exact .cons ⟨.object (.missing rfl) .nil, rfl⟩ .nil

theorem writable_pageSchema : ∀ d ∈ pageSchema.definitions, DefinitionWritable d := by
  have hnull {p : Prop} (h : Value.null.holds = true) : p := nomatch h
  have hlinks : FieldWritable linksField := ⟨⟨_, rfl, by decide⟩, hnull, ⟨_, rfl, by decide⟩⟩
  have hsections : FieldWritable sectionsField :=
    ⟨⟨_, rfl, by decide⟩, hnull, ⟨_, rfl, by decide⟩, ⟨hlinks, trivial⟩, trivial⟩
  refine List.forall_mem_cons.mpr ⟨?_, List.forall_mem_singleton.mpr ?_⟩
  · exact ⟨⟨_, rfl, by decide⟩, hnull, fun _ _ => by decide, ⟨hsections, trivial⟩⟩
  · exact ⟨⟨_, rfl, by decide⟩, hnull, fun _ _ => by decide, trivial⟩

theorem linked_pageSchema : pageSchema.Linked := by
  have hpage : ∃ d ∈ pageSchema.definitions, d.name = .str "Page" := ⟨_, List.mem_cons_self, rfl⟩
  have hteaser : ∃ d ∈ pageSchema.definitions, d.name = .str "Teaser" :=
    ⟨_, List.mem_cons_of_mem _ (List.mem_singleton_self _), rfl⟩
  refine List.forall_mem_cons.mpr ⟨?_, List.forall_mem_singleton.mpr fun f hf => ?_⟩
  · intro f hf
    rcases within_singleton.mp hf with rfl | hf
    · exact List.forall_mem_singleton.mpr hteaser
    rcases within_singleton.mp hf with rfl | hf
    · exact List.forall_mem_singleton.mpr hpage
    · exact absurd hf (within_nil f)
  · exact absurd hf (within_nil f)

theorem moduleText_closed_pageSchema :
    Schema.ofValue pageValue = .ok pageSchema ∧ (∀ d ∈ pageSchema.definitions, DefinitionWritable d) ∧
      pageSchema.Linked ∧ ∃ text documentTexts objectTexts, moduleText .initial pageSchema = .ok text ∧
        ClosedBlocks Document.toDefinition ["  _id: string"] (fun d => d.computed.map computedLine)
          pageSchema.documents ["Page", "Teaser"] ["Page"] documentTexts ∧
        ClosedBlocks id [] (fun _ => []) pageSchema.objects ["Page", "Teaser"] ["Teaser"] objectTexts := by
  obtain ⟨text, names, texts, names', texts', htext, -, hclosed, hclosed', -⟩ :=
    @moduleText_closed .initial pageValue pageSchema ofValue_pageValue writable_pageSchema linked_pageSchema
  have hinjective : Function.Injective Value.str := fun _ _ => Value.str.inj
  obtain rfl : names = ["Page"] :=
    List.perm_singleton.mp ((List.map_perm_map_iff hinjective).mp
      (hclosed.keys : (names.map Value.str).Perm (["Page"].map Value.str)))
  obtain rfl : names' = ["Teaser"] :=
    List.perm_singleton.mp ((List.map_perm_map_iff hinjective).mp
      (hclosed'.keys : (names'.map Value.str).Perm (["Teaser"].map Value.str)))
  exact ⟨ofValue_pageValue, writable_pageSchema, linked_pageSchema, text, texts, texts', htext, hclosed,
    hclosed'⟩

end TypeScript

end ContentTypes
