import ContentTypes.Proofs.TypeScript.Lines
import ContentTypes.Proofs.TypeScript.Module
import ContentTypes.Proofs.TypeScript.Order
import Mathlib.Data.List.Perm.Basic

/-!
# What a module covers

The module of a schema whose definitions are named by texts lists all documents and all objects, each
once and in the order of their names, in the unions, in the table of documents and in the declarations;
each declaration is the one that its definition has alone (`moduleText_covers`).

If the names are identifiers and nothing else that shows holds a line break, the lines that open a record
type are that of the table and those of the declarations, and there are no others.
-/

set_option autoImplicit false

namespace ContentTypes.TypeScript

/-! ## Opened names of declarations -/

theorem memberLines_computedLine {c : ComputedField} (h : ComputedShows ShowsInLine c) :
    MemberLines (computedLine c) := by
  apply MemberLines.described h.description
  have hcolon : Inner ": " := inner_of_line (by decide)
  have hline := ((inner_display h.name).append hcolon).append (inner_display h.type)
  simpa only [String.append_assoc] using MemberLines.of_indent hline

/-- A comment on a line of its own opens nothing. -/
theorem openedNames_docComment {text : Value} (h : ShowsInLine text) :
    openedNames (docComment "" text) = [] := by
  have hsplit : docComment "" text = "/** " ++ (text.display ++ " */") := by
    rw [docComment, String.empty_append, String.append_assoc]
  have hline : InLine (text.display ++ " */") := InLine.append h (by decide)
  rw [hsplit]
  exact openedNames_eq_nil_of_start "/** " rfl (by decide) (InLine.append (by decide) hline)

theorem openedNames_commentLines {d : Definition} (h : DefinitionShows ShowsInLine d) :
    (commentLines d).flatMap openedNames = [] := by
  have hcomment (text : Value) (htext : text.holds = true → ShowsInLine text) :
      (if text.holds then [docComment "" text] else []).flatMap openedNames = [] := by
    by_cases hholds : text.holds = true
    · rw [if_pos hholds, List.flatMap_singleton]
      exact openedNames_docComment (htext hholds)
    · rw [if_neg hholds]
      rfl
  unfold commentLines
  by_cases hd : d.description.holds = true
  · rw [if_pos hd]
    exact hcomment _ h.description
  · rw [if_neg hd]
    exact hcomment _ (h.label (by simpa using hd))

/-- A declaration opens its own record type and no other. -/
theorem openedNames_declarationText {d : Definition} {identity members : List String}
    (h : DefinitionShows ShowsInLine d) (hidentity : ∀ line ∈ identity, MemberLines line)
    (hmembers : ∀ line ∈ members, MemberLines line) :
    openedNames (declarationText d identity members) = [d.name.display] := by
  have hnil {lines : List String} (hlines : ∀ line ∈ lines, MemberLines line) :
      lines.flatMap openedNames = [] :=
    List.flatMap_eq_nil_iff.mpr fun line hline => (hlines line hline).openedNames_eq_nil
  have hopening : openedNames ("export type " ++ d.name.display ++ " = \x7b") = [d.name.display] := by
    have hname : InLine d.name.display := h.name
    have hline : InLine ("export type " ++ d.name.display) := InLine.append (by decide) hname
    rw [openedNames_of_line (hline.append (by decide))]
    exact congrArg Option.toList (openedName?_openingLine d.name.display)
  have htypeName : openedNames ("  _typeName: '" ++ d.name.display ++ "'") = [] := by
    have hname : InLine d.name.display := h.name
    have hline : InLine (d.name.display ++ "'") := hname.append (by decide)
    rw [String.append_assoc]
    exact openedNames_eq_nil_of_start _ rfl (by decide) (InLine.append (by decide) hline)
  have hraw : openedNames "  _raw?: Record<string, any>" = [] := by decide
  have hclose : openedNames "\x7d" = [] := by decide
  rw [declarationText, openedNames_intercalate openedNames_append_line]
  simp only [List.flatMap_append, List.flatMap_cons, List.flatMap_nil, openedNames_commentLines h,
    hopening, hnil hidentity, htypeName, hraw, hnil hmembers, hclose, List.nil_append,
    List.append_nil]

theorem openedNames_objectDeclaration {d : Definition} {declaration : Declaration}
    (h : DefinitionShows ShowsInLine d) (hd : objectDeclaration d = .ok declaration) :
    openedNames declaration.text = [d.name.display] := by
  obtain ⟨lines, hlines, hd⟩ := bind_eq_ok_iff.mp hd
  cases hd
  exact openedNames_declarationText h (List.forall_mem_nil _) (memberLines_fields h.fields hlines)

theorem openedNames_documentDeclaration {d : Document} {declaration : Declaration}
    (h : DocumentShows ShowsInLine d) (hd : documentDeclaration d = .ok declaration) :
    openedNames declaration.text = [d.name.display] := by
  obtain ⟨members, hmembers, hd⟩ := bind_eq_ok_iff.mp hd
  obtain ⟨lines, hlines, hmembers⟩ := bind_eq_ok_iff.mp hmembers
  cases hmembers
  cases hd
  have hid : MemberLines "  _id: string" := ⟨inner_of_line (by decide), rfl⟩
  refine openedNames_declarationText h.toDefinitionShows (List.forall_mem_singleton.mpr hid) ?_
  intro line hline
  rcases List.mem_append.mp hline with hline | hline
  · exact memberLines_fields h.fields hlines line hline
  · obtain ⟨c, hc, rfl⟩ := List.mem_map.mp hline
    exact memberLines_computedLine (h.computed c hc)

/-! ## The sections of a module -/

/-- The union of names as it is written. -/
def unionOfNames (names : List String) : String :=
  if names = [] then "never" else String.intercalate unionBar names

/-- The sections of a module with these names and declarations. -/
def moduleSections (settings : Settings)
    (documentNames documentTexts objectNames objectTexts : List String) : List String :=
  [preamble settings,
    "export type DocumentTypes = " ++ unionOfNames documentNames ++
      "\nexport type DocumentTypeNames = DocumentTypes['_typeName']",
    "export type AllTypes = DocumentTypes | ObjectTypes" ++
      "\nexport type AllTypeNames = DocumentTypeNames | ObjectTypeNames",
    "export type DocumentTypeMap = \x7b\n" ++
      String.join (documentNames.map fun name => "  " ++ name ++ ": " ++ name ++ "\n") ++ "\x7d",
    "/** Document types */"] ++
  documentTexts ++
  ["/** Object types */",
    "export type ObjectTypes = " ++ unionOfNames objectNames ++
      "\nexport type ObjectTypeNames = ObjectTypes['_typeName']"] ++
  objectTexts

theorem nameUnion_texts (names : List String) :
    nameUnion (names.map Value.str) = .ok (unionOfNames names) := by
  cases names with
  | nil => rfl
  | cons name names =>
      rw [nameUnion, if_neg (by simp), union_texts]
      rfl

theorem documentTable_texts (names : List String) :
    documentTable (names.map Value.str) = "export type DocumentTypeMap = \x7b\n" ++
      String.join (names.map fun name => "  " ++ name ++ ": " ++ name ++ "\n") ++ "\x7d" := by
  have hlines : ((names.map Value.str).map fun name =>
      "  " ++ name.display ++ ": " ++ name.display ++ "\n") =
      names.map fun name => "  " ++ name ++ ": " ++ name ++ "\n" := by
    rw [List.map_map]
    exact List.map_congr_left fun name _ => rfl
  unfold documentTable
  rw [hlines]

/-- The sections for declarations that are named by texts. -/
theorem sections_eq {settings : Settings} {documents objects : List Declaration}
    {documentNames objectNames : List String}
    (hdocuments : documents.map (·.name) = documentNames.map Value.str)
    (hobjects : objects.map (·.name) = objectNames.map Value.str) :
    sections settings documents objects = .ok (moduleSections settings documentNames
      (documents.map (·.text)) objectNames (objects.map (·.text))) := by
  simp only [sections, hdocuments, hobjects, nameUnion_texts, documentTable_texts, bind, Except.bind, pure,
    Except.pure]
  rfl

/-! ## Definitions and their declarations -/

/-- Names and texts of declarations that cover a map of definitions: the names are the keys of the map and
ascend strictly, and each text is that of the declaration which the definition under that name has
alone. -/
structure Covers {α : Type} (nameOf : α → Value) (declaration : α → Except RenderError Declaration)
    (map : List (Value × α)) (names texts : List String) : Prop where
  ascending : names.Pairwise (· < ·)
  keys : (names.map Value.str).Perm (map.map (·.1))
  texts : List.Forall₂ (fun name text => ∃ d, (Value.str name, d) ∈ map ∧ nameOf d = .str name ∧
    declaration d = .ok ⟨.str name, text⟩) names texts

theorem forall₂_of_mapM {α β ε : Type} {f : α → Except ε β} {xs : List α} {ys : List β}
    (h : xs.mapM f = .ok ys) : List.Forall₂ (fun x y => f x = .ok y) xs ys := by
  induction xs generalizing ys with
  | nil =>
      cases h
      exact .nil
  | cons x xs ih =>
      rw [List.mapM_cons] at h
      obtain ⟨y, hy, h⟩ := bind_eq_ok_iff.mp h
      obtain ⟨ys, hys, h⟩ := bind_eq_ok_iff.mp h
      cases h
      exact .cons hy (ih hys)

/-- The declarations of the definitions of a map, in the order of their names, cover it. -/
theorem covers_of_sortByName {α : Type} {nameOf : α → Value}
    {declaration : α → Except RenderError Declaration} {map : List (Value × α)} {sorted : List α}
    {declarations : List Declaration}
    (hname : ∀ d declared, declaration d = .ok declared → declared.name = nameOf d)
    (hmap : KeyedByName nameOf map) (hsort : sortByName nameOf (map.map (·.2)) = .ok sorted)
    (hdeclarations : sorted.mapM declaration = .ok declarations) :
    Covers nameOf declaration map (shownNames nameOf sorted) (declarations.map (·.text)) ∧
      declarations.map (·.name) = (shownNames nameOf sorted).map Value.str := by
  obtain ⟨hshown, hascending, hkeys⟩ := names_of_sortByName hmap hsort
  have hperm : sorted.Perm (map.map (·.2)) := Sorting.perm_of_sort hsort
  have hall := forall₂_of_mapM hdeclarations
  constructor
  · refine ⟨hascending, hkeys, ?_⟩
    rw [shownNames, List.forall₂_map_left_iff, List.forall₂_map_right_iff, List.forall₂_iff_zip]
    refine ⟨hall.length_eq, fun {d declared} hzip => ?_⟩
    have hdeclared := (List.forall₂_iff_zip.mp hall).2 hzip
    -- what is declared is kept in the map under the text that is its name
    obtain ⟨⟨key, d'⟩, he, rfl⟩ :=
      List.mem_map.mp (hperm.mem_iff.mp (List.of_mem_zip hzip).1)
    obtain ⟨name, rfl, hd⟩ := hmap.text _ he
    have hdisplay : (nameOf d').display = name := by
      rw [hd]
      rfl
    refine ⟨d', ?_, ?_, ?_⟩
    · rwa [hdisplay]
    · rwa [hdisplay]
    · rw [hdeclared, hdisplay, ← hd, ← hname _ _ hdeclared]
  · have hnames : List.Forall₂ (· = ·) (sorted.map nameOf) (declarations.map (·.name)) := by
      rw [List.forall₂_map_left_iff, List.forall₂_map_right_iff]
      exact hall.imp fun d declared hdeclared => (hname d declared hdeclared).symm
    rw [List.forall₂_eq_eq_eq] at hnames
    rw [← hshown, hnames]

theorem name_of_documentDeclaration {d : Document} {declared : Declaration}
    (h : documentDeclaration d = .ok declared) : declared.name = d.name := by
  obtain ⟨members, -, h⟩ := bind_eq_ok_iff.mp h
  cases h
  rfl

theorem name_of_objectDeclaration {d : Definition} {declared : Declaration}
    (h : objectDeclaration d = .ok declared) : declared.name = d.name := by
  obtain ⟨members, -, h⟩ := bind_eq_ok_iff.mp h
  cases h
  rfl

/-- Declarations that open their own record types open the names, in order. -/
theorem Covers.flatMap_openedNames {α : Type} {nameOf : α → Value}
    {declaration : α → Except RenderError Declaration} {map : List (Value × α)}
    {names texts : List String} (h : Covers nameOf declaration map names texts)
    (hopened : ∀ e ∈ map, ∀ declared, declaration e.2 = .ok declared →
      openedNames declared.text = [(nameOf e.2).display]) :
    texts.flatMap openedNames = names := by
  have htexts := h.texts
  clear h
  induction htexts with
  | nil => rfl
  | cons hd _ ih =>
      obtain ⟨d, he, hname, hdeclared⟩ := hd
      rw [List.flatMap_cons, ih, hopened _ he _ hdeclared, hname]
      rfl

/-- What holds of all declarations holds of the texts that cover a map. -/
theorem Covers.forall_mem_texts {α : Type} {nameOf : α → Value}
    {declaration : α → Except RenderError Declaration} {map : List (Value × α)}
    {names texts : List String} (h : Covers nameOf declaration map names texts) {p : String → Prop}
    (hp : ∀ d declared, declaration d = .ok declared → p declared.text) : ∀ text ∈ texts, p text := by
  have htexts := h.texts
  clear h
  induction htexts with
  | nil => exact List.forall_mem_nil p
  | cons hd _ ih =>
      obtain ⟨d, -, -, hdeclared⟩ := hd
      exact List.forall_mem_cons.mpr ⟨hp d _ hdeclared, ih⟩

/-! ## Opened names of a module -/

theorem openedNames_preamble {s : Settings} (hname : ShowsInLine s.globalInterfacePrefix)
    (hmodule : ShowsInLine s.markdownImportModule) : openedNames (preamble s) = [] := by
  have hname : InLine s.globalInterfacePrefix.display := hname
  have hcomment : (if s.addGenerationComment.holds then [generationComment] else []).flatMap
      openedNames = [] := by
    split
    · decide
    · rfl
  have himport : openedNames
      ("import type \x7b Markdown \x7d from '" ++ s.markdownImportModule.display ++ "'") = [] := by
    have hline : InLine (s.markdownImportModule.display ++ "'") := InLine.append hmodule (by decide)
    rw [String.append_assoc]
    exact openedNames_eq_nil_of_start _ rfl (by decide) (InLine.append (by decide) hline)
  have htypes : openedNames
      ("export interface " ++ s.globalInterfacePrefix.display ++ "GenTypes \x7b") = [] := by
    have hline : InLine (s.globalInterfacePrefix.display ++ "GenTypes \x7b") :=
      hname.append (by decide)
    rw [String.append_assoc, openedNames_of_line (InLine.append (by decide) hline),
      String.toList_append]
    rfl
  have hgen : openedNames ("  interface " ++ s.globalInterfacePrefix.display ++ "Gen extends " ++
      s.globalInterfacePrefix.display ++ "GenTypes \x7b\x7d") = [] := by
    have hextends : InLine "Gen extends " := by decide
    have hempty : InLine "GenTypes \x7b\x7d" := by decide
    have hline := hname.append (hextends.append (hname.append hempty))
    simp only [String.append_assoc]
    exact openedNames_eq_nil_of_start _ rfl (by decide) (InLine.append (by decide) hline)
  rw [preamble, openedNames_intercalate openedNames_append_line]
  simp only [List.flatMap_append, hcomment, List.flatMap_cons, List.flatMap_nil, himport, htypes,
    hgen, List.nil_append, List.append_nil]
  decide

/-- An identifier has no line break and no brace. -/
theorem not_mem_of_isIdentifier {name : String} (h : IsIdentifier name) {c : Char}
    (hc : isNamePart c = false) : c ∉ name.toList :=
  fun hmem => ne_of_isNamePart (h.isNamePart c hmem) hc rfl

theorem not_mem_unionOfNames {names : List String} (h : ∀ name ∈ names, IsIdentifier name) {c : Char}
    (hc : isNamePart c = false) (hbar : c ∉ unionBar.toList) : c ∉ (unionOfNames names).toList := by
  unfold unionOfNames
  split
  · intro hmem
    have hnever : IsIdentifier "never" := by decide
    exact not_mem_of_isIdentifier hnever hc hmem
  · induction names with
    | nil => simp
    | cons name names ih =>
        rw [List.forall_mem_cons] at h
        have hname := not_mem_of_isIdentifier h.1 hc
        cases names with
        | nil => rwa [String.intercalate_singleton]
        | cons name' names =>
            rw [String.intercalate_cons_cons, String.toList_append, String.toList_append]
            simp only [List.mem_append, not_or]
            exact ⟨⟨hname, hbar⟩, ih h.2 (by simp)⟩

/-- The section of a union opens nothing. -/
theorem openedNames_unionSection {title ending : String} {names : List String} (htitle : InLine title)
    (hbrace : '\x7b' ∉ title.toList) (hnames : ∀ name ∈ names, IsIdentifier name)
    (hending : openedNames ending = []) :
    openedNames (title ++ unionOfNames names ++ "\n" ++ ending) = [] := by
  have hunion : InLine (unionOfNames names) := not_mem_unionOfNames hnames (by decide) (by decide)
  rw [openedNames_append_line, hending, openedNames_of_line (htitle.append hunion),
    openedName?_eq_none_of_not_mem]
  · rfl
  · rw [String.toList_append, List.mem_append, not_or]
    exact ⟨hbrace, not_mem_unionOfNames hnames (by decide) (by decide)⟩

/-- The table of documents opens its own record type. -/
theorem openedNames_table {names : List String} (hnames : ∀ name ∈ names, IsIdentifier name) :
    openedNames ("export type DocumentTypeMap = \x7b\n" ++
      String.join (names.map fun name => "  " ++ name ++ ": " ++ name ++ "\n") ++ "\x7d") =
      ["DocumentTypeMap"] := by
  have hlines : (names.map fun name => "  " ++ name ++ ": " ++ name ++ "\n") =
      (names.map fun name => "  " ++ name ++ ": " ++ name).map (· ++ "\n") := by
    rw [List.map_map]
    rfl
  have hopen : "export type DocumentTypeMap = \x7b\n" = "export type DocumentTypeMap = \x7b" ++ "\n" := by
    decide
  have hnil : (names.map fun name => "  " ++ name ++ ": " ++ name).flatMap openedNames = [] := by
    rw [List.flatMap_eq_nil_iff]
    intro line hline
    obtain ⟨name, hname, rfl⟩ := List.mem_map.mp hline
    have hinline : InLine name := not_mem_of_isIdentifier (hnames name hname) (by decide)
    have hrest : InLine (": " ++ name) := InLine.append (by decide) hinline
    simp only [String.append_assoc]
    exact openedNames_eq_nil_of_start _ rfl (by decide)
      (InLine.append (by decide) (hinline.append hrest))
  rw [hlines, hopen, String.append_assoc, openedNames_append_line, openedNames_join, hnil]
  decide

/-- Of the sections of a module, the table and the declarations open something. -/
theorem openedNames_moduleSections {settings : Settings}
    {documentNames documentTexts objectNames objectTexts : List String}
    (hglobal : ShowsInLine settings.globalInterfacePrefix)
    (hmodule : ShowsInLine settings.markdownImportModule)
    (hdocuments : ∀ name ∈ documentNames, IsIdentifier name)
    (hobjects : ∀ name ∈ objectNames, IsIdentifier name) :
    (moduleSections settings documentNames documentTexts objectNames objectTexts).flatMap openedNames =
      "DocumentTypeMap" :: (documentTexts.flatMap openedNames ++ objectTexts.flatMap openedNames) := by
  have hdocumentUnion : openedNames ("export type DocumentTypes = " ++ unionOfNames documentNames ++
      "\nexport type DocumentTypeNames = DocumentTypes['_typeName']") = [] := by
    have hsplit : "\nexport type DocumentTypeNames = DocumentTypes['_typeName']" =
        "\n" ++ "export type DocumentTypeNames = DocumentTypes['_typeName']" := by
      decide
    rw [hsplit, ← String.append_assoc]
    exact openedNames_unionSection (by decide) (by decide) hdocuments (by decide)
  have hobjectUnion : openedNames ("export type ObjectTypes = " ++ unionOfNames objectNames ++
      "\nexport type ObjectTypeNames = ObjectTypes['_typeName']") = [] := by
    have hsplit : "\nexport type ObjectTypeNames = ObjectTypes['_typeName']" =
        "\n" ++ "export type ObjectTypeNames = ObjectTypes['_typeName']" := by
      decide
    rw [hsplit, ← String.append_assoc]
    exact openedNames_unionSection (by decide) (by decide) hobjects (by decide)
  have hall : openedNames ("export type AllTypes = DocumentTypes | ObjectTypes" ++
      "\nexport type AllTypeNames = DocumentTypeNames | ObjectTypeNames") = [] := by
    have hsplit : "\nexport type AllTypeNames = DocumentTypeNames | ObjectTypeNames" =
        "\n" ++ "export type AllTypeNames = DocumentTypeNames | ObjectTypeNames" := by
      decide
    have htypes : openedNames "export type AllTypes = DocumentTypes | ObjectTypes" = [] := by decide
    have hnames : openedNames "export type AllTypeNames = DocumentTypeNames | ObjectTypeNames" = [] := by
      decide
    rw [hsplit, ← String.append_assoc, openedNames_append_line, htypes, hnames]
    rfl
  have hcomment : openedNames "/** Document types */" = [] := by decide
  have hcomment' : openedNames "/** Object types */" = [] := by decide
  simp only [moduleSections, List.flatMap_append, List.flatMap_cons, List.flatMap_nil,
    openedNames_preamble hglobal hmodule, hdocumentUnion, hobjectUnion, hall,
    openedNames_table hdocuments, hcomment, hcomment', List.nil_append, List.append_nil]
  rfl

/-! ## The end of a module -/

/-- A joined text ends as its last part does. -/
theorem getLast?_intercalate {separator last : String} {texts : List String}
    (h : texts.getLast? = some last) (hne : last.toList ≠ []) :
    (String.intercalate separator texts).toList.getLast? = last.toList.getLast? := by
  induction texts with
  | nil => cases h
  | cons text texts ih =>
      cases texts with
      | nil =>
          obtain rfl : text = last := by simpa using h
          rw [String.intercalate_singleton]
      | cons text' texts =>
          rw [List.getLast?_cons_cons] at h
          obtain ⟨c, hc⟩ := Option.ne_none_iff_exists'.mp (mt List.getLast?_eq_none_iff.mp hne)
          rw [String.intercalate_cons_cons, String.toList_append, List.getLast?_append, ih h, hc]
          rfl

/-- A declaration ends with a brace. -/
theorem getLast?_declarationText (d : Definition) (identity members : List String) :
    (declarationText d identity members).toList.getLast? = some '\x7d' := by
  rw [declarationText, getLast?_intercalate (List.getLast?_concat ..) (by decide)]
  rfl

/-- The last section of a module has no line break at its end. -/
theorem getLast?_moduleSections {settings : Settings}
    {documentNames documentTexts objectNames objectTexts : List String}
    (h : ∀ text ∈ objectTexts, text.toList.getLast? = some '\x7d') :
    (String.intercalate "\n\n" (moduleSections settings documentNames documentTexts objectNames
      objectTexts)).toList.getLast? ≠ some '\n' := by
  rcases List.eq_nil_or_concat' objectTexts with rfl | ⟨texts, last, rfl⟩
  · have hunion : ("export type ObjectTypes = " ++ unionOfNames objectNames ++
        "\nexport type ObjectTypeNames = ObjectTypes['_typeName']").toList.getLast? = some ']' := by
      rw [String.toList_append, List.getLast?_append]
      rfl
    have hsection : (moduleSections settings documentNames documentTexts objectNames []).getLast? =
        some ("export type ObjectTypes = " ++ unionOfNames objectNames ++
          "\nexport type ObjectTypeNames = ObjectTypes['_typeName']") := by
      rw [moduleSections, List.append_nil, List.getLast?_append]
      rfl
    rw [getLast?_intercalate hsection (by simp), hunion]
    decide
  · have hlast : last.toList.getLast? = some '\x7d' := h last (by simp)
    have hsection : (moduleSections settings documentNames documentTexts objectNames
        (texts ++ [last])).getLast? = some last := by
      rw [moduleSections, ← List.append_assoc, List.getLast?_concat]
    have hne : last.toList ≠ [] := by
      intro hnil
      simp [hnil] at hlast
    rw [getLast?_intercalate hsection hne, hlast]
    decide

theorem getLast?_of_objectDeclaration {d : Definition} {declared : Declaration}
    (h : objectDeclaration d = .ok declared) : declared.text.toList.getLast? = some '\x7d' := by
  obtain ⟨members, -, h⟩ := bind_eq_ok_iff.mp h
  cases h
  exact getLast?_declarationText d [] members

/-! ## The module -/

/-- **A module covers its schema.** The names that it lists are those of the documents and of the objects,
each once and in ascending order; the union of none is `never`; each declaration is that of its
definition alone; and the text ends with one line break. If names are identifiers and nothing else that
shows breaks a line, the lines that open a record type are those of the table, the documents and the
objects, in this order, and no others. -/
theorem moduleText_covers {settings : Settings} {raw : Value} {schema : Schema} {text : String}
    (hschema : Schema.ofValue raw = .ok schema)
    (hdocuments : ∀ e ∈ schema.documents, ∃ name, e.2.name = .str name)
    (hobjects : ∀ e ∈ schema.objects, ∃ name, e.2.name = .str name)
    (htext : moduleText settings schema = .ok text) :
    ∃ documentNames documentTexts objectNames objectTexts body,
      Covers (fun d : Document => d.name) documentDeclaration schema.documents documentNames
        documentTexts ∧
      Covers (fun d : Definition => d.name) objectDeclaration schema.objects objectNames objectTexts ∧
      body = String.intercalate "\n\n"
        (moduleSections settings documentNames documentTexts objectNames objectTexts) ∧
      text = body ++ "\n" ∧ body.toList.getLast? ≠ some '\n' ∧
      ((∀ name ∈ documentNames ++ objectNames, IsIdentifier name) →
        SchemaShows ShowsInLine schema → ShowsInLine settings.globalInterfacePrefix →
        ShowsInLine settings.markdownImportModule →
        openedNames text = "DocumentTypeMap" :: (documentNames ++ objectNames)) := by
  obtain ⟨hkeyed, hkeyed'⟩ :=
    (Schema.ofValue_eq_ok_iff.mp hschema).keyedByName hdocuments hobjects
  obtain ⟨⟨documents, objects⟩, hsorted, htext⟩ := bind_eq_ok_iff.mp htext
  obtain ⟨documentDeclarations, hd, htext⟩ := bind_eq_ok_iff.mp htext
  obtain ⟨objectDeclarations, ho, htext⟩ := bind_eq_ok_iff.mp htext
  obtain ⟨texts, hsections, htext⟩ := bind_eq_ok_iff.mp htext
  obtain ⟨_, hsort, hsorted⟩ := bind_eq_ok_iff.mp hsorted
  obtain ⟨_, hsort', hsorted⟩ := bind_eq_ok_iff.mp hsorted
  cases hsorted
  cases htext
  obtain ⟨hcovers, hnames⟩ :=
    covers_of_sortByName (fun _ _ h => name_of_documentDeclaration h) hkeyed hsort hd
  obtain ⟨hcovers', hnames'⟩ :=
    covers_of_sortByName (fun _ _ h => name_of_objectDeclaration h) hkeyed' hsort' ho
  rw [sections_eq hnames hnames'] at hsections
  cases hsections
  refine ⟨_, _, _, _, _, hcovers, hcovers', rfl, rfl, ?_, ?_⟩
  · exact getLast?_moduleSections
      (hcovers'.forall_mem_texts fun _ _ h => getLast?_of_objectDeclaration h)
  · intro hidentifiers hshows hglobal hmodule
    rw [List.forall_mem_append] at hidentifiers
    have hopened := hcovers.flatMap_openedNames fun e he _ h =>
      openedNames_documentDeclaration (hshows.documents e he) h
    have hopened' := hcovers'.flatMap_openedNames fun e he _ h =>
      openedNames_objectDeclaration (hshows.objects e he) h
    rw [openedNames_append_break, openedNames_intercalate openedNames_append_emptyLine,
      openedNames_moduleSections hglobal hmodule hidentifiers.1 hidentifiers.2, hopened, hopened']

/-! ### A schema of posts -/

/-- Two documents against the order of their names, one of them entered under another name than its own
and with a record in a record. -/
def postsValue : Value :=
  .obj [("documentDefMap", .obj [
    ("post", .obj [("name", .str "Post"), ("fieldDefs", .arr [
      .obj [("name", .str "place"), ("type", .str "inline_object"), ("fieldDefs", .arr [
        .obj [("name", .str "at"), ("type", .str "inline_object")]])]])]),
    ("Author", .obj [("label", .str "Who writes")])])]

/-- The schema of `postsValue`. -/
def postsSchema : Schema where
  documents := [
    (.str "Post", ⟨⟨.str "Post", .str "", .null, [⟨.str "place", .bool false, .null, .null,
      .inlineObject [⟨.str "at", .bool false, .null, .null, .inlineObject []⟩]⟩]⟩, [], .null⟩),
    (.str "Author", ⟨⟨.str "Author", .str "Who writes", .null, []⟩, [], .null⟩)]
  objects := []

theorem ofValue_postsValue : Schema.ofValue postsValue = .ok postsSchema := by
  have hat : FieldForm (.obj [("name", .str "at"), ("type", .str "inline_object")])
      ⟨.str "at", .bool false, .null, .null, .inlineObject []⟩ :=
    .field rfl rfl (.inlineObject (.missing rfl) .nil)
  apply Schema.ofValue_eq_ok_iff.mpr
  apply @SchemaForm.schema _ _ [] (postsSchema.documents.map (·.2)) []
  · exact .object rfl
  · refine .cons ⟨.document (.list rfl) (.cons (.field rfl rfl ?_) .nil) (.missing rfl) .nil, rfl⟩
      (.cons ⟨.document (.missing rfl) .nil (.missing rfl) .nil, rfl⟩ .nil)
    exact .inlineObject (.list rfl) (.cons hat .nil)
  · exact .missing rfl
  · exact .nil

theorem schemaWritable_postsSchema : SchemaWritable postsSchema := by
  have hnull {p : Prop} (h : Value.null.holds = true) : p := nomatch h
  refine ⟨List.forall_mem_cons.mpr ⟨?_, List.forall_mem_singleton.mpr ?_⟩, List.forall_mem_nil _⟩
  · have hat : FieldWritable ⟨.str "at", .bool false, .null, .null, .inlineObject []⟩ :=
      ⟨⟨_, rfl, by decide⟩, hnull, trivial⟩
    exact ⟨⟨⟨_, rfl, by decide⟩, hnull, fun _ _ => by decide,
      ⟨⟨⟨_, rfl, by decide⟩, hnull, hat, trivial⟩, trivial⟩⟩, List.forall_mem_nil _⟩
  · exact ⟨⟨⟨_, rfl, by decide⟩, hnull, fun _ _ => by decide, trivial⟩, List.forall_mem_nil _⟩

theorem schemaShows_postsSchema : SchemaShows ShowsInLine postsSchema := by
  have hline {text : String} (h : InLine text) : ShowsInLine (.str text) := h
  have hnull {p : Prop} (h : Value.null.holds = true) : p := nomatch h
  refine ⟨List.forall_mem_cons.mpr ⟨?_, List.forall_mem_singleton.mpr ?_⟩, List.forall_mem_nil _⟩
  · have hat : FieldShows ShowsInLine ⟨.str "at", .bool false, .null, .null, .inlineObject []⟩ :=
      ⟨hline (by decide), hnull, trivial⟩
    exact ⟨⟨hline (by decide), hnull, fun _ _ => hline (by decide),
      ⟨⟨hline (by decide), hnull, hat, trivial⟩, trivial⟩⟩, List.forall_mem_nil _⟩
  · exact ⟨⟨hline (by decide), hnull, fun _ _ => hline (by decide), trivial⟩, List.forall_mem_nil _⟩

theorem moduleText_covers_postsSchema :
    Schema.ofValue postsValue = .ok postsSchema ∧ ∃ text, moduleText .initial postsSchema = .ok text ∧
      ∃ documentTexts body,
        Covers (fun d : Document => d.name) documentDeclaration postsSchema.documents ["Author", "Post"]
          documentTexts ∧
        body = String.intercalate "\n\n"
          (moduleSections .initial ["Author", "Post"] documentTexts [] []) ∧
        text = body ++ "\n" ∧ body.toList.getLast? ≠ some '\n' ∧
        openedNames text = ["DocumentTypeMap", "Author", "Post"] := by
  have hs : SettingsWritable .initial := ⟨⟨_, rfl, by decide⟩, by decide⟩
  obtain ⟨text, htext, -, -⟩ := exists_moduleText hs schemaWritable_postsSchema
  have hdocuments : ∀ e ∈ postsSchema.documents, ∃ name, e.2.name = .str name :=
    List.forall_mem_cons.mpr ⟨⟨_, rfl⟩, List.forall_mem_singleton.mpr ⟨_, rfl⟩⟩
  obtain ⟨names, texts, names', texts', body, hcovers, hcovers', hbody, hend, hlast, hopened⟩ :=
    moduleText_covers ofValue_postsValue hdocuments (List.forall_mem_nil _) htext
  have hnames : names = ["Author", "Post"] := by
    have hperm : (names.map Value.str).Perm (["Author", "Post"].map Value.str) :=
      hcovers.keys.trans (.swap ..)
    have hperm := (List.map_perm_map_iff fun _ _ => Value.str.inj).mp hperm
    exact hperm.eq_of_pairwise (fun _ _ _ _ h h' => absurd h' (lt_asymm h)) hcovers.ascending
      (by decide)
  have hnames' : names' = [] := by simpa [postsSchema] using hcovers'.keys
  subst hnames hnames'
  obtain rfl : texts' = [] := by
    have := hcovers'.texts
    cases this
    rfl
  refine ⟨ofValue_postsValue, text, htext, texts, body, hcovers, hbody, hend, hlast, ?_⟩
  exact hopened (by decide) schemaShows_postsSchema (by decide) (by decide)

end ContentTypes.TypeScript
