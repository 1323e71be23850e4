import ContentTypes.Proofs.Sorting
import ContentTypes.Proofs.Text.CodePoint
import ContentTypes.Proofs.TypeScript.Lines
import ContentTypes.TypeScript.Module

/-!
# Modules that have bytes

A module has bytes if nothing that shows in it has a half of a surrogate pair in it: what is written between
the values that show is plain, and plain texts stay so when they are put together
(`encodeFault?_moduleText`).
-/

set_option autoImplicit false

namespace ContentTypes.TypeScript

/-- Whether the mark of halves is not in a text. -/
def Unmarked (text : String) : Prop := Text.mark ∉ text.toList

instance : DecidablePred Unmarked := fun text => inferInstanceAs (Decidable (Text.mark ∉ text.toList))

/-- Whether a value shows without the mark. -/
def ShowsUnmarked (v : Value) : Prop := Unmarked v.display

instance : DecidablePred ShowsUnmarked := fun v => inferInstanceAs (Decidable (Unmarked v.display))

/-! ## Texts that are put together -/

theorem unmarked_ofList {l : List Char} (h : Text.mark ∉ l) : Unmarked (String.ofList l) := by
  rwa [Unmarked, String.toList_ofList]

theorem Unmarked.append {text text' : String} (h : Unmarked text) (h' : Unmarked text') :
    Unmarked (text ++ text') := by
  rw [Unmarked, String.toList_append, List.mem_append, not_or]
  exact ⟨h, h'⟩

theorem unmarked_intercalate {separator : String} {texts : List String} (hseparator : Unmarked separator)
    (h : ∀ text ∈ texts, Unmarked text) : Unmarked (String.intercalate separator texts) := by
  induction texts with
  | nil => exact List.not_mem_nil
  | cons text texts ih =>
      obtain ⟨htext, htexts⟩ := List.forall_mem_cons.mp h
      cases texts with
      | nil => rwa [String.intercalate_singleton]
      | cons text' texts =>
          rw [String.intercalate_cons_cons]
          exact (htext.append hseparator).append (ih htexts)

theorem unmarked_join {texts : List String} (h : ∀ text ∈ texts, Unmarked text) :
    Unmarked (String.join texts) := by
  have hlist : (String.join texts).toList = texts.flatMap String.toList := by simp
  rw [Unmarked, hlist, List.mem_flatMap]
  rintro ⟨text, htext, hmem⟩
  exact h text htext hmem

/-! ## Types -/

theorem unmarked_literalUnion {options : List Value} (h : ∀ option ∈ options, ShowsUnmarked option) :
    Unmarked (literalUnion options) := by
  refine unmarked_intercalate (unmarked_ofList (by decide)) (List.forall_mem_map.mpr fun option hoption => ?_)
  have hquote : Unmarked "'" := unmarked_ofList (by decide)
  exact (hquote.append (h option hoption)).append hquote

theorem unmarked_todo {kind : Value} (h : ShowsUnmarked kind) : Unmarked (todo kind) := by
  have htodo : Unmarked "'todo " := unmarked_ofList (by decide)
  exact (htodo.append h).append (unmarked_ofList (by decide))

theorem unmarked_docComment {indent : String} {text : Value} (hindent : Unmarked indent)
    (h : ShowsUnmarked text) : Unmarked (docComment indent text) := by
  have hopen : Unmarked (indent ++ "/** ") := hindent.append (unmarked_ofList (by decide))
  exact (hopen.append h).append (unmarked_ofList (by decide))

theorem unmarked_described {description : Value} {line : String}
    (h : description.holds = true → ShowsUnmarked description) (hline : Unmarked line) :
    Unmarked (described description line) := by
  unfold described
  split
  · rename_i hd
    have hcomment := unmarked_docComment (unmarked_ofList (by decide) : Unmarked indent) (h hd)
    exact (hcomment.append (unmarked_ofList (by decide))).append hline
  · exact hline

theorem unmarked_memberLine {name required description type : Value} (hname : ShowsUnmarked name)
    (hdescription : description.holds = true → ShowsUnmarked description) (h : ShowsUnmarked type) :
    Unmarked (memberLine name required description type) := by
  apply unmarked_described hdescription
  have hindent : Unmarked indent := unmarked_ofList (by decide)
  have hcolon : Unmarked ": " := unmarked_ofList (by decide)
  have hending : Unmarked (if required.holds then "" else " | undefined") := by
    split
    · exact unmarked_ofList (by decide)
    · exact unmarked_ofList (by decide)
  exact (((hindent.append hname).append hcolon).append h).append hending

theorem unmarked_record {lines : List String} (h : ∀ line ∈ lines, Unmarked line) : Unmarked (record lines) := by
  have hopen : Unmarked "\x7b\n" := unmarked_ofList (by decide)
  have hlines := unmarked_intercalate (unmarked_ofList (by decide) : Unmarked "\n") h
  exact (hopen.append hlines).append (unmarked_ofList (by decide))

mutual

/-- The type of a field is unmarked if what shows in it is. -/
theorem unmarked_type : ∀ {type : FieldType} {v : Value}, TypeShows ShowsUnmarked type →
    fieldExpression type = .ok v → ShowsUnmarked v
  | .boolean, _, _, h | .string, _, _, h | .date, _, _, h | .image, _, _, h | .markdown, _, _, h
  | .reference _, _, _, h => by
      cases h
      exact unmarked_ofList (by decide)
  | .list none, _, _, h | .plain, _, _, h => by
      cases h
      exact unmarked_todo (unmarked_ofList (by decide))
  | .object name, _, hshows, h => by
      cases h
      exact hshows
  | .inlineObject fields, _, hshows, h => by
      rw [fieldExpression, bind_eq_ok_iff] at h
      obtain ⟨lines, hlines, h⟩ := h
      cases h
      exact unmarked_record (unmarked_fields hshows hlines)
  | .enumeration options, _, hshows, h => by
      cases h
      exact unmarked_literalUnion hshows
  | .list (some item), _, hshows, h => by
      rw [fieldExpression, bind_eq_ok_iff] at h
      obtain ⟨type, htype, h⟩ := h
      obtain ⟨text, htext, h⟩ := bind_eq_ok_iff.mp h
      cases h
      obtain ⟨s, rfl, rfl⟩ := listOf_eq_ok htext
      exact (unmarked_item hshows htype).append (unmarked_ofList (by decide))
  | .polymorphicList items, _, hshows, h => by
      rw [fieldExpression, bind_eq_ok_iff] at h
      obtain ⟨types, htypes, h⟩ := h
      obtain ⟨text, htext, h⟩ := bind_eq_ok_iff.mp h
      cases h
      obtain ⟨texts, htexts, rfl⟩ := map_eq_ok_iff.mp htext
      obtain rfl := textsFrom_eq_ok htexts
      have hunion : Unmarked (String.intercalate unionBar texts) :=
        unmarked_intercalate (unmarked_ofList (by decide)) fun text htext =>
          unmarked_items hshows htypes (.str text) (List.mem_map_of_mem htext)
      have hopen : Unmarked "(" := unmarked_ofList (by decide)
      exact (hopen.append hunion).append (unmarked_ofList (by decide))
  | .unknown kind _, _, hshows, h => by
      cases h
      exact unmarked_todo hshows

theorem unmarked_field : ∀ {field : FieldOf FieldType} {line : String},
    FieldShows ShowsUnmarked field → fieldLine field = .ok line → Unmarked line
  | ⟨name, required, description, _, type⟩, _, hshows, h => by
      rw [fieldLine, bind_eq_ok_iff] at h
      obtain ⟨v, hv, h⟩ := h
      cases h
      exact unmarked_memberLine hshows.1 hshows.2.1 (unmarked_type hshows.2.2 hv)

theorem unmarked_fields : ∀ {fields : List (FieldOf FieldType)} {lines : List String},
    FieldsShow ShowsUnmarked fields → fieldLines fields = .ok lines → ∀ line ∈ lines, Unmarked line
  | [], _, _, h => by
      cases h
      exact List.forall_mem_nil _
  | field :: fields, _, hshows, h => by
      rw [fieldLines, bind_eq_ok_iff] at h
      obtain ⟨line, hline, h⟩ := h
      obtain ⟨lines, hlines, h⟩ := bind_eq_ok_iff.mp h
      cases h
      exact List.forall_mem_cons.mpr ⟨unmarked_field hshows.1 hline, unmarked_fields hshows.2 hlines⟩

theorem unmarked_item : ∀ {item : ItemType} {v : Value}, ItemShows ShowsUnmarked item →
    itemExpression item = .ok v → ShowsUnmarked v
  | .boolean, _, _, h | .string, _, _, h => by
      cases h
      exact unmarked_ofList (by decide)
  | .plain, _, _, h => by
      cases h
      exact unmarked_todo (unmarked_ofList (by decide))
  | .object name, _, hshows, h | .reference name, _, hshows, h => by
      cases h
      exact hshows
  | .enumeration options, _, hshows, h => by
      cases h
      have hopen : Unmarked "(" := unmarked_ofList (by decide)
      exact (hopen.append (unmarked_literalUnion hshows)).append (unmarked_ofList (by decide))
  | .inlineObject fields, _, hshows, h => by
      rw [itemExpression, bind_eq_ok_iff] at h
      obtain ⟨lines, hlines, h⟩ := h
      cases h
      exact unmarked_record (unmarked_fields hshows hlines)
  | .unknown kind _, _, hshows, h => by
      cases h
      exact unmarked_todo hshows

theorem unmarked_items : ∀ {items : List ItemType} {vs : List Value}, ItemsShow ShowsUnmarked items →
    itemExpressions items = .ok vs → ∀ v ∈ vs, ShowsUnmarked v
  | [], _, _, h => by
      cases h
      exact List.forall_mem_nil _
  | item :: items, _, hshows, h => by
      rw [itemExpressions, bind_eq_ok_iff] at h
      obtain ⟨v, hv, h⟩ := h
      obtain ⟨vs, hvs, h⟩ := bind_eq_ok_iff.mp h
      cases h
      exact List.forall_mem_cons.mpr ⟨unmarked_item hshows.1 hv, unmarked_items hshows.2 hvs⟩

end

/-! ## Declarations -/

/-- Whether the name and the text of a declaration are unmarked. -/
structure Declaration.Unmarked (d : Declaration) : Prop where
  name : ShowsUnmarked d.name
  text : TypeScript.Unmarked d.text

theorem unmarked_commentLines {d : Definition} (h : DefinitionShows ShowsUnmarked d) :
    ∀ line ∈ commentLines d, Unmarked line := by
  have hremark (text : Value) (htext : text.holds = true → ShowsUnmarked text) :
      ∀ line ∈ (if text.holds then [docComment "" text] else []), Unmarked line := by
    split
    · rename_i hholds
      exact List.forall_mem_singleton.mpr (unmarked_docComment (unmarked_ofList (by decide)) (htext hholds))
    · exact List.forall_mem_nil _
  unfold commentLines
  by_cases hd : d.description.holds = true
  · rw [if_pos hd]
    exact hremark _ h.description
  · rw [if_neg hd]
    exact hremark _ (h.label (by simpa using hd))

theorem unmarked_declarationText {d : Definition} {identity members : List String}
    (h : DefinitionShows ShowsUnmarked d) (hidentity : ∀ line ∈ identity, Unmarked line)
    (hmembers : ∀ line ∈ members, Unmarked line) : Unmarked (declarationText d identity members) := by
  have hexport : Unmarked "export type " := unmarked_ofList (by decide)
  have htypeName : Unmarked "  _typeName: '" := unmarked_ofList (by decide)
  refine unmarked_intercalate (unmarked_ofList (by decide)) ?_
  simp only [List.forall_mem_append, List.forall_mem_cons, List.not_mem_nil, false_imp_iff, implies_true,
    and_true]
  exact ⟨⟨⟨⟨⟨unmarked_commentLines h, (hexport.append h.name).append (unmarked_ofList (by decide))⟩, hidentity⟩,
    (htypeName.append h.name).append (unmarked_ofList (by decide)), unmarked_ofList (by decide)⟩, hmembers⟩,
    unmarked_ofList (by decide)⟩

theorem unmarked_objectDeclaration {d : Definition} {declaration : Declaration}
    (hshows : DefinitionShows ShowsUnmarked d) (h : objectDeclaration d = .ok declaration) :
    declaration.Unmarked := by
  obtain ⟨members, hmembers, h⟩ := bind_eq_ok_iff.mp h
  cases h
  exact ⟨hshows.name,
    unmarked_declarationText hshows (List.forall_mem_nil _) (unmarked_fields hshows.fields hmembers)⟩

theorem unmarked_documentDeclaration {d : Document} {declaration : Declaration}
    (hshows : DocumentShows ShowsUnmarked d) (h : documentDeclaration d = .ok declaration) :
    declaration.Unmarked := by
  obtain ⟨members, hmembers, h⟩ := bind_eq_ok_iff.mp h
  cases h
  obtain ⟨lines, hlines, h⟩ := bind_eq_ok_iff.mp hmembers
  cases h
  refine ⟨hshows.name, unmarked_declarationText hshows.toDefinitionShows
    (List.forall_mem_singleton.mpr (unmarked_ofList (by decide))) ?_⟩
  refine List.forall_mem_append.mpr ⟨unmarked_fields hshows.fields hlines, List.forall_mem_map.mpr fun c hc => ?_⟩
  have hcomputed := hshows.computed c hc
  have hindent : Unmarked indent := unmarked_ofList (by decide)
  have hcolon : Unmarked ": " := unmarked_ofList (by decide)
  exact unmarked_described hcomputed.description
    (((hindent.append hcomputed.name).append hcolon).append hcomputed.type)

/-! ## The module -/

theorem unmarked_preamble {s : Settings} (hglobal : ShowsUnmarked s.globalInterfacePrefix)
    (hmodule : ShowsUnmarked s.markdownImportModule) : Unmarked (preamble s) := by
  have himport : Unmarked "import type \x7b Markdown \x7d from '" := unmarked_ofList (by decide)
  have hexport : Unmarked "export interface " := unmarked_ofList (by decide)
  have hinterface : Unmarked "  interface " := unmarked_ofList (by decide)
  have hextends : Unmarked "Gen extends " := unmarked_ofList (by decide)
  refine unmarked_intercalate (unmarked_ofList (by decide)) (List.forall_mem_append.mpr ⟨?_, ?_⟩)
  · split
    · exact List.forall_mem_singleton.mpr (unmarked_ofList (by decide))
    · exact List.forall_mem_nil _
  simp only [List.forall_mem_cons, List.not_mem_nil, false_imp_iff, implies_true,
    and_true]
  exact ⟨(himport.append hmodule).append (unmarked_ofList (by decide)), unmarked_ofList (by decide),
    unmarked_ofList (by decide), unmarked_ofList (by decide), unmarked_ofList (by decide),
    (hexport.append hglobal).append (unmarked_ofList (by decide)), unmarked_ofList (by decide),
    unmarked_ofList (by decide), unmarked_ofList (by decide), unmarked_ofList (by decide),
    unmarked_ofList (by decide), unmarked_ofList (by decide), unmarked_ofList (by decide),
    (((hinterface.append hglobal).append hextends).append hglobal).append (unmarked_ofList (by decide)),
    unmarked_ofList (by decide)⟩

theorem unmarked_nameUnion {names : List Value} {text : String} (hnames : ∀ name ∈ names, ShowsUnmarked name)
    (h : nameUnion names = .ok text) : Unmarked text := by
  unfold nameUnion at h
  split at h
  · cases h
    exact unmarked_ofList (by decide)
  · obtain ⟨texts, htexts, rfl⟩ := map_eq_ok_iff.mp h
    obtain rfl := textsFrom_eq_ok htexts
    exact unmarked_intercalate (unmarked_ofList (by decide)) fun text htext =>
      hnames (.str text) (List.mem_map_of_mem htext)

theorem unmarked_documentTable {names : List Value} (h : ∀ name ∈ names, ShowsUnmarked name) :
    Unmarked (documentTable names) := by
  have hopen : Unmarked "export type DocumentTypeMap = \x7b\n" := unmarked_ofList (by decide)
  have hindent : Unmarked "  " := unmarked_ofList (by decide)
  have hcolon : Unmarked ": " := unmarked_ofList (by decide)
  have hlines : Unmarked (String.join (names.map fun name =>
      "  " ++ name.display ++ ": " ++ name.display ++ "\n")) := by
    refine unmarked_join (List.forall_mem_map.mpr fun name hname => ?_)
    exact (((hindent.append (h name hname)).append hcolon).append (h name hname)).append
      (unmarked_ofList (by decide))
  exact (hopen.append hlines).append (unmarked_ofList (by decide))

theorem unmarked_sections {settings : Settings} {documents objects : List Declaration} {texts : List String}
    (hglobal : ShowsUnmarked settings.globalInterfacePrefix)
    (hmodule : ShowsUnmarked settings.markdownImportModule) (hdocuments : ∀ d ∈ documents, d.Unmarked)
    (hobjects : ∀ d ∈ objects, d.Unmarked) (h : sections settings documents objects = .ok texts) :
    ∀ text ∈ texts, Unmarked text := by
  have hdocumentNames : ∀ name ∈ documents.map (·.name), ShowsUnmarked name :=
    List.forall_mem_map.mpr fun d hd => (hdocuments d hd).name
  have hobjectNames : ∀ name ∈ objects.map (·.name), ShowsUnmarked name :=
    List.forall_mem_map.mpr fun d hd => (hobjects d hd).name
  obtain ⟨documentUnion, hdocumentUnion, h⟩ := bind_eq_ok_iff.mp h
  obtain ⟨objectUnion, hobjectUnion, h⟩ := bind_eq_ok_iff.mp h
  cases h
  have htypes : Unmarked "export type DocumentTypes = " := unmarked_ofList (by decide)
  have htypes' : Unmarked "export type ObjectTypes = " := unmarked_ofList (by decide)
  have hall : Unmarked "export type AllTypes = DocumentTypes | ObjectTypes" := unmarked_ofList (by decide)
  simp only [List.forall_mem_append, List.forall_mem_cons, List.not_mem_nil, false_imp_iff, implies_true,
    and_true, List.forall_mem_map]
  exact ⟨⟨⟨⟨unmarked_preamble hglobal hmodule,
      (htypes.append (unmarked_nameUnion hdocumentNames hdocumentUnion)).append (unmarked_ofList (by decide)),
      hall.append (unmarked_ofList (by decide)), unmarked_documentTable hdocumentNames,
      unmarked_ofList (by decide)⟩, fun d hd => (hdocuments d hd).text⟩,
    unmarked_ofList (by decide),
    (htypes'.append (unmarked_nameUnion hobjectNames hobjectUnion)).append (unmarked_ofList (by decide))⟩,
    fun d hd => (hobjects d hd).text⟩

theorem forall_mem_of_mapM {α β ε : Type} {f : α → Except ε β} {p : α → Prop} {q : β → Prop} {xs : List α}
    {ys : List β} (hp : ∀ x ∈ xs, p x) (hq : ∀ x y, p x → f x = .ok y → q y) (h : xs.mapM f = .ok ys) :
    ∀ y ∈ ys, q y := by
  induction xs generalizing ys with
  | nil =>
      cases h
      exact List.forall_mem_nil _
  | cons x xs ih =>
      rw [List.mapM_cons] at h
      obtain ⟨y, hy, h⟩ := bind_eq_ok_iff.mp h
      obtain ⟨ys, hys, h⟩ := bind_eq_ok_iff.mp h
      cases h
      obtain ⟨hx, hxs⟩ := List.forall_mem_cons.mp hp
      exact List.forall_mem_cons.mpr ⟨hq x y hx hy, ih hxs hys⟩

/-- **A module has bytes if no value that shows in it has the mark of halves in it.** -/
theorem encodeFault?_moduleText {settings : Settings} {schema : Schema} {text : String}
    (hglobal : ShowsUnmarked settings.globalInterfacePrefix)
    (hmodule : ShowsUnmarked settings.markdownImportModule) (hshows : SchemaShows ShowsUnmarked schema)
    (h : moduleText settings schema = .ok text) : Text.encodeFault? text = none := by
  obtain ⟨⟨documents, objects⟩, hsorted, h⟩ := bind_eq_ok_iff.mp h
  obtain ⟨documentTexts, hdocumentTexts, h⟩ := bind_eq_ok_iff.mp h
  obtain ⟨objectTexts, hobjectTexts, h⟩ := bind_eq_ok_iff.mp h
  obtain ⟨texts, hsections, h⟩ := bind_eq_ok_iff.mp h
  cases h
  obtain ⟨sorted, hsort, hsorted⟩ := bind_eq_ok_iff.mp hsorted
  obtain ⟨sorted', hsort', hsorted⟩ := bind_eq_ok_iff.mp hsorted
  cases hsorted
  have hdocuments : ∀ d ∈ documents, DocumentShows ShowsUnmarked d := by
    intro d hd
    obtain ⟨e, he, rfl⟩ := List.mem_map.mp ((Sorting.perm_of_sort hsort).mem_iff.mp hd)
    exact hshows.documents e he
  have hobjects : ∀ d ∈ objects, DefinitionShows ShowsUnmarked d := by
    intro d hd
    obtain ⟨e, he, rfl⟩ := List.mem_map.mp ((Sorting.perm_of_sort hsort').mem_iff.mp hd)
    exact hshows.objects e he
  have htexts := unmarked_sections hglobal hmodule
    (forall_mem_of_mapM hdocuments (fun _ _ => unmarked_documentDeclaration) hdocumentTexts)
    (forall_mem_of_mapM hobjects (fun _ _ => unmarked_objectDeclaration) hobjectTexts) hsections
  have hlines : Unmarked (String.intercalate "\n\n" texts ++ "\n") :=
    (unmarked_intercalate (unmarked_ofList (by decide)) htexts).append (unmarked_ofList (by decide))
  exact Text.encodeFault?_of_notMem hlines

end ContentTypes.TypeScript
