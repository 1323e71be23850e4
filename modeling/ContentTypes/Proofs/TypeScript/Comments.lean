import ContentTypes.Proofs.Schema.Form
import ContentTypes.Proofs.TypeScript.Face
import ContentTypes.Proofs.TypeScript.Grammar
import ContentTypes.Proofs.TypeScript.Module
import Mathlib.Data.List.Forall2

/-!
# Comments stay out of the code

The code of a text is what is left of it without comments, quoted text and blanks. Of texts that close what
they open, each has a part of the code of the whole (`code_append`).

A description or label is written into a comment as it stands. The comment ends where it is meant to end
exactly if the end of a comment does not occur in it (`afterToken?_docComment_iff`). Then the code of a module
is that of the module of the same schema without descriptions and labels (`exists_moduleText_undescribed`):
the types of fields go by induction over the fields and items, and from there it goes up to the declarations
and the sections of the module.
-/

set_option autoImplicit false

namespace ContentTypes

/-! ## Schemas without descriptions -/

mutual

/-- A type without the descriptions in it. -/
def undescribedType : FieldType → FieldType
  | .inlineObject fields => .inlineObject (undescribedFields fields)
  | .list (some item) => .list (some (undescribedItem item))
  | .polymorphicList items => .polymorphicList (undescribedItems items)
  | type => type

/-- A field without its description and those in its type. -/
def undescribedField : FieldOf FieldType → FieldOf FieldType
  | ⟨name, required, _, default, type⟩ => ⟨name, required, .null, default, undescribedType type⟩

/-- Fields without descriptions. -/
def undescribedFields : List (FieldOf FieldType) → List (FieldOf FieldType)
  | [] => []
  | field :: rest => undescribedField field :: undescribedFields rest

/-- The type of a list item without the descriptions in it. -/
def undescribedItem : ItemType → ItemType
  | .inlineObject fields => .inlineObject (undescribedFields fields)
  | item => item

/-- The types of list items without the descriptions in them. -/
def undescribedItems : List ItemType → List ItemType
  | [] => []
  | item :: rest => undescribedItem item :: undescribedItems rest

end

/-- A computed field without its description. -/
def ComputedField.undescribed (c : ComputedField) : ComputedField := { c with description := .null }

/-- A definition without its label and without descriptions. -/
def Definition.undescribed (d : Definition) : Definition :=
  { d with label := .null, description := .null, fields := undescribedFields d.fields }

/-- A kind of document without its label and without descriptions. -/
def Document.undescribed (d : Document) : Document :=
  { d with toDefinition := d.toDefinition.undescribed, computed := d.computed.map ComputedField.undescribed }

/-- A schema without labels and descriptions. -/
def Schema.undescribed (schema : Schema) : Schema where
  documents := schema.documents.map fun e => (e.1, e.2.undescribed)
  objects := schema.objects.map fun e => (e.1, e.2.undescribed)

namespace TypeScript

/-! ## Code -/

/-- The code of a text: its skeleton without blanks. -/
def code (text : String) : List Char := (skeleton text.toList).filter fun c => !isBlank c

/-- A text that leaves nothing open, wherever in a module it stands. -/
structure Closes (text : String) : Prop where
  start : text.toList.head? ≠ some '*'
  scan : ∃ bones, ScansTo text.toList bones

theorem Passes.closes {depth depth' : Nat} {text : String} (h : Passes depth text depth') : Closes text := by
  obtain ⟨bones, hscan, -⟩ := h.scan
  exact ⟨h.start, bones, hscan⟩

theorem Balanced.closes {text : String} (h : Balanced text) : Closes text := (h 0).closes

theorem closes_of_quiet {text : String} (h : text.toList.all isQuiet = true) : Closes text := by
  rw [List.all_eq_true] at h
  refine ⟨fun hhead => ?_, _, scansTo_of_quiet h⟩
  have hstar := h '*' (List.mem_of_head? hhead)
  cases hstar

theorem Closes.append {text text' : String} (h : Closes text) (h' : Closes text') :
    Closes (text ++ text') := by
  obtain ⟨bones, hscan⟩ := h.scan
  obtain ⟨bones', hscan'⟩ := h'.scan
  refine ⟨?_, bones ++ bones', ?_⟩
  · rw [String.toList_append, List.head?_append]
    cases hhead : text.toList.head? with
    | none => exact h'.start
    | some c =>
        have hstart := h.start
        rwa [hhead] at hstart
  · rw [String.toList_append]
    exact hscan.append hscan' fun _ => h'.start

/-- Of texts that close what they open, each has its own part of the code. -/
theorem code_append {text text' : String} (h : Closes text) (h' : Closes text') :
    code (text ++ text') = code text ++ code text' := by
  obtain ⟨bones, hscan⟩ := h.scan
  obtain ⟨bones', hscan'⟩ := h'.scan
  have happend := hscan.append hscan' fun _ => h'.start
  rw [code, code, code, String.toList_append, happend.skeleton_eq, hscan.skeleton_eq, hscan'.skeleton_eq,
    List.filter_append]

theorem code_of_quiet {text : String} (h : text.toList.all isQuiet = true) :
    code text = text.toList.filter fun c => !isBlank c := by
  rw [code, (scansTo_of_quiet (List.all_eq_true.mp h)).skeleton_eq]

/-- A text that is a comment or quoted text has no code. -/
theorem code_of_afterToken? {text : String} (h : afterToken? text.toList = some []) : code text = [] := by
  rw [code, (ScansTo.token h .nil).skeleton_eq]
  rfl

/-- Texts with a separator between them that has no code. -/
theorem closes_code_intercalate {separator : String} {texts : List String} (hseparator : Closes separator)
    (hcode : code separator = []) (h : ∀ text ∈ texts, Closes text) :
    Closes (String.intercalate separator texts) ∧
      code (String.intercalate separator texts) = texts.flatMap code := by
  induction texts with
  | nil => exact ⟨closes_of_quiet rfl, code_of_quiet rfl⟩
  | cons text texts ih =>
      rw [List.forall_mem_cons] at h
      obtain ⟨hcloses, hrest⟩ := ih h.2
      cases texts with
      | nil =>
          rw [String.intercalate_singleton, List.flatMap_singleton]
          exact ⟨h.1, rfl⟩
      | cons text' texts =>
          have hbefore := h.1.append hseparator
          rw [String.intercalate_cons_cons, code_append hbefore hcloses, code_append h.1 hseparator, hcode,
            List.append_nil, hrest]
          exact ⟨hbefore.append hcloses, rfl⟩

theorem code_line : code "\n" = [] := code_of_quiet (by decide)

/-- Two texts that close what they open and have the same code. -/
structure SameCode (text text' : String) : Prop where
  left : Closes text
  right : Closes text'
  code_eq : code text = code text'

theorem Closes.same {text : String} (h : Closes text) : SameCode text text := ⟨h, h, rfl⟩

namespace SameCode

variable {text text' text'' other other' separator : String} {texts texts' : List String}

theorem trans (h : SameCode text text') (h' : SameCode text' text'') : SameCode text text'' :=
  ⟨h.left, h'.right, h.code_eq.trans h'.code_eq⟩

theorem append (h : SameCode text text') (h' : SameCode other other') :
    SameCode (text ++ other) (text' ++ other') := by
  refine ⟨h.left.append h'.left, h.right.append h'.right, ?_⟩
  rw [code_append h.left h'.left, code_append h.right h'.right, h.code_eq, h'.code_eq]

/-- Texts with a separator between them that closes what it opens. -/
theorem intercalate (hseparator : Closes separator) (h : List.Forall₂ SameCode texts texts') :
    SameCode (String.intercalate separator texts) (String.intercalate separator texts') := by
  induction h with
  | nil => exact (closes_of_quiet rfl).same
  | cons htext hrest ih =>
      cases hrest with
      | nil =>
          rw [String.intercalate_singleton, String.intercalate_singleton]
          exact htext
      | cons =>
          rw [String.intercalate_cons_cons, String.intercalate_cons_cons]
          exact (htext.append hseparator.same).append ih

theorem closes_left (h : List.Forall₂ SameCode texts texts') : ∀ text ∈ texts, Closes text := by
  induction h with
  | nil => exact List.forall_mem_nil _
  | cons htext _ ih => exact List.forall_mem_cons.mpr ⟨htext.left, ih⟩

theorem closes_right (h : List.Forall₂ SameCode texts texts') : ∀ text ∈ texts', Closes text := by
  induction h with
  | nil => exact List.forall_mem_nil _
  | cons htext _ ih => exact List.forall_mem_cons.mpr ⟨htext.right, ih⟩

theorem flatMap_eq (h : List.Forall₂ SameCode texts texts') : texts.flatMap code = texts'.flatMap code := by
  induction h with
  | nil => rfl
  | cons htext _ ih => rw [List.flatMap_cons, List.flatMap_cons, htext.code_eq, ih]

/-- A text without code before another one. -/
theorem append_left (h : Closes text) (hcode : code text = []) (hother : Closes other) :
    SameCode (text ++ other) other := by
  refine ⟨h.append hother, hother, ?_⟩
  rw [code_append h hother, hcode, List.nil_append]

end SameCode

/-! ## Comments -/

theorem exists_afterComment? {s : List Char} (h : ['*', '/'] <:+: s) :
    ∃ rest, afterComment? s = some rest := by
  fun_induction afterComment? s with
  | case1 => exact absurd h (by decide)
  | case2 rest => exact ⟨rest, rfl⟩
  | case3 c s hne ih =>
      rcases List.infix_cons_iff.mp h with ⟨rest, heq⟩ | h
      · obtain ⟨rfl, rfl⟩ := List.cons.inj heq
        exact absurd rfl (hne rest rfl)
      · exact ih h

/-- **Where a comment ends**: a description is written into a comment as it stands, and the comment ends
behind it exactly if the end of a comment does not occur in it. -/
theorem afterToken?_docComment_iff (text : Value) (rest : List Char) :
    afterToken? ((docComment "" text).toList ++ rest) = some rest ↔ IsRemark text.display := by
  have hshape : (docComment "" text).toList ++ rest =
      '/' :: '*' :: '*' :: ' ' :: (text.display.toList ++ ' ' :: '*' :: '/' :: rest) := by
    simp [docComment]
  rw [hshape]
  show afterComment? _ = _ ↔ _
  refine ⟨fun h hin => ?_, afterComment?_remark rest⟩
  -- an end within the text comes first, and leaves more than what stands behind the comment
  have hopened : ['*', '/'] <:+: '*' :: ' ' :: text.display.toList := hin.trans ⟨['*', ' '], [], by simp⟩
  obtain ⟨behind, hbehind⟩ := exists_afterComment? hopened
  have hearly := afterComment?_append_of_some (' ' :: '*' :: '/' :: rest) hbehind
  have heq := congrArg List.length (Option.some.inj (hearly.symm.trans h))
  rw [List.length_append] at heq
  simp only [List.length_cons] at heq
  omega

/-- A comment of which the end does not occur in its text has no code. -/
theorem code_docComment {text : Value} (h : IsRemark text.display) : code (docComment "" text) = [] := by
  apply code_of_afterToken?
  have hend := (afterToken?_docComment_iff text []).mpr h
  rwa [List.append_nil] at hend

theorem docComment_indent (text : Value) : docComment indent text = indent ++ docComment "" text := by
  simp only [docComment, String.empty_append, String.append_assoc]

/-- A description before a line has no code. -/
theorem sameCode_described {description : Value} {line : String}
    (h : description.holds = true → IsRemark description.display) (hline : Closes line) :
    SameCode (described description line) line := by
  unfold described
  by_cases hd : description.holds = true
  · rw [if_pos hd, docComment_indent]
    have hcomment := balanced_indent.append (balanced_docComment (h hd))
    refine .append_left (hcomment.append balanced_line).closes ?_ hline
    rw [code_append hcomment.closes balanced_line.closes,
      code_append balanced_indent.closes (balanced_docComment (h hd)).closes, code_docComment (h hd),
      code_of_quiet (by decide), code_of_quiet (by decide)]
    rfl
  · rw [if_neg hd]
    exact hline.same

/-! ## Types -/

theorem sameCode_memberLine {name required description : Value} {text text' : String} (hname : IsName name)
    (hdescription : description.holds = true → IsRemark description.display) (h : SameCode text text') :
    SameCode (memberLine name required description (.str text))
      (memberLine name required .null (.str text')) := by
  have hopening : Closes (indent ++ name.display ++ ": ") :=
    ((balanced_indent.append (balanced_name hname)).closes).append (closes_of_quiet (by decide))
  have hending : Closes (if required.holds then "" else " | undefined") := by
    split
    · exact closes_of_quiet (by decide)
    · exact closes_of_quiet (by decide)
  have hline := (hopening.same.append h).append hending.same
  exact (sameCode_described hdescription hline.left).trans hline

theorem sameCode_record {lines lines' : List String} (h : List.Forall₂ SameCode lines lines') :
    SameCode (record lines) (record lines') := by
  have hopen : Closes "\x7b\n" := closes_of_quiet (by decide)
  have hclose : Closes "\n\x7d" := closes_of_quiet (by decide)
  exact (hopen.same.append (.intercalate balanced_line.closes h)).append hclose.same

theorem SameCode.brackets {text text' : String} (h : SameCode text text') :
    SameCode (text ++ "[]") (text' ++ "[]") := by
  have hbrackets : Closes "[]" := closes_of_quiet (by decide)
  exact h.append hbrackets.same

/-- A type with nothing in it that is described. -/
theorem exists_sameCode_of_undescribed_eq {type : FieldType} (h : TypeWritable type)
    (heq : undescribedType type = type) :
    ∃ text text', fieldExpression type = .ok (.str text) ∧
      fieldExpression (undescribedType type) = .ok (.str text') ∧ SameCode text text' := by
  obtain ⟨text, htext, hbalanced⟩ := balanced_type type h
  exact ⟨text, text, htext, heq.symm ▸ htext, hbalanced.closes.same⟩

theorem exists_sameCode_of_undescribedItem_eq {item : ItemType} (h : ItemWritable item)
    (heq : undescribedItem item = item) :
    ∃ text text', itemExpression item = .ok (.str text) ∧
      itemExpression (undescribedItem item) = .ok (.str text') ∧ SameCode text text' := by
  obtain ⟨text, htext, hbalanced⟩ := balanced_item item h
  exact ⟨text, text, htext, heq.symm ▸ htext, hbalanced.closes.same⟩

mutual

/-- A type has the code that it has without the descriptions in it. -/
theorem sameCode_type : ∀ type : FieldType, TypeWritable type →
    ∃ text text', fieldExpression type = .ok (.str text) ∧
      fieldExpression (undescribedType type) = .ok (.str text') ∧ SameCode text text'
  | .inlineObject fields, h => by
      obtain ⟨lines, lines', hlines, hlines', hsame⟩ := sameCode_fields fields h
      refine ⟨record lines, record lines', ?_, ?_, sameCode_record hsame⟩
      · rw [fieldExpression, hlines]
        rfl
      · rw [undescribedType, fieldExpression, hlines']
        rfl
  | .list (some item), h => by
      obtain ⟨text, text', htext, htext', hsame⟩ := sameCode_item item h
      refine ⟨text ++ "[]", text' ++ "[]", ?_, ?_, hsame.brackets⟩
      · rw [fieldExpression, htext]
        rfl
      · rw [undescribedType, fieldExpression, htext']
        rfl
  | .polymorphicList items, h => by
      obtain ⟨texts, texts', htexts, htexts', hsame⟩ := sameCode_items items h
      have hexpression {items : List ItemType} {texts : List String}
          (h : itemExpressions items = .ok (texts.map Value.str)) : fieldExpression (.polymorphicList items) =
            .ok (.str ("(" ++ String.intercalate unionBar texts ++ ")[]")) := by
        rw [fieldExpression, h]
        show (do return Value.str ("(" ++ (← union (texts.map Value.str)) ++ ")[]")) = _
        rw [union_texts]
        rfl
      refine ⟨_, _, hexpression htexts, hexpression htexts', ?_⟩
      have hopen : Closes "(" := closes_of_quiet (by decide)
      have hclose : Closes ")[]" := closes_of_quiet (by decide)
      exact (hopen.same.append (.intercalate balanced_unionBar.closes hsame)).append hclose.same
  | .boolean, h => exists_sameCode_of_undescribed_eq h rfl
  | .string, h => exists_sameCode_of_undescribed_eq h rfl
  | .date, h => exists_sameCode_of_undescribed_eq h rfl
  | .image, h => exists_sameCode_of_undescribed_eq h rfl
  | .markdown, h => exists_sameCode_of_undescribed_eq h rfl
  | .reference _, h => exists_sameCode_of_undescribed_eq h rfl
  | .object _, h => exists_sameCode_of_undescribed_eq h rfl
  | .enumeration _, h => exists_sameCode_of_undescribed_eq h rfl
  | .list none, h => exists_sameCode_of_undescribed_eq h rfl
  | .unknown _ _, h => exists_sameCode_of_undescribed_eq h rfl
  | .plain, h => exists_sameCode_of_undescribed_eq h rfl

theorem sameCode_field : ∀ field : FieldOf FieldType, FieldWritable field →
    ∃ line line', fieldLine field = .ok line ∧ fieldLine (undescribedField field) = .ok line' ∧
      SameCode line line'
  | ⟨name, required, description, _, type⟩, h => by
      obtain ⟨hname, hdescription, htype⟩ := h
      obtain ⟨text, text', htext, htext', hsame⟩ := sameCode_type type htype
      refine ⟨memberLine name required description (.str text), memberLine name required .null (.str text'),
        ?_, ?_, sameCode_memberLine hname hdescription hsame⟩
      · rw [fieldLine, htext]
        rfl
      · rw [undescribedField, fieldLine, htext']
        rfl

theorem sameCode_fields : ∀ fields : List (FieldOf FieldType), FieldsWritable fields →
    ∃ lines lines', fieldLines fields = .ok lines ∧ fieldLines (undescribedFields fields) = .ok lines' ∧
      List.Forall₂ SameCode lines lines'
  | [], _ => ⟨[], [], rfl, rfl, .nil⟩
  | field :: fields, h => by
      obtain ⟨line, line', hline, hline', hsame⟩ := sameCode_field field h.1
      obtain ⟨lines, lines', hlines, hlines', hsames⟩ := sameCode_fields fields h.2
      refine ⟨line :: lines, line' :: lines', ?_, ?_, .cons hsame hsames⟩
      · rw [fieldLines, hline, hlines]
        rfl
      · rw [undescribedFields, fieldLines, hline', hlines']
        rfl

theorem sameCode_item : ∀ item : ItemType, ItemWritable item →
    ∃ text text', itemExpression item = .ok (.str text) ∧
      itemExpression (undescribedItem item) = .ok (.str text') ∧ SameCode text text'
  | .inlineObject fields, h => by
      obtain ⟨lines, lines', hlines, hlines', hsame⟩ := sameCode_fields fields h
      refine ⟨record lines, record lines', ?_, ?_, sameCode_record hsame⟩
      · rw [itemExpression, hlines]
        rfl
      · rw [undescribedItem, itemExpression, hlines']
        rfl
  | .boolean, h => exists_sameCode_of_undescribedItem_eq h rfl
  | .string, h => exists_sameCode_of_undescribedItem_eq h rfl
  | .object _, h => exists_sameCode_of_undescribedItem_eq h rfl
  | .reference _, h => exists_sameCode_of_undescribedItem_eq h rfl
  | .enumeration _, h => exists_sameCode_of_undescribedItem_eq h rfl
  | .unknown _ _, h => exists_sameCode_of_undescribedItem_eq h rfl
  | .plain, h => exists_sameCode_of_undescribedItem_eq h rfl

theorem sameCode_items : ∀ items : List ItemType, ItemsWritable items →
    ∃ texts texts' : List String, itemExpressions items = .ok (texts.map Value.str) ∧
      itemExpressions (undescribedItems items) = .ok (texts'.map Value.str) ∧
        List.Forall₂ SameCode texts texts'
  | [], _ => ⟨[], [], rfl, rfl, .nil⟩
  | item :: items, h => by
      obtain ⟨text, text', htext, htext', hsame⟩ := sameCode_item item h.1
      obtain ⟨texts, texts', htexts, htexts', hsames⟩ := sameCode_items items h.2
      refine ⟨text :: texts, text' :: texts', ?_, ?_, .cons hsame hsames⟩
      · rw [itemExpressions, htext, htexts]
        rfl
      · rw [undescribedItems, itemExpressions, htext', htexts']
        rfl

end

/-! ## Declarations -/

theorem sameCode_computedLine {c : ComputedField} (h : ComputedWritable c) :
    SameCode (computedLine c) (computedLine c.undescribed) := by
  have hundescribed : ComputedWritable c.undescribed := ⟨h.name, nofun, h.type⟩
  exact sameCode_described h.description (balanced_computedLine hundescribed).closes

/-- The comment before a declaration has no code. -/
theorem code_commentLines {d : Definition} (h : DefinitionWritable d) :
    ∀ line ∈ commentLines d, Closes line ∧ code line = [] :=
  forall_mem_commentLines h fun _ htext => ⟨(balanced_docComment htext).closes, code_docComment htext⟩

/-- The lines of a declaration behind its comment. -/
def bodyLines (d : Definition) (identity members : List String) : List String :=
  ["export type " ++ d.name.display ++ " = \x7b"] ++ identity ++
    ["  _typeName: '" ++ d.name.display ++ "'", "  _raw?: Record<string, any>"] ++ members ++ ["\x7d"]

theorem declarationText_eq_bodyLines (d : Definition) (identity members : List String) :
    declarationText d identity members =
      String.intercalate "\n" (commentLines d ++ bodyLines d identity members) := by
  simp only [declarationText, bodyLines, List.append_assoc]

theorem sameCode_bodyLines {d : Definition} (h : IsName d.name) {identity members members' : List String}
    (hidentity : ∀ line ∈ identity, Closes line) (hmembers : List.Forall₂ SameCode members members') :
    List.Forall₂ SameCode (bodyLines d identity members) (bodyLines d identity members') := by
  have hopen : Closes ("export type " ++ d.name.display ++ " = \x7b") := by
    have hexport : Closes "export type " := closes_of_quiet (by decide)
    exact (hexport.append (balanced_name h).closes).append (closes_of_quiet (by decide))
  have htypeName : Closes ("  _typeName: '" ++ d.name.display ++ "'") := by
    have hmember : Passes 0 "  _typeName: " 0 := passes_of_quiet (by decide) rfl
    exact (hmember.quoted (isQuotable_name h)).closes
  have hraw : Closes "  _raw?: Record<string, any>" := closes_of_quiet (by decide)
  have hclose : Closes "\x7d" := closes_of_quiet (by decide)
  have hidentities : List.Forall₂ SameCode identity identity :=
    List.forall₂_same.mpr fun line hline => (hidentity line hline).same
  have hbefore := List.rel_append (.cons hopen.same .nil) hidentities
  have hunder := List.rel_append hbefore (.cons htypeName.same (.cons hraw.same .nil))
  exact List.rel_append (List.rel_append hunder hmembers) (.cons hclose.same .nil)

/-- The code of a declaration is that of its comment and of the lines behind it. -/
theorem closes_code_declarationText {d : Definition} {identity members : List String}
    (hcomments : ∀ line ∈ commentLines d, Closes line)
    (hbody : ∀ line ∈ bodyLines d identity members, Closes line) :
    Closes (declarationText d identity members) ∧ code (declarationText d identity members) =
      (commentLines d).flatMap code ++ (bodyLines d identity members).flatMap code := by
  rw [declarationText_eq_bodyLines, ← List.flatMap_append]
  exact closes_code_intercalate balanced_line.closes code_line (List.forall_mem_append.mpr ⟨hcomments, hbody⟩)

/-- A declaration has the code that it has without descriptions. -/
theorem sameCode_declarationText {d : Definition} (h : DefinitionWritable d)
    {identity members members' : List String} (hidentity : ∀ line ∈ identity, Closes line)
    (hmembers : List.Forall₂ SameCode members members') :
    SameCode (declarationText d identity members) (declarationText d.undescribed identity members') := by
  have hbody := sameCode_bodyLines h.name hidentity hmembers
  have hcomments := code_commentLines h
  have hcommentless : (commentLines d).flatMap code = [] :=
    List.flatMap_eq_nil_iff.mpr fun line hline => (hcomments line hline).2
  obtain ⟨hleft, hcode⟩ :=
    closes_code_declarationText (fun line hline => (hcomments line hline).1) (SameCode.closes_left hbody)
  obtain ⟨hright, hcode'⟩ :=
    closes_code_declarationText (d := d.undescribed) (List.forall_mem_nil _) (SameCode.closes_right hbody)
  refine ⟨hleft, hright, ?_⟩
  rw [hcode, hcode', hcommentless]
  exact SameCode.flatMap_eq hbody

/-- Two declarations under one name, with the same code. -/
structure Declaration.Same (d d' : Declaration) : Prop where
  sound : d.Sound
  name_eq : d'.name = d.name
  text : SameCode d.text d'.text

theorem same_objectDeclaration {d : Definition} (h : DefinitionWritable d) :
    ∃ declared declared', objectDeclaration d = .ok declared ∧
      objectDeclaration d.undescribed = .ok declared' ∧ declared.Same declared' := by
  obtain ⟨lines, lines', hlines, hlines', hsame⟩ := sameCode_fields d.fields h.fields
  obtain ⟨declared, hdeclared, hsound⟩ := exists_objectDeclaration h
  cases hdeclared.symm.trans (objectDeclaration_eq_ok hlines)
  have htext := sameCode_declarationText h (List.forall_mem_nil _) hsame
  exact ⟨_, _, hdeclared, objectDeclaration_eq_ok hlines', hsound, rfl, htext⟩

theorem same_documentDeclaration {d : Document} (h : DocumentWritable d) :
    ∃ declared declared', documentDeclaration d = .ok declared ∧
      documentDeclaration d.undescribed = .ok declared' ∧ declared.Same declared' := by
  obtain ⟨lines, lines', hlines, hlines', hsame⟩ := sameCode_fields d.fields h.fields
  obtain ⟨declared, hdeclared, hsound⟩ := exists_documentDeclaration h
  cases hdeclared.symm.trans (documentDeclaration_eq_ok hlines)
  have hid : Closes "  _id: string" := closes_of_quiet (by decide)
  have hcomputed : List.Forall₂ SameCode (d.computed.map computedLine)
      (d.undescribed.computed.map computedLine) := by
    show List.Forall₂ SameCode _ ((d.computed.map ComputedField.undescribed).map computedLine)
    rw [List.map_map, List.forall₂_map_left_iff, List.forall₂_map_right_iff, List.forall₂_same]
    exact fun c hc => sameCode_computedLine (h.computed c hc)
  have htext := sameCode_declarationText h.toDefinitionWritable (List.forall_mem_singleton.mpr hid)
    (List.rel_append hsame hcomputed)
  exact ⟨_, _, hdeclared, documentDeclaration_eq_ok hlines', hsound, rfl, htext⟩

/-! ## The module -/

theorem exists_mapM_same {α β ε : Type} (f : α → Except ε β) (g : α → α) {R : β → β → Prop} {xs : List α}
    (h : ∀ x ∈ xs, ∃ y y', f x = .ok y ∧ f (g x) = .ok y' ∧ R y y') :
    ∃ ys ys', xs.mapM f = .ok ys ∧ (xs.map g).mapM f = .ok ys' ∧ List.Forall₂ R ys ys' := by
  induction xs with
  | nil => exact ⟨[], [], rfl, rfl, .nil⟩
  | cons x xs ih =>
      rw [List.forall_mem_cons] at h
      obtain ⟨⟨y, y', hy, hy', hR⟩, h⟩ := h
      obtain ⟨ys, ys', hys, hys', hRs⟩ := ih h
      refine ⟨y :: ys, y' :: ys', ?_, ?_, .cons hR hRs⟩
      · rw [List.mapM_cons, hy, hys]
        rfl
      · rw [List.map_cons, List.mapM_cons, hy', hys']
        rfl

/-- A definition alone is in order. -/
theorem sortByName_eq_self {α : Type} (nameOf : α → Value) (definitions : List α)
    (hlength : definitions.length ≤ 1) (h : ∀ d ∈ definitions, ∃ text, nameOf d = .str text) :
    sortByName nameOf definitions = .ok definitions := by
  obtain ⟨sorted, hsorted, hperm⟩ := exists_sortByName nameOf h
  rw [hsorted]
  match definitions with
  | [] => rw [List.perm_nil.mp hperm]
  | [d] => rw [List.perm_singleton.mp hperm]

/-- The definitions of a schema are in the same order without descriptions. -/
theorem sortedDefinitions_undescribed {schema : Schema} {documents : List Document}
    {objects : List Definition} (h : sortedDefinitions schema = .ok (documents, objects)) :
    sortedDefinitions schema.undescribed =
      .ok (documents.map Document.undescribed, objects.map Definition.undescribed) := by
  obtain ⟨documents, hdocuments, h⟩ := bind_eq_ok_iff.mp h
  obtain ⟨objects, hobjects, h⟩ := bind_eq_ok_iff.mp h
  cases h
  -- the order is one of names, which are kept
  have hsort : sortByName (fun d : Document => d.name) (schema.undescribed.documents.map (·.2)) =
      .ok (documents.map Document.undescribed) := by
    have hmap : schema.undescribed.documents.map (·.2) =
        (schema.documents.map (·.2)).map Document.undescribed := by
      rw [Schema.undescribed, List.map_map, List.map_map]
      rfl
    rw [hmap]
    exact (sortByName_map Document.undescribed (fun _ => rfl) _).trans (congrArg (Except.map _) hdocuments)
  have hsort' : sortByName (fun d : Definition => d.name) (schema.undescribed.objects.map (·.2)) =
      .ok (objects.map Definition.undescribed) := by
    have hmap : schema.undescribed.objects.map (·.2) =
        (schema.objects.map (·.2)).map Definition.undescribed := by
      rw [Schema.undescribed, List.map_map, List.map_map]
      rfl
    rw [hmap]
    exact (sortByName_map Definition.undescribed (fun _ => rfl) _).trans (congrArg (Except.map _) hobjects)
  rw [sortedDefinitions, hsort, hsort']
  rfl

/-- Sections are made of texts that stand in every module with these names, and of the declarations. -/
theorem exists_sections_eq {settings : Settings} {documents objects : List Declaration}
    {texts : List String} (h : sections settings documents objects = .ok texts) :
    ∃ front middle, texts = front ++ documents.map (·.text) ++ middle ++ objects.map (·.text) ∧
      ∀ documents' objects', documents'.map (·.name) = documents.map (·.name) →
        objects'.map (·.name) = objects.map (·.name) → sections settings documents' objects' =
          .ok (front ++ documents'.map (·.text) ++ middle ++ objects'.map (·.text)) := by
  obtain ⟨documentUnion, hunion, h⟩ := bind_eq_ok_iff.mp h
  obtain ⟨objectUnion, hunion', h⟩ := bind_eq_ok_iff.mp h
  cases h
  refine ⟨_, _, rfl, fun documents' objects' hdocuments hobjects => ?_⟩
  simp only [sections, hdocuments, hobjects, hunion, hunion', bind, Except.bind, pure, Except.pure]

theorem PassesAll.closes {depth depth' : Nat} {texts : List String} (h : PassesAll depth texts depth') :
    ∀ text ∈ texts, Closes text := by
  induction h with
  | nil => exact List.forall_mem_nil _
  | cons htext _ ih => exact List.forall_mem_cons.mpr ⟨htext.closes, ih⟩

theorem names_of_same {declarations declarations' : List Declaration}
    (h : List.Forall₂ Declaration.Same declarations declarations') :
    declarations'.map (·.name) = declarations.map (·.name) := by
  induction h with
  | nil => rfl
  | cons hsame _ ih => rw [List.map_cons, List.map_cons, hsame.name_eq, ih]

theorem texts_of_same {declarations declarations' : List Declaration}
    (h : List.Forall₂ Declaration.Same declarations declarations') :
    List.Forall₂ SameCode (declarations.map (·.text)) (declarations'.map (·.text)) := by
  rw [List.forall₂_map_left_iff, List.forall₂_map_right_iff]
  exact h.imp fun _ _ hsame => hsame.text

theorem sound_of_same {declarations declarations' : List Declaration}
    (h : List.Forall₂ Declaration.Same declarations declarations') : ∀ d ∈ declarations, d.Sound := by
  induction h with
  | nil => exact List.forall_mem_nil _
  | cons hsame _ ih => exact List.forall_mem_cons.mpr ⟨hsame.sound, ih⟩

/-- The sections have the code that they have without descriptions. -/
theorem same_sections {settings : Settings} {documents documents' objects objects' : List Declaration}
    (hs : SettingsWritable settings) (hdocuments : List.Forall₂ Declaration.Same documents documents')
    (hobjects : List.Forall₂ Declaration.Same objects objects') :
    ∃ texts texts', sections settings documents objects = .ok texts ∧
      sections settings documents' objects' = .ok texts' ∧ List.Forall₂ SameCode texts texts' := by
  obtain ⟨texts, htexts, hpasses, -⟩ := exists_sections hs (sound_of_same hdocuments) (sound_of_same hobjects)
  obtain ⟨front, middle, rfl, hshape⟩ := exists_sections_eq htexts
  have htexts' := hshape _ _ (names_of_same hdocuments) (names_of_same hobjects)
  have hcloses := hpasses.closes
  simp only [List.mem_append, or_imp, forall_and] at hcloses
  have hfront : List.Forall₂ SameCode front front :=
    List.forall₂_same.mpr fun text htext => (hcloses.1.1.1 text htext).same
  have hmiddle : List.Forall₂ SameCode middle middle :=
    List.forall₂_same.mpr fun text htext => (hcloses.1.2 text htext).same
  have hdeclared := List.rel_append hfront (texts_of_same hdocuments)
  exact ⟨_, _, htexts, htexts', List.rel_append (List.rel_append hdeclared hmiddle) (texts_of_same hobjects)⟩

/-- **A module has the code that it has without descriptions and labels**, if none that is written ends the
comment it stands in. -/
theorem exists_moduleText_undescribed {settings : Settings} {schema : Schema} (hs : SettingsWritable settings)
    (h : SchemaWritable schema) :
    ∃ text text', moduleText settings schema = .ok text ∧
      moduleText settings schema.undescribed = .ok text' ∧ SameCode text text' := by
  obtain ⟨documents, objects, hsorted, hdocuments, hobjects⟩ := exists_sortedDefinitions h
  obtain ⟨declared, declared', hdeclared, hdeclared', hsame⟩ :=
    exists_mapM_same documentDeclaration Document.undescribed fun d hd =>
      same_documentDeclaration (hdocuments d hd)
  obtain ⟨declaredObjects, declaredObjects', hdeclaredObjects, hdeclaredObjects', hsameObjects⟩ :=
    exists_mapM_same objectDeclaration Definition.undescribed fun d hd =>
      same_objectDeclaration (hobjects d hd)
  obtain ⟨texts, texts', htexts, htexts', hsections⟩ := same_sections hs hsame hsameObjects
  have hseparator : Closes "\n\n" := closes_of_quiet (by decide)
  refine ⟨String.intercalate "\n\n" texts ++ "\n", String.intercalate "\n\n" texts' ++ "\n", ?_, ?_, ?_⟩
  · simp only [moduleText, hsorted, hdeclared, hdeclaredObjects, htexts, bind, Except.bind, pure, Except.pure]
  · simp only [moduleText, sortedDefinitions_undescribed hsorted, hdeclared', hdeclaredObjects', htexts',
      bind, Except.bind, pure, Except.pure]
  · exact (SameCode.intercalate hseparator hsections).append balanced_line.closes.same

/-- **Comments stay out of the code.** Two schemas that differ in labels and descriptions only have modules
with the same code, if no label or description that is written has the end of a comment in it. A comment
ends where it is meant to end exactly if that is so. -/
theorem moduleText_code_eq :
    (∀ (settings : Settings) (schema schema' : Schema), SettingsWritable settings → SchemaWritable schema →
      SchemaWritable schema' → schema.undescribed = schema'.undescribed →
        ∃ text text', moduleText settings schema = .ok text ∧ moduleText settings schema' = .ok text' ∧
          code text = code text') ∧
    ∀ (text : Value) (rest : List Char),
      afterToken? ((docComment "" text).toList ++ rest) = some rest ↔ IsRemark text.display := by
  refine ⟨fun settings schema schema' hs h h' hsame => ?_, afterToken?_docComment_iff⟩
  obtain ⟨text, bare, htext, hbare, hcode⟩ := exists_moduleText_undescribed hs h
  obtain ⟨text', bare', htext', hbare', hcode'⟩ := exists_moduleText_undescribed hs h'
  rw [hsame] at hbare
  cases hbare.symm.trans hbare'
  exact ⟨text, text', htext, htext', hcode.code_eq.trans hcode'.code_eq.symm⟩

/-- An object with a label, and with a description of its field and of the one in it. -/
def teaser (label description : String) : Definition :=
  ⟨.str "Teaser", .str label, .null, [⟨.str "body", .bool true, .str description, .null,
    .inlineObject [⟨.str "text", .bool false, .str description, .null, .string⟩]⟩]⟩

/-- The schema of this object. -/
def teaserSchema (label description : String) : Schema where
  documents := []
  objects := [(.str "Teaser", teaser label description)]

theorem fieldsWritable_teaser (label : String) {description : String} (h : IsRemark description) :
    FieldsWritable (teaser label description).fields := by
  have htext : FieldWritable ⟨.str "text", .bool false, .str description, .null, .string⟩ :=
    ⟨⟨_, rfl, by decide⟩, fun _ => h, trivial⟩
  exact ⟨⟨⟨_, rfl, by decide⟩, fun _ => h, htext, trivial⟩, trivial⟩

theorem writable_teaserSchema {label description : String} (hlabel : IsRemark label)
    (hdescription : IsRemark description) : SchemaWritable (teaserSchema label description) where
  documents := List.forall_mem_nil _
  objects := List.forall_mem_singleton.mpr
    ⟨⟨_, rfl, by decide⟩, nofun, fun _ _ => hlabel, fieldsWritable_teaser label hdescription⟩

/-- Braces, quotes and openings of comments in a label and in descriptions are out of the code. -/
theorem moduleText_code_eq_teaserSchema :
    SettingsWritable .initial ∧ SchemaWritable (teaserSchema "A \x7b `teaser" "it's a \x7d") ∧
      SchemaWritable (teaserSchema "/* \"" "") ∧
      ∃ text text', moduleText .initial (teaserSchema "A \x7b `teaser" "it's a \x7d") = .ok text ∧
        moduleText .initial (teaserSchema "/* \"" "") = .ok text' ∧ code text = code text' := by
  have hs : SettingsWritable .initial := ⟨⟨_, rfl, by decide⟩, by decide⟩
  have h : SchemaWritable (teaserSchema "A \x7b `teaser" "it's a \x7d") :=
    writable_teaserSchema (by decide) (by decide)
  have h' : SchemaWritable (teaserSchema "/* \"" "") := writable_teaserSchema (by decide) (by decide)
  exact ⟨hs, h, h', moduleText_code_eq.1 _ _ _ hs h h' rfl⟩

/-- The module of the schema is the same for all labels, but for the comment with the label. -/
theorem exists_moduleText_teaserSchema :
    ∃ texts lines : List String, (∀ text ∈ texts, Closes text) ∧ (∀ line ∈ lines, Closes line) ∧
      ∀ label, moduleText .initial (teaserSchema label "") = .ok (String.intercalate "\n\n"
        (texts ++ [String.intercalate "\n" (commentLines (teaser label "") ++ lines)]) ++ "\n") := by
  have hs : SettingsWritable .initial := ⟨⟨_, rfl, by decide⟩, by decide⟩
  have hfields := fieldsWritable_teaser "" (by decide : IsRemark "")
  have hteaser : DefinitionWritable (teaser "" "") := ⟨⟨_, rfl, by decide⟩, nofun, nofun, hfields⟩
  obtain ⟨lines, hlines, hbalanced⟩ := balanced_fields _ hfields
  obtain ⟨declared, hdeclared, hsound⟩ := exists_objectDeclaration hteaser
  obtain ⟨_, htexts, hpasses, -⟩ :=
    exists_sections hs (List.forall_mem_nil _) (List.forall_mem_singleton.mpr hsound)
  obtain ⟨front, middle, rfl, hshape⟩ := exists_sections_eq htexts
  cases hdeclared.symm.trans (objectDeclaration_eq_ok hlines)
  have hcloses := (List.forall_mem_append.mp hpasses.closes).1
  have hmembers : List.Forall₂ SameCode lines lines :=
    List.forall₂_same.mpr fun line hline => (hbalanced line hline).closes.same
  have hbody := SameCode.closes_left (sameCode_bodyLines hteaser.name (List.forall_mem_nil _) hmembers)
  refine ⟨_, bodyLines (teaser "" "") [] lines, hcloses, hbody, fun label => ?_⟩
  have hobject : objectDeclaration (teaser label "") =
      .ok ⟨.str "Teaser", declarationText (teaser label "") [] lines⟩ := objectDeclaration_eq_ok hlines
  have hsections := hshape [] [⟨.str "Teaser", declarationText (teaser label "") [] lines⟩] rfl rfl
  have hsorted : sortedDefinitions (teaserSchema label "") = .ok ([], [teaser label ""]) := by
    have hdocuments := sortByName_eq_self (fun d : Document => d.name) [] (Nat.zero_le 1)
      (List.forall_mem_nil _)
    have hobjects := sortByName_eq_self (fun d : Definition => d.name) [teaser label ""] (Nat.le_refl 1)
      (List.forall_mem_singleton.mpr ⟨_, rfl⟩)
    simp only [sortedDefinitions, teaserSchema, List.map_cons, List.map_nil, hdocuments, hobjects, bind,
      Except.bind, pure, Except.pure]
  have htext : declarationText (teaser label "") [] lines = String.intercalate "\n"
      (commentLines (teaser label "") ++ bodyLines (teaser "" "") [] lines) :=
    declarationText_eq_bodyLines _ _ _
  rw [← htext]
  simp only [moduleText, hsorted, List.mapM_cons, List.mapM_nil, hobject, hsections, bind, Except.bind, pure,
    Except.pure, List.map_cons, List.map_nil]

/-- The code of the module is the code of the comment with the label between two parts that are the same for
all labels. -/
theorem exists_code_teaserSchema :
    ∃ before behind : List Char, ∀ label : String, label ≠ "" → Closes (docComment "" (.str label)) →
      ∃ text, moduleText .initial (teaserSchema label "") = .ok text ∧
        code text = before ++ code (docComment "" (.str label)) ++ behind := by
  obtain ⟨texts, lines, htexts, hlines, hmodule⟩ := exists_moduleText_teaserSchema
  refine ⟨texts.flatMap code, lines.flatMap code, fun label hlabel hcomment => ⟨_, hmodule label, ?_⟩⟩
  have hholds : (Value.str label).holds = true := by simpa [Value.holds] using hlabel
  have hcomments : commentLines (teaser label "") = [docComment "" (.str label)] := if_pos hholds
  rw [hcomments]
  obtain ⟨hdeclaration, hcode⟩ := closes_code_intercalate balanced_line.closes code_line
    (List.forall_mem_append.mpr ⟨List.forall_mem_singleton.mpr hcomment, hlines⟩)
  obtain ⟨hsections, hcode'⟩ := closes_code_intercalate (closes_of_quiet (by decide : _ = true))
    (code_of_quiet (by decide) : code "\n\n" = [])
    (List.forall_mem_append.mpr ⟨htexts, List.forall_mem_singleton.mpr hdeclaration⟩)
  rw [code_append hsections balanced_line.closes, code_line, hcode', List.append_nil, List.flatMap_append,
    List.flatMap_singleton, hcode, List.flatMap_append, List.flatMap_singleton, List.append_assoc]

/-- An end of a comment in a label ends the comment that the label stands in: what is behind it is code. -/
theorem code_of_endedComment :
    ∃ text text', moduleText .initial (teaserSchema "*/ x" "") = .ok text ∧
      moduleText .initial (teaserSchema "x" "") = .ok text' ∧
      (teaserSchema "*/ x" "").undescribed = (teaserSchema "x" "").undescribed ∧ code text ≠ code text' := by
  obtain ⟨before, behind, hcode⟩ := exists_code_teaserSchema
  -- the comment ends before its label is over, and leaves the rest of the label and its own end
  have hscan : ScansTo (docComment "" (.str "*/ x")).toList [' ', 'x', ' ', '*', '/'] :=
    .token rfl (.plain rfl (.plain rfl (.plain rfl (.plain rfl (.plain rfl .nil)))))
  have hended : code (docComment "" (.str "*/ x")) = ['x', '*', '/'] := by
    rw [code, hscan.skeleton_eq]
    decide
  have hremark : IsRemark (Value.str "x").display := by decide
  obtain ⟨text, htext, heq⟩ := hcode "*/ x" (by decide) ⟨by decide, _, hscan⟩
  obtain ⟨text', htext', heq'⟩ := hcode "x" (by decide) (balanced_docComment hremark).closes
  refine ⟨text, text', htext, htext', rfl, fun hsame => ?_⟩
  rw [heq, heq', hended, code_docComment hremark] at hsame
  have hlength := congrArg List.length hsame
  simp only [List.length_append, List.length_cons, List.length_nil] at hlength
  omega

end TypeScript

end ContentTypes
