import ContentTypes.Proofs.TypeScript.Skeleton
import ContentTypes.Proofs.TypeScript.Writable
import ContentTypes.TypeScript.Declaration

/-!
# Declarations close what they open

What is written for a field or a definition leaves nothing open and nests its braces, whatever stands
in its literals and comments. The types of fields go by induction over the fields and items
(`balanced_type`); a declaration opens a brace in one line and closes it in another.
-/

set_option autoImplicit false

namespace ContentTypes.TypeScript

/-- A text that passes at every depth of braces and leaves the depth as it was. -/
def Balanced (text : String) : Prop := ∀ depth, Passes depth text depth

theorem Balanced.append {text text' : String} (h : Balanced text) (h' : Balanced text') :
    Balanced (text ++ text') := fun depth => (h depth).append (h' depth)

theorem balanced_intercalate {separator : String} {texts : List String} (hseparator : Balanced separator)
    (h : ∀ text ∈ texts, Balanced text) : Balanced (String.intercalate separator texts) :=
  fun depth => (passesAll_of_forall fun text htext => h text htext depth).intercalate hseparator

theorem balanced_line : Balanced "\n" := fun _ => passes_of_quiet (by decide) rfl

theorem balanced_indent : Balanced indent := fun _ => passes_of_quiet (by decide) rfl

theorem balanced_unionBar : Balanced unionBar := fun _ => passes_of_quiet (by decide) rfl

/-! ## Types -/

theorem balanced_name {v : Value} (h : IsName v) : Balanced v.display := by
  obtain ⟨text, rfl, hidentifier⟩ := h
  exact fun depth => passes_name depth hidentifier

theorem isQuotable_name {v : Value} (h : IsName v) : IsQuotable v.display := by
  obtain ⟨text, rfl, hidentifier⟩ := h
  exact hidentifier.isQuotable

theorem balanced_literal {v : Value} (h : IsQuotable v.display) : Balanced (literal v) :=
  fun depth => passes_quoted depth h

theorem balanced_todo {kind : Value} (h : IsQuotable kind.display) : Balanced (todo kind) := by
  rw [todo_eq]
  exact fun depth => passes_quoted depth (isQuotable_todo h)

theorem balanced_literalUnion {options : List Value}
    (h : ∀ option ∈ options, IsQuotable option.display) : Balanced (literalUnion options) := by
  apply balanced_intercalate balanced_unionBar
  intro text htext
  obtain ⟨option, hoption, rfl⟩ := List.mem_map.mp htext
  exact balanced_literal (h option hoption)

theorem Balanced.parentheses {text : String} (h : Balanced text) : Balanced ("(" ++ text ++ ")") := by
  intro depth
  have hopen : Passes depth "(" depth := passes_of_quiet (by decide) rfl
  have hclose : Passes depth ")" depth := passes_of_quiet (by decide) rfl
  exact (hopen.append (h depth)).append hclose

theorem Balanced.brackets {text : String} (h : Balanced text) : Balanced (text ++ "[]") :=
  h.append fun _ => passes_of_quiet (by decide) rfl

/-- A record opens a brace in front of its lines and closes it behind them. -/
theorem balanced_record {lines : List String} (h : ∀ line ∈ lines, Balanced line) :
    Balanced (record lines) := by
  intro depth
  have hopen : Passes depth "\x7b\n" (depth + 1) := passes_of_quiet (by decide) rfl
  have hclose : Passes (depth + 1) "\n\x7d" depth := passes_of_quiet (by decide) rfl
  exact (hopen.append (balanced_intercalate balanced_line h (depth + 1))).append hclose

/-! ## Lines with a description -/

theorem balanced_docComment {text : Value} (h : IsRemark text.display) : Balanced (docComment "" text) := by
  have htext : docComment "" text = "/** " ++ text.display ++ " */" := by
    rw [docComment, String.empty_append]
  rw [htext]
  exact fun depth => passes_comment depth h

theorem balanced_described {description : Value} {line : String}
    (h : description.holds = true → IsRemark description.display) (hline : Balanced line) :
    Balanced (described description line) := by
  unfold described
  by_cases hd : description.holds = true
  · rw [if_pos hd]
    have hcomment : docComment indent description = indent ++ docComment "" description := by
      simp only [docComment, String.empty_append, String.append_assoc]
    rw [hcomment]
    exact ((balanced_indent.append (balanced_docComment (h hd))).append balanced_line).append hline
  · rw [if_neg hd]
    exact hline

theorem balanced_memberLine {name required description : Value} {text : String} (hname : IsName name)
    (hdescription : description.holds = true → IsRemark description.display) (h : Balanced text) :
    Balanced (memberLine name required description (.str text)) := by
  apply balanced_described hdescription
  have hcolon : Balanced ": " := fun _ => passes_of_quiet (by decide) rfl
  have hending : Balanced (if required.holds then "" else " | undefined") := by
    split
    · exact passes_empty
    · exact fun _ => passes_of_quiet (by decide) rfl
  exact (((balanced_indent.append (balanced_name hname)).append hcolon).append h).append hending

mutual

/-- The type of a field can be written, and leaves nothing open. -/
theorem balanced_type : ∀ type : FieldType, TypeWritable type →
    ∃ text, fieldExpression type = .ok (.str text) ∧ Balanced text
  | .boolean, _ => ⟨_, rfl, fun _ => passes_of_quiet (by decide) rfl⟩
  | .string, _ => ⟨_, rfl, fun _ => passes_of_quiet (by decide) rfl⟩
  | .date, _ => ⟨_, rfl, fun _ => passes_of_quiet (by decide) rfl⟩
  | .image, _ => ⟨_, rfl, fun _ => passes_of_quiet (by decide) rfl⟩
  | .markdown, _ => ⟨_, rfl, fun _ => passes_of_quiet (by decide) rfl⟩
  | .reference _, _ => ⟨_, rfl, fun _ => passes_of_quiet (by decide) rfl⟩
  | .object name, h => by
      have hbalanced := balanced_name h
      obtain ⟨text, rfl, -⟩ := h
      exact ⟨text, rfl, hbalanced⟩
  | .inlineObject fields, h => by
      obtain ⟨lines, hlines, hbalanced⟩ := balanced_fields fields h
      refine ⟨record lines, ?_, balanced_record hbalanced⟩
      rw [fieldExpression, hlines]
      rfl
  | .enumeration options, h => ⟨literalUnion options, rfl, balanced_literalUnion h⟩
  | .list none, _ => ⟨_, rfl, balanced_todo (by decide)⟩
  | .list (some item), h => by
      obtain ⟨text, htext, hbalanced⟩ := balanced_item item h
      refine ⟨text ++ "[]", ?_, hbalanced.brackets⟩
      rw [fieldExpression, htext]
      rfl
  | .polymorphicList items, h => by
      obtain ⟨texts, htexts, hbalanced⟩ := balanced_items items h
      refine ⟨"(" ++ String.intercalate unionBar texts ++ ")[]", ?_, ?_⟩
      · rw [fieldExpression, htexts]
        show (do return Value.str ("(" ++ (← union (texts.map Value.str)) ++ ")[]")) = _
        rw [union_texts]
        rfl
      · have hbrackets :=
          (balanced_intercalate balanced_unionBar hbalanced).parentheses.brackets
        rwa [String.append_assoc] at hbrackets
  | .unknown kind _, h => ⟨todo kind, rfl, balanced_todo h⟩
  | .plain, _ => ⟨_, rfl, balanced_todo (by decide)⟩

/-- A field can be written as a member of a record, and leaves nothing open. -/
theorem balanced_field : ∀ field : FieldOf FieldType, FieldWritable field →
    ∃ line, fieldLine field = .ok line ∧ Balanced line
  | ⟨name, required, description, _, type⟩, h => by
      obtain ⟨hname, hdescription, htype⟩ := h
      obtain ⟨text, htext, hbalanced⟩ := balanced_type type htype
      refine ⟨memberLine name required description (.str text), ?_, ?_⟩
      · rw [fieldLine, htext]
        rfl
      · exact balanced_memberLine hname hdescription hbalanced

theorem balanced_fields : ∀ fields : List (FieldOf FieldType), FieldsWritable fields →
    ∃ lines, fieldLines fields = .ok lines ∧ ∀ line ∈ lines, Balanced line
  | [], _ => ⟨[], rfl, List.forall_mem_nil _⟩
  | field :: fields, h => by
      obtain ⟨line, hline, hbalanced⟩ := balanced_field field h.1
      obtain ⟨lines, hlines, hbalanceds⟩ := balanced_fields fields h.2
      refine ⟨line :: lines, ?_, List.forall_mem_cons.mpr ⟨hbalanced, hbalanceds⟩⟩
      rw [fieldLines, hline, hlines]
      rfl

/-- The type of a list item can be written, and leaves nothing open. -/
theorem balanced_item : ∀ item : ItemType, ItemWritable item →
    ∃ text, itemExpression item = .ok (.str text) ∧ Balanced text
  | .boolean, _ => ⟨_, rfl, fun _ => passes_of_quiet (by decide) rfl⟩
  | .string, _ => ⟨_, rfl, fun _ => passes_of_quiet (by decide) rfl⟩
  | .object name, h => by
      have hbalanced := balanced_name h
      obtain ⟨text, rfl, -⟩ := h
      exact ⟨text, rfl, hbalanced⟩
  | .reference document, h => by
      have hbalanced := balanced_name h
      obtain ⟨text, rfl, -⟩ := h
      exact ⟨text, rfl, hbalanced⟩
  | .enumeration options, h =>
      ⟨"(" ++ literalUnion options ++ ")", rfl, (balanced_literalUnion h).parentheses⟩
  | .inlineObject fields, h => by
      obtain ⟨lines, hlines, hbalanced⟩ := balanced_fields fields h
      refine ⟨record lines, ?_, balanced_record hbalanced⟩
      rw [itemExpression, hlines]
      rfl
  | .unknown kind _, h => ⟨todo kind, rfl, balanced_todo h⟩
  | .plain, _ => ⟨_, rfl, balanced_todo (by decide)⟩

theorem balanced_items : ∀ items : List ItemType, ItemsWritable items →
    ∃ texts : List String, itemExpressions items = .ok (texts.map Value.str) ∧
      ∀ text ∈ texts, Balanced text
  | [], _ => ⟨[], rfl, List.forall_mem_nil _⟩
  | item :: items, h => by
      obtain ⟨text, htext, hbalanced⟩ := balanced_item item h.1
      obtain ⟨texts, htexts, hbalanceds⟩ := balanced_items items h.2
      refine ⟨text :: texts, ?_, List.forall_mem_cons.mpr ⟨hbalanced, hbalanceds⟩⟩
      rw [itemExpressions, htext, htexts]
      rfl

end

/-! ## Declarations -/

/-- Whether a computed field has a name that can be written, a description that can stand in a comment,
and a type that leaves nothing open and nests its braces. -/
structure ComputedWritable (c : ComputedField) : Prop where
  name : IsName c.name
  description : c.description.holds = true → IsRemark c.description.display
  type : ∃ bones, ScansTo c.type.display.toList bones ∧ ProperlyNested bones

/-- Whether a definition has a name and fields that can be written, and a description, or a label in its
place, that can stand in a comment. -/
structure DefinitionWritable (d : Definition) : Prop where
  name : IsName d.name
  description : d.description.holds = true → IsRemark d.description.display
  label : d.description.holds = false → d.label.holds = true → IsRemark d.label.display
  fields : FieldsWritable d.fields

/-- Whether a kind of document can be written, its computed fields included. -/
structure DocumentWritable (d : Document) : Prop extends DefinitionWritable d.toDefinition where
  computed : ∀ c ∈ d.computed, ComputedWritable c

theorem balanced_computedLine {c : ComputedField} (h : ComputedWritable c) :
    Balanced (computedLine c) := by
  obtain ⟨bones, hscan, hnested⟩ := h.type
  apply balanced_described h.description
  intro depth
  -- the type stands behind a space, so its first character opens nothing with the one before it
  have hcolon : Passes depth ": " depth := passes_of_quiet (by decide) rfl
  have htype : Passes depth (": " ++ c.type.display) depth := by
    refine hcolon.append_of_joins hscan (hnested.nests depth) ?_ ?_
    · intro hlast
      simp at hlast
    · intro hempty
      simp at hempty
  have hline := (balanced_indent.append (balanced_name h.name)) depth
  rw [String.append_assoc]
  exact hline.append htype

/-- What holds of every comment of which the end does not occur in its text holds of the comment before a
declaration. -/
theorem forall_mem_commentLines {p : String → Prop} {d : Definition} (h : DefinitionWritable d)
    (hp : ∀ text : Value, IsRemark text.display → p (docComment "" text)) :
    ∀ line ∈ commentLines d, p line := by
  have hremark (text : Value) (htext : text.holds = true → IsRemark text.display) :
      ∀ line ∈ (if text.holds then [docComment "" text] else []), p line := by
    by_cases hholds : text.holds = true
    · rw [if_pos hholds, List.forall_mem_singleton]
      exact hp text (htext hholds)
    · rw [if_neg hholds]
      exact List.forall_mem_nil _
  unfold commentLines
  by_cases hd : d.description.holds = true
  · rw [if_pos hd]
    exact hremark _ h.description
  · rw [if_neg hd]
    exact hremark _ (h.label (by simpa using hd))

theorem passesAll_commentLines {d : Definition} (h : DefinitionWritable d) (depth : Nat) :
    PassesAll depth (commentLines d) depth :=
  passesAll_of_forall (forall_mem_commentLines h fun _ htext => balanced_docComment htext depth)

/-- The text of a declaration leaves nothing open if its members do not. -/
theorem balanced_declarationText {d : Definition} {identity members : List String}
    (h : DefinitionWritable d) (hidentity : ∀ line ∈ identity, Balanced line)
    (hmembers : ∀ line ∈ members, Balanced line) :
    Balanced (declarationText d identity members) := by
  intro depth
  have hname := balanced_name h.name
  have hopen : Passes depth ("export type " ++ d.name.display ++ " = \x7b") (depth + 1) := by
    have hexport : Passes depth "export type " depth := passes_of_quiet (by decide) rfl
    have hbrace : Passes depth " = \x7b" (depth + 1) := passes_of_quiet (by decide) rfl
    exact (hexport.append (hname depth)).append hbrace
  have htypeName : Passes (depth + 1) ("  _typeName: '" ++ d.name.display ++ "'") (depth + 1) := by
    have hmember : Passes (depth + 1) "  _typeName: " (depth + 1) := passes_of_quiet (by decide) rfl
    exact hmember.quoted (isQuotable_name h.name)
  have hraw : Passes (depth + 1) "  _raw?: Record<string, any>" (depth + 1) :=
    passes_of_quiet (by decide) rfl
  have hclose : Passes (depth + 1) "\x7d" depth := passes_of_quiet (by decide) rfl
  -- the lines between the brace and its end stand one deeper
  have hlines := (passesAll_commentLines h depth).append (.cons hopen .nil)
    |>.append (passesAll_of_forall fun line hline => hidentity line hline (depth + 1))
    |>.append (.cons htypeName (.cons hraw .nil))
    |>.append (passesAll_of_forall fun line hline => hmembers line hline (depth + 1))
    |>.append (.cons hclose .nil)
  exact hlines.intercalate balanced_line

/-- Whether a declaration has a name that can be written and a text that leaves nothing open. -/
structure Declaration.Sound (d : Declaration) : Prop where
  name : IsName d.name
  text : Balanced d.text

theorem objectDeclaration_eq_ok {d : Definition} {lines : List String} (h : fieldLines d.fields = .ok lines) :
    objectDeclaration d = .ok ⟨d.name, declarationText d [] lines⟩ := by
  rw [objectDeclaration, objectMembers, h]
  rfl

theorem documentDeclaration_eq_ok {d : Document} {lines : List String} (h : fieldLines d.fields = .ok lines) :
    documentDeclaration d = .ok ⟨d.name,
      declarationText d.toDefinition ["  _id: string"] (lines ++ d.computed.map computedLine)⟩ := by
  rw [documentDeclaration, documentMembers, h]
  rfl

/-- A kind of object that can be written has a declaration. -/
theorem exists_objectDeclaration {d : Definition} (h : DefinitionWritable d) :
    ∃ declaration, objectDeclaration d = .ok declaration ∧ declaration.Sound := by
  obtain ⟨lines, hlines, hbalanced⟩ := balanced_fields d.fields h.fields
  refine ⟨_, objectDeclaration_eq_ok hlines, h.name, ?_⟩
  exact balanced_declarationText h (List.forall_mem_nil _) hbalanced

/-- A kind of document that can be written has a declaration. -/
theorem exists_documentDeclaration {d : Document} (h : DocumentWritable d) :
    ∃ declaration, documentDeclaration d = .ok declaration ∧ declaration.Sound := by
  obtain ⟨lines, hlines, hbalanced⟩ := balanced_fields d.fields h.fields
  have hid : Balanced "  _id: string" := fun _ => passes_of_quiet (by decide) rfl
  refine ⟨_, documentDeclaration_eq_ok hlines, h.name, ?_⟩
  apply balanced_declarationText h.toDefinitionWritable
  · rw [List.forall_mem_singleton]
    exact hid
  · intro line hline
    rcases List.mem_append.mp hline with hline | hline
    · exact hbalanced line hline
    · obtain ⟨c, hc, rfl⟩ := List.mem_map.mp hline
      exact balanced_computedLine (h.computed c hc)

end ContentTypes.TypeScript
