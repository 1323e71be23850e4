import ContentTypes.Proofs.TypeScript.Unambiguity
import ContentTypes.Proofs.TypeScript.Writable
import Mathlib.Data.List.Forall2

/-!
# What type expressions mean

The meaning of a field as a type, said without any text, and that the line written for the field is the
member with this meaning, and no other (`fieldLine_means`). Nothing is put between parentheses that
does not need it: what stands in front of brackets is always a primary, and a union that goes on with
`undefined` takes it up as one more branch.
-/

set_option autoImplicit false

namespace ContentTypes.TypeScript

/-! ## Meaning -/

/-- The branch of a union that says that a member may be missing. -/
def missing : Branch := .name "undefined"

mutual

/-- The branches of the type of a field. -/
def meaning : FieldType → List Branch
  | .boolean => [.name "boolean"]
  | .string => [.name "string"]
  | .date => [.name "string"]
  | .image => [.name "Image"]
  | .markdown => [.name "Markdown"]
  | .reference _ => [.name "string"]
  | .object name => [.name name.display]
  | .inlineObject fields => [.record (memberMeanings fields)]
  | .enumeration options => options.map fun option => .literal option.display
  | .list none => [.literal ("todo " ++ FieldTag.list.name)]
  | .list (some item) => [.array (itemMeaning item)]
  | .polymorphicList items => [.array (itemMeanings items).flatten]
  | .unknown kind _ => [.literal ("todo " ++ kind.display)]
  | .plain => [.literal "todo "]

/-- A field as a member of a record: a branch more if it is not required. -/
def memberMeaning : FieldOf FieldType → Member
  | ⟨name, required, _, _, type⟩ =>
      (name.display, meaning type ++ if required.holds then [] else [missing])

/-- Fields as members of a record. -/
def memberMeanings : List (FieldOf FieldType) → List Member
  | [] => []
  | field :: rest => memberMeaning field :: memberMeanings rest

/-- The branches of the type of a list item. -/
def itemMeaning : ItemType → List Branch
  | .boolean => [.name "boolean"]
  | .string => [.name "string"]
  | .object name => [.name name.display]
  | .enumeration options => options.map fun option => .literal option.display
  | .inlineObject fields => [.record (memberMeanings fields)]
  | .reference document => [.name document.display]
  | .unknown kind _ => [.literal ("todo " ++ kind.display)]
  | .plain => [.literal "todo "]

/-- The branches of the types of several list items. -/
def itemMeanings : List ItemType → List (List Branch)
  | [] => []
  | item :: rest => itemMeaning item :: itemMeanings rest

end

/-! ## Fields that mean a type -/

mutual

/-- Whether every union of a type has a branch and every list an item, and nothing is named as what is
missing. -/
def TypeComplete : FieldType → Prop
  | .object name => name.display ≠ "undefined"
  | .inlineObject fields => FieldsComplete fields
  | .enumeration options => options ≠ []
  | .list none => False
  | .list (some item) => ItemComplete item
  | .polymorphicList items => items ≠ [] ∧ ItemsComplete items
  | .boolean | .string | .date | .image | .markdown | .reference _ | .unknown _ _ | .plain => True

/-- The same for the type of a field. -/
def FieldComplete : FieldOf FieldType → Prop
  | ⟨_, _, _, _, type⟩ => TypeComplete type

/-- The same for the types of several fields. -/
def FieldsComplete : List (FieldOf FieldType) → Prop
  | [] => True
  | field :: rest => FieldComplete field ∧ FieldsComplete rest

/-- The same for the type of a list item. -/
def ItemComplete : ItemType → Prop
  | .object name => name.display ≠ "undefined"
  | .reference document => document.display ≠ "undefined"
  | .enumeration options => options ≠ []
  | .inlineObject fields => FieldsComplete fields
  | .boolean | .string | .unknown _ _ | .plain => True

/-- The same for the types of several list items. -/
def ItemsComplete : List ItemType → Prop
  | [] => True
  | item :: rest => ItemComplete item ∧ ItemsComplete rest

end

/-! ## Unions and records -/

theorem derives_name {text : String} (h : IsIdentifier text) :
    Derives text.toList (.type [.name text]) := .type (.array (.name h))

theorem derives_literal {text : String} (h : IsQuotable text) :
    Derives ("'" ++ text ++ "'").toList (.primary [.literal text]) := by
  have htext : ("'" ++ text ++ "'").toList = '\'' :: (text.toList ++ ['\'']) := by simp
  rw [htext]
  exact .literal h

theorem Derives.inParentheses {text : String} {type : List Branch} (h : Derives text.toList (.type type)) :
    Derives ("(" ++ text ++ ")").toList (.primary type) := by
  have htext : ("(" ++ text ++ ")").toList = '(' :: (text.toList ++ [')']) := by simp
  rw [htext]
  exact .parentheses h

theorem Derives.withBrackets {text : String} {type : List Branch} (h : Derives text.toList (.primary type)) :
    Derives (text ++ "[]").toList (.type [.array type]) := by
  have htext : (text ++ "[]").toList = text.toList ++ ['[', ']'] := by simp
  rw [htext]
  exact .type (.brackets (.array h))

/-- Two types with a bar between them are the branches of both. -/
theorem Derives.union {text text' : String} {type type' : List Branch}
    (h : Derives text.toList (.type type)) (h' : Derives text'.toList (.type type')) :
    Derives (text ++ unionBar ++ text').toList (.type (type ++ type')) := by
  have htext : (text ++ unionBar ++ text').toList = (text.toList ++ [' ']) ++ '|' :: ' ' :: text'.toList := by
    simp [unionBar]
  rw [htext]
  exact .bar (.spaceBehind h) (.spaceBefore h')

/-- Types joined by bars are their branches, one after the other. -/
theorem derives_union {texts : List String} {types : List (List Branch)}
    (h : List.Forall₂ (fun text type => Derives text.toList (.type type)) texts types) (hne : texts ≠ []) :
    Derives (String.intercalate unionBar texts).toList (.type types.flatten) := by
  induction h with
  | nil => exact absurd rfl hne
  | @cons text type texts types hhead htail ih =>
      cases htail with
      | nil =>
          rw [String.intercalate_singleton, List.flatten_singleton]
          exact hhead
      | @cons text' type' texts types =>
          rw [String.intercalate_cons_cons, List.flatten_cons]
          exact hhead.union (ih (by simp))

/-- Lines joined by line breaks are members, one after the other. -/
theorem derives_lines {lines : List String} {members : List Member}
    (h : List.Forall₂ (fun line member => Derives line.toList (.member member)) lines members) :
    Derives ((String.intercalate "\n" lines).toList ++ ['\n']) (.members members) := by
  induction h with
  | nil =>
      rw [String.intercalate_nil]
      exact .blankBeforeMembers (by decide) .noMember
  | @cons line member lines members hhead htail ih =>
      cases htail with
      | nil =>
          rw [String.intercalate_singleton]
          exact .memberLine hhead .noMember
      | @cons line' member' lines members =>
          have htext : (String.intercalate "\n" (line :: line' :: lines)).toList ++ ['\n'] =
              line.toList ++ '\n' :: ((String.intercalate "\n" (line' :: lines)).toList ++ ['\n']) := by
            rw [String.intercalate_cons_cons]
            simp
          rw [htext]
          exact .memberLine hhead ih

/-- A record is its members. -/
theorem derives_record {lines : List String} {members : List Member}
    (h : List.Forall₂ (fun line member => Derives line.toList (.member member)) lines members) :
    Derives (record lines).toList (.primary [.record members]) := by
  have htext : (record lines).toList =
      '\x7b' :: ('\n' :: ((String.intercalate "\n" lines).toList ++ ['\n']) ++ ['\x7d']) := by
    simp [record]
  rw [htext]
  exact .record (.blankBeforeMembers (by decide) (derives_lines h))

/-! ## Lines -/

/-- A line written for a member is the member. -/
theorem derives_memberLine {name required description : Value} {text : String} {type : List Branch}
    (hname : IsName name) (hdescription : description.holds = true → IsRemark description.display)
    (htype : Derives text.toList (.type type)) :
    Derives (memberLine name required description (.str text)).toList
      (.member (name.display, type ++ if required.holds then [] else [missing])) := by
  obtain ⟨nameText, rfl, hidentifier⟩ := hname
  obtain ⟨ending, hending⟩ : ∃ ending, ending =
    (if required.holds then "" else " | undefined" : String) := ⟨_, rfl⟩
  have hwhole : Derives (text ++ ending).toList
      (.type (type ++ if required.holds then [] else [missing])) := by
    by_cases hr : required.holds = true
    · rw [if_pos hr] at hending ⊢
      rw [hending, List.append_nil, String.append_empty]
      exact htype
    · rw [if_neg hr] at hending ⊢
      have hundefined : Derives "undefined".toList (.type [missing]) := derives_name (by decide)
      have htext : text ++ ending = text ++ unionBar ++ "undefined" := by
        rw [hending, String.append_assoc]
        rfl
      rw [htext]
      exact htype.union hundefined
  -- the line is the name, a colon and the whole type, behind a comment if there is a description
  rw [String.toList_append] at hwhole
  rw [memberLine, ← hending, described]
  by_cases hd : description.holds = true
  · rw [if_pos hd]
    have hline : (docComment indent description ++ "\n" ++
        (indent ++ (Value.str nameText).display ++ ": " ++ (Value.str text).display ++ ending)).toList =
        ' ' :: ' ' :: '/' :: '*' :: '*' :: (' ' :: (description.display.toList ++ [' ']) ++ '*' :: '/' ::
          (['\n', ' ', ' '] ++ (nameText.toList ++ ':' :: ' ' :: (text.toList ++ ending.toList)))) := by
      simp [docComment, indent, Value.display]
    rw [hline]
    exact .blankBeforeMember (by decide) <| .blankBeforeMember (by decide) <|
      .describedMember (hdescription hd).spaced (by simp [isBlank]) hidentifier (.spaceBefore hwhole)
  · rw [if_neg hd]
    have hline : (indent ++ (Value.str nameText).display ++ ": " ++ (Value.str text).display ++
        ending).toList =
        ' ' :: ' ' :: (nameText.toList ++ ':' :: ' ' :: (text.toList ++ ending.toList)) := by
      simp [indent, Value.display]
    rw [hline]
    exact .blankBeforeMember (by decide) <| .blankBeforeMember (by decide) <|
      .member hidentifier (.spaceBefore hwhole)

/-! ## Fields -/

/-- The options of an enumeration are literals. -/
theorem derives_literalUnion {options : List Value} (hne : options ≠ [])
    (h : ∀ option ∈ options, IsQuotable option.display) :
    Derives (literalUnion options).toList
      (.type (options.map fun option => .literal option.display)) := by
  have hliterals : List.Forall₂ (fun text type => Derives text.toList (.type type))
      (options.map literal) (options.map fun option => [.literal option.display]) := by
    rw [List.forall₂_map_left_iff, List.forall₂_map_right_iff, List.forall₂_same]
    intro option hoption
    exact .type (.array (derives_literal (h option hoption)))
  have hunion := derives_union hliterals (by simpa using hne)
  have hflatten : (options.map fun option => [Branch.literal option.display]).flatten =
      options.map fun option => Branch.literal option.display := by
    rw [← List.flatMap_def, ← List.map_eq_flatMap]
  rwa [hflatten] at hunion

/-- The literal that stands for a kind without a rule is a literal like any other. -/
theorem derives_todo {kind : Value} (h : IsQuotable kind.display) :
    Derives (todo kind).toList (.primary [.literal ("todo " ++ kind.display)]) := by
  rw [todo_eq]
  exact derives_literal (isQuotable_todo h)

mutual

/-- The type of a field can be written, and is its meaning. -/
theorem derives_type : ∀ type : FieldType, TypeWritable type → TypeComplete type →
    ∃ text, fieldExpression type = .ok (.str text) ∧ Derives text.toList (.type (meaning type))
  | .boolean, _, _ => ⟨_, rfl, derives_name (by decide)⟩
  | .string, _, _ => ⟨_, rfl, derives_name (by decide)⟩
  | .date, _, _ => ⟨_, rfl, derives_name (by decide)⟩
  | .image, _, _ => ⟨_, rfl, derives_name (by decide)⟩
  | .markdown, _, _ => ⟨_, rfl, derives_name (by decide)⟩
  | .reference _, _, _ => ⟨_, rfl, derives_name (by decide)⟩
  | .object name, h, _ => by
      obtain ⟨text, rfl, hidentifier⟩ := h
      exact ⟨text, rfl, derives_name hidentifier⟩
  | .inlineObject fields, h, hcomplete => by
      obtain ⟨lines, hlines, hderives⟩ := derives_fields fields h hcomplete
      refine ⟨record lines, ?_, .type (.array (derives_record hderives))⟩
      rw [fieldExpression, hlines]
      rfl
  | .enumeration options, h, hcomplete =>
      ⟨literalUnion options, rfl, derives_literalUnion hcomplete h⟩
  | .list (some item), h, hcomplete => by
      obtain ⟨text, htext, hderives⟩ := derives_item item h hcomplete
      refine ⟨text ++ "[]", ?_, hderives.withBrackets⟩
      rw [fieldExpression, htext]
      rfl
  | .polymorphicList items, h, hcomplete => by
      obtain ⟨texts, htexts, hne, hderives⟩ := derives_items items h hcomplete.2
      refine ⟨"(" ++ String.intercalate unionBar texts ++ ")[]", ?_, ?_⟩
      · rw [fieldExpression, htexts]
        show (do return Value.str ("(" ++ (← union (texts.map Value.str)) ++ ")[]")) = _
        rw [union_texts]
        rfl
      · have hbrackets := (derives_union hderives (hne hcomplete.1)).inParentheses.withBrackets
        rwa [String.append_assoc] at hbrackets
  | .unknown kind _, h, _ => ⟨todo kind, rfl, .type (.array (derives_todo h))⟩
  | .plain, _, _ => ⟨_, rfl, .type (.array (derives_todo (by decide)))⟩

/-- A field can be written as a member of a record, and is its meaning. -/
theorem derives_field : ∀ field : FieldOf FieldType, FieldWritable field → FieldComplete field →
    ∃ line, fieldLine field = .ok line ∧ Derives line.toList (.member (memberMeaning field))
  | ⟨name, required, description, _, type⟩, h, hcomplete => by
      obtain ⟨hname, hdescription, htype⟩ := h
      obtain ⟨text, htext, hderives⟩ := derives_type type htype hcomplete
      refine ⟨memberLine name required description (.str text), ?_, ?_⟩
      · rw [fieldLine, htext]
        rfl
      · exact derives_memberLine hname hdescription hderives

theorem derives_fields : ∀ fields : List (FieldOf FieldType), FieldsWritable fields →
    FieldsComplete fields → ∃ lines, fieldLines fields = .ok lines ∧
      List.Forall₂ (fun line member => Derives line.toList (.member member)) lines
        (memberMeanings fields)
  | [], _, _ => ⟨[], rfl, .nil⟩
  | field :: fields, h, hcomplete => by
      obtain ⟨line, hline, hderive⟩ := derives_field field h.1 hcomplete.1
      obtain ⟨lines, hlines, hderives⟩ := derives_fields fields h.2 hcomplete.2
      refine ⟨line :: lines, ?_, .cons hderive hderives⟩
      rw [fieldLines, hline, hlines]
      rfl

/-- The type of a list item can be written, and is its meaning, whether brackets follow or not. -/
theorem derives_item : ∀ item : ItemType, ItemWritable item → ItemComplete item →
    ∃ text, itemExpression item = .ok (.str text) ∧ Derives text.toList (.primary (itemMeaning item))
  | .boolean, _, _ => ⟨_, rfl, .name (by decide)⟩
  | .string, _, _ => ⟨_, rfl, .name (by decide)⟩
  | .object name, h, _ => by
      obtain ⟨text, rfl, hidentifier⟩ := h
      exact ⟨text, rfl, .name hidentifier⟩
  | .reference document, h, _ => by
      obtain ⟨text, rfl, hidentifier⟩ := h
      exact ⟨text, rfl, .name hidentifier⟩
  | .enumeration options, h, hcomplete =>
      ⟨"(" ++ literalUnion options ++ ")", rfl, (derives_literalUnion hcomplete h).inParentheses⟩
  | .inlineObject fields, h, hcomplete => by
      obtain ⟨lines, hlines, hderives⟩ := derives_fields fields h hcomplete
      refine ⟨record lines, ?_, derives_record hderives⟩
      rw [itemExpression, hlines]
      rfl
  | .unknown kind _, h, _ => ⟨todo kind, rfl, derives_todo h⟩
  | .plain, _, _ => ⟨_, rfl, derives_todo (by decide)⟩

theorem derives_items : ∀ items : List ItemType, ItemsWritable items → ItemsComplete items →
    ∃ texts : List String, itemExpressions items = .ok (texts.map Value.str) ∧
      (items ≠ [] → texts ≠ []) ∧
      List.Forall₂ (fun text type => Derives text.toList (.type type)) texts (itemMeanings items)
  | [], _, _ => ⟨[], rfl, fun h => absurd rfl h, .nil⟩
  | item :: items, h, hcomplete => by
      obtain ⟨text, htext, hderive⟩ := derives_item item h.1 hcomplete.1
      obtain ⟨texts, htexts, -, hderives⟩ := derives_items items h.2 hcomplete.2
      refine ⟨text :: texts, ?_, by simp, .cons (.type (.array hderive)) hderives⟩
      rw [itemExpressions, htext, htexts]
      rfl

end

/-! ## The line of a field -/

/-- Of the branches of a complete type none says that a member may be missing. -/
theorem missing_notMem_meaning {type : FieldType} (h : TypeComplete type) : missing ∉ meaning type := by
  intro hmissing
  cases type with
  | object name =>
      rw [meaning, List.mem_singleton] at hmissing
      exact h (Branch.name.inj hmissing).symm
  | enumeration options =>
      obtain ⟨option, -, heq⟩ := List.mem_map.mp hmissing
      cases heq
  | list item => cases item <;> simp [meaning, missing] at hmissing
  | _ => simp [meaning, missing] at hmissing

/-- **The line of a field means the field.** As a whole it is the member with the name of the field and
the meaning of its type, with one branch more, `undefined`, just if the field is not required; and it
is no other member. -/
theorem fieldLine_means (field : Field) (h : FieldWritable field) (hcomplete : FieldComplete field) :
    ∃ line name, fieldLine field = .ok line ∧ field.name = .str name ∧
      missing ∉ meaning field.type ∧
      ∀ member, Derives line.toList (.member member) ↔
        member = (name, meaning field.type ++ if field.required.holds then [] else [missing]) := by
  obtain ⟨line, hline, hderives⟩ := derives_field field h hcomplete
  obtain ⟨fieldName, required, description, default, type⟩ := field
  obtain ⟨⟨name, rfl, -⟩, -, -⟩ := h
  refine ⟨line, name, hline, rfl, missing_notMem_meaning hcomplete, ?_⟩
  intro member
  constructor
  · intro hmember
    exact member_unique hmember hderives
  · intro heq
    rw [heq]
    exact hderives

/-- A field with a list of entries that are records or names, described by a text with braces. -/
def sampleField : Field where
  name := .str "sections"
  required := .bool false
  description := .str "Parts \x7b of the page"
  default := .null
  type := .polymorphicList [
    .inlineObject [
      ⟨.str "level", .bool true, .null, .null, .enumeration [.str "1", .bool true]⟩,
      ⟨.str "links", .bool false, .str "", .null, .list (some (.reference (.str "Page")))⟩],
    .object (.str "Teaser"),
    .enumeration [.str "rule | break", .str "\x7b"]]

theorem fieldLine_means_sampleField :
    FieldWritable sampleField ∧ FieldComplete sampleField ∧
      ∃ line name, fieldLine sampleField = .ok line ∧ sampleField.name = .str name ∧
        missing ∉ meaning sampleField.type ∧
        ∀ member, Derives line.toList (.member member) ↔
          member = (name, meaning sampleField.type ++
            if sampleField.required.holds then [] else [missing]) := by
  have hlevel : FieldWritable
      ⟨.str "level", .bool true, .null, .null, .enumeration [.str "1", .bool true]⟩ :=
    ⟨⟨_, rfl, by decide⟩, fun h => absurd h (by decide), by simp only [TypeWritable]; decide⟩
  have hlinks : FieldWritable
      ⟨.str "links", .bool false, .str "", .null, .list (some (.reference (.str "Page")))⟩ :=
    ⟨⟨_, rfl, by decide⟩, fun h => absurd h (by decide), _, rfl, by decide⟩
  have hwritable : FieldWritable sampleField := by
    refine ⟨⟨_, rfl, by decide⟩, fun _ => by decide, ⟨hlevel, hlinks, trivial⟩, ?_, ?_, trivial⟩
    · exact ⟨_, rfl, by decide⟩
    · simp only [ItemWritable]
      decide
  have hcomplete : FieldComplete sampleField := by
    simp [sampleField, FieldComplete, TypeComplete, ItemsComplete, ItemComplete, FieldsComplete,
      Value.display]
  exact ⟨hwritable, hcomplete, fieldLine_means sampleField hwritable hcomplete⟩

/-- Fields that are written alike mean the same. -/
theorem memberMeaning_eq_of_fieldLine_eq {field field' : Field} (h : FieldWritable field)
    (hcomplete : FieldComplete field) (h' : FieldWritable field') (hcomplete' : FieldComplete field')
    (heq : fieldLine field = fieldLine field') : memberMeaning field = memberMeaning field' := by
  obtain ⟨line, hline, hderives⟩ := derives_field field h hcomplete
  obtain ⟨line', hline', hderives'⟩ := derives_field field' h' hcomplete'
  obtain rfl : line = line' := by
    rw [hline, hline'] at heq
    exact Except.ok.inj heq
  exact member_unique hderives hderives'

end ContentTypes.TypeScript
