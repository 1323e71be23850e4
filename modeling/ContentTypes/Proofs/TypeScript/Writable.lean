import ContentTypes.Proofs.TypeScript.Token
import ContentTypes.TypeScript.Expression

/-!
# Fields that can be written

Names, options and descriptions are taken from a schema as they come. What is written is sound if the
names are identifiers, the options and the kinds without a rule stand for themselves between quotes, and
the descriptions stand for themselves in a comment.
-/

set_option autoImplicit false

namespace ContentTypes.TypeScript

/-- Whether a value is an identifier. -/
def IsName (v : Value) : Prop := ∃ text, v = .str text ∧ IsIdentifier text

mutual

/-- Whether a type is made of names, literals and remarks that can be told from what they stand in. -/
def TypeWritable : FieldType → Prop
  | .object name => IsName name
  | .inlineObject fields => FieldsWritable fields
  | .enumeration options => ∀ option ∈ options, IsQuotable option.display
  | .list (some item) => ItemWritable item
  | .polymorphicList items => ItemsWritable items
  | .unknown kind _ => IsQuotable kind.display
  | .boolean | .string | .date | .image | .markdown | .reference _ | .list none | .plain => True

/-- Whether a field has a name and a type that can be written, and a description that can stand in a
comment. -/
def FieldWritable : FieldOf FieldType → Prop
  | ⟨name, _, description, _, type⟩ =>
      IsName name ∧ (description.holds = true → IsRemark description.display) ∧ TypeWritable type

/-- Whether all fields can be written. -/
def FieldsWritable : List (FieldOf FieldType) → Prop
  | [] => True
  | field :: rest => FieldWritable field ∧ FieldsWritable rest

/-- Whether the type of a list item can be written. -/
def ItemWritable : ItemType → Prop
  | .object name => IsName name
  | .reference document => IsName document
  | .enumeration options => ∀ option ∈ options, IsQuotable option.display
  | .inlineObject fields => FieldsWritable fields
  | .unknown kind _ => IsQuotable kind.display
  | .boolean | .string | .plain => True

/-- Whether the types of all list items can be written. -/
def ItemsWritable : List ItemType → Prop
  | [] => True
  | item :: rest => ItemWritable item ∧ ItemsWritable rest

end

/-! ## What is written for them -/

/-- The literal that stands for a kind without a rule stands between quotes like any other. -/
theorem todo_eq (kind : Value) : todo kind = "'" ++ ("todo " ++ kind.display) ++ "'" := by
  rw [todo, ← String.append_assoc]
  rfl

theorem isQuotable_todo {kind : Value} (h : IsQuotable kind.display) :
    IsQuotable ("todo " ++ kind.display) := by
  have htodo : IsQuotable "todo " := by decide
  intro c hc
  rw [String.toList_append] at hc
  rcases List.mem_append.mp hc with hc | hc
  · exact htodo c hc
  · exact h c hc

/-- Values that are all texts are joined as they are. -/
theorem union_texts (texts : List String) :
    union (texts.map Value.str) = .ok (String.intercalate unionBar texts) := by
  suffices h : ∀ position, textsFrom position (texts.map Value.str) = .ok texts by
    rw [union, h 0]
    rfl
  induction texts with
  | nil =>
      intro position
      rfl
  | cons text texts ih =>
      intro position
      rw [List.map_cons, textsFrom, ih (position + 1)]
      rfl

end ContentTypes.TypeScript
