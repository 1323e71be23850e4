import ContentTypes.Proofs.Schema.Form

/-!
# The grammar of schemas

Which values are schemas, said without what they describe. A field has a name and a type that is a
scalar; four types ask for more, and every other one, with a rule or without, asks for nothing. List
items go the same way without a name. A definition is an object, its fields and computed fields are
lists if they are there, and what names it is a scalar.

The grammar holds of exactly the values that have the form of something, and so of exactly those that
are accepted (`exists_schemaForm_iff`, `isSchema_iff`).
-/

set_option autoImplicit false

namespace ContentTypes

/-! ## Fields and items -/

mutual

/-- Whether a value is a field. -/
inductive IsField : Value → Prop where
  | inlineObject {members : Members} {name : Value} {raws : List Value}
      (hname : members.lookup "name" = some name)
      (hkind : members.lookup "type" = some (.str "inline_object"))
      (hraws : MemberItems members "fieldDefs" raws) (hfields : IsFields raws) :
      IsField (.obj members)
  | enumeration {members : Members} {name : Value} {options : List Value}
      (hname : members.lookup "name" = some name)
      (hkind : members.lookup "type" = some (.str "enum"))
      (hoptions : MemberItems members "options" options) : IsField (.obj members)
  | list {members : Members} {name raw : Value} (hname : members.lookup "name" = some name)
      (hkind : members.lookup "type" = some (.str "list"))
      (hof : members.lookup "of" = some raw) (hitem : IsItem raw) : IsField (.obj members)
  | polymorphicList {members : Members} {name : Value} {raws : List Value}
      (hname : members.lookup "name" = some name)
      (hkind : members.lookup "type" = some (.str "polymorphic_list"))
      (hraws : MemberItems members "of" raws) (hitems : IsItems raws) : IsField (.obj members)
  | other {members : Members} {name kind : Value} (hname : members.lookup "name" = some name)
      (hkind : members.lookup "type" = some kind) (hscalar : kind.isScalar = true)
      (hother : ∀ s ∈ ["inline_object", "enum", "list", "polymorphic_list"], kind ≠ .str s) :
      IsField (.obj members)

/-- Whether all values of a list are fields. -/
inductive IsFields : List Value → Prop where
  | nil : IsFields []
  | cons {raw : Value} {raws : List Value} (hfield : IsField raw) (hfields : IsFields raws) :
      IsFields (raw :: raws)

/-- Whether a value is an item of a list. -/
inductive IsItem : Value → Prop where
  | inlineObject {members : Members} {raws : List Value}
      (hkind : members.lookup "type" = some (.str "inline_object"))
      (hraws : MemberItems members "fieldDefs" raws) (hfields : IsFields raws) :
      IsItem (.obj members)
  | enumeration {members : Members} {options : List Value}
      (hkind : members.lookup "type" = some (.str "enum"))
      (hoptions : MemberItems members "options" options) : IsItem (.obj members)
  | other {members : Members} {kind : Value} (hkind : members.lookup "type" = some kind)
      (hscalar : kind.isScalar = true)
      (hother : ∀ s ∈ ["inline_object", "enum"], kind ≠ .str s) : IsItem (.obj members)

/-- Whether all values of a list are items of a list. -/
inductive IsItems : List Value → Prop where
  | nil : IsItems []
  | cons {raw : Value} {raws : List Value} (hitem : IsItem raw) (hitems : IsItems raws) :
      IsItems (raw :: raws)

end

/-! ### What has the form is in the grammar -/

/-- A kind that names a rule differs from all texts that are not the name of that rule. -/
theorem ne_str_of_ne_name {names : List String} {name : String} (h : name ∉ names) :
    ∀ s ∈ names, Value.str name ≠ .str s := by
  intro s hs heq
  cases heq
  exact h hs

/-- A kind without a rule is not the name of a rule. -/
theorem ne_str_of_fieldTag_eq_none {kind : Value} (h : FieldTag.ofValue? kind = none) :
    ∀ s ∈ ["inline_object", "enum", "list", "polymorphic_list"], kind ≠ .str s := by
  rintro s hs rfl
  have hnames : ∀ s ∈ ["inline_object", "enum", "list", "polymorphic_list"],
      (FieldTag.ofValue? (.str s)).isSome := by decide
  have := hnames s hs
  rw [h] at this
  cases this

theorem ne_str_of_itemTag_eq_none {kind : Value} (h : ItemTag.ofValue? kind = none) :
    ∀ s ∈ ["inline_object", "enum"], kind ≠ .str s := by
  rintro s hs rfl
  have hnames : ∀ s ∈ ["inline_object", "enum"], (ItemTag.ofValue? (.str s)).isSome := by decide
  have := hnames s hs
  rw [h] at this
  cases this

mutual

theorem FieldForm.isField {raw : Value} {field : Field} : FieldForm raw field → IsField raw
  | .field hname hkind htype => htype.isField hname hkind

theorem FieldTypeForm.isField {members : Members} {name kind : Value} {type : FieldType}
    (hname : members.lookup "name" = some name) (hkind : members.lookup "type" = some kind) :
    FieldTypeForm members kind type → IsField (.obj members)
  | .unknown hscalar hnone => .other hname hkind hscalar (ne_str_of_fieldTag_eq_none hnone)
  | .boolean | .string | .date | .image | .markdown | .reference | .object =>
      .other hname hkind rfl (ne_str_of_ne_name (by decide))
  | .inlineObject hraws hfields => .inlineObject hname hkind hraws hfields.isFields
  | .enumeration hoptions => .enumeration hname hkind hoptions
  | .list hof hitem => .list hname hkind hof hitem.isItem
  | .polymorphicList hraws hitems => .polymorphicList hname hkind hraws hitems.isItems

theorem FieldsForm.isFields {raws : List Value} {fields : List Field} :
    FieldsForm raws fields → IsFields raws
  | .nil => .nil
  | .cons hfield hfields => .cons hfield.isField hfields.isFields

theorem ItemForm.isItem {raw : Value} {item : ItemType} : ItemForm raw item → IsItem raw
  | .item hkind htype => htype.isItem hkind

theorem ItemTypeForm.isItem {members : Members} {kind : Value} {type : ItemType}
    (hkind : members.lookup "type" = some kind) :
    ItemTypeForm members kind type → IsItem (.obj members)
  | .unknown hscalar hnone => .other hkind hscalar (ne_str_of_itemTag_eq_none hnone)
  | .boolean | .string | .object | .reference =>
      .other hkind rfl (ne_str_of_ne_name (by decide))
  | .inlineObject hraws hfields => .inlineObject hkind hraws hfields.isFields
  | .enumeration hoptions => .enumeration hkind hoptions

theorem ItemsForm.isItems {raws : List Value} {items : List ItemType} :
    ItemsForm raws items → IsItems raws
  | .nil => .nil
  | .cons hitem hitems => .cons hitem.isItem hitems.isItems

end

/-! ### What is in the grammar has a form -/

/-- A kind of field that asks for nothing has a form with any members. -/
theorem exists_fieldTypeForm_of_other (members : Members) {kind : Value}
    (hscalar : kind.isScalar = true)
    (hother : ∀ s ∈ ["inline_object", "enum", "list", "polymorphic_list"], kind ≠ .str s) :
    ∃ type, FieldTypeForm members kind type := by
  cases htag : FieldTag.ofValue? kind with
  | none => exact ⟨_, .unknown hscalar htag⟩
  | some tag =>
      obtain rfl := FieldTag.eq_name_of_ofValue? htag
      cases tag with
      | boolean => exact ⟨_, .boolean⟩
      | string => exact ⟨_, .string⟩
      | date => exact ⟨_, .date⟩
      | image => exact ⟨_, .image⟩
      | markdown => exact ⟨_, .markdown⟩
      | reference => exact ⟨_, .reference⟩
      | object => exact ⟨_, .object⟩
      | inlineObject | list | polymorphicList | enumeration =>
          exact absurd rfl (hother _ (by decide))

/-- A kind of list item that asks for nothing has a form with any members. -/
theorem exists_itemTypeForm_of_other (members : Members) {kind : Value}
    (hscalar : kind.isScalar = true) (hother : ∀ s ∈ ["inline_object", "enum"], kind ≠ .str s) :
    ∃ type, ItemTypeForm members kind type := by
  cases htag : ItemTag.ofValue? kind with
  | none => exact ⟨_, .unknown hscalar htag⟩
  | some tag =>
      obtain rfl := ItemTag.eq_name_of_ofValue? htag
      cases tag with
      | boolean => exact ⟨_, .boolean⟩
      | string => exact ⟨_, .string⟩
      | object => exact ⟨_, .object⟩
      | reference => exact ⟨_, .reference⟩
      | enumeration | inlineObject => exact absurd rfl (hother _ (by decide))

mutual

theorem IsField.exists_form {raw : Value} : IsField raw → ∃ field, FieldForm raw field
  | .inlineObject hname hkind hraws hfields => by
      obtain ⟨fields, h⟩ := hfields.exists_form
      exact ⟨_, .field hname hkind (.inlineObject hraws h)⟩
  | .enumeration hname hkind hoptions => ⟨_, .field hname hkind (.enumeration hoptions)⟩
  | .list hname hkind hof hitem => by
      obtain ⟨item, h⟩ := hitem.exists_form
      exact ⟨_, .field hname hkind (.list hof h)⟩
  | .polymorphicList hname hkind hraws hitems => by
      obtain ⟨items, h⟩ := hitems.exists_form
      exact ⟨_, .field hname hkind (.polymorphicList hraws h)⟩
  | .other hname hkind hscalar hother => by
      obtain ⟨type, h⟩ := exists_fieldTypeForm_of_other _ hscalar hother
      exact ⟨_, .field hname hkind h⟩

theorem IsFields.exists_form {raws : List Value} : IsFields raws → ∃ fields, FieldsForm raws fields
  | .nil => ⟨_, .nil⟩
  | .cons hfield hfields => by
      obtain ⟨field, h⟩ := hfield.exists_form
      obtain ⟨fields, h'⟩ := hfields.exists_form
      exact ⟨_, .cons h h'⟩

theorem IsItem.exists_form {raw : Value} : IsItem raw → ∃ item, ItemForm raw item
  | .inlineObject hkind hraws hfields => by
      obtain ⟨fields, h⟩ := hfields.exists_form
      exact ⟨_, .item hkind (.inlineObject hraws h)⟩
  | .enumeration hkind hoptions => ⟨_, .item hkind (.enumeration hoptions)⟩
  | .other hkind hscalar hother => by
      obtain ⟨type, h⟩ := exists_itemTypeForm_of_other _ hscalar hother
      exact ⟨_, .item hkind h⟩

theorem IsItems.exists_form {raws : List Value} : IsItems raws → ∃ items, ItemsForm raws items
  | .nil => ⟨_, .nil⟩
  | .cons hitem hitems => by
      obtain ⟨item, h⟩ := hitem.exists_form
      obtain ⟨items, h'⟩ := hitems.exists_form
      exact ⟨_, .cons h h'⟩

end

/-! ## Definitions -/

/-- Whether a value is a computed field. -/
inductive IsComputed : Value → Prop where
  | computed {members : Members} {name type : Value} (hname : members.lookup "name" = some name)
      (htype : members.lookup "type" = some type) : IsComputed (.obj members)

/-- What names the definition that a node with these members is, entered under a key. -/
def nameOfEntry (key : String) (members : Members) : Value :=
  (members.lookup "name").getD (.str key)

/-- Whether a value is a kind of object, entered under a key. -/
inductive IsObject (key : String) : Value → Prop where
  | object {members : Members} {raws : List Value}
      (hraws : MemberItems members "fieldDefs" raws) (hfields : IsFields raws)
      (hname : (nameOfEntry key members).isScalar = true) : IsObject key (.obj members)

/-- Whether a value is a kind of document, entered under a key. -/
inductive IsDocument (key : String) : Value → Prop where
  | document {members : Members} {raws raws' : List Value}
      (hraws : MemberItems members "fieldDefs" raws) (hfields : IsFields raws)
      (hraws' : MemberItems members "computedFields" raws') (hcomputed : ∀ raw ∈ raws', IsComputed raw)
      (hname : (nameOfEntry key members).isScalar = true) : IsDocument key (.obj members)

theorem exists_computedForm_iff {raw : Value} :
    (∃ field, ComputedForm raw field) ↔ IsComputed raw := by
  constructor
  · rintro ⟨_, hname, htype⟩
    exact .computed hname htype
  · rintro ⟨hname, htype⟩
    exact ⟨_, .computed hname htype⟩

/-- A list of values can be related to a list of things if each of them can to one. -/
theorem exists_forall₂_iff {α β : Type} {r : α → β → Prop} {xs : List α} :
    (∃ ys, List.Forall₂ r xs ys) ↔ ∀ x ∈ xs, ∃ y, r x y := by
  induction xs with
  | nil => simp
  | cons x xs ih =>
      rw [List.forall_mem_cons, ← ih]
      constructor
      · rintro ⟨_, h⟩
        obtain ⟨y, ys, hy, hys, rfl⟩ := List.forall₂_cons_left_iff.mp h
        exact ⟨⟨y, hy⟩, ys, hys⟩
      · rintro ⟨⟨y, h⟩, ys, hs⟩
        exact ⟨y :: ys, .cons h hs⟩

theorem exists_objectForm_iff {key : String} {raw : Value} :
    (∃ d, ObjectForm key raw d ∧ d.name.isScalar = true) ↔ IsObject key raw := by
  constructor
  · rintro ⟨_, ⟨hraws, hfields⟩, hname⟩
    exact .object hraws hfields.isFields hname
  · rintro ⟨hraws, hfields, hname⟩
    obtain ⟨fields, h⟩ := hfields.exists_form
    exact ⟨_, .object hraws h, hname⟩

theorem exists_documentForm_iff {key : String} {raw : Value} :
    (∃ d, DocumentForm key raw d ∧ d.name.isScalar = true) ↔ IsDocument key raw := by
  constructor
  · rintro ⟨_, ⟨hraws, hfields, hraws', hcomputed⟩, hname⟩
    refine .document hraws hfields.isFields hraws' ?_ hname
    intro raw hraw
    exact exists_computedForm_iff.mp (exists_forall₂_iff.mp ⟨_, hcomputed⟩ raw hraw)
  · rintro ⟨hraws, hfields, hraws', hcomputed, hname⟩
    obtain ⟨fields, h⟩ := hfields.exists_form
    obtain ⟨computed, h'⟩ := exists_forall₂_iff.mpr fun raw hraw =>
      exists_computedForm_iff.mpr (hcomputed raw hraw)
    exact ⟨_, .document hraws h hraws' h', hname⟩

/-! ## Schemas -/

/-- Whether a value is a schema. -/
inductive IsSchema : Value → Prop where
  | schema {members entries entries' : Members}
      (hentries : MapEntries members "documentDefMap" entries)
      (hdocuments : ∀ e ∈ entries, IsDocument e.1 e.2)
      (hentries' : MapEntries members "objectDefMap" entries')
      (hobjects : ∀ e ∈ entries', IsObject e.1 e.2) : IsSchema (.obj members)

/-- The schemas of the grammar are the values that have the form of one. -/
theorem exists_schemaForm_iff {raw : Value} : (∃ schema, SchemaForm raw schema) ↔ IsSchema raw := by
  constructor
  · rintro ⟨_, hentries, hdocuments, hentries', hobjects⟩
    refine .schema hentries ?_ hentries' ?_
    · intro e he
      exact exists_documentForm_iff.mp (exists_forall₂_iff.mp ⟨_, hdocuments⟩ e he)
    · intro e he
      exact exists_objectForm_iff.mp (exists_forall₂_iff.mp ⟨_, hobjects⟩ e he)
  · rintro ⟨hentries, hdocuments, hentries', hobjects⟩
    obtain ⟨documents, h⟩ := exists_forall₂_iff.mpr fun e he =>
      exists_documentForm_iff.mpr (hdocuments e he)
    obtain ⟨objects, h'⟩ := exists_forall₂_iff.mpr fun e he =>
      exists_objectForm_iff.mpr (hobjects e he)
    exact ⟨_, .schema hentries h hentries' h'⟩

/-- The values that are accepted as a schema are those of the grammar. -/
theorem isSchema_iff {raw : Value} :
    IsSchema raw ↔ ∃ schema, Schema.ofValue raw = .ok schema := by
  rw [← exists_schemaForm_iff]
  simp only [Schema.ofValue_eq_ok_iff]

end ContentTypes
