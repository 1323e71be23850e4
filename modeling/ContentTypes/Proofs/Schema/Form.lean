import ContentTypes.Schema.OfValue
import Mathlib.Data.List.Forall2

/-!
# The form of a schema

What has the form of a field, of a list item, of a definition and of a schema, said as relations
between a value and what it describes. Loading accepts exactly what has such a form, and gives what
the form says (`fieldOfValue_eq_ok_iff`, `Schema.ofValue_eq_ok_iff`). Where a node stands plays a part
in errors only, so the relations do not mention it.
-/

set_option autoImplicit false

namespace ContentTypes

/-! ## Kinds -/

theorem FieldTag.ofValue?_name (tag : FieldTag) : FieldTag.ofValue? (.str tag.name) = some tag := by
  cases tag <;> rfl

theorem ItemTag.ofValue?_name (tag : ItemTag) : ItemTag.ofValue? (.str tag.name) = some tag := by
  cases tag <;> rfl

/-- Only its name names a kind of field. -/
theorem FieldTag.eq_name_of_ofValue? {kind : Value} {tag : FieldTag}
    (h : FieldTag.ofValue? kind = some tag) : kind = .str tag.name := by
  cases kind with
  | str s =>
      have := List.find?_some h
      rw [eq_of_beq this]
  | _ => cases h

/-- Only its name names a kind of list item. -/
theorem ItemTag.eq_name_of_ofValue? {kind : Value} {tag : ItemTag}
    (h : ItemTag.ofValue? kind = some tag) : kind = .str tag.name := by
  cases kind with
  | str s =>
      have := List.find?_some h
      rw [eq_of_beq this]
  | _ => cases h

/-! ## Members that are lists -/

/-- The items of a member that is a list, or of one that is missing. -/
inductive MemberItems (members : Members) (name : String) : List Value → Prop where
  | missing (h : members.lookup name = none) : MemberItems members name []
  | list {items : List Value} (h : members.lookup name = some (.arr items)) :
      MemberItems members name items

theorem listMember_eq_ok_iff {place : Pointer} {members : Members} {name : String}
    {items : List Value} :
    listMember place members name = .ok items ↔ MemberItems members name items := by
  constructor
  · intro h
    unfold listMember at h
    split at h
    · cases h
      exact .missing ‹_›
    · cases h
      exact .list ‹_›
    · cases h
  · intro h
    cases h with
    | missing h => rw [listMember, h]
    | list h => rw [listMember, h]

theorem MemberItems.of_lookup_eq {members members' : Members} {name : String} {items : List Value}
    (h : members'.lookup name = members.lookup name) (hitems : MemberItems members name items) :
    MemberItems members' name items := by
  cases hitems with
  | missing hnone => exact .missing (h.trans hnone)
  | list hlist => exact .list (h.trans hlist)

/-- The items of a member that is known to be a list. -/
theorem MemberItems.eq_of_lookup {members : Members} {name : String} {items items' : List Value}
    (h : MemberItems members name items) (hlist : members.lookup name = some (.arr items')) :
    items = items' := by
  cases h with
  | missing hnone =>
      rw [hnone] at hlist
      cases hlist
  | list hlist' =>
      rw [hlist'] at hlist
      cases hlist
      rfl

/-! ## Fields and items -/

/-- The field of a node with these members, once its name and its type are known. -/
def fieldOfMembers (members : Members) (name : Value) (type : FieldType) : Field where
  name := name
  required := .bool ((members.lookup "required").getD (.bool false)).holds
  description := (members.lookup "description").getD .null
  default := (members.lookup "default").getD .null
  type := type

mutual

/-- `FieldForm raw field`: the value has the form of the field. -/
inductive FieldForm : Value → Field → Prop where
  | field {members : Members} {name kind : Value} {type : FieldType}
      (hname : members.lookup "name" = some name) (hkind : members.lookup "type" = some kind)
      (htype : FieldTypeForm members kind type) :
      FieldForm (.obj members) (fieldOfMembers members name type)

/-- `FieldTypeForm members kind type`: a field with these members, among them its kind, has that
type. -/
inductive FieldTypeForm : Members → Value → FieldType → Prop where
  | unknown {members : Members} {kind : Value} (hscalar : kind.isScalar = true)
      (hkind : FieldTag.ofValue? kind = none) :
      FieldTypeForm members kind
        (.unknown kind (members.filter fun m => !commonMembers.contains m.1))
  | boolean {members : Members} : FieldTypeForm members (.str FieldTag.boolean.name) .boolean
  | string {members : Members} : FieldTypeForm members (.str FieldTag.string.name) .string
  | date {members : Members} : FieldTypeForm members (.str FieldTag.date.name) .date
  | image {members : Members} : FieldTypeForm members (.str FieldTag.image.name) .image
  | markdown {members : Members} : FieldTypeForm members (.str FieldTag.markdown.name) .markdown
  | reference {members : Members} :
      FieldTypeForm members (.str FieldTag.reference.name)
        (.reference ((members.lookup "documentName").getD (.str "")))
  | object {members : Members} :
      FieldTypeForm members (.str FieldTag.object.name)
        (.object ((members.lookup "objectName").getD (.str "")))
  | inlineObject {members : Members} {raws : List Value} {fields : List Field}
      (hraws : MemberItems members "fieldDefs" raws) (hfields : FieldsForm raws fields) :
      FieldTypeForm members (.str FieldTag.inlineObject.name) (.inlineObject fields)
  | enumeration {members : Members} {options : List Value}
      (hoptions : MemberItems members "options" options) :
      FieldTypeForm members (.str FieldTag.enumeration.name) (.enumeration options)
  | list {members : Members} {raw : Value} {item : ItemType}
      (hof : members.lookup "of" = some raw) (hitem : ItemForm raw item) :
      FieldTypeForm members (.str FieldTag.list.name) (.list (some item))
  | polymorphicList {members : Members} {raws : List Value} {items : List ItemType}
      (hraws : MemberItems members "of" raws) (hitems : ItemsForm raws items) :
      FieldTypeForm members (.str FieldTag.polymorphicList.name) (.polymorphicList items)

/-- Each value of a list has the form of the field at its place. -/
inductive FieldsForm : List Value → List Field → Prop where
  | nil : FieldsForm [] []
  | cons {raw : Value} {raws : List Value} {field : Field} {fields : List Field}
      (hfield : FieldForm raw field) (hfields : FieldsForm raws fields) :
      FieldsForm (raw :: raws) (field :: fields)

/-- `ItemForm raw item`: the value has the form of the list item. -/
inductive ItemForm : Value → ItemType → Prop where
  | item {members : Members} {kind : Value} {type : ItemType}
      (hkind : members.lookup "type" = some kind) (htype : ItemTypeForm members kind type) :
      ItemForm (.obj members) type

/-- `ItemTypeForm members kind type`: an item with these members, among them its kind, is of that
type. -/
inductive ItemTypeForm : Members → Value → ItemType → Prop where
  | unknown {members : Members} {kind : Value} (hscalar : kind.isScalar = true)
      (hkind : ItemTag.ofValue? kind = none) :
      ItemTypeForm members kind (.unknown kind (members.filter fun m => m.1 != "type"))
  | boolean {members : Members} : ItemTypeForm members (.str ItemTag.boolean.name) .boolean
  | string {members : Members} : ItemTypeForm members (.str ItemTag.string.name) .string
  | object {members : Members} :
      ItemTypeForm members (.str ItemTag.object.name)
        (.object ((members.lookup "objectName").getD (.str "")))
  | enumeration {members : Members} {options : List Value}
      (hoptions : MemberItems members "options" options) :
      ItemTypeForm members (.str ItemTag.enumeration.name) (.enumeration options)
  | inlineObject {members : Members} {raws : List Value} {fields : List Field}
      (hraws : MemberItems members "fieldDefs" raws) (hfields : FieldsForm raws fields) :
      ItemTypeForm members (.str ItemTag.inlineObject.name) (.inlineObject fields)
  | reference {members : Members} :
      ItemTypeForm members (.str ItemTag.reference.name)
        (.reference ((members.lookup "documentName").getD (.str "")))

/-- Each value of a list has the form of the item at its place. -/
inductive ItemsForm : List Value → List ItemType → Prop where
  | nil : ItemsForm [] []
  | cons {raw : Value} {raws : List Value} {item : ItemType} {items : List ItemType}
      (hitem : ItemForm raw item) (hitems : ItemsForm raws items) :
      ItemsForm (raw :: raws) (item :: items)

end

/-- What a mapped result is, if it is one. -/
theorem map_eq_ok_iff {ε α β : Type} {f : α → β} {x : Except ε α} {b : β} :
    x.map f = .ok b ↔ ∃ a, x = .ok a ∧ f a = b := by
  cases x with
  | error e => simp [Except.map]
  | ok a => simp [Except.map]

/-- What a result that is carried on is, if it is one. -/
theorem bind_eq_ok_iff {ε α β : Type} {f : α → Except ε β} {x : Except ε α} {b : β} :
    x >>= f = .ok b ↔ ∃ a, x = .ok a ∧ f a = .ok b := by
  cases x with
  | error e => simp [bind, Except.bind]
  | ok a => simp [bind, Except.bind]

theorem pure_eq_ok_iff {ε α : Type} {a b : α} : (pure a : Except ε α) = .ok b ↔ a = b := by
  simp [pure, Except.pure]

/-! ### What is accepted has the form -/

mutual

theorem FieldForm.of_fieldOfValue {place : Pointer} {raw : Value} {field : Field}
    (h : fieldOfValue place raw = .ok field) : FieldForm raw field := by
  match raw with
  | .obj members =>
      rw [fieldOfValue] at h
      split at h
      · rename_i name kind hname hkind
        suffices ∃ type, FieldTypeForm members kind type ∧ field = fieldOfMembers members name type by
          obtain ⟨type, htype, rfl⟩ := this
          exact .field hname hkind htype
        dsimp only at h
        split at h
        · cases h
        · rename_i hs
          have hscalar : kind.isScalar = true := by simpa using hs
          split at h
          · cases h
            exact ⟨_, .unknown hscalar ‹_›, rfl⟩
          -- a kind with a rule is the name of that rule
          all_goals
            rename_i htag
            obtain rfl := FieldTag.eq_name_of_ofValue? htag
          · cases h
            exact ⟨_, .boolean, rfl⟩
          · cases h
            exact ⟨_, .string, rfl⟩
          · cases h
            exact ⟨_, .date, rfl⟩
          · cases h
            exact ⟨_, .image, rfl⟩
          · cases h
            exact ⟨_, .markdown, rfl⟩
          · cases h
            exact ⟨_, .reference, rfl⟩
          · cases h
            exact ⟨_, .object, rfl⟩
          · split at h
            · cases h
            · rename_i raws hraws
              obtain ⟨fields, hfields, rfl⟩ := map_eq_ok_iff.mp h
              exact ⟨_, .inlineObject (listMember_eq_ok_iff.mp hraws)
                (FieldsForm.of_fieldsOfValues hfields), rfl⟩
          · obtain ⟨options, hoptions, rfl⟩ := map_eq_ok_iff.mp h
            exact ⟨_, .enumeration (listMember_eq_ok_iff.mp hoptions), rfl⟩
          · split at h
            · cases h
            · rename_i raw hof
              obtain ⟨item, hitem, rfl⟩ := map_eq_ok_iff.mp h
              exact ⟨_, .list hof (ItemForm.of_itemOfValue hitem), rfl⟩
          · split at h
            · cases h
            · rename_i raws hraws
              obtain ⟨items, hitems, rfl⟩ := map_eq_ok_iff.mp h
              exact ⟨_, .polymorphicList (listMember_eq_ok_iff.mp hraws)
                (ItemsForm.of_itemsOfValues hitems), rfl⟩
      · cases h
  | .null | .bool _ | .int _ | .float _ | .str _ | .arr _ => simp [fieldOfValue] at h
termination_by sizeOf raw
decreasing_by
  · exact sizeOf_lt_of_listMember ‹_›
  · have := sizeOf_lt_of_lookup ‹_›
    simp only [Value.obj.sizeOf_spec]
    omega
  · exact sizeOf_lt_of_listMember ‹_›

theorem FieldsForm.of_fieldsOfValues {place : Pointer} {index : Nat} {raws : List Value}
    {fields : List Field} (h : fieldsOfValues place index raws = .ok fields) :
    FieldsForm raws fields := by
  unfold fieldsOfValues at h
  split at h
  · cases h
    exact .nil
  · split at h
    · cases h
    · rename_i hfield
      obtain ⟨rest, hrest, rfl⟩ := map_eq_ok_iff.mp h
      exact .cons (FieldForm.of_fieldOfValue hfield) (FieldsForm.of_fieldsOfValues hrest)
termination_by sizeOf raws

theorem ItemForm.of_itemOfValue {place : Pointer} {raw : Value} {item : ItemType}
    (h : itemOfValue place raw = .ok item) : ItemForm raw item := by
  match raw with
  | .obj members =>
      rw [itemOfValue] at h
      split at h
      · rename_i kind hkind
        refine .item hkind ?_
        split at h
        · cases h
        · rename_i hs
          have hscalar : kind.isScalar = true := by simpa using hs
          split at h
          · cases h
            exact .unknown hscalar ‹_›
          all_goals
            rename_i htag
            obtain rfl := ItemTag.eq_name_of_ofValue? htag
          · cases h
            exact .boolean
          · cases h
            exact .string
          · cases h
            exact .object
          · obtain ⟨options, hoptions, rfl⟩ := map_eq_ok_iff.mp h
            exact .enumeration (listMember_eq_ok_iff.mp hoptions)
          · split at h
            · cases h
            · rename_i raws hraws
              obtain ⟨fields, hfields, rfl⟩ := map_eq_ok_iff.mp h
              exact .inlineObject (listMember_eq_ok_iff.mp hraws)
                (FieldsForm.of_fieldsOfValues hfields)
          · cases h
            exact .reference
      · cases h
  | .null | .bool _ | .int _ | .float _ | .str _ | .arr _ => simp [itemOfValue] at h
termination_by sizeOf raw
decreasing_by
  exact sizeOf_lt_of_listMember ‹_›

theorem ItemsForm.of_itemsOfValues {place : Pointer} {index : Nat} {raws : List Value}
    {items : List ItemType} (h : itemsOfValues place index raws = .ok items) :
    ItemsForm raws items := by
  unfold itemsOfValues at h
  split at h
  · cases h
    exact .nil
  · split at h
    · cases h
    · rename_i hitem
      obtain ⟨rest, hrest, rfl⟩ := map_eq_ok_iff.mp h
      exact .cons (ItemForm.of_itemOfValue hitem) (ItemsForm.of_itemsOfValues hrest)
termination_by sizeOf raws

end

/-! ### What has the form is accepted -/

mutual

theorem FieldForm.fieldOfValue_eq {raw : Value} {field : Field} (place : Pointer) :
    FieldForm raw field → fieldOfValue place raw = .ok field
  | .field hname hkind htype => htype.fieldOfValue_eq place hname hkind

theorem FieldTypeForm.fieldOfValue_eq {members : Members} {name kind : Value} {type : FieldType}
    (place : Pointer) (hname : members.lookup "name" = some name)
    (hkind : members.lookup "type" = some kind) : FieldTypeForm members kind type →
      fieldOfValue place (.obj members) = .ok (fieldOfMembers members name type)
  | .unknown hscalar hnone => by
      simp only [fieldOfValue, hname, hkind, hscalar, hnone]
      rfl
  | .boolean | .string | .date | .image | .markdown | .reference | .object => by
      simp only [fieldOfValue, hname, hkind, FieldTag.ofValue?_name, Value.isScalar]
      rfl
  | .inlineObject hraws hfields => by
      have hlist := (@listMember_eq_ok_iff place _ _ _).mpr hraws
      have hrest := hfields.fieldsOfValues_eq (place.member "fieldDefs") 0
      simp only [fieldOfValue, hname, hkind, FieldTag.ofValue?_name, Value.isScalar,
        Bool.not_true, Bool.false_eq_true, if_false]
      split
      · rename_i heq
        rw [hlist] at heq
        cases heq
      · rename_i heq
        rw [hlist] at heq
        cases heq
        rw [hrest]
        rfl
  | .enumeration hoptions => by
      have hlist := (@listMember_eq_ok_iff place _ _ _).mpr hoptions
      simp only [fieldOfValue, hname, hkind, FieldTag.ofValue?_name, Value.isScalar, hlist]
      rfl
  | .list hof hitem => by
      have hrest := hitem.itemOfValue_eq (place.member "of")
      simp only [fieldOfValue, hname, hkind, FieldTag.ofValue?_name, Value.isScalar,
        Bool.not_true, Bool.false_eq_true, if_false]
      split
      · rename_i heq
        rw [hof] at heq
        cases heq
      · rename_i heq
        rw [hof] at heq
        cases heq
        rw [hrest]
        rfl
  | .polymorphicList hraws hitems => by
      have hlist := (@listMember_eq_ok_iff place _ _ _).mpr hraws
      have hrest := hitems.itemsOfValues_eq (place.member "of") 0
      simp only [fieldOfValue, hname, hkind, FieldTag.ofValue?_name, Value.isScalar,
        Bool.not_true, Bool.false_eq_true, if_false]
      split
      · rename_i heq
        rw [hlist] at heq
        cases heq
      · rename_i heq
        rw [hlist] at heq
        cases heq
        rw [hrest]
        rfl

theorem FieldsForm.fieldsOfValues_eq {raws : List Value} {fields : List Field} (place : Pointer)
    (index : Nat) : FieldsForm raws fields → fieldsOfValues place index raws = .ok fields
  | .nil => by rw [fieldsOfValues]
  | .cons hfield hfields => by
      rw [fieldsOfValues, hfield.fieldOfValue_eq (place.item index),
        hfields.fieldsOfValues_eq place (index + 1)]
      rfl

theorem ItemForm.itemOfValue_eq {raw : Value} {item : ItemType} (place : Pointer) :
    ItemForm raw item → itemOfValue place raw = .ok item
  | .item hkind htype => htype.itemOfValue_eq place hkind

theorem ItemTypeForm.itemOfValue_eq {members : Members} {kind : Value} {type : ItemType}
    (place : Pointer) (hkind : members.lookup "type" = some kind) :
    ItemTypeForm members kind type → itemOfValue place (.obj members) = .ok type
  | .unknown hscalar hnone => by
      simp only [itemOfValue, hkind, hscalar, hnone]
      rfl
  | .boolean | .string | .object | .reference => by
      simp only [itemOfValue, hkind, ItemTag.ofValue?_name, Value.isScalar]
      rfl
  | .enumeration hoptions => by
      have hlist := (@listMember_eq_ok_iff place _ _ _).mpr hoptions
      simp only [itemOfValue, hkind, ItemTag.ofValue?_name, Value.isScalar, hlist]
      rfl
  | .inlineObject hraws hfields => by
      have hlist := (@listMember_eq_ok_iff place _ _ _).mpr hraws
      have hrest := hfields.fieldsOfValues_eq (place.member "fieldDefs") 0
      simp only [itemOfValue, hkind, ItemTag.ofValue?_name, Value.isScalar,
        Bool.not_true, Bool.false_eq_true, if_false]
      split
      · rename_i heq
        rw [hlist] at heq
        cases heq
      · rename_i heq
        rw [hlist] at heq
        cases heq
        rw [hrest]
        rfl

theorem ItemsForm.itemsOfValues_eq {raws : List Value} {items : List ItemType} (place : Pointer)
    (index : Nat) : ItemsForm raws items → itemsOfValues place index raws = .ok items
  | .nil => by rw [itemsOfValues]
  | .cons hitem hitems => by
      rw [itemsOfValues, hitem.itemOfValue_eq (place.item index),
        hitems.itemsOfValues_eq place (index + 1)]
      rfl

end

/-- What is accepted as a field is exactly what has the form of one. -/
theorem fieldOfValue_eq_ok_iff {place : Pointer} {raw : Value} {field : Field} :
    fieldOfValue place raw = .ok field ↔ FieldForm raw field :=
  ⟨FieldForm.of_fieldOfValue, fun h => h.fieldOfValue_eq place⟩

theorem fieldsOfValues_eq_ok_iff {place : Pointer} {index : Nat} {raws : List Value}
    {fields : List Field} :
    fieldsOfValues place index raws = .ok fields ↔ FieldsForm raws fields :=
  ⟨FieldsForm.of_fieldsOfValues, fun h => h.fieldsOfValues_eq place index⟩

/-! ## Definitions -/

/-- `ComputedForm raw field`: the value has the form of the computed field. -/
inductive ComputedForm : Value → ComputedField → Prop where
  | computed {members : Members} {name type : Value} (hname : members.lookup "name" = some name)
      (htype : members.lookup "type" = some type) :
      ComputedForm (.obj members) ⟨name, type, (members.lookup "description").getD .null⟩

theorem computedOfValue_eq_ok_iff {place : Pointer} {raw : Value} {field : ComputedField} :
    computedOfValue place raw = .ok field ↔ ComputedForm raw field := by
  constructor
  · intro h
    unfold computedOfValue at h
    split at h
    · split at h
      · cases h
        exact .computed ‹_› ‹_›
      · cases h
    · cases h
  · rintro ⟨hname, htype⟩
    simp only [computedOfValue, hname, htype]

theorem computedOfValues_eq_ok_iff {place : Pointer} {index : Nat} {raws : List Value}
    {fields : List ComputedField} :
    computedOfValues place index raws = .ok fields ↔ List.Forall₂ ComputedForm raws fields := by
  induction raws generalizing index fields with
  | nil =>
      constructor
      · intro h
        cases h
        exact .nil
      · intro h
        cases h
        rfl
  | cons raw raws ih =>
      simp only [computedOfValues, bind_eq_ok_iff, pure_eq_ok_iff, computedOfValue_eq_ok_iff, ih,
        List.forall₂_cons_left_iff]
      constructor
      · rintro ⟨field, hfield, rest, hrest, rfl⟩
        exact ⟨field, rest, hfield, hrest, rfl⟩
      · rintro ⟨field, rest, hfield, hrest, rfl⟩
        exact ⟨field, hfield, rest, hrest, rfl⟩

/-- The definition of a node with these members that is entered under a key, once its fields are
known. -/
def definitionOfParts (key : String) (members : Members) (fields : List Field) : Definition where
  name := (members.lookup "name").getD (.str key)
  label := (members.lookup "label").getD (.str "")
  description := (members.lookup "description").getD .null
  fields := fields

/-- `ObjectForm key raw definition`: the value has the form of the kind of object, under that key. -/
inductive ObjectForm (key : String) : Value → Definition → Prop where
  | object {members : Members} {raws : List Value} {fields : List Field}
      (hraws : MemberItems members "fieldDefs" raws) (hfields : FieldsForm raws fields) :
      ObjectForm key (.obj members) (definitionOfParts key members fields)

/-- `DocumentForm key raw document`: the value has the form of the kind of document, under that
key. -/
inductive DocumentForm (key : String) : Value → Document → Prop where
  | document {members : Members} {raws raws' : List Value} {fields : List Field}
      {computed : List ComputedField} (hraws : MemberItems members "fieldDefs" raws)
      (hfields : FieldsForm raws fields) (hraws' : MemberItems members "computedFields" raws')
      (hcomputed : List.Forall₂ ComputedForm raws' computed) :
      DocumentForm key (.obj members)
        ⟨definitionOfParts key members fields, computed,
          (members.lookup "filePathPattern").getD .null⟩

theorem definitionOfMembers_eq_ok_iff {place : Pointer} {key : String} {members : Members}
    {d : Definition} : definitionOfMembers place key members = .ok d ↔
      ∃ raws, MemberItems members "fieldDefs" raws ∧ ∃ fields, FieldsForm raws fields ∧
        definitionOfParts key members fields = d := by
  simp only [definitionOfMembers, bind_eq_ok_iff, pure_eq_ok_iff, listMember_eq_ok_iff,
    fieldsOfValues_eq_ok_iff]
  rfl

theorem membersOf_eq_ok_iff {place : Pointer} {raw : Value} {members : Members} :
    membersOf place raw = .ok members ↔ raw = .obj members := by
  cases raw <;> simp [membersOf]

theorem objectOfEntry_eq_ok_iff {place : Pointer} {key : String} {raw : Value} {d : Definition} :
    objectOfEntry place key raw = .ok d ↔ ObjectForm key raw d := by
  simp only [objectOfEntry, bind_eq_ok_iff, membersOf_eq_ok_iff, definitionOfMembers_eq_ok_iff]
  constructor
  · rintro ⟨members, rfl, raws, hraws, fields, hfields, rfl⟩
    exact .object hraws hfields
  · rintro ⟨hraws, hfields⟩
    exact ⟨_, rfl, _, hraws, _, hfields, rfl⟩

theorem documentOfEntry_eq_ok_iff {place : Pointer} {key : String} {raw : Value} {d : Document} :
    documentOfEntry place key raw = .ok d ↔ DocumentForm key raw d := by
  simp only [documentOfEntry, bind_eq_ok_iff, pure_eq_ok_iff, membersOf_eq_ok_iff,
    definitionOfMembers_eq_ok_iff, listMember_eq_ok_iff, computedOfValues_eq_ok_iff]
  constructor
  · rintro ⟨members, rfl, _, ⟨raws, hraws, fields, hfields, rfl⟩, raws', hraws', computed,
      hcomputed, rfl⟩
    exact .document hraws hfields hraws' hcomputed
  · rintro ⟨hraws, hfields, hraws', hcomputed⟩
    exact ⟨_, rfl, _, ⟨_, hraws, _, hfields, rfl⟩, _, hraws', _, hcomputed, rfl⟩

/-! ## Schemas -/

/-- The entries of a map of definitions: of an object, or none of what counts as no. -/
inductive MapEntries (members : Members) (name : String) : Members → Prop where
  | missing (h : members.lookup name = none) : MapEntries members name []
  | no {v : Value} (h : members.lookup name = some v) (hv : v.holds = false) :
      MapEntries members name []
  | object {entries : Members} (h : members.lookup name = some (.obj entries)) :
      MapEntries members name entries

theorem entriesOf_eq_ok_iff {members : Members} {name : String} {entries : Members} :
    entriesOf members name = .ok entries ↔ MapEntries members name entries := by
  constructor
  · intro h
    unfold entriesOf at h
    split at h
    · cases h
      exact .missing ‹_›
    · rename_i v hv
      split at h
      · rename_i hno
        cases h
        exact .no hv (by simpa using hno)
      · split at h
        · cases h
          exact .object hv
        · cases h
  · intro h
    cases h with
    | missing h => simp only [entriesOf, h]
    | no h hv => simp [entriesOf, h, hv]
    | object h =>
        rw [entriesOf, h]
        cases entries with
        | nil => rfl
        | cons entry entries => simp [Value.holds]

theorem MapEntries.of_lookup_eq {members members' : Members} {name : String} {entries : Members}
    (h : members'.lookup name = members.lookup name) (hentries : MapEntries members name entries) :
    MapEntries members' name entries := by
  cases hentries with
  | missing hnone => exact .missing (h.trans hnone)
  | no hv hholds => exact .no (h.trans hv) hholds
  | object hobject => exact .object (h.trans hobject)

/-- The entries of a member that is known to be an object. -/
theorem MapEntries.eq_of_lookup {members : Members} {name : String} {entries entries' : Members}
    (h : MapEntries members name entries) (hobject : members.lookup name = some (.obj entries')) :
    entries = entries' := by
  cases h with
  | missing hnone =>
      rw [hnone] at hobject
      cases hobject
  | no hv hholds =>
      rw [hv] at hobject
      cases hobject
      exact (List.isEmpty_iff.mp (by simpa [Value.holds] using hholds)).symm
  | object hobject' =>
      rw [hobject'] at hobject
      cases hobject
      rfl

/-- `EntriesForm form nameOf entries definitions`: each entry has the form of the definition at its
place, whose name can be a key. -/
def EntriesForm {α : Type} (form : String → Value → α → Prop) (nameOf : α → Value) :
    Members → List α → Prop :=
  List.Forall₂ fun entry definition =>
    form entry.1 entry.2 definition ∧ (nameOf definition).isScalar = true

/-- Definitions under their own names, merged into a map. -/
def keyedBy {α : Type} (nameOf : α → Value) (definitions : List α) : List (Value × α) :=
  definitions.map fun d => (nameOf d, d)

/-- The entries are taken one after the other, each a form of its own, and merged by name. -/
theorem addEntries_eq_ok_iff {α : Type} {ofEntry : Pointer → String → Value → Except LoadError α}
    {form : String → Value → α → Prop} {nameOf : α → Value}
    (hform : ∀ place key raw d, ofEntry place key raw = .ok d ↔ form key raw d) {place : Pointer}
    {map map' : List (Value × α)} {entries : Members} :
    addEntries place ofEntry nameOf map entries = .ok map' ↔
      ∃ definitions, EntriesForm form nameOf entries definitions ∧
        map' = KeyedList.update Value.sameKey map (keyedBy nameOf definitions) := by
  induction entries generalizing map with
  | nil =>
      constructor
      · intro h
        cases h
        exact ⟨[], .nil, rfl⟩
      · rintro ⟨_, ⟨⟩, rfl⟩
        rfl
  | cons entry entries ih =>
      obtain ⟨key, raw⟩ := entry
      simp only [addEntries, bind_eq_ok_iff, hform]
      constructor
      · rintro ⟨d, hd, h⟩
        split at h
        · obtain ⟨definitions, hrest, rfl⟩ := ih.mp h
          exact ⟨d :: definitions, .cons ⟨hd, ‹_›⟩ hrest, rfl⟩
        · cases h
      · rintro ⟨_, h, rfl⟩
        cases h with
        | cons hd hrest =>
            refine ⟨_, hd.1, ?_⟩
            rw [if_pos hd.2]
            exact ih.mpr ⟨_, hrest, rfl⟩

theorem addDocuments_eq_ok_iff {place : Pointer} {map map' : List (Value × Document)}
    {entries : Members} :
    addEntries place documentOfEntry (fun d => d.name) map entries = .ok map' ↔
      ∃ documents, EntriesForm DocumentForm (fun d => d.name) entries documents ∧
        map' = KeyedList.update Value.sameKey map (keyedBy (fun d => d.name) documents) :=
  addEntries_eq_ok_iff (by intros; exact documentOfEntry_eq_ok_iff)

theorem addObjects_eq_ok_iff {place : Pointer} {map map' : List (Value × Definition)}
    {entries : Members} :
    addEntries place objectOfEntry (fun d => d.name) map entries = .ok map' ↔
      ∃ objects, EntriesForm ObjectForm (fun d => d.name) entries objects ∧
        map' = KeyedList.update Value.sameKey map (keyedBy (fun d => d.name) objects) :=
  addEntries_eq_ok_iff (by intros; exact objectOfEntry_eq_ok_iff)

/-- `SchemaForm raw schema`: the value has the form of the schema. -/
inductive SchemaForm : Value → Schema → Prop where
  | schema {members entries entries' : Members} {documents : List Document}
      {objects : List Definition} (hentries : MapEntries members "documentDefMap" entries)
      (hdocuments : EntriesForm DocumentForm (fun d => d.name) entries documents)
      (hentries' : MapEntries members "objectDefMap" entries')
      (hobjects : EntriesForm ObjectForm (fun d => d.name) entries' objects) :
      SchemaForm (.obj members)
        ⟨KeyedList.merge Value.sameKey (keyedBy (fun d => d.name) documents),
          KeyedList.merge Value.sameKey (keyedBy (fun d => d.name) objects)⟩

/-- What is accepted as a schema is exactly what has the form of one. -/
theorem Schema.ofValue_eq_ok_iff {raw : Value} {schema : Schema} :
    Schema.ofValue raw = .ok schema ↔ SchemaForm raw schema := by
  constructor
  · intro h
    cases raw with
    | obj members =>
        simp only [Schema.ofValue, bind_eq_ok_iff, pure_eq_ok_iff, entriesOf_eq_ok_iff,
          addDocuments_eq_ok_iff, addObjects_eq_ok_iff] at h
        obtain ⟨entries, hentries, _, ⟨documents, hdocuments, rfl⟩, entries', hentries', _,
          ⟨objects, hobjects, rfl⟩, rfl⟩ := h
        exact .schema hentries hdocuments hentries' hobjects
    | _ => cases h
  · rintro ⟨hentries, hdocuments, hentries', hobjects⟩
    simp only [Schema.ofValue, bind_eq_ok_iff, pure_eq_ok_iff, entriesOf_eq_ok_iff,
      addDocuments_eq_ok_iff, addObjects_eq_ok_iff]
    exact ⟨_, hentries, _, ⟨_, hdocuments, rfl⟩, _, hentries', _, ⟨_, hobjects, rfl⟩, rfl⟩

end ContentTypes
