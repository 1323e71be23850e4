import ContentTypes.Proofs.Schema.WellFormed
import ContentTypes.Schema.ToValue

/-!
# Writing a schema and loading it again

The JSON form of a well-formed schema has the form of that schema (`Schema.WellFormed.form`), so that
loading gives back what was written, with everything in its order.
`Schema.ofValue_toValue_roundTrip` puts this together with the converse, that what is loaded is well
formed.
-/

set_option autoImplicit false

namespace ContentTypes

/-! ## Members of a node -/

/-- Members that are no two the same, and are not among the known ones, are added behind those. -/
theorem setAll_of_isExtra {known : List String} {head extra : Members} (h : IsExtra known extra)
    (hhead : ∀ m ∈ head, m.1 ∈ known) : Members.setAll head extra = head ++ extra := by
  refine KeyedList.update_of_fresh ?_ ?_
  · intro p hp c hc
    rw [beq_eq_false_iff_ne]
    intro heq
    exact h.2 c hc (heq ▸ hhead p hp)
  · have hnodup : extra.Pairwise fun p c => p.1 ≠ c.1 := List.pairwise_map.mp h.1
    exact hnodup.imp fun hne => beq_eq_false_iff_ne.mpr hne

/-- Taking the known members out of a node leaves the others. -/
theorem filter_of_isExtra {known : List String} {head extra : Members}
    {keep : String × Value → Bool} (h : IsExtra known extra) (hhead : ∀ m ∈ head, m.1 ∈ known)
    (hkeep : ∀ m, keep m = true ↔ m.1 ∉ known) : (head ++ extra).filter keep = extra := by
  have h₁ : head.filter keep = [] := by
    rw [List.filter_eq_nil_iff]
    intro m hm hk
    exact (hkeep m).mp hk (hhead m hm)
  have h₂ : extra.filter keep = extra := by
    rw [List.filter_eq_self]
    intro m hm
    exact (hkeep m).mpr (h.2 m hm)
  rw [List.filter_append, h₁, h₂, List.nil_append]

/-- A member that a node may leave out is found as null if it is left out. -/
theorem lookup_optionalMember (name : String) (v : Value) :
    ((optionalMember name v).lookup name).getD .null = v := by
  cases v <;> simp [optionalMember, Value.isNull]

theorem lookup_optionalMember_ne {name name' : String} (h : name ≠ name') (v : Value) :
    (optionalMember name' v).lookup name = none := by
  have hne : (name == name') = false := by simpa using h
  cases v <;> simp [optionalMember, Value.isNull, List.lookup_cons, hne]

section Field

variable {name required description default kind : Value}

theorem mem_optionalMember {m : String × Value} {name : String} {v : Value}
    (h : m ∈ optionalMember name v) : m.1 = name := by
  unfold optionalMember at h
  split at h
  · cases h
  · rw [List.mem_singleton.mp h]

theorem mem_commonMembers_of_mem_fieldHead :
    ∀ m ∈ fieldHead name required description default kind, m.1 ∈ commonMembers := by
  intro m hm
  simp only [fieldHead, List.mem_append, List.mem_cons, List.not_mem_nil, or_false] at hm
  rcases hm with ((rfl | rfl | rfl) | hm) | hm
  · simp [commonMembers]
  · simp [commonMembers]
  · simp [commonMembers]
  · simp [commonMembers, mem_optionalMember hm]
  · simp [commonMembers, mem_optionalMember hm]

/-- A member that is not among those of every field is looked up behind them. -/
theorem lookup_fieldHead_append {own : Members} {key : String} (h : key ∉ commonMembers) :
    (fieldHead name required description default kind ++ own).lookup key = own.lookup key := by
  have hhead : (fieldHead name required description default kind).lookup key = none := by
    rw [List.lookup_eq_none_iff]
    intro m hm
    rw [bne_iff_ne]
    intro heq
    exact h (heq ▸ mem_commonMembers_of_mem_fieldHead m hm)
  rw [List.lookup_append, hhead, Option.none_or]

theorem lookup_name_fieldHead_append {own : Members} :
    (fieldHead name required description default kind ++ own).lookup "name" = some name := by
  simp [fieldHead, List.lookup_cons]

theorem lookup_type_fieldHead_append {own : Members} :
    (fieldHead name required description default kind ++ own).lookup "type" = some kind := by
  simp [fieldHead]

/-- The members of every field are found whatever stands behind them, as long as none of them stands
there again. -/
theorem fieldOfMembers_fieldHead_append {own : Members} {b : Bool} {type : FieldType}
    (hown : ∀ m ∈ own, m.1 ∉ commonMembers) :
    fieldOfMembers (fieldHead name (.bool b) description default kind ++ own) name type =
      ⟨name, .bool b, description, default, type⟩ := by
  have hnone : ∀ key ∈ commonMembers, own.lookup key = none := by
    intro key hkey
    rw [List.lookup_eq_none_iff]
    intro m hm
    rw [bne_iff_ne]
    intro heq
    exact hown m hm (heq ▸ hkey)
  have hdescription := hnone "description" (by decide)
  have hdefault := hnone "default" (by decide)
  have h₁ := lookup_optionalMember "description" description
  have h₂ := lookup_optionalMember "default" default
  have h₃ := lookup_optionalMember_ne (show "default" ≠ "description" by decide) description
  have h₄ := lookup_optionalMember_ne (show "description" ≠ "default" by decide) default
  simp [fieldOfMembers, fieldHead, List.lookup_append, List.lookup_cons, Value.holds, h₁, h₂, h₃, h₄,
    hdescription, hdefault]

end Field

/-! ## Fields and items -/

/-- The members of a field besides those that every field has. -/
def ownMembers : FieldType → Members
  | .object name => [("objectName", name)]
  | .reference document => [("documentName", document)]
  | .inlineObject fields => [("fieldDefs", .arr (fieldsToValues fields))]
  | .enumeration options => [("options", .arr options)]
  | .list none => [("of", .null)]
  | .list (some item) => [("of", itemToValue item)]
  | .polymorphicList items => [("of", .arr (itemsToValues items))]
  | .unknown _ extra => extra
  | .boolean | .string | .date | .image | .markdown | .plain => []

theorem ownMembers_not_common {type : FieldType} (h : type.ExtraApart) :
    ∀ m ∈ ownMembers type, m.1 ∉ commonMembers := by
  cases type with
  | unknown kind extra => exact h.2
  | list item => cases item <;> simp [ownMembers, commonMembers]
  | _ => simp [ownMembers, commonMembers]

theorem fieldMembers_eq_append {name required description default kind : Value} {type : FieldType}
    (h : type.ExtraApart) :
    fieldMembers (fieldHead name required description default kind) type =
      fieldHead name required description default kind ++ ownMembers type := by
  cases type with
  | unknown kind' extra => exact setAll_of_isExtra h mem_commonMembers_of_mem_fieldHead
  | list item => cases item <;> rfl
  | boolean | string | date | image | markdown | plain => exact (List.append_nil _).symm
  | _ => rfl

/-- The only member of a node behind those of every field. -/
theorem lookup_fieldHead_singleton {name required description default kind v : Value} {key : String}
    (h : key ∉ commonMembers) :
    (fieldHead name required description default kind ++ [(key, v)]).lookup key = some v := by
  rw [lookup_fieldHead_append h, List.lookup_cons_self]

theorem FieldTypeForm.reference_of_lookup {members : Members} {document : Value}
    (h : members.lookup "documentName" = some document) :
    FieldTypeForm members (.str FieldTag.reference.name) (.reference document) := by
  have hform := @FieldTypeForm.reference members
  rw [h] at hform
  exact hform

theorem FieldTypeForm.object_of_lookup {members : Members} {name : Value}
    (h : members.lookup "objectName" = some name) :
    FieldTypeForm members (.str FieldTag.object.name) (.object name) := by
  have hform := @FieldTypeForm.object members
  rw [h] at hform
  exact hform

mutual

theorem FieldType.WellFormed.form (name required description default : Value) :
    ∀ type : FieldType, type.WellFormed →
      FieldTypeForm (fieldHead name required description default type.kind ++ ownMembers type)
        type.kind type
  | .boolean, _ => .boolean
  | .string, _ => .string
  | .date, _ => .date
  | .image, _ => .image
  | .markdown, _ => .markdown
  | .reference _, _ => .reference_of_lookup (lookup_fieldHead_singleton (by decide))
  | .object _, _ => .object_of_lookup (lookup_fieldHead_singleton (by decide))
  | .inlineObject fields, h =>
      .inlineObject (.list (lookup_fieldHead_singleton (by decide))) (FieldsWellFormed.form fields h)
  | .enumeration options, _ => .enumeration (.list (lookup_fieldHead_singleton (by decide)))
  | .list (some item), h =>
      .list (lookup_fieldHead_singleton (by decide)) (ItemType.WellFormed.form item h)
  | .polymorphicList items, h =>
      .polymorphicList (.list (lookup_fieldHead_singleton (by decide)))
        (ItemsWellFormed.form items h)
  | .unknown kind extra, ⟨hscalar, hkind, hextra⟩ => by
      have h := @FieldTypeForm.unknown (fieldHead name required description default kind ++ extra)
        kind hscalar hkind
      rwa [filter_of_isExtra hextra mem_commonMembers_of_mem_fieldHead (by simp)] at h

theorem FieldWellFormed.form : ∀ field : FieldOf FieldType, FieldWellFormed field →
    FieldForm (fieldToValue field) field
  | ⟨name, required, description, default, type⟩, ⟨⟨b, hb⟩, htype⟩ => by
      subst hb
      rw [fieldToValue, fieldMembers_eq_append htype.extraApart]
      have h := FieldForm.field lookup_name_fieldHead_append lookup_type_fieldHead_append
        (FieldType.WellFormed.form name (.bool b) description default type htype)
      rwa [fieldOfMembers_fieldHead_append (ownMembers_not_common htype.extraApart)] at h

theorem FieldsWellFormed.form : ∀ fields : List (FieldOf FieldType), FieldsWellFormed fields →
    FieldsForm (fieldsToValues fields) fields
  | [], _ => .nil
  | field :: fields, ⟨hfield, hfields⟩ =>
      .cons (FieldWellFormed.form field hfield) (FieldsWellFormed.form fields hfields)

theorem ItemType.WellFormed.form : ∀ item : ItemType, item.WellFormed →
    ItemForm (itemToValue item) item
  | .boolean, _ => .item rfl .boolean
  | .string, _ => .item rfl .string
  | .object name, _ => .item rfl .object
  | .enumeration options, _ => .item rfl (.enumeration (.list rfl))
  | .inlineObject fields, h =>
      .item rfl (.inlineObject (.list rfl) (FieldsWellFormed.form fields h))
  | .reference document, _ => .item rfl .reference
  | .unknown kind extra, ⟨hscalar, hkind, hextra⟩ => by
      have hhead : ∀ m ∈ [("type", kind)], m.1 ∈ ["type"] := by simp
      have h := @ItemTypeForm.unknown ([("type", kind)] ++ extra) kind hscalar hkind
      rw [filter_of_isExtra hextra hhead (by simp)] at h
      rw [itemToValue, setAll_of_isExtra hextra hhead]
      exact .item rfl h

theorem ItemsWellFormed.form : ∀ items : List ItemType, ItemsWellFormed items →
    ItemsForm (itemsToValues items) items
  | [], _ => .nil
  | item :: items, ⟨hitem, hitems⟩ =>
      .cons (ItemType.WellFormed.form item hitem) (ItemsWellFormed.form items hitems)

end

/-! ## Definitions -/

theorem ComputedField.form (c : ComputedField) : ComputedForm c.toValue c := by
  have h := @ComputedForm.computed
    ([("name", c.name), ("type", c.type)] ++ optionalMember "description" c.description) c.name
    c.type rfl rfl
  have hd := lookup_optionalMember "description" c.description
  have : (([("name", c.name), ("type", c.type)] ++
      optionalMember "description" c.description).lookup "description").getD .null
        = c.description := by
    simp [List.lookup_cons, hd]
  rw [this] at h
  exact h

theorem Definition.form {d : Definition} (key : String) (h : FieldsWellFormed d.fields) :
    ObjectForm key d.toValue d := by
  set members : Members := [("name", d.name), ("label", d.label)] ++
    optionalMember "description" d.description ++ [("fieldDefs", .arr (fieldsToValues d.fields))]
    with hmembers
  have hd := lookup_optionalMember "description" d.description
  have hne := lookup_optionalMember_ne (show "fieldDefs" ≠ "description" by decide) d.description
  have hfields : MemberItems members "fieldDefs" (fieldsToValues d.fields) :=
    .list (by simp [hmembers, List.lookup_append, List.lookup_cons, hne])
  have hparts : definitionOfParts key members d.fields = d := by
    obtain ⟨name, label, description, fields⟩ := d
    simp [definitionOfParts, hmembers, List.lookup_append, List.lookup_cons, hd]
  have hform : ObjectForm key (.obj members) _ :=
    .object hfields (FieldsWellFormed.form d.fields h)
  rwa [hparts] at hform

theorem Document.form {d : Document} (key : String) (h : FieldsWellFormed d.fields) :
    DocumentForm key d.toValue d := by
  set members : Members := [("name", d.name), ("label", d.label)] ++
    optionalMember "description" d.description ++
    optionalMember "filePathPattern" d.filePathPattern ++
    [("fieldDefs", .arr (fieldsToValues d.fields)),
      ("computedFields", .arr (d.computed.map ComputedField.toValue))] with hmembers
  have hd := lookup_optionalMember "description" d.description
  have hp := lookup_optionalMember "filePathPattern" d.filePathPattern
  have hnone : ∀ key name v, key ≠ name → (optionalMember name v).lookup key = none :=
    fun key name v hne => lookup_optionalMember_ne hne v
  have hfields : MemberItems members "fieldDefs" (fieldsToValues d.fields) :=
    .list (by simp [hmembers, List.lookup_append, List.lookup_cons, hnone])
  have hcomputed : MemberItems members "computedFields" (d.computed.map ComputedField.toValue) :=
    .list (by simp [hmembers, List.lookup_append, List.lookup_cons, hnone])
  have hparts : (⟨definitionOfParts key members d.fields, d.computed,
      (members.lookup "filePathPattern").getD .null⟩ : Document) = d := by
    obtain ⟨⟨name, label, description, fields⟩, computed, filePathPattern⟩ := d
    simp only at hd hp
    simp [definitionOfParts, hmembers, List.lookup_append, List.lookup_cons, hd, hp, hnone]
  have hforms : List.Forall₂ ComputedForm (d.computed.map ComputedField.toValue) d.computed := by
    rw [List.forall₂_map_left_iff, List.forall₂_same]
    exact fun c _ => c.form
  have hform : DocumentForm key (.obj members) _ :=
    .document hfields (FieldsWellFormed.form d.fields h) hcomputed hforms
  rwa [hparts] at hform

/-! ## Schemas -/

section Map

variable {α : Type} {nameOf : α → Value} {map : List (Value × α)}

/-- Definitions under their names are what their names make of them. -/
theorem KeyedByName.keyedBy_eq (h : KeyedByName nameOf map) :
    keyedBy nameOf (map.map (·.2)) = map := by
  rw [keyedBy, List.map_map]
  conv_rhs => rw [← List.map_id map]
  refine List.map_congr_left ?_
  intro e he
  obtain ⟨name, hkey, hname⟩ := h.text e he
  show (nameOf e.2, e.2) = e
  rw [hname, ← hkey]

/-- Merging by name does not change a map of definitions under their names. -/
theorem KeyedByName.merge_eq (h : KeyedByName nameOf map) :
    KeyedList.merge Value.sameKey (keyedBy nameOf (map.map (·.2))) = map := by
  rw [h.keyedBy_eq]
  refine KeyedList.merge_of_fresh ?_
  have hne : map.Pairwise fun e e' => e.1 ≠ e'.1 := List.pairwise_map.mp h.nodup
  refine hne.imp_of_mem ?_
  intro e e' he he' hkeys
  obtain ⟨s, hs, -⟩ := h.text e he
  obtain ⟨t, ht, -⟩ := h.text e' he'
  rw [hs, ht] at hkeys ⊢
  rw [Value.sameKey_str, beq_eq_false_iff_ne]
  intro heq
  exact hkeys (by rw [heq])

/-- The entries of a map, written one by one, have the form of its definitions. -/
theorem KeyedByName.entriesForm {form : String → Value → α → Prop} {toValue : α → Value}
    (h : KeyedByName nameOf map) (hform : ∀ e ∈ map, ∀ key, form key (toValue e.2) e.2) :
    EntriesForm form nameOf (map.map fun e => (e.1.memberName, toValue e.2)) (map.map (·.2)) := by
  rw [EntriesForm, List.forall₂_map_left_iff, List.forall₂_map_right_iff, List.forall₂_same]
  intro e he
  obtain ⟨name, -, hname⟩ := h.text e he
  refine ⟨hform e he _, ?_⟩
  rw [hname]
  rfl

end Map

/-- The JSON form of a well-formed schema has the form of that schema. -/
theorem Schema.WellFormed.form {schema : Schema} (h : schema.WellFormed) :
    SchemaForm schema.toValue schema := by
  have hform : SchemaForm schema.toValue _ := .schema (.object rfl)
    (h.documents.entriesForm fun e he key => Document.form key (h.documentFields e he))
    (.object rfl) (h.objects.entriesForm fun e he key => Definition.form key (h.objectFields e he))
  rwa [h.documents.merge_eq, h.objects.merge_eq] at hform

/-- **Loading undoes writing.** What is loaded from JSON proper is well formed, if definitions are
named by texts. A well-formed schema, with nodes nested as deep as one likes, is what its JSON form is
loaded as, and it is equal to it in all parts and in their order. So writing what was loaded and
loading it again changes nothing any more. -/
theorem Schema.ofValue_toValue_roundTrip :
    (∀ raw schema, raw.WellKeyed → NamedByTexts raw → Schema.ofValue raw = .ok schema →
      schema.WellFormed) ∧
    (∀ schema : Schema, schema.WellFormed → Schema.ofValue schema.toValue = .ok schema) ∧
    (∀ raw schema, raw.WellKeyed → NamedByTexts raw → Schema.ofValue raw = .ok schema →
      (Schema.ofValue schema.toValue).map Schema.toValue = .ok schema.toValue) := by
  have hload : ∀ raw schema, raw.WellKeyed → NamedByTexts raw → Schema.ofValue raw = .ok schema →
      schema.WellFormed :=
    fun raw schema hraw hnames h => (Schema.ofValue_eq_ok_iff.mp h).wellFormed hraw hnames
  have hwrite : ∀ schema : Schema, schema.WellFormed →
      Schema.ofValue schema.toValue = .ok schema :=
    fun schema h => Schema.ofValue_eq_ok_iff.mpr h.form
  refine ⟨hload, hwrite, ?_⟩
  intro raw schema hraw hnames h
  rw [hwrite schema (hload raw schema hraw hnames h)]
  rfl

/-! ### A schema of places -/

/-- A document entered under another name than its own, with a list of records that hold a field of a
kind without a rule. -/
def placesValue : Value :=
  .obj [("documentDefMap", .obj [("post", .obj [("name", .str "Post"), ("fieldDefs", .arr [
    .obj [("of", .obj [("type", .str "inline_object"), ("fieldDefs", .arr [
        .obj [("name", .str "at"), ("type", .str "geo"), ("zoom", .int 3), ("area", .null)]])]),
      ("required", .int 1), ("name", .str "places"), ("type", .str "list")]])])])]

/-- The schema of `placesValue`. -/
def placesSchema : Schema where
  documents := [(.str "Post",
    ⟨⟨.str "Post", .str "", .null, [⟨.str "places", .bool true, .null, .null,
      .list (some (.inlineObject [⟨.str "at", .bool false, .null, .null,
        .unknown (.str "geo") [("zoom", .int 3), ("area", .null)]⟩]))⟩]⟩, [], .null⟩)]
  objects := []

theorem wellKeyed_placesValue : placesValue.WellKeyed := by
  simp [placesValue, Value.WellKeyed, WellKeyedMembers, WellKeyedItems]

theorem namedByTexts_placesValue : NamedByTexts placesValue := by
  rintro _ ⟨⟩ map hmap entries hentries e he
  simp only [List.mem_cons, List.not_mem_nil, or_false] at hmap
  rcases hmap with rfl | rfl
  · cases hentries
    rw [List.mem_singleton.mp he]
    exact ⟨"Post", rfl⟩
  · cases hentries
    cases he

theorem ofValue_placesValue : Schema.ofValue placesValue = .ok placesSchema := by
  have hat : FieldForm
      (.obj [("name", .str "at"), ("type", .str "geo"), ("zoom", .int 3), ("area", .null)])
      ⟨.str "at", .bool false, .null, .null, .unknown (.str "geo") [("zoom", .int 3), ("area", .null)]⟩ :=
    .field rfl rfl (.unknown rfl rfl)
  apply Schema.ofValue_eq_ok_iff.mpr
  apply @SchemaForm.schema _ _ [] (placesSchema.documents.map (·.2)) []
  · exact .object rfl
  · refine .cons ⟨.document (.list rfl) (.cons (.field rfl rfl ?_) .nil) (.missing rfl) .nil, rfl⟩ .nil
    exact .list rfl (.item rfl (.inlineObject (.list rfl) (.cons hat .nil)))
  · exact .missing rfl
  · exact .nil

theorem placesSchema_roundTrip :
    Schema.ofValue placesValue = .ok placesSchema ∧ placesSchema.WellFormed ∧
      Schema.ofValue placesSchema.toValue = .ok placesSchema ∧
      (Schema.ofValue placesSchema.toValue).map Schema.toValue = .ok placesSchema.toValue := by
  obtain ⟨hload, hwrite, hagain⟩ := Schema.ofValue_toValue_roundTrip
  have hwf : placesSchema.WellFormed :=
    hload placesValue placesSchema wellKeyed_placesValue namedByTexts_placesValue
      ofValue_placesValue
  exact ⟨ofValue_placesValue, hwf, hwrite placesSchema hwf,
    hagain placesValue placesSchema wellKeyed_placesValue namedByTexts_placesValue
      ofValue_placesValue⟩

end ContentTypes
