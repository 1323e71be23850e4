import ContentTypes.Proofs.Schema.Alike
import ContentTypes.Proofs.Schema.Artifact
import ContentTypes.Proofs.Schema.Within

/-!
# Which schemas are loaded again

A schema can be written whatever is in it, but not everything that is written can be loaded: a list without
an item is written with null in its place, and the loader asks for an object there. `FieldType.Reloads` says
what of a field matters, and `Schema.exists_ofValue_toValue_iff` that nothing else does;
`Schema.exists_ofBytes_iff` says the same of the file that a schema is written to.
-/

set_option autoImplicit false

namespace ContentTypes

/-! ## What the kinds ask for -/

/-- What the kind of a field asks for among the members of its node. -/
structure FieldRule (kind : Value) (members : Members) : Prop where
  inlineObject : kind = .str "inline_object" →
    ∃ raws, MemberItems members "fieldDefs" raws ∧ IsFields raws
  enumeration : kind = .str "enum" → ∃ options, MemberItems members "options" options
  list : kind = .str "list" → ∃ raw, members.lookup "of" = some raw ∧ IsItem raw
  polymorphicList : kind = .str "polymorphic_list" → ∃ raws, MemberItems members "of" raws ∧ IsItems raws

/-- What the kind of a list item asks for among the members of its node. -/
structure ItemRule (kind : Value) (members : Members) : Prop where
  inlineObject : kind = .str "inline_object" →
    ∃ raws, MemberItems members "fieldDefs" raws ∧ IsFields raws
  enumeration : kind = .str "enum" → ∃ options, MemberItems members "options" options

theorem fieldRule_of_ne {kind : Value} {members : Members}
    (h : ∀ s ∈ ["inline_object", "enum", "list", "polymorphic_list"], kind ≠ .str s) :
    FieldRule kind members :=
  ⟨fun heq => absurd heq (h _ (by decide)), fun heq => absurd heq (h _ (by decide)),
    fun heq => absurd heq (h _ (by decide)), fun heq => absurd heq (h _ (by decide))⟩

theorem itemRule_of_ne {kind : Value} {members : Members}
    (h : ∀ s ∈ ["inline_object", "enum"], kind ≠ .str s) : ItemRule kind members :=
  ⟨fun heq => absurd heq (h _ (by decide)), fun heq => absurd heq (h _ (by decide))⟩

/-- A node is a field if it has a name and a kind, and what the kind asks for. -/
theorem isField_iff {members : Members} :
    IsField (.obj members) ↔ (∃ name, members.lookup "name" = some name) ∧
      ∃ kind, members.lookup "type" = some kind ∧ kind.isScalar = true ∧ FieldRule kind members := by
  constructor
  · rintro (⟨hname, hkind, hraws, hfields⟩ | ⟨hname, hkind, hoptions⟩ | ⟨hname, hkind, hof, hitem⟩ |
      ⟨hname, hkind, hraws, hitems⟩ | ⟨hname, hkind, hscalar, hother⟩)
    · exact ⟨⟨_, hname⟩, _, hkind, rfl, fun _ => ⟨_, hraws, hfields⟩, by simp, by simp, by simp⟩
    · exact ⟨⟨_, hname⟩, _, hkind, rfl, by simp, fun _ => ⟨_, hoptions⟩, by simp, by simp⟩
    · exact ⟨⟨_, hname⟩, _, hkind, rfl, by simp, by simp, fun _ => ⟨_, hof, hitem⟩, by simp⟩
    · exact ⟨⟨_, hname⟩, _, hkind, rfl, by simp, by simp, by simp, fun _ => ⟨_, hraws, hitems⟩⟩
    · exact ⟨⟨_, hname⟩, _, hkind, hscalar, fieldRule_of_ne hother⟩
  · rintro ⟨⟨name, hname⟩, kind, hkind, hscalar, hrule⟩
    -- one after the other the kinds that ask for something are taken out
    by_cases hobject : kind = .str "inline_object"
    · obtain ⟨raws, hraws, hfields⟩ := hrule.inlineObject hobject
      exact .inlineObject hname (hobject ▸ hkind) hraws hfields
    by_cases henum : kind = .str "enum"
    · obtain ⟨options, hoptions⟩ := hrule.enumeration henum
      exact .enumeration hname (henum ▸ hkind) hoptions
    by_cases hlist : kind = .str "list"
    · obtain ⟨raw, hof, hitem⟩ := hrule.list hlist
      exact .list hname (hlist ▸ hkind) hof hitem
    by_cases hpolymorphic : kind = .str "polymorphic_list"
    · obtain ⟨raws, hraws, hitems⟩ := hrule.polymorphicList hpolymorphic
      exact .polymorphicList hname (hpolymorphic ▸ hkind) hraws hitems
    · exact .other hname hkind hscalar (by simp [hobject, henum, hlist, hpolymorphic])

/-- A node is a list item if it has a kind, and what the kind asks for. -/
theorem isItem_iff {members : Members} :
    IsItem (.obj members) ↔
      ∃ kind, members.lookup "type" = some kind ∧ kind.isScalar = true ∧ ItemRule kind members := by
  constructor
  · rintro (⟨hkind, hraws, hfields⟩ | ⟨hkind, hoptions⟩ | ⟨hkind, hscalar, hother⟩)
    · exact ⟨_, hkind, rfl, fun _ => ⟨_, hraws, hfields⟩, by simp⟩
    · exact ⟨_, hkind, rfl, by simp, fun _ => ⟨_, hoptions⟩⟩
    · exact ⟨_, hkind, hscalar, itemRule_of_ne hother⟩
  · rintro ⟨kind, hkind, hscalar, hrule⟩
    by_cases hobject : kind = .str "inline_object"
    · obtain ⟨raws, hraws, hfields⟩ := hrule.inlineObject hobject
      exact .inlineObject (hobject ▸ hkind) hraws hfields
    by_cases henum : kind = .str "enum"
    · obtain ⟨options, hoptions⟩ := hrule.enumeration henum
      exact .enumeration (henum ▸ hkind) hoptions
    · exact .other hkind hscalar (by simp [hobject, henum])

theorem isFields_cons_iff {raw : Value} {raws : List Value} :
    IsFields (raw :: raws) ↔ IsField raw ∧ IsFields raws := by
  constructor
  · rintro (_ | ⟨hfield, hfields⟩)
    exact ⟨hfield, hfields⟩
  · rintro ⟨hfield, hfields⟩
    exact .cons hfield hfields

theorem isItems_cons_iff {raw : Value} {raws : List Value} :
    IsItems (raw :: raws) ↔ IsItem raw ∧ IsItems raws := by
  constructor
  · rintro (_ | ⟨hitem, hitems⟩)
    exact ⟨hitem, hitems⟩
  · rintro ⟨hitem, hitems⟩
    exact .cons hitem hitems

/-! ## What is written for a field -/

/-- Whether the members without a rule of a field, and of the items that it lists, are apart from those that
it has anyway. -/
def FieldType.ExtrasApart (type : FieldType) : Prop :=
  type.ExtraApart ∧ ∀ item ∈ type.items, item.ExtraApart

/-- Whether a field is written as its kind asks for: a list has its item, and a kind that the schema has as
one without a rule is a scalar, and if it has a rule after all, has the members for it. -/
def FieldType.KindReloads : FieldType → Prop
  | .list none => False
  | .unknown kind extra => kind.isScalar = true ∧ FieldRule kind extra
  | _ => True

/-- Whether a list item is written as its kind asks for. -/
def ItemType.KindReloads : ItemType → Prop
  | .unknown kind extra => kind.isScalar = true ∧ ItemRule kind extra
  | _ => True

/-- Whether a field, and the items that it lists, are written as their kinds ask for. -/
def FieldType.Reloads (type : FieldType) : Prop :=
  type.KindReloads ∧ ∀ item ∈ type.items, item.KindReloads

/-- What the kind of a field asks for is not among the members of every field. -/
theorem FieldRule.of_lookup_eq {kind : Value} {members members' : Members}
    (h : ∀ key ∉ commonMembers, members.lookup key = members'.lookup key) (hrule : FieldRule kind members) :
    FieldRule kind members' := by
  refine ⟨fun hkind => ?_, fun hkind => ?_, fun hkind => ?_, fun hkind => ?_⟩
  · obtain ⟨raws, hraws, hfields⟩ := hrule.inlineObject hkind
    exact ⟨raws, hraws.of_lookup_eq (h _ (by decide)).symm, hfields⟩
  · obtain ⟨options, hoptions⟩ := hrule.enumeration hkind
    exact ⟨options, hoptions.of_lookup_eq (h _ (by decide)).symm⟩
  · obtain ⟨raw, hof, hitem⟩ := hrule.list hkind
    exact ⟨raw, h "of" (by decide) ▸ hof, hitem⟩
  · obtain ⟨raws, hraws, hitems⟩ := hrule.polymorphicList hkind
    exact ⟨raws, hraws.of_lookup_eq (h _ (by decide)).symm, hitems⟩

/-- What the kind of a list item asks for is not its kind. -/
theorem ItemRule.of_lookup_eq {kind : Value} {members members' : Members}
    (h : ∀ key ≠ "type", members.lookup key = members'.lookup key) (hrule : ItemRule kind members) :
    ItemRule kind members' := by
  refine ⟨fun hkind => ?_, fun hkind => ?_⟩
  · obtain ⟨raws, hraws, hfields⟩ := hrule.inlineObject hkind
    exact ⟨raws, hraws.of_lookup_eq (h _ (by decide)).symm, hfields⟩
  · obtain ⟨options, hoptions⟩ := hrule.enumeration hkind
    exact ⟨options, hoptions.of_lookup_eq (h _ (by decide)).symm⟩

/-- A field that is written is a field again if its kind is a scalar and has what it asks for. -/
theorem isField_fieldToValue_iff (field : FieldOf FieldType) (h : field.type.ExtraApart) :
    IsField (fieldToValue field) ↔
      field.type.kind.isScalar = true ∧ FieldRule field.type.kind (ownMembers field.type) := by
  obtain ⟨name, required, description, default, type⟩ := field
  have hlookup : ∀ key ∉ commonMembers, (fieldHead name required description default type.kind ++
      ownMembers type).lookup key = (ownMembers type).lookup key := fun _ => lookup_fieldHead_append
  rw [fieldToValue, fieldMembers_eq_append h, isField_iff]
  constructor
  · rintro ⟨-, kind, hkind, hscalar, hrule⟩
    rw [lookup_type_fieldHead_append] at hkind
    cases hkind
    exact ⟨hscalar, hrule.of_lookup_eq hlookup⟩
  · rintro ⟨hscalar, hrule⟩
    exact ⟨⟨_, lookup_name_fieldHead_append⟩, _, lookup_type_fieldHead_append, hscalar,
      hrule.of_lookup_eq fun key hkey => (hlookup key hkey).symm⟩

/-- The kinds of fields that are more than a scalar ask for one member each. -/
theorem fieldRule_inlineObject_iff {raws : List Value} :
    FieldRule (.str "inline_object") [("fieldDefs", .arr raws)] ↔ IsFields raws := by
  constructor
  · intro h
    obtain ⟨raws', hraws, hfields⟩ := h.inlineObject rfl
    rwa [hraws.eq_of_lookup rfl] at hfields
  · intro h
    exact ⟨fun _ => ⟨raws, .list rfl, h⟩, by simp, by simp, by simp⟩

theorem fieldRule_enumeration (options : List Value) :
    FieldRule (.str "enum") [("options", .arr options)] :=
  ⟨by simp, fun _ => ⟨options, .list rfl⟩, by simp, by simp⟩

theorem fieldRule_list_iff {raw : Value} : FieldRule (.str "list") [("of", raw)] ↔ IsItem raw := by
  constructor
  · intro h
    obtain ⟨raw', hof, hitem⟩ := h.list rfl
    cases hof
    exact hitem
  · intro h
    exact ⟨by simp, by simp, fun _ => ⟨raw, rfl, h⟩, by simp⟩

theorem fieldRule_polymorphicList_iff {raws : List Value} :
    FieldRule (.str "polymorphic_list") [("of", .arr raws)] ↔ IsItems raws := by
  constructor
  · intro h
    obtain ⟨raws', hraws, hitems⟩ := h.polymorphicList rfl
    rwa [hraws.eq_of_lookup rfl] at hitems
  · intro h
    exact ⟨by simp, by simp, by simp, fun _ => ⟨raws, .list rfl, h⟩⟩

/-- An item that is written is an item again if its kind is a scalar and has what it asks for. -/
theorem isItem_cons_iff {kind : Value} {own : Members} :
    IsItem (.obj (("type", kind) :: own)) ↔ kind.isScalar = true ∧ ItemRule kind own := by
  have hlookup : ∀ key ≠ "type", List.lookup key (("type", kind) :: own) = own.lookup key := by
    intro key hkey
    rw [List.lookup_cons, beq_eq_false_iff_ne.mpr hkey]
  rw [isItem_iff]
  constructor
  · rintro ⟨_, hkind, hscalar, hrule⟩
    cases hkind
    exact ⟨hscalar, hrule.of_lookup_eq hlookup⟩
  · rintro ⟨hscalar, hrule⟩
    exact ⟨kind, rfl, hscalar, hrule.of_lookup_eq fun key hkey => (hlookup key hkey).symm⟩

theorem itemRule_inlineObject_iff {raws : List Value} :
    ItemRule (.str "inline_object") [("fieldDefs", .arr raws)] ↔ IsFields raws := by
  constructor
  · intro h
    obtain ⟨raws', hraws, hfields⟩ := h.inlineObject rfl
    rwa [hraws.eq_of_lookup rfl] at hfields
  · intro h
    exact ⟨fun _ => ⟨raws, .list rfl, h⟩, by simp⟩

theorem itemRule_enumeration (options : List Value) :
    ItemRule (.str "enum") [("options", .arr options)] :=
  ⟨by simp, fun _ => ⟨options, .list rfl⟩⟩

theorem not_isItem_null : ¬IsItem .null := nofun

-- The recursion is the one by which fields are written. What is asked of the fields below is asked at every
-- depth on both sides, so that each constructor needs its own members only.
mutual

/-- What a field has besides the members of every field is what its kind asks for, if it is so at every
depth. -/
theorem fieldRule_ownMembers_iff : ∀ type : FieldType, type.ExtrasApart →
    (∀ f, Within f type.fields → f.type.ExtrasApart) →
    (type.kind.isScalar = true ∧ FieldRule type.kind (ownMembers type) ↔
      type.Reloads ∧ ∀ f, Within f type.fields → f.type.Reloads)
  | .boolean, _, _ | .string, _, _ | .date, _, _ | .image, _, _ | .markdown, _, _ | .reference _, _, _
  | .object _, _, _ | .plain, _, _ =>
      iff_of_true ⟨rfl, fieldRule_of_ne (ne_str_of_ne_name (by decide))⟩
        ⟨⟨trivial, List.forall_mem_nil _⟩, forall_within_nil⟩
  | .enumeration options, _, _ =>
      iff_of_true ⟨rfl, fieldRule_enumeration options⟩
        ⟨⟨trivial, List.forall_mem_nil _⟩, forall_within_nil⟩
  -- what is written in the place of the item is null, which is no item
  | .list none, _, _ =>
      iff_of_false (fun h => not_isItem_null (fieldRule_list_iff.mp h.2)) fun h => h.1.1
  | .unknown _ _, _, _ => (and_iff_left ⟨List.forall_mem_nil _, forall_within_nil⟩).symm.trans and_assoc.symm
  | .inlineObject fields, _, hfields => by
      refine (and_iff_right rfl).trans (fieldRule_inlineObject_iff.trans ?_)
      rw [isFields_toValue_iff fields hfields]
      exact (and_iff_right ⟨trivial, List.forall_mem_nil _⟩).symm
  | .list (some item), h, hfields => by
      have hbelow : (FieldType.list (some item)).fields = item.fields := List.flatMap_singleton ..
      rw [hbelow] at hfields ⊢
      have hitem := h.2 item (List.mem_singleton_self item)
      refine (and_iff_right rfl).trans (fieldRule_list_iff.trans ?_)
      rw [isItem_toValue_iff item hitem hfields]
      simp [FieldType.Reloads, FieldType.KindReloads, FieldType.items]
  | .polymorphicList items, h, hfields => by
      refine (and_iff_right rfl).trans (fieldRule_polymorphicList_iff.trans ?_)
      rw [isItems_toValue_iff items h.2 hfields]
      exact and_congr_left' (and_iff_right trivial).symm

/-- The form of fields is one of fields exactly if at every depth the fields are written as their kinds
ask for. -/
theorem isFields_toValue_iff : ∀ fields : List (FieldOf FieldType),
    (∀ f, Within f fields → f.type.ExtrasApart) →
    (IsFields (fieldsToValues fields) ↔ ∀ f, Within f fields → f.type.Reloads)
  | [], _ => iff_of_true .nil forall_within_nil
  | ⟨name, required, description, default, type⟩ :: fields, h => by
      obtain ⟨⟨hfield, hbelow⟩, hrest⟩ := forall_within_cons.mp h
      have hhead := isField_fieldToValue_iff ⟨name, required, description, default, type⟩ hfield.1
      rw [fieldRule_ownMembers_iff type hfield hbelow] at hhead
      rw [fieldsToValues, isFields_cons_iff, hhead, isFields_toValue_iff fields hrest, forall_within_cons]

theorem isItem_toValue_iff : ∀ item : ItemType, item.ExtraApart →
    (∀ f, Within f item.fields → f.type.ExtrasApart) →
    (IsItem (itemToValue item) ↔ item.KindReloads ∧ ∀ f, Within f item.fields → f.type.Reloads)
  | .boolean, _, _ | .string, _, _ | .object _, _, _ | .reference _, _, _ | .plain, _, _ =>
      iff_of_true (isItem_cons_iff.mpr ⟨rfl, itemRule_of_ne (ne_str_of_ne_name (by decide))⟩)
        ⟨trivial, forall_within_nil⟩
  | .enumeration options, _, _ =>
      iff_of_true (isItem_cons_iff.mpr ⟨rfl, itemRule_enumeration options⟩) ⟨trivial, forall_within_nil⟩
  | .unknown kind extra, h, _ => by
      rw [itemToValue, setAll_of_isExtra h (by simp)]
      exact isItem_cons_iff.trans (and_iff_left forall_within_nil).symm
  | .inlineObject fields, _, hfields => by
      refine isItem_cons_iff.trans ((and_iff_right rfl).trans (itemRule_inlineObject_iff.trans ?_))
      rw [isFields_toValue_iff fields hfields]
      exact (and_iff_right trivial).symm

theorem isItems_toValue_iff : ∀ items : List ItemType, (∀ item ∈ items, item.ExtraApart) →
    (∀ f, Within f (items.flatMap ItemType.fields) → f.type.ExtrasApart) →
    (IsItems (itemsToValues items) ↔ (∀ item ∈ items, item.KindReloads) ∧
      ∀ f, Within f (items.flatMap ItemType.fields) → f.type.Reloads)
  | [], _, _ => iff_of_true .nil ⟨List.forall_mem_nil _, forall_within_nil⟩
  | item :: items, h, hfields => by
      obtain ⟨hitem, hitems⟩ := List.forall_mem_cons.mp h
      rw [List.flatMap_cons] at hfields ⊢
      obtain ⟨hbelow, hrest⟩ := forall_within_append.mp hfields
      rw [itemsToValues, isItems_cons_iff, isItem_toValue_iff item hitem hbelow,
        isItems_toValue_iff items hitems hrest, List.forall_mem_cons, forall_within_append]
      exact and_and_and_comm

end

/-! ## What is written for a definition -/

theorem ComputedField.isComputed_toValue (c : ComputedField) : IsComputed c.toValue :=
  exists_computedForm_iff.mp ⟨c, c.form⟩

/-- An object that is written has its name and its fields among its members. -/
theorem Definition.exists_toValue_eq (d : Definition) :
    ∃ members, d.toValue = .obj members ∧ members.lookup "name" = some d.name ∧
      members.lookup "fieldDefs" = some (.arr (fieldsToValues d.fields)) := by
  have hdescription := lookup_optionalMember_ne (show "fieldDefs" ≠ "description" by decide) d.description
  exact ⟨_, rfl, rfl, by simp [List.lookup_append, List.lookup_cons, hdescription]⟩

/-- A document that is written has its computed fields too. -/
theorem Document.exists_toValue_eq (d : Document) :
    ∃ members, d.toValue = .obj members ∧ members.lookup "name" = some d.name ∧
      members.lookup "fieldDefs" = some (.arr (fieldsToValues d.fields)) ∧
      members.lookup "computedFields" = some (.arr (d.computed.map ComputedField.toValue)) := by
  have hnone : ∀ key name v, key ≠ name → (optionalMember name v).lookup key = none :=
    fun key name v hne => lookup_optionalMember_ne hne v
  exact ⟨_, rfl, rfl, by simp [List.lookup_append, List.lookup_cons, hnone],
    by simp [List.lookup_append, List.lookup_cons, hnone]⟩

theorem Definition.isObject_toValue_iff {d : Definition} (key : String) (hname : d.name.isScalar = true)
    (h : ∀ f, Within f d.fields → f.type.ExtrasApart) :
    IsObject key d.toValue ↔ ∀ f, Within f d.fields → f.type.Reloads := by
  obtain ⟨members, heq, hlookup, hfields⟩ := d.exists_toValue_eq
  rw [heq, ← isFields_toValue_iff d.fields h]
  constructor
  · rintro ⟨hraws, hraw, -⟩
    rwa [hraws.eq_of_lookup hfields] at hraw
  · intro hraw
    exact .object (.list hfields) hraw (by rwa [nameOfEntry, hlookup])

theorem Document.isDocument_toValue_iff {d : Document} (key : String) (hname : d.name.isScalar = true)
    (h : ∀ f, Within f d.fields → f.type.ExtrasApart) :
    IsDocument key d.toValue ↔ ∀ f, Within f d.fields → f.type.Reloads := by
  obtain ⟨members, heq, hlookup, hfields, hcomputed⟩ := d.exists_toValue_eq
  rw [heq, ← isFields_toValue_iff d.fields h]
  constructor
  · rintro ⟨hraws, hraw, -, -, -⟩
    rwa [hraws.eq_of_lookup hfields] at hraw
  · intro hraw
    refine .document (.list hfields) hraw (.list hcomputed) ?_ (by rwa [nameOfEntry, hlookup])
    exact List.forall_mem_map.mpr fun c _ => c.isComputed_toValue

/-! ## What is written for a schema -/

/-- Whether a schema keeps its definitions under their names, which are texts, and the members of kinds
without a rule apart from those that a node has anyway. -/
structure Schema.Keyed (schema : Schema) : Prop where
  documents : KeyedByName (fun d : Document => d.name) schema.documents
  objects : KeyedByName (fun d : Definition => d.name) schema.objects
  documentExtras : ∀ e ∈ schema.documents, ∀ f, Within f e.2.fields → f.type.ExtrasApart
  objectExtras : ∀ e ∈ schema.objects, ∀ f, Within f e.2.fields → f.type.ExtrasApart

/-- Whether all fields of a schema, at any depth, are written as their kinds ask for. -/
def Schema.Reloads (schema : Schema) : Prop :=
  (∀ e ∈ schema.documents, ∀ f, Within f e.2.fields → f.type.Reloads) ∧
    ∀ e ∈ schema.objects, ∀ f, Within f e.2.fields → f.type.Reloads

theorem KeyedByName.isScalar_name {α : Type} {nameOf : α → Value} {map : List (Value × α)}
    (h : KeyedByName nameOf map) : ∀ e ∈ map, (nameOf e.2).isScalar = true := by
  intro e he
  obtain ⟨name, -, hname⟩ := h.text e he
  rw [hname]
  rfl

theorem isSchema_toValue_iff {schema : Schema} (h : schema.Keyed) :
    IsSchema schema.toValue ↔ schema.Reloads := by
  rw [Schema.toValue, isSchema_maps_iff, List.forall_mem_map, List.forall_mem_map]
  refine and_congr (forall₂_congr fun e he => ?_) (forall₂_congr fun e he => ?_)
  · exact e.2.isDocument_toValue_iff _ (h.documents.isScalar_name e he) (h.documentExtras e he)
  · exact e.2.isObject_toValue_iff _ (h.objects.isScalar_name e he) (h.objectExtras e he)

/-- What is written of a schema is accepted exactly if its fields are written as their kinds ask for. -/
theorem Schema.exists_ofValue_toValue_iff {schema : Schema} (h : schema.Keyed) :
    (∃ schema', Schema.ofValue schema.toValue = .ok schema') ↔ schema.Reloads :=
  isSchema_iff.symm.trans (isSchema_toValue_iff h)

/-- The same of what is read from its file, in which a number may stand as another one. -/
theorem Schema.exists_ofBytes_iff {schema : Schema} (h : schema.Keyed)
    (hkeyed : schema.toValue.WellKeyed) (hcoded : schema.toValue.WellCoded) :
    (∃ schema', Schema.ofBytes (Text.bytes schema.toJson) = .ok schema') ↔ schema.Reloads := by
  have hbytes : Schema.ofBytes (Text.bytes schema.toJson) =
      (Schema.ofValue (Json.reread schema.toValue)).mapError FileDefect.notSchema := by
    rw [Schema.ofBytes, Schema.valueOfBytes_toJson hkeyed hcoded]
    rfl
  rw [hbytes, ← isSchema_toValue_iff h, ← isSchema_reread_toValue_iff, isSchema_iff]
  cases Schema.ofValue (Json.reread schema.toValue) <;> simp [Except.mapError]

end ContentTypes
