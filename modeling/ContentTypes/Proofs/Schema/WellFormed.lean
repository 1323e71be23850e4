import ContentTypes.Proofs.Schema.Form
import ContentTypes.Proofs.Value

/-!
# Well-formed schemas

A schema is well formed if its maps are keyed by the names of their definitions, which are texts, and
no node of it is one that has no form: a list without an item, a field without a kind, or a kind
without a rule whose members would be taken for those that every field has. `WellKeyed` values are
those of JSON proper, where an object has each member once.

What is loaded from a `WellKeyed` value whose definitions are named by texts is well formed
(`SchemaForm.wellFormed`).
-/

set_option autoImplicit false

namespace ContentTypes

/-! ## Members -/

theorem MemberItems.wellKeyed {members : Members} {name : String} {items : List Value}
    (hitems : MemberItems members name items) (h : (Value.obj members).WellKeyed) :
    WellKeyedItems items := by
  cases hitems with
  | missing => trivial
  | list hl => exact h.of_lookup hl

theorem MapEntries.wellKeyed {members : Members} {name : String} {entries : Members}
    (hentries : MapEntries members name entries) (h : (Value.obj members).WellKeyed) :
    ∀ e ∈ entries, e.2.WellKeyed := by
  cases hentries with
  | missing => simp
  | no => simp
  | object hl => exact wellKeyedMembers_iff.mp (h.of_lookup hl).2

/-! ## Fields and items -/

/-- Whether members are those of a kind without a rule: each is there once, and none is among the
members that the node has anyway. -/
def IsExtra (known : List String) (extra : Members) : Prop :=
  (extra.map (·.1)).Nodup ∧ ∀ m ∈ extra, m.1 ∉ known

/-- Whether the members of a field without a rule are apart from those that every field has. -/
def FieldType.ExtraApart : FieldType → Prop
  | .unknown _ extra => IsExtra commonMembers extra
  | _ => True

/-- Whether the members of an item without a rule are apart from its kind. -/
def ItemType.ExtraApart : ItemType → Prop
  | .unknown _ extra => IsExtra ["type"] extra
  | _ => True

mutual

/-- Whether the type of a field is one that a schema may have. -/
def FieldType.WellFormed : FieldType → Prop
  | .inlineObject fields => FieldsWellFormed fields
  | .list none => False
  | .list (some item) => item.WellFormed
  | .polymorphicList items => ItemsWellFormed items
  | .unknown kind extra =>
      kind.isScalar = true ∧ FieldTag.ofValue? kind = none ∧ IsExtra commonMembers extra
  | .plain => False
  | .boolean | .string | .date | .image | .markdown | .reference _ | .object _ | .enumeration _ =>
      True

/-- Whether a field is one that a schema may have. -/
def FieldWellFormed : FieldOf FieldType → Prop
  | ⟨_, required, _, _, type⟩ => (∃ b, required = .bool b) ∧ type.WellFormed

/-- Whether all fields are ones that a schema may have. -/
def FieldsWellFormed : List (FieldOf FieldType) → Prop
  | [] => True
  | field :: rest => FieldWellFormed field ∧ FieldsWellFormed rest

/-- Whether an item of a list is one that a schema may have. -/
def ItemType.WellFormed : ItemType → Prop
  | .inlineObject fields => FieldsWellFormed fields
  | .unknown kind extra =>
      kind.isScalar = true ∧ ItemTag.ofValue? kind = none ∧ IsExtra ["type"] extra
  | .plain => False
  | .boolean | .string | .object _ | .enumeration _ | .reference _ => True

/-- Whether all items of a list are ones that a schema may have. -/
def ItemsWellFormed : List ItemType → Prop
  | [] => True
  | item :: rest => item.WellFormed ∧ ItemsWellFormed rest

end

theorem FieldType.WellFormed.extraApart {type : FieldType} (h : type.WellFormed) : type.ExtraApart := by
  cases type with
  | unknown kind extra => exact h.2.2
  | _ => trivial

/-- The members of an object that are left when some names are taken out. -/
theorem isExtra_filter {members : Members} {known : List String} {keep : String × Value → Bool}
    (h : (members.map (·.1)).Nodup) (hkeep : ∀ m ∈ members, keep m = true → m.1 ∉ known) :
    IsExtra known (members.filter keep) := by
  refine ⟨(List.filter_sublist.map _).nodup h, ?_⟩
  intro m hm
  obtain ⟨hm, hk⟩ := List.mem_filter.mp hm
  exact hkeep m hm hk

mutual

theorem FieldForm.wellFormed {raw : Value} {field : Field} (hraw : raw.WellKeyed) :
    FieldForm raw field → FieldWellFormed field
  | .field _ _ htype => ⟨⟨_, rfl⟩, htype.wellFormed hraw⟩

theorem FieldTypeForm.wellFormed {members : Members} {kind : Value} {type : FieldType}
    (hraw : (Value.obj members).WellKeyed) : FieldTypeForm members kind type → type.WellFormed
  | .unknown hscalar hkind => by
      refine ⟨hscalar, hkind, isExtra_filter hraw.1 ?_⟩
      intro m _ hm
      simpa using hm
  | .boolean | .string | .date | .image | .markdown | .reference | .object | .enumeration _ =>
      trivial
  | .inlineObject hraws hfields => hfields.wellFormed (hraws.wellKeyed hraw)
  | .list hof hitem => hitem.wellFormed (hraw.of_lookup hof)
  | .polymorphicList hraws hitems => hitems.wellFormed (hraws.wellKeyed hraw)

theorem FieldsForm.wellFormed {raws : List Value} {fields : List Field}
    (hraws : WellKeyedItems raws) : FieldsForm raws fields → FieldsWellFormed fields
  | .nil => trivial
  | .cons hfield hfields => ⟨hfield.wellFormed hraws.1, hfields.wellFormed hraws.2⟩

theorem ItemForm.wellFormed {raw : Value} {item : ItemType} (hraw : raw.WellKeyed) :
    ItemForm raw item → item.WellFormed
  | .item _ htype => htype.wellFormed hraw

theorem ItemTypeForm.wellFormed {members : Members} {kind : Value} {type : ItemType}
    (hraw : (Value.obj members).WellKeyed) : ItemTypeForm members kind type → type.WellFormed
  | .unknown hscalar hkind => by
      refine ⟨hscalar, hkind, isExtra_filter hraw.1 ?_⟩
      intro m _ hm
      simpa using hm
  | .boolean | .string | .object | .enumeration _ | .reference => trivial
  | .inlineObject hraws hfields => hfields.wellFormed (hraws.wellKeyed hraw)

theorem ItemsForm.wellFormed {raws : List Value} {items : List ItemType}
    (hraws : WellKeyedItems raws) : ItemsForm raws items → ItemsWellFormed items
  | .nil => trivial
  | .cons hitem hitems => ⟨hitem.wellFormed hraws.1, hitems.wellFormed hraws.2⟩

end

/-! ## Maps of definitions -/

/-- Whether definitions are kept under their names, which are texts, each name once. -/
structure KeyedByName {α : Type} (nameOf : α → Value) (map : List (Value × α)) : Prop where
  nodup : (map.map (·.1)).Nodup
  text : ∀ e ∈ map, ∃ name, e.1 = .str name ∧ nameOf e.2 = .str name

/-- A schema that can be written and loaded again. -/
structure Schema.WellFormed (schema : Schema) : Prop where
  documents : KeyedByName (fun d : Document => d.name) schema.documents
  objects : KeyedByName (fun d : Definition => d.name) schema.objects
  documentFields : ∀ e ∈ schema.documents, FieldsWellFormed e.2.fields
  objectFields : ∀ e ∈ schema.objects, FieldsWellFormed e.2.fields

theorem Value.sameKey_str (s t : String) : (Value.str s).sameKey (.str t) = (s == t) := rfl

/-- Setting the definition of a text leaves definitions under their names. -/
theorem KeyedByName.upsert {α : Type} {nameOf : α → Value} {map : List (Value × α)} {d : α}
    {name : String} (h : KeyedByName nameOf map) (hd : nameOf d = .str name) :
    KeyedByName nameOf (KeyedList.upsert Value.sameKey (.str name) d map) := by
  constructor
  · -- the keys stay as they are, or the name is a new one behind them
    rcases KeyedList.keys_upsert Value.sameKey (.str name) d map with hkeys | ⟨hfresh, hkeys⟩
    · rw [hkeys]
      exact h.nodup
    · rw [hkeys]
      refine List.nodup_append.mpr ⟨h.nodup, by simp, ?_⟩
      intro key hkey key' hkey'
      obtain ⟨e, he, rfl⟩ := List.mem_map.mp hkey
      rw [List.mem_singleton.mp hkey']
      intro heq
      have := hfresh e he
      rw [heq, Value.sameKey_str] at this
      simp at this
  · intro e he
    rcases KeyedList.mem_of_mem_upsert he with he | ⟨rfl, he | he⟩
    · exact h.text e he
    · exact ⟨name, he, hd⟩
    · -- only the same text is the same key as a text
      obtain ⟨key, d'⟩ := e
      cases key with
      | str s =>
          rw [Value.sameKey_str] at he
          exact ⟨s, rfl, by rw [hd, eq_of_beq he]⟩
      | _ => simp [Value.sameKey, Value.number?] at he

/-- Definitions that are named by texts are kept under their names once they are merged. -/
theorem KeyedByName.update {α : Type} {nameOf : α → Value} {map : List (Value × α)}
    {definitions : List α} (h : KeyedByName nameOf map)
    (hd : ∀ d ∈ definitions, ∃ name, nameOf d = .str name) :
    KeyedByName nameOf (KeyedList.update Value.sameKey map (keyedBy nameOf definitions)) := by
  induction definitions generalizing map with
  | nil => exact h
  | cons d definitions ih =>
      obtain ⟨name, hname⟩ := hd d List.mem_cons_self
      show KeyedByName nameOf (KeyedList.update Value.sameKey
        (KeyedList.upsert Value.sameKey (nameOf d) d map) (keyedBy nameOf definitions))
      rw [hname]
      exact ih (h.upsert hname) fun d' hd' => hd d' (List.mem_cons_of_mem _ hd')

/-- What is in a merged map is one of the definitions. -/
theorem mem_of_mem_merge {α : Type} {nameOf : α → Value} {definitions : List α} {e : Value × α}
    (h : e ∈ KeyedList.merge Value.sameKey (keyedBy nameOf definitions)) : e.2 ∈ definitions := by
  rcases KeyedList.mem_of_mem_update h with h | ⟨c, hc, h⟩
  · cases h
  · obtain ⟨d, hd, rfl⟩ := List.mem_map.mp hc
    rw [h]
    exact hd

/-! ## Loading -/

/-- The name of the definition that an entry describes: its own, or the key it is entered under. -/
def entryName (key : String) : Value → Value
  | .obj members => (members.lookup "name").getD (.str key)
  | _ => .str key

/-- Whether all definitions of a schema in its JSON form are named by texts. -/
def NamedByTexts (raw : Value) : Prop :=
  ∀ members, raw = .obj members → ∀ map ∈ ["documentDefMap", "objectDefMap"],
    ∀ entries, entriesOf members map = .ok entries →
      ∀ e ∈ entries, ∃ name, entryName e.1 e.2 = .str name

theorem DocumentForm.name_eq {key : String} {raw : Value} {d : Document}
    (h : DocumentForm key raw d) : d.name = entryName key raw := by
  cases h
  rfl

theorem ObjectForm.name_eq {key : String} {raw : Value} {d : Definition}
    (h : ObjectForm key raw d) : d.name = entryName key raw := by
  cases h
  rfl

theorem DocumentForm.wellFormed {key : String} {raw : Value} {d : Document} (hraw : raw.WellKeyed)
    (h : DocumentForm key raw d) : FieldsWellFormed d.fields := by
  cases h with
  | document hraws hfields => exact hfields.wellFormed (hraws.wellKeyed hraw)

theorem ObjectForm.wellFormed {key : String} {raw : Value} {d : Definition} (hraw : raw.WellKeyed)
    (h : ObjectForm key raw d) : FieldsWellFormed d.fields := by
  cases h with
  | object hraws hfields => exact hfields.wellFormed (hraws.wellKeyed hraw)

/-- Each definition has the form of an entry. -/
theorem EntriesForm.exists_entry {α : Type} {form : String → Value → α → Prop} {nameOf : α → Value}
    {entries : Members} {definitions : List α} (h : EntriesForm form nameOf entries definitions) :
    ∀ d ∈ definitions, ∃ e ∈ entries, form e.1 e.2 d := by
  induction h with
  | nil => simp
  | cons hd _ ih =>
      intro d hmem
      rcases List.mem_cons.mp hmem with rfl | hmem
      · exact ⟨_, List.mem_cons_self, hd.1⟩
      · obtain ⟨e, he, hform⟩ := ih d hmem
        exact ⟨e, List.mem_cons_of_mem _ he, hform⟩

/-- What is loaded from JSON proper, with definitions named by texts, is well formed. -/
theorem SchemaForm.wellFormed {raw : Value} {schema : Schema} (hraw : raw.WellKeyed)
    (hnames : NamedByTexts raw) (h : SchemaForm raw schema) : schema.WellFormed := by
  obtain ⟨hentries, hdocuments, hentries', hobjects⟩ := h
  have hnil {α : Type} {nameOf : α → Value} : KeyedByName nameOf [] := ⟨List.nodup_nil, by simp⟩
  constructor
  · refine hnil.update ?_
    intro d hd
    obtain ⟨e, he, hform⟩ := hdocuments.exists_entry d hd
    rw [hform.name_eq]
    exact hnames _ rfl "documentDefMap" (by simp) _ (entriesOf_eq_ok_iff.mpr hentries) e he
  · refine hnil.update ?_
    intro d hd
    obtain ⟨e, he, hform⟩ := hobjects.exists_entry d hd
    rw [hform.name_eq]
    exact hnames _ rfl "objectDefMap" (by simp) _ (entriesOf_eq_ok_iff.mpr hentries') e he
  · intro e he
    obtain ⟨raw, hraw', hform⟩ := hdocuments.exists_entry _ (mem_of_mem_merge he)
    exact hform.wellFormed (hentries.wellKeyed hraw raw hraw')
  · intro e he
    obtain ⟨raw, hraw', hform⟩ := hobjects.exists_entry _ (mem_of_mem_merge he)
    exact hform.wellFormed (hentries'.wellKeyed hraw raw hraw')

end ContentTypes
