import ContentTypes.Proofs.Schema.WellFormed
import ContentTypes.Proofs.TypeScript.Shown
import ContentTypes.Proofs.Value.Reordered
import ContentTypes.TypeScript.Declaration

/-!
# Reordered fields and definitions

A value that has the form of a field, of a list item or of a definition has it in any order of members,
at any depth. What it describes then may differ, but only in values that do not show, or that are no
scalars: if all values that show are scalars, the text is the same.
-/

set_option autoImplicit false

namespace ContentTypes

/-! ## Members that are lists -/

theorem MemberItems.reordered {members members' : Members} {name : String} {items : List Value}
    (h : Reordered (.obj members) (.obj members')) (hkeys : (members.map (·.1)).Nodup)
    (hitems : MemberItems members name items) :
    ∃ items', MemberItems members' name items' ∧ ReorderedItems items items' := by
  cases hitems with
  | missing hnone => exact ⟨[], .missing (h.lookup_eq_none hkeys hnone), .nil⟩
  | list hlist =>
      obtain ⟨w, hw, h⟩ := h.exists_lookup hkeys hlist
      cases h with
      | scalar h => cases h
      | arr h => exact ⟨_, .list hw, h⟩

theorem FieldTypeForm.isScalar_kind {members : Members} {kind : Value} {type : FieldType}
    (h : FieldTypeForm members kind type) : kind.isScalar = true := by
  cases h <;> first | assumption | rfl

theorem ItemTypeForm.isScalar_kind {members : Members} {kind : Value} {type : ItemType}
    (h : ItemTypeForm members kind type) : kind.isScalar = true := by
  cases h <;> first | assumption | rfl

namespace TypeScript

/-! ## Fields and items -/

/-- Whether a value shows without members or items. -/
def ShowsScalar (v : Value) : Prop := v.isScalar = true

/-- A description that shows as a scalar is the same in front of a line. -/
theorem described_reordered {v w : Value} (h : Reordered v w) (hv : v.holds = true → ShowsScalar v)
    (line : String) : described w line = described v line := by
  by_cases hholds : v.holds = true
  · rw [h.eq_of_isScalar (hv hholds)]
  · have hholds' : ¬w.holds = true := h.holds_eq ▸ hholds
    rw [described, described, if_neg hholds, if_neg hholds']

/-- A field with a type that is written alike is written alike. -/
theorem fieldLine_reordered {members members' : Members} {name name' : Value} {type type' : FieldType}
    (h : Reordered (.obj members) (.obj members')) (hkeys : (members.map (·.1)).Nodup)
    (hname : Reordered name name') (hshows : FieldShows ShowsScalar (fieldOfMembers members name type))
    (htype : fieldExpression type' = fieldExpression type) :
    fieldLine (fieldOfMembers members' name' type') = fieldLine (fieldOfMembers members name type) := by
  obtain ⟨hscalar, hdescription, -⟩ := hshows
  have hrequired := (h.getD hkeys "required" (d := .bool false) rfl).holds_eq
  have hdescribed := described_reordered (h.getD hkeys "description" (d := .null) rfl) hdescription
  simp only [fieldLine, fieldOfMembers, memberLine, hname.eq_of_isScalar hscalar, htype, hrequired,
    hdescribed]

mutual

/-- What has the form of a field has it in any order of members, and is written alike if what shows is a
scalar. -/
theorem reordered_field {raw raw' : Value} {field : Field} (h : Reordered raw raw')
    (hraw : raw.WellKeyed) : FieldForm raw field → ∃ field', FieldForm raw' field' ∧
      (FieldShows ShowsScalar field → fieldLine field' = fieldLine field)
  | .field hname hkind htype => by
      obtain ⟨members', rfl⟩ := h.exists_obj
      obtain ⟨name', hname', hrename⟩ := h.exists_lookup hraw.1 hname
      obtain ⟨kind', hkind', hrekind⟩ := h.exists_lookup hraw.1 hkind
      rw [hrekind.eq_of_isScalar htype.isScalar_kind] at hkind'
      obtain ⟨type', htype', hexpression⟩ := reordered_fieldType h hraw htype
      exact ⟨_, .field hname' hkind' htype', fun hshows =>
        fieldLine_reordered h hraw.1 hrename hshows (hexpression hshows.2.2)⟩

theorem reordered_fieldType {members members' : Members} {kind : Value} {type : FieldType}
    (h : Reordered (.obj members) (.obj members')) (hraw : (Value.obj members).WellKeyed) :
    FieldTypeForm members kind type → ∃ type', FieldTypeForm members' kind type' ∧
      (TypeShows ShowsScalar type → fieldExpression type' = fieldExpression type)
  | .unknown hscalar hkind => ⟨_, .unknown hscalar hkind, fun _ => rfl⟩
  | .boolean => ⟨_, .boolean, fun _ => rfl⟩
  | .string => ⟨_, .string, fun _ => rfl⟩
  | .date => ⟨_, .date, fun _ => rfl⟩
  | .image => ⟨_, .image, fun _ => rfl⟩
  | .markdown => ⟨_, .markdown, fun _ => rfl⟩
  | .reference => ⟨_, .reference, fun _ => rfl⟩
  | .object => by
      refine ⟨_, .object, fun hshows => ?_⟩
      have hname := h.getD hraw.1 "objectName" (d := .str "") rfl
      rw [fieldExpression, fieldExpression, hname.eq_of_isScalar hshows]
  | .inlineObject hraws hfields => by
      obtain ⟨raws', hraws', hreordered⟩ := hraws.reordered h hraw.1
      obtain ⟨fields', hfields', hlines⟩ :=
        reordered_fields hreordered (hraws.wellKeyed hraw) hfields
      refine ⟨_, .inlineObject hraws' hfields', fun hshows => ?_⟩
      rw [fieldExpression, fieldExpression, hlines hshows]
  | .enumeration hoptions => by
      obtain ⟨options', hoptions', hreordered⟩ := hoptions.reordered h hraw.1
      refine ⟨_, .enumeration hoptions', fun hshows => ?_⟩
      rw [hreordered.eq_of_isScalar hshows]
  | .list hof hitem => by
      obtain ⟨raw', hof', hreordered⟩ := h.exists_lookup hraw.1 hof
      obtain ⟨item', hitem', hexpression⟩ := reordered_item hreordered (hraw.of_lookup hof) hitem
      refine ⟨_, .list hof' hitem', fun hshows => ?_⟩
      rw [fieldExpression, fieldExpression, hexpression hshows]
  | .polymorphicList hraws hitems => by
      obtain ⟨raws', hraws', hreordered⟩ := hraws.reordered h hraw.1
      obtain ⟨items', hitems', hexpressions⟩ :=
        reordered_items hreordered (hraws.wellKeyed hraw) hitems
      refine ⟨_, .polymorphicList hraws' hitems', fun hshows => ?_⟩
      rw [fieldExpression, fieldExpression, hexpressions hshows]

theorem reordered_fields {raws raws' : List Value} {fields : List Field}
    (h : ReorderedItems raws raws') (hraws : WellKeyedItems raws) : FieldsForm raws fields →
      ∃ fields', FieldsForm raws' fields' ∧
        (FieldsShow ShowsScalar fields → fieldLines fields' = fieldLines fields)
  | .nil => by
      cases h
      exact ⟨[], .nil, fun _ => rfl⟩
  | .cons hfield hfields => by
      cases h with
      | cons h hrest =>
          obtain ⟨field', hfield', hline⟩ := reordered_field h hraws.1 hfield
          obtain ⟨fields', hfields', hlines⟩ := reordered_fields hrest hraws.2 hfields
          refine ⟨_, .cons hfield' hfields', fun hshows => ?_⟩
          rw [fieldLines, fieldLines, hline hshows.1, hlines hshows.2]

/-- What has the form of a list item has it in any order of members, and its type is written alike if what
shows is a scalar. -/
theorem reordered_item {raw raw' : Value} {item : ItemType} (h : Reordered raw raw')
    (hraw : raw.WellKeyed) : ItemForm raw item → ∃ item', ItemForm raw' item' ∧
      (ItemShows ShowsScalar item → itemExpression item' = itemExpression item)
  | .item hkind htype => by
      obtain ⟨members', rfl⟩ := h.exists_obj
      obtain ⟨kind', hkind', hrekind⟩ := h.exists_lookup hraw.1 hkind
      rw [hrekind.eq_of_isScalar htype.isScalar_kind] at hkind'
      obtain ⟨item', htype', hexpression⟩ := reordered_itemType h hraw htype
      exact ⟨item', .item hkind' htype', hexpression⟩

theorem reordered_itemType {members members' : Members} {kind : Value} {type : ItemType}
    (h : Reordered (.obj members) (.obj members')) (hraw : (Value.obj members).WellKeyed) :
    ItemTypeForm members kind type → ∃ type', ItemTypeForm members' kind type' ∧
      (ItemShows ShowsScalar type → itemExpression type' = itemExpression type)
  | .unknown hscalar hkind => ⟨_, .unknown hscalar hkind, fun _ => rfl⟩
  | .boolean => ⟨_, .boolean, fun _ => rfl⟩
  | .string => ⟨_, .string, fun _ => rfl⟩
  | .object => by
      refine ⟨_, .object, fun hshows => ?_⟩
      have hname := h.getD hraw.1 "objectName" (d := .str "") rfl
      rw [itemExpression, itemExpression, hname.eq_of_isScalar hshows]
  | .reference => by
      refine ⟨_, .reference, fun hshows => ?_⟩
      have hname := h.getD hraw.1 "documentName" (d := .str "") rfl
      rw [itemExpression, itemExpression, hname.eq_of_isScalar hshows]
  | .enumeration hoptions => by
      obtain ⟨options', hoptions', hreordered⟩ := hoptions.reordered h hraw.1
      refine ⟨_, .enumeration hoptions', fun hshows => ?_⟩
      rw [hreordered.eq_of_isScalar hshows]
  | .inlineObject hraws hfields => by
      obtain ⟨raws', hraws', hreordered⟩ := hraws.reordered h hraw.1
      obtain ⟨fields', hfields', hlines⟩ :=
        reordered_fields hreordered (hraws.wellKeyed hraw) hfields
      refine ⟨_, .inlineObject hraws' hfields', fun hshows => ?_⟩
      rw [itemExpression, itemExpression, hlines hshows]

theorem reordered_items {raws raws' : List Value} {items : List ItemType}
    (h : ReorderedItems raws raws') (hraws : WellKeyedItems raws) : ItemsForm raws items →
      ∃ items', ItemsForm raws' items' ∧
        (ItemsShow ShowsScalar items → itemExpressions items' = itemExpressions items)
  | .nil => by
      cases h
      exact ⟨[], .nil, fun _ => rfl⟩
  | .cons hitem hitems => by
      cases h with
      | cons h hrest =>
          obtain ⟨item', hitem', hexpression⟩ := reordered_item h hraws.1 hitem
          obtain ⟨items', hitems', hexpressions⟩ := reordered_items hrest hraws.2 hitems
          refine ⟨_, .cons hitem' hitems', fun hshows => ?_⟩
          rw [itemExpressions, itemExpressions, hexpression hshows.1, hexpressions hshows.2]

end

/-! ## Definitions -/

theorem reordered_computed {raw raw' : Value} {c : ComputedField} (h : Reordered raw raw')
    (hraw : raw.WellKeyed) (hform : ComputedForm raw c) : ∃ c', ComputedForm raw' c' ∧
      (ComputedShows ShowsScalar c → computedLine c' = computedLine c) := by
  obtain ⟨hname, htype⟩ := hform
  obtain ⟨members', rfl⟩ := h.exists_obj
  obtain ⟨name', hname', hrename⟩ := h.exists_lookup hraw.1 hname
  obtain ⟨type', htype', hretype⟩ := h.exists_lookup hraw.1 htype
  refine ⟨_, .computed hname' htype', fun hshows => ?_⟩
  have hdescription := h.getD hraw.1 "description" (d := .null) rfl
  rw [computedLine, computedLine, described_reordered hdescription hshows.description,
    hrename.eq_of_isScalar hshows.name, hretype.eq_of_isScalar hshows.type]

theorem reordered_computedFields {raws raws' : List Value} {computed : List ComputedField}
    (h : ReorderedItems raws raws') (hraws : WellKeyedItems raws)
    (hforms : List.Forall₂ ComputedForm raws computed) :
    ∃ computed', List.Forall₂ ComputedForm raws' computed' ∧
      ((∀ c ∈ computed, ComputedShows ShowsScalar c) →
        computed'.map computedLine = computed.map computedLine) := by
  induction hforms generalizing raws' with
  | nil =>
      cases h
      exact ⟨[], .nil, fun _ => rfl⟩
  | cons hform _ ih =>
      cases h with
      | cons h hrest =>
          obtain ⟨c', hform', hline⟩ := reordered_computed h hraws.1 hform
          obtain ⟨computed', hforms', hlines⟩ := ih hrest hraws.2
          refine ⟨c' :: computed', .cons hform' hforms', fun hshows => ?_⟩
          rw [List.forall_mem_cons] at hshows
          rw [List.map_cons, List.map_cons, hline hshows.1, hlines hshows.2]

/-- Whether the parts of two definitions besides their fields differ in nothing but the order of
members. -/
structure ReorderedHeads (d d' : Definition) : Prop where
  name : Reordered d.name d'.name
  label : Reordered d.label d'.label
  description : Reordered d.description d'.description

theorem reorderedHeads_definitionOfParts {members members' : Members}
    (h : Reordered (.obj members) (.obj members')) (hkeys : (members.map (·.1)).Nodup) (key : String)
    (fields fields' : List Field) :
    ReorderedHeads (definitionOfParts key members fields) (definitionOfParts key members' fields') where
  name := h.getD hkeys "name" (d := .str key) rfl
  label := h.getD hkeys "label" (d := .str "") rfl
  description := h.getD hkeys "description" (d := .null) rfl

/-- The comment before a declaration is the same if what shows in it is a scalar. -/
theorem ReorderedHeads.commentLines_eq {d d' : Definition} (h : ReorderedHeads d d')
    (hshows : DefinitionShows ShowsScalar d) : commentLines d' = commentLines d := by
  unfold commentLines
  by_cases hd : d.description.holds = true
  · rw [h.description.eq_of_isScalar (hshows.description hd)]
    simp only [hd, if_true]
  · have hd' : ¬d'.description.holds = true := h.description.holds_eq ▸ hd
    simp only [if_neg hd, if_neg hd', h.label.holds_eq]
    by_cases hl : d.label.holds = true
    · rw [h.label.eq_of_isScalar (hshows.label (by simpa using hd) hl)]
    · rw [if_neg hl, if_neg hl]

theorem ReorderedHeads.declarationText_eq {d d' : Definition} (h : ReorderedHeads d d')
    (hshows : DefinitionShows ShowsScalar d) (identity members : List String) :
    declarationText d' identity members = declarationText d identity members := by
  rw [declarationText, declarationText, h.commentLines_eq hshows, h.name.eq_of_isScalar hshows.name]

/-- Whether two definitions have the same name up to the order of members, and the same declaration if
the values that show are scalars. -/
structure Alike {α : Type} (nameOf : α → Value) (shows : α → Prop)
    (declaration : α → Except RenderError Declaration) (d d' : α) : Prop where
  name : Reordered (nameOf d) (nameOf d')
  declaration : shows d → declaration d' = declaration d

/-- Whether two kinds of objects are named and declared alike. -/
abbrev AlikeObjects : Definition → Definition → Prop :=
  Alike (fun d => d.name) (DefinitionShows ShowsScalar) objectDeclaration

/-- Whether two kinds of documents are named and declared alike. -/
abbrev AlikeDocuments : Document → Document → Prop :=
  Alike (fun d => d.name) (DocumentShows ShowsScalar) documentDeclaration

theorem reordered_object {key : String} {raw raw' : Value} {d : Definition} (h : Reordered raw raw')
    (hraw : raw.WellKeyed) (hform : ObjectForm key raw d) :
    ∃ d', ObjectForm key raw' d' ∧ AlikeObjects d d' := by
  cases hform with
  | @object members raws fields hraws hfields =>
      obtain ⟨members', rfl⟩ := h.exists_obj
      obtain ⟨raws', hraws', hreordered⟩ := hraws.reordered h hraw.1
      obtain ⟨fields', hfields', hlines⟩ := reordered_fields hreordered (hraws.wellKeyed hraw) hfields
      have hheads := reorderedHeads_definitionOfParts h hraw.1 key fields fields'
      refine ⟨_, .object hraws' hfields', hheads.name, fun hshows => ?_⟩
      have hmembers : objectMembers (definitionOfParts key members' fields') =
          objectMembers (definitionOfParts key members fields) := hlines hshows.fields
      simp only [objectDeclaration, hmembers, hheads.declarationText_eq hshows,
        hheads.name.eq_of_isScalar hshows.name]

theorem reordered_document {key : String} {raw raw' : Value} {d : Document} (h : Reordered raw raw')
    (hraw : raw.WellKeyed) (hform : DocumentForm key raw d) :
    ∃ d', DocumentForm key raw' d' ∧ AlikeDocuments d d' := by
  cases hform with
  | @document members raws computedRaws fields computed hraws hfields hcomputedRaws hcomputed =>
      obtain ⟨members', rfl⟩ := h.exists_obj
      obtain ⟨raws', hraws', hreordered⟩ := hraws.reordered h hraw.1
      obtain ⟨fields', hfields', hlines⟩ := reordered_fields hreordered (hraws.wellKeyed hraw) hfields
      obtain ⟨computedRaws', hcomputedRaws', hreordered'⟩ := hcomputedRaws.reordered h hraw.1
      obtain ⟨computed', hcomputed', hcomputedLines⟩ :=
        reordered_computedFields hreordered' (hcomputedRaws.wellKeyed hraw) hcomputed
      have hheads := reorderedHeads_definitionOfParts h hraw.1 key fields fields'
      refine ⟨_, .document hraws' hfields' hcomputedRaws' hcomputed', hheads.name, fun hshows => ?_⟩
      have hlines : fieldLines (definitionOfParts key members' fields').fields =
          fieldLines (definitionOfParts key members fields).fields := hlines hshows.fields
      simp only [documentDeclaration, documentMembers, hlines, hcomputedLines hshows.computed,
        hheads.declarationText_eq hshows.toDefinitionShows, hheads.name.eq_of_isScalar hshows.name]

end TypeScript

end ContentTypes
