import ContentTypes.Proofs.Schema.Edit
import ContentTypes.Proofs.TypeScript.Face
import Mathlib.Logic.Relation

/-!
# What declarations do not depend on

A schema is edited in places that declarations do not depend on: in members that are not read, or that are
read and do not show. What the edited node has the form of shows the same then; from the node this goes up
to the definition, and to the module, which shows of each definition only its name and its declaration. So a
schema that is accepted is accepted after any number of such edits, and has the same module, or fails alike
(`moduleText_edited`).
-/

set_option autoImplicit false

namespace ContentTypes

/-! ## Keeping a face -/

/-- Whether everything that the first value has the form of is matched by something that the second one has
the form of, with the same face. -/
def KeepsFace {ι α β : Type} (form : ι → α → Prop) (face : α → β) (raw raw' : ι) : Prop :=
  ∀ x, form raw x → ∃ x', form raw' x' ∧ face x' = face x

section KeepsFace

variable {ι α β : Type} {form : ι → α → Prop} {face : α → β} {raw raw' : ι}

/-- If one value of a list is replaced and its face is kept, all faces are. -/
theorem KeepsFace.replace (h : KeepsFace form face raw raw') (before after : List ι) :
    KeepsFace (List.Forall₂ form) (List.map face) (before ++ raw :: after) (before ++ raw' :: after) := by
  induction before with
  | nil =>
      rintro _ (_ | ⟨hx, hrest⟩)
      obtain ⟨x', hx', hface⟩ := h _ hx
      exact ⟨x' :: _, .cons hx' hrest, by rw [List.map_cons, List.map_cons, hface]⟩
  | cons first before ih =>
      rintro _ (_ | ⟨hx, hrest⟩)
      obtain ⟨rest', hrest', hfaces⟩ := ih _ hrest
      exact ⟨_ :: rest', .cons hx hrest', by rw [List.map_cons, List.map_cons, hfaces]⟩

end KeepsFace

/-- `ListedIn form name members xs`: the values of a member that is a list have the form of these. -/
def ListedIn {α : Type} (form : Value → α → Prop) (name : String) (members : Members) (xs : List α) :
    Prop :=
  ∃ raws, MemberItems members name raws ∧ List.Forall₂ form raws xs

section ListedIn

variable {α β : Type} {form : Value → α → Prop} {face : α → β} {name : String}
  {members members' : Members}

theorem keepsFace_listedIn_of_lookup_eq (h : members'.lookup name = members.lookup name) :
    KeepsFace (ListedIn form name) (List.map face) members members' := by
  rintro xs ⟨raws, hraws, hforms⟩
  exact ⟨xs, ⟨raws, hraws.of_lookup_eq h, hforms⟩, rfl⟩

theorem keepsFace_listedIn_of_changes {before after : List Value} {raw raw' : Value}
    (h : Changes members members' name (some (.arr (before ++ raw :: after)))
      (some (.arr (before ++ raw' :: after))))
    (hface : KeepsFace form face raw raw') :
    KeepsFace (ListedIn form name) (List.map face) members members' := by
  rintro xs ⟨raws, hraws, hforms⟩
  obtain rfl := hraws.eq_of_lookup h.before
  obtain ⟨xs', hforms', hfaces⟩ := hface.replace before after xs hforms
  exact ⟨xs', ⟨_, .list h.after, hforms'⟩, hfaces⟩

end ListedIn

/-- The value of a list, which is not a list itself, has the form of this item. -/
def ItemIn (members : Members) (item : ItemType) : Prop :=
  ∃ raw, members.lookup "of" = some raw ∧ ItemForm raw item

namespace TypeScript

/-! ## Parts that show the same -/

theorem fieldLines_eq_of_map_eq {fields fields' : List Field}
    (h : fields'.map fieldLine = fields.map fieldLine) : fieldLines fields' = fieldLines fields := by
  have hlines (fields : List Field) : fieldLines fields = (fields.map fieldLine).mapM id := by
    induction fields with
    | nil => rfl
    | cons field fields ih =>
        rw [fieldLines, ih, List.map_cons, List.mapM_cons]
        rfl
  rw [hlines, hlines, h]

theorem itemExpressions_eq_of_map_eq {items items' : List ItemType}
    (h : items'.map itemExpression = items.map itemExpression) :
    itemExpressions items' = itemExpressions items := by
  have hexpressions (items : List ItemType) :
      itemExpressions items = (items.map itemExpression).mapM id := by
    induction items with
    | nil => rfl
    | cons item items ih =>
        rw [itemExpressions, ih, List.map_cons, List.mapM_cons]
        rfl
  rw [hexpressions, hexpressions, h]

/-- Whether replacing a value that is this part of a schema keeps what shows of it. -/
def Keeps : Part → Value → Value → Prop
  | .schema => KeepsFace SchemaForm fun schema settings => moduleText settings schema
  | .document => fun raw raw' => ∀ key, KeepsFace (DocumentForm key) documentFace raw raw'
  | .object => fun raw raw' => ∀ key, KeepsFace (ObjectForm key) objectFace raw raw'
  | .field => KeepsFace FieldForm fieldLine
  | .item => KeepsFace ItemForm itemExpression
  | .computed => KeepsFace ComputedForm computedLine

/-! ## Types -/

/-- Whether what the type of a field of this kind is said in shows the same in both objects. -/
structure KeepsType (members members' : Members) (kind : Value) : Prop where
  object : kind = .str FieldTag.object.name →
    members'.lookup "objectName" = members.lookup "objectName"
  enumeration : kind = .str FieldTag.enumeration.name →
    members'.lookup "options" = members.lookup "options"
  inlineObject : kind = .str FieldTag.inlineObject.name →
    KeepsFace (ListedIn FieldForm "fieldDefs") (List.map fieldLine) members members'
  list : kind = .str FieldTag.list.name →
    KeepsFace ItemIn itemExpression members members'
  polymorphicList : kind = .str FieldTag.polymorphicList.name →
    KeepsFace (ListedIn ItemForm "of") (List.map itemExpression) members members'

theorem KeepsType.keepsFace {members members' : Members} {kind : Value}
    (h : KeepsType members members' kind) :
    KeepsFace (fun members => FieldTypeForm members kind) fieldExpression members members' := by
  intro type hform
  cases hform with
  | unknown hscalar hkind => exact ⟨_, .unknown hscalar hkind, rfl⟩
  | boolean => exact ⟨_, .boolean, rfl⟩
  | string => exact ⟨_, .string, rfl⟩
  | date => exact ⟨_, .date, rfl⟩
  | image => exact ⟨_, .image, rfl⟩
  | markdown => exact ⟨_, .markdown, rfl⟩
  | reference => exact ⟨_, .reference, rfl⟩
  | object =>
      refine ⟨_, .object, ?_⟩
      rw [h.object rfl]
  | inlineObject hraws hfields =>
      obtain ⟨fields', ⟨raws', hraws', hfields'⟩, hlines⟩ :=
        h.inlineObject rfl _ ⟨_, hraws, fieldsForm_iff.mp hfields⟩
      refine ⟨_, .inlineObject hraws' (fieldsForm_iff.mpr hfields'), ?_⟩
      rw [fieldExpression, fieldExpression, fieldLines_eq_of_map_eq hlines]
  | enumeration hoptions => exact ⟨_, .enumeration (hoptions.of_lookup_eq (h.enumeration rfl)), rfl⟩
  | list hof hitem =>
      obtain ⟨item', ⟨raw', hof', hitem'⟩, hexpression⟩ := h.list rfl _ ⟨_, hof, hitem⟩
      refine ⟨_, .list hof' hitem', ?_⟩
      rw [fieldExpression, fieldExpression, hexpression]
  | polymorphicList hraws hitems =>
      obtain ⟨items', ⟨raws', hraws', hitems'⟩, hexpressions⟩ :=
        h.polymorphicList rfl _ ⟨_, hraws, itemsForm_iff.mp hitems⟩
      refine ⟨_, .polymorphicList hraws' (itemsForm_iff.mpr hitems'), ?_⟩
      rw [fieldExpression, fieldExpression, itemExpressions_eq_of_map_eq hexpressions]

/-- Whether what the type of an item of this kind is said in shows the same in both objects. -/
structure KeepsItemType (members members' : Members) (kind : Value) : Prop where
  object : kind = .str ItemTag.object.name →
    members'.lookup "objectName" = members.lookup "objectName"
  enumeration : kind = .str ItemTag.enumeration.name →
    members'.lookup "options" = members.lookup "options"
  inlineObject : kind = .str ItemTag.inlineObject.name →
    KeepsFace (ListedIn FieldForm "fieldDefs") (List.map fieldLine) members members'
  reference : kind = .str ItemTag.reference.name →
    members'.lookup "documentName" = members.lookup "documentName"

theorem KeepsItemType.keepsFace {members members' : Members} {kind : Value}
    (h : KeepsItemType members members' kind) :
    KeepsFace (fun members => ItemTypeForm members kind) itemExpression members members' := by
  intro type hform
  cases hform with
  | unknown hscalar hkind => exact ⟨_, .unknown hscalar hkind, rfl⟩
  | boolean => exact ⟨_, .boolean, rfl⟩
  | string => exact ⟨_, .string, rfl⟩
  | object =>
      refine ⟨_, .object, ?_⟩
      rw [h.object rfl]
  | enumeration hoptions => exact ⟨_, .enumeration (hoptions.of_lookup_eq (h.enumeration rfl)), rfl⟩
  | inlineObject hraws hfields =>
      obtain ⟨fields', ⟨raws', hraws', hfields'⟩, hlines⟩ :=
        h.inlineObject rfl _ ⟨_, hraws, fieldsForm_iff.mp hfields⟩
      refine ⟨_, .inlineObject hraws' (fieldsForm_iff.mpr hfields'), ?_⟩
      rw [itemExpression, itemExpression, fieldLines_eq_of_map_eq hlines]
  | reference =>
      refine ⟨_, .reference, ?_⟩
      rw [h.reference rfl]

/-! ## Nodes -/

section Nodes

variable {members members' : Members}

/-- A field is kept if its name and kind are, and the rest of it shows the same. -/
theorem keeps_field (hname : members'.lookup "name" = members.lookup "name")
    (hkind : members'.lookup "type" = members.lookup "type")
    (hrequired : ((members'.lookup "required").getD (.bool false)).holds =
      ((members.lookup "required").getD (.bool false)).holds)
    (hdescription : ∀ line, described ((members'.lookup "description").getD .null) line =
      described ((members.lookup "description").getD .null) line)
    (htype : ∀ kind, members.lookup "type" = some kind → KeepsType members members' kind) :
    Keeps .field (.obj members) (.obj members') := by
  rintro _ ⟨hfound, hfoundKind, hform⟩
  obtain ⟨type', hform', hexpression⟩ := (htype _ hfoundKind).keepsFace _ hform
  refine ⟨_, .field (hname.trans hfound) (hkind.trans hfoundKind) hform', ?_⟩
  have hbool (b : Bool) : (Value.bool b).holds = b := rfl
  simp only [fieldLine, fieldOfMembers, hexpression, memberLine, hbool, hrequired, hdescription]

theorem keeps_item (hkind : members'.lookup "type" = members.lookup "type")
    (htype : ∀ kind, members.lookup "type" = some kind → KeepsItemType members members' kind) :
    Keeps .item (.obj members) (.obj members') := by
  rintro _ ⟨hfoundKind, hform⟩
  obtain ⟨type', hform', hexpression⟩ := (htype _ hfoundKind).keepsFace _ hform
  exact ⟨_, .item (hkind.trans hfoundKind) hform', hexpression⟩

theorem keeps_computed (hname : members'.lookup "name" = members.lookup "name")
    (htype : members'.lookup "type" = members.lookup "type")
    (hdescription : ∀ line, described ((members'.lookup "description").getD .null) line =
      described ((members.lookup "description").getD .null) line) :
    Keeps .computed (.obj members) (.obj members') := by
  rintro _ ⟨hfound, hfoundType⟩
  refine ⟨_, .computed (hname.trans hfound) (htype.trans hfoundType), ?_⟩
  rw [computedLine, computedLine, hdescription]

/-- Whether two definitions show the same before their members: a label does not show beside a
description. -/
structure KeepsHead (members members' : Members) : Prop where
  name : members'.lookup "name" = members.lookup "name"
  description : members'.lookup "description" = members.lookup "description"
  label : ((members.lookup "description").getD .null).holds = false →
    members'.lookup "label" = members.lookup "label"

theorem KeepsHead.name_eq (h : KeepsHead members members') (key : String) (fields fields' : List Field) :
    (definitionOfParts key members' fields').name = (definitionOfParts key members fields).name := by
  rw [definitionOfParts, definitionOfParts, h.name]

/-- The comment before a declaration has the label only if there is no description. -/
theorem commentLines_eq {d d' : Definition} (hdescription : d'.description = d.description)
    (hlabel : d.description.holds = false → d'.label = d.label) : commentLines d' = commentLines d := by
  unfold commentLines
  rw [hdescription]
  by_cases hd : d.description.holds = true
  · simp only [if_pos hd]
  · simp only [if_neg hd, hlabel (by simpa using hd)]

theorem KeepsHead.declarationText_eq (h : KeepsHead members members') (key : String)
    (fields fields' : List Field) (identity texts : List String) :
    declarationText (definitionOfParts key members' fields') identity texts =
      declarationText (definitionOfParts key members fields) identity texts := by
  have hcomment : commentLines (definitionOfParts key members' fields') =
      commentLines (definitionOfParts key members fields) := by
    apply commentLines_eq
    · rw [definitionOfParts, definitionOfParts, h.description]
    · intro hd
      rw [definitionOfParts, definitionOfParts, h.label hd]
  rw [declarationText, declarationText, hcomment, h.name_eq key fields fields']

theorem keeps_object (hhead : KeepsHead members members')
    (hfields : KeepsFace (ListedIn FieldForm "fieldDefs") (List.map fieldLine) members members') :
    Keeps .object (.obj members) (.obj members') := by
  intro key d hform
  cases hform with
  | @object _ raws fields hraws hforms =>
      obtain ⟨fields', ⟨raws', hraws', hforms'⟩, hlines⟩ :=
        hfields _ ⟨_, hraws, fieldsForm_iff.mp hforms⟩
      have hmembers : objectMembers (definitionOfParts key members' fields') =
          objectMembers (definitionOfParts key members fields) := fieldLines_eq_of_map_eq hlines
      refine ⟨_, .object hraws' (fieldsForm_iff.mpr hforms'), ?_⟩
      simp only [face, objectDeclaration, hmembers, hhead.name_eq key fields fields',
        hhead.declarationText_eq key fields fields']

theorem keeps_document (hhead : KeepsHead members members')
    (hfields : KeepsFace (ListedIn FieldForm "fieldDefs") (List.map fieldLine) members members')
    (hcomputed : KeepsFace (ListedIn ComputedForm "computedFields") (List.map computedLine) members
      members') :
    Keeps .document (.obj members) (.obj members') := by
  intro key d hform
  cases hform with
  | @document _ raws computedRaws fields computed hraws hforms hcomputedRaws hcomputedForms =>
      obtain ⟨fields', ⟨raws', hraws', hforms'⟩, hlines⟩ :=
        hfields _ ⟨_, hraws, fieldsForm_iff.mp hforms⟩
      obtain ⟨computed', ⟨computedRaws', hcomputedRaws', hcomputedForms'⟩, hcomputedLines⟩ :=
        hcomputed _ ⟨_, hcomputedRaws, hcomputedForms⟩
      have hmembers : fieldLines (definitionOfParts key members' fields').fields =
          fieldLines (definitionOfParts key members fields).fields := fieldLines_eq_of_map_eq hlines
      refine ⟨_, .document hraws' (fieldsForm_iff.mpr hforms') hcomputedRaws' hcomputedForms', ?_⟩
      simp only [face, documentDeclaration, documentMembers, hmembers, hcomputedLines,
        hhead.name_eq key fields fields', hhead.declarationText_eq key fields fields']

end Nodes

/-! ## Maps -/

/-- `MappedIn form nameOf name members definitions`: the entries of a member that is a map have the form of
these definitions. -/
def MappedIn {α : Type} (form : String → Value → α → Prop) (nameOf : α → Value) (name : String)
    (members : Members) (definitions : List α) : Prop :=
  ∃ entries, MapEntries members name entries ∧ EntriesForm form nameOf entries definitions

section MappedIn

variable {α : Type} {form : String → Value → α → Prop} {nameOf : α → Value}
  {declaration : α → Except RenderError Declaration} {members members' : Members} {name : String}

theorem keepsFace_mappedIn_of_lookup_eq (h : members'.lookup name = members.lookup name) :
    KeepsFace (MappedIn form nameOf name) (List.map (face nameOf declaration)) members members' := by
  rintro definitions ⟨entries, hentries, hforms⟩
  exact ⟨definitions, ⟨entries, hentries.of_lookup_eq h, hforms⟩, rfl⟩

/-- If one entry of a map is replaced and what shows of its definition is kept, what shows of all
definitions is. -/
theorem keepsFace_mappedIn_of_changes {before after : Members} {entry entry' : String × Value}
    (h : Changes members members' name (some (.obj (before ++ entry :: after)))
      (some (.obj (before ++ entry' :: after))))
    (hface : ∀ d, form entry.1 entry.2 d →
      ∃ d', form entry'.1 entry'.2 d' ∧ face nameOf declaration d' = face nameOf declaration d) :
    KeepsFace (MappedIn form nameOf name) (List.map (face nameOf declaration)) members members' := by
  rintro definitions ⟨entries, hentries, hforms⟩
  obtain rfl := hentries.eq_of_lookup h.before
  have hentry : KeepsFace (fun (e : String × Value) d => form e.1 e.2 d ∧ (nameOf d).isScalar = true)
      (face nameOf declaration) entry entry' := by
    rintro d ⟨hform, hscalar⟩
    -- the name of a definition is part of its face
    obtain ⟨d', hform', heq⟩ := hface d hform
    have hname : nameOf d' = nameOf d := congrArg Prod.fst heq
    exact ⟨d', ⟨hform', hname ▸ hscalar⟩, heq⟩
  obtain ⟨definitions', hforms', hfaces⟩ := hentry.replace before after definitions hforms
  exact ⟨definitions', ⟨_, .object h.after, hforms'⟩, hfaces⟩

end MappedIn

/-- A schema is kept if what shows of the definitions in its maps is. -/
theorem keeps_schema {members members' : Members}
    (hdocuments : KeepsFace (MappedIn DocumentForm (fun d => d.name) "documentDefMap")
      (List.map documentFace) members members')
    (hobjects : KeepsFace (MappedIn ObjectForm (fun d => d.name) "objectDefMap")
      (List.map objectFace) members members') :
    Keeps .schema (.obj members) (.obj members') := by
  rintro _ ⟨hentries, hforms, hentries', hforms'⟩
  obtain ⟨documents, ⟨entries, hreentries, hreforms⟩, hfaces⟩ := hdocuments _ ⟨_, hentries, hforms⟩
  obtain ⟨objects, ⟨entries', hreentries', hreforms'⟩, hfaces'⟩ := hobjects _ ⟨_, hentries', hforms'⟩
  refine ⟨_, .schema hreentries hreforms hreentries' hreforms', ?_⟩
  funext settings
  simp only [moduleText_eq, faces_merge, hfaces, hfaces']

/-! ## Edits -/

theorem keepsType_of_lookup_eq {members members' : Members} {kind : Value}
    (h : ∀ tag key, tag.member? = some key → tag ≠ FieldTag.reference → kind = .str tag.name →
      members'.lookup key = members.lookup key) : KeepsType members members' kind where
  object := h .object "objectName" rfl nofun
  enumeration := h .enumeration "options" rfl nofun
  inlineObject := fun hkind =>
    keepsFace_listedIn_of_lookup_eq (h .inlineObject "fieldDefs" rfl nofun hkind)
  list := by
    rintro hkind item ⟨raw, hof, hitem⟩
    exact ⟨item, ⟨raw, (h .list "of" rfl nofun hkind).trans hof, hitem⟩, rfl⟩
  polymorphicList := fun hkind =>
    keepsFace_listedIn_of_lookup_eq (h .polymorphicList "of" rfl nofun hkind)

theorem keepsItemType_of_lookup_eq {members members' : Members} {kind : Value}
    (h : ∀ tag key, tag.member? = some key → kind = .str (ItemTag.name tag) →
      members'.lookup key = members.lookup key) : KeepsItemType members members' kind where
  object := h .object "objectName" rfl
  enumeration := h .enumeration "options" rfl
  inlineObject := fun hkind => keepsFace_listedIn_of_lookup_eq (h .inlineObject "fieldDefs" rfl hkind)
  reference := h .reference "documentName" rfl

/-- A part is kept if all members that are read of it are. -/
theorem keeps_of_lookup_eq {part : Part} {members members' : Members}
    (h : ∀ name ∈ part.membersRead members, members'.lookup name = members.lookup name) :
    Keeps part (.obj members) (.obj members') := by
  cases part with
  | schema =>
      exact keeps_schema (keepsFace_mappedIn_of_lookup_eq (h _ (by simp [Part.membersRead])))
        (keepsFace_mappedIn_of_lookup_eq (h _ (by simp [Part.membersRead])))
  | document =>
      have hhead : KeepsHead members members' :=
        ⟨h _ (by simp [Part.membersRead]), h _ (by simp [Part.membersRead]),
          fun _ => h _ (by simp [Part.membersRead])⟩
      exact keeps_document hhead (keepsFace_listedIn_of_lookup_eq (h _ (by simp [Part.membersRead])))
        (keepsFace_listedIn_of_lookup_eq (h _ (by simp [Part.membersRead])))
  | object =>
      have hhead : KeepsHead members members' :=
        ⟨h _ (by simp [Part.membersRead]), h _ (by simp [Part.membersRead]),
          fun _ => h _ (by simp [Part.membersRead])⟩
      exact keeps_object hhead (keepsFace_listedIn_of_lookup_eq (h _ (by simp [Part.membersRead])))
  | field =>
      have hcommon (name : String) (hname : name ∈ commonMembers) :
          members'.lookup name = members.lookup name := h name (List.mem_append_left _ hname)
      refine keeps_field (hcommon _ (by decide)) (hcommon _ (by decide)) ?_ ?_ ?_
      · rw [hcommon _ (by decide)]
      · rw [hcommon _ (by decide)]
        exact fun _ => rfl
      · intro kind hkind
        -- what is read besides depends on the kind, which is the same in both
        refine keepsType_of_lookup_eq fun tag key hkey _ htag => h key (List.mem_append_right _ ?_)
        simp [hkind, htag, FieldTag.ofValue?_name, hkey]
  | item =>
      refine keeps_item (h _ List.mem_cons_self) fun kind hkind => ?_
      refine keepsItemType_of_lookup_eq fun tag key hkey htag => h key (List.mem_cons_of_mem _ ?_)
      simp [hkind, htag, ItemTag.ofValue?_name, hkey]
  | computed =>
      refine keeps_computed (h _ (by simp [Part.membersRead])) (h _ (by simp [Part.membersRead])) ?_
      rw [h "description" (by simp [Part.membersRead])]
      exact fun _ => rfl

section Changes

variable {members members' : Members} {name : String} {v v' : Option Value}

theorem keepsHead_of_changes (h : Changes members members' name v v')
    (hname : name ∉ ["name", "description", "label"]) : KeepsHead members members' where
  name := h.others _ (by rintro rfl; simp at hname)
  description := h.others _ (by rintro rfl; simp at hname)
  label := fun _ => h.others _ (by rintro rfl; simp at hname)

/-- A description does not show before and after a change if it counts as none. -/
theorem described_eq_of_changes (h : Changes members members' name v v')
    (hdescription : name = "description" → (v.getD .null).holds = false ∧ (v'.getD .null).holds = false)
    (line : String) : described ((members'.lookup "description").getD .null) line =
      described ((members.lookup "description").getD .null) line := by
  by_cases heq : name = "description"
  · obtain ⟨hholds, hholds'⟩ := hdescription heq
    subst heq
    rw [h.before, h.after, described, described, if_neg (by simp [hholds']), if_neg (by simp [hholds])]
  · rw [h.others _ (Ne.symm heq)]

/-- A field is kept by a change that is none to its name, its kind and what its type is said in, and keeps
what shows of its other members. -/
theorem keeps_field_of_changes (h : Changes members members' name v v') (hname : "name" ≠ name)
    (hkind : "type" ≠ name)
    (hrequired : name = "required" →
      (v'.getD (.bool false)).holds = (v.getD (.bool false)).holds)
    (hdescription : name = "description" → (v.getD .null).holds = false ∧ (v'.getD .null).holds = false)
    (htype : ∀ kind, KeepsType members members' kind) :
    Keeps .field (.obj members) (.obj members') := by
  refine keeps_field (h.others _ hname) (h.others _ hkind) ?_ (described_eq_of_changes h hdescription)
    fun kind _ => htype kind
  by_cases heq : name = "required"
  · subst heq
    rw [h.before, h.after]
    exact hrequired rfl
  · rw [h.others _ (Ne.symm heq)]

/-- What the type of a field is said in is kept by a change of another member. -/
theorem keepsType_of_changes (h : Changes members members' name v v')
    (hname : ∀ tag : FieldTag, tag ≠ .reference → tag.member? ≠ some name) (kind : Value) :
    KeepsType members members' kind := by
  refine keepsType_of_lookup_eq fun tag key hkey hne _ => h.others key ?_
  rintro rfl
  exact hname tag hne hkey

/-- What the type of a record is said in is kept if what shows of its fields is. -/
theorem keepsType_of_fields {before after : List Value} {raw raw' : Value}
    (h : Changes members members' "fieldDefs" (some (.arr (before ++ raw :: after)))
      (some (.arr (before ++ raw' :: after))))
    (hfield : Keeps .field raw raw') (kind : Value) : KeepsType members members' kind where
  object := fun _ => h.others _ (by decide)
  enumeration := fun _ => h.others _ (by decide)
  inlineObject := fun _ => keepsFace_listedIn_of_changes h hfield
  list := by
    rintro - item ⟨raw, hof, hitem⟩
    exact ⟨item, ⟨raw, (h.others "of" (by decide)).trans hof, hitem⟩, rfl⟩
  polymorphicList := fun _ => keepsFace_listedIn_of_lookup_eq (h.others _ (by decide))

/-- What the type of a list of several kinds is said in is kept if what shows of its items is. -/
theorem keepsType_of_items {before after : List Value} {raw raw' : Value}
    (h : Changes members members' "of" (some (.arr (before ++ raw :: after)))
      (some (.arr (before ++ raw' :: after))))
    (hitem : Keeps .item raw raw') (kind : Value) : KeepsType members members' kind where
  object := fun _ => h.others _ (by decide)
  enumeration := fun _ => h.others _ (by decide)
  inlineObject := fun _ => keepsFace_listedIn_of_lookup_eq (h.others _ (by decide))
  list := by
    -- a list of one kind has no list of items
    rintro - item ⟨raw, hof, hform⟩
    rw [h.before] at hof
    cases hof
    cases hform
  polymorphicList := fun _ => keepsFace_listedIn_of_changes h hitem

/-- What the type of a list of one kind is said in is kept if what shows of its item is. -/
theorem keepsType_of_item {node : Members} {raw' : Value}
    (h : Changes members members' "of" (some (.obj node)) (some raw'))
    (hitem : Keeps .item (.obj node) raw') (kind : Value) : KeepsType members members' kind where
  object := fun _ => h.others _ (by decide)
  enumeration := fun _ => h.others _ (by decide)
  inlineObject := fun _ => keepsFace_listedIn_of_lookup_eq (h.others _ (by decide))
  list := by
    rintro - item ⟨raw, hof, hform⟩
    rw [h.before] at hof
    cases hof
    obtain ⟨item', hform', hexpression⟩ := hitem item hform
    exact ⟨item', ⟨raw', h.after, hform'⟩, hexpression⟩
  polymorphicList := by
    -- a list of several kinds has no single item
    rintro - items ⟨raws, hraws, -⟩
    cases hraws with
    | missing hnone =>
        rw [h.before] at hnone
        cases hnone
    | list hlist =>
        rw [h.before] at hlist
        cases hlist

/-- A part is kept if one of the parts that a member lists is replaced and what shows of that one is
kept. -/
theorem keeps_of_listed {part part' : Part} {before after : List Value} {raw raw' : Value}
    (h : Changes members members' name (some (.arr (before ++ raw :: after)))
      (some (.arr (before ++ raw' :: after))))
    (hpart : Lists part name part') (hkeeps : Keeps part' raw raw') :
    Keeps part (.obj members) (.obj members') := by
  cases hpart with
  | documentFields =>
      exact keeps_document (keepsHead_of_changes h (by decide)) (keepsFace_listedIn_of_changes h hkeeps)
        (keepsFace_listedIn_of_lookup_eq (h.others _ (by decide)))
  | objectFields =>
      exact keeps_object (keepsHead_of_changes h (by decide)) (keepsFace_listedIn_of_changes h hkeeps)
  | recordFields =>
      exact keeps_field_of_changes h (by decide) (by decide) (by simp) (by simp)
        (keepsType_of_fields h hkeeps)
  | itemFields =>
      refine keeps_item (h.others _ (by decide)) fun kind _ => ⟨?_, ?_, ?_, ?_⟩
      · exact fun _ => h.others _ (by decide)
      · exact fun _ => h.others _ (by decide)
      · exact fun _ => keepsFace_listedIn_of_changes h hkeeps
      · exact fun _ => h.others _ (by decide)
  | listItems =>
      exact keeps_field_of_changes h (by decide) (by decide) (by simp) (by simp)
        (keepsType_of_items h hkeeps)
  | computedFields =>
      exact keeps_document (keepsHead_of_changes h (by decide))
        (keepsFace_listedIn_of_lookup_eq (h.others _ (by decide)))
        (keepsFace_listedIn_of_changes h hkeeps)

/-- A label is kept beside a description. -/
theorem keeps_of_label {part : Part} (h : Changes members members' "label" v v')
    (hpart : part = .document ∨ part = .object)
    (hdescription : ((members.lookup "description").getD .null).holds = true) :
    Keeps part (.obj members) (.obj members') := by
  have hhead : KeepsHead members members' :=
    ⟨h.others _ (by decide), h.others _ (by decide), fun hnone => by rw [hdescription] at hnone; cases hnone⟩
  rcases hpart with rfl | rfl
  · exact keeps_document hhead (keepsFace_listedIn_of_lookup_eq (h.others _ (by decide)))
      (keepsFace_listedIn_of_lookup_eq (h.others _ (by decide)))
  · exact keeps_object hhead (keepsFace_listedIn_of_lookup_eq (h.others _ (by decide)))

/-- A schema is kept if one entry of a map is replaced and what shows of its definition is kept. -/
theorem keeps_of_entry {part : Part} {before after : Members} {key key' : String} {raw raw' : Value}
    (h : Changes members members' name (some (.obj (before ++ (key, raw) :: after)))
      (some (.obj (before ++ (key', raw') :: after))))
    (hpart : Maps name part)
    (hdocument : part = .document → ∀ d, DocumentForm key raw d →
      ∃ d', DocumentForm key' raw' d' ∧ documentFace d' = documentFace d)
    (hobject : part = .object → ∀ d, ObjectForm key raw d →
      ∃ d', ObjectForm key' raw' d' ∧ objectFace d' = objectFace d) :
    Keeps .schema (.obj members) (.obj members') := by
  cases hpart with
  | documents =>
      exact keeps_schema (keepsFace_mappedIn_of_changes h (hdocument rfl))
        (keepsFace_mappedIn_of_lookup_eq (h.others _ (by decide)))
  | objects =>
      exact keeps_schema (keepsFace_mappedIn_of_lookup_eq (h.others _ (by decide)))
        (keepsFace_mappedIn_of_changes h (hobject rfl))

end Changes

mutual

/-- An edit keeps what shows of the part that it changes. -/
theorem keeps_of_edit {part : Part} {raw raw' : Value} : Edit part raw raw' → Keeps part raw raw'
  | .member h hmember => keeps_of_memberEdit hmember h

theorem keeps_of_memberEdit {part : Part} {members members' : Members} {name : String}
    {v v' : Option Value} : MemberEdit part members name v v' →
      Changes members members' name v v' → Keeps part (.obj members) (.obj members')
  | .unread hname, h => keeps_of_lookup_eq fun key hkey => h.others key (by rintro rfl; exact hname hkey)
  | .default, h => keeps_field_of_changes h (by decide) (by decide) (by simp) (by simp)
      (keepsType_of_changes h (by rintro ⟨⟩ <;> decide))
  | .filePathPattern, h => keeps_document (keepsHead_of_changes h (by decide))
      (keepsFace_listedIn_of_lookup_eq (h.others _ (by decide)))
      (keepsFace_listedIn_of_lookup_eq (h.others _ (by decide)))
  | .label hpart hdescription, h => keeps_of_label h hpart hdescription
  | .documentName _, h => keeps_field_of_changes h (by decide) (by decide) (by simp) (by simp)
      (keepsType_of_changes h (by rintro ⟨⟩ <;> decide))
  | .required hholds, h => keeps_field_of_changes h (by decide) (by decide) (fun _ => hholds) (by simp)
      (keepsType_of_changes h (by rintro ⟨⟩ <;> decide))
  | .description hpart hnone hnone', h => by
      rcases hpart with rfl | rfl
      · exact keeps_field_of_changes h (by decide) (by decide) (by simp) (fun _ => ⟨hnone, hnone'⟩)
          (keepsType_of_changes h (by rintro ⟨⟩ <;> decide))
      · exact keeps_computed (h.others _ (by decide)) (h.others _ (by decide))
          (described_eq_of_changes h fun _ => ⟨hnone, hnone'⟩)
  | .listed hpart hedit, h => keeps_of_listed h hpart (keeps_of_edit hedit)
  | .item hedit, h => by
      have hkeeps := keeps_of_edit hedit
      cases hedit with
      | member _ _ =>
          exact keeps_field_of_changes h (by decide) (by decide) (by simp) (by simp)
            (keepsType_of_item h hkeeps)
  | .entry hpart hedit, h => by
      have hkeeps := keeps_of_edit hedit
      refine keeps_of_entry h hpart ?_ ?_
      · rintro rfl
        exact hkeeps _
      · rintro rfl
        exact hkeeps _
  | .key hpart hname _, h => by
      refine keeps_of_entry h hpart ?_ ?_
      · exact fun _ d hform => ⟨d, hform.of_name hname, rfl⟩
      · exact fun _ d hform => ⟨d, hform.of_name hname, rfl⟩

end

/-- **Declarations do not depend on what they do not show.** A value that is accepted as a schema is
accepted after any number of edits, at any depth, in members that are not read or do not show, and for all
settings its module is the same text as before, or fails alike. -/
theorem moduleText_edited {raw raw' : Value} {schema : Schema}
    (hedits : Relation.ReflTransGen (Edit .schema) raw raw') (hschema : Schema.ofValue raw = .ok schema) :
    ∃ schema', Schema.ofValue raw' = .ok schema' ∧
      ∀ settings, moduleText settings schema' = moduleText settings schema := by
  induction hedits with
  | refl => exact ⟨schema, hschema, fun _ => rfl⟩
  | tail _ hedit ih =>
      obtain ⟨between, hbetween, htext⟩ := ih
      obtain ⟨schema', hform, hface⟩ := keeps_of_edit hedit between (Schema.ofValue_eq_ok_iff.mp hbetween)
      refine ⟨schema', Schema.ofValue_eq_ok_iff.mpr hform, fun settings => ?_⟩
      exact (congrFun hface settings).trans (htext settings)

/-! ### A document with another key, label and reference -/

/-- The record with a reference in it, which is the only field of the document of `linkedValue`. -/
def linkedField (target : Value) : Value :=
  .obj [("name", .str "byline"), ("type", .str "inline_object"), ("fieldDefs", .arr [
    .obj [("name", .str "author"), ("type", .str "reference"), ("documentName", target)]])]

/-- A described document with a name, entered under another key. -/
def linkedNode (label : String) (target : Value) : Members :=
  [("name", .str "Post"), ("label", .str label), ("description", .str "What is written"),
    ("fieldDefs", .arr [linkedField target])]

/-- A schema with that document. -/
def linkedValue (key label : String) (target : Value) : Value :=
  .obj [("documentDefMap", .obj [(key, .obj (linkedNode label target))])]

theorem exists_ofValue_linkedValue (key label : String) (target : Value) :
    ∃ schema, Schema.ofValue (linkedValue key label target) = .ok schema := by
  have hauthor : FieldsForm [.obj [("name", .str "author"), ("type", .str "reference"),
      ("documentName", target)]] _ := .cons (.field rfl rfl .reference) .nil
  have hfield : FieldForm (linkedField target) _ :=
    .field rfl rfl (.inlineObject (.list rfl) hauthor)
  have hdocument : DocumentForm key (.obj (linkedNode label target)) _ :=
    .document (.list rfl) (.cons hfield .nil) (.missing rfl) .nil
  exact ⟨_, Schema.ofValue_eq_ok_iff.mpr
    (.schema (.object rfl) (.cons ⟨hdocument, rfl⟩ .nil) (.missing rfl) .nil)⟩

theorem edits_linkedValue : Relation.ReflTransGen (Edit .schema)
    (linkedValue "post" "A post" (.str "Author")) (linkedValue "entry" "An entry" (.int 0)) := by
  have hmap {v v' : Value} : Changes [("documentDefMap", v)] [("documentDefMap", v')] "documentDefMap"
      (some v) (some v') := changes_replace [] [] (by simp)
  have hentry {node node' : Members} (h : Edit .document (.obj node) (.obj node')) :
      Edit .schema (.obj [("documentDefMap", .obj [("entry", .obj node)])])
        (.obj [("documentDefMap", .obj [("entry", .obj node')])]) :=
    .member hmap (@MemberEdit.entry _ _ [] [] _ _ _ _ .documents h)
  -- the key, then the label, then the reference in the record
  have hkey : Edit .schema (linkedValue "post" "A post" (.str "Author"))
      (linkedValue "entry" "A post" (.str "Author")) :=
    .member hmap (@MemberEdit.key _ _ [] [] _ _ _ _ _ .documents rfl (by simp))
  have hlabel : Edit .document (.obj (linkedNode "A post" (.str "Author")))
      (.obj (linkedNode "An entry" (.str "Author"))) :=
    .member (changes_replace [_] [_, _] (by simp)) (.label (.inl rfl) rfl)
  have hauthor : Edit .field
      (.obj [("name", .str "author"), ("type", .str "reference"), ("documentName", .str "Author")])
      (.obj [("name", .str "author"), ("type", .str "reference"), ("documentName", .int 0)]) :=
    .member (changes_replace [_, _] [] (by simp)) (.documentName rfl)
  have hfield : Edit .field (linkedField (.str "Author")) (linkedField (.int 0)) :=
    .member (changes_replace [_, _] [] (by simp)) (@MemberEdit.listed _ _ _ _ [] [] _ _ .recordFields hauthor)
  have hnode : Edit .document (.obj (linkedNode "An entry" (.str "Author")))
      (.obj (linkedNode "An entry" (.int 0))) :=
    .member (changes_replace [_, _, _] [] (by simp))
      (@MemberEdit.listed _ _ _ _ [] [] _ _ .documentFields hfield)
  exact ((Relation.ReflTransGen.single hkey).tail (hentry hlabel)).tail (hentry hnode)

theorem moduleText_edited_linkedValue :
    ∃ schema schema', Schema.ofValue (linkedValue "post" "A post" (.str "Author")) = .ok schema ∧
      Schema.ofValue (linkedValue "entry" "An entry" (.int 0)) = .ok schema' ∧
        ∀ settings, moduleText settings schema' = moduleText settings schema := by
  obtain ⟨schema, hschema⟩ := exists_ofValue_linkedValue "post" "A post" (.str "Author")
  obtain ⟨schema', hschema', htext⟩ := moduleText_edited edits_linkedValue hschema
  exact ⟨schema, schema', hschema, hschema', htext⟩

end TypeScript

end ContentTypes
