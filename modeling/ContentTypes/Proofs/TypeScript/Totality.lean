import ContentTypes.Proofs.Schema.Form
import ContentTypes.Proofs.Schema.Within
import ContentTypes.Proofs.Sorting.Renaming
import ContentTypes.Proofs.TypeScript.Coverage

/-!
# When a module cannot be written

Most values of a schema are put into a text as they are, whatever they are. Only names are joined with
texts without that: the names of definitions, and the names of the objects and documents that stand for
the items of a list, at any depth. So the module of a schema is written exactly if all of these are texts
(`moduleText_total`), and if it is not, then what went wrong is an operation on values of kinds that it is
not made for (`RenderError.OfKinds`).
-/

set_option autoImplicit false

namespace ContentTypes

/-! ## Names of items and definitions -/

/-- What the items of a list are named by, if they stand for an object or a document. -/
def ItemType.name? : ItemType → Option Value
  | .object name => some name
  | .reference document => some document
  | _ => none

/-- All definitions of a schema. -/
def Schema.definitions (schema : Schema) : List Definition :=
  schema.documents.map (·.2.toDefinition) ++ schema.objects.map (·.2)

/-- Whether a schema has something other than a text for a name that must be one: that of a definition,
or that of an object or a document which a field at any depth lists. -/
inductive Schema.Misnamed (schema : Schema) : Prop where
  | definition {d : Definition} (hd : d ∈ schema.definitions) (hname : ∀ text, d.name ≠ .str text)
  | item {d : Definition} (hd : d ∈ schema.definitions) {f : Field} (hf : Within f d.fields)
      {item : ItemType} (hitem : item ∈ f.type.items) {name : Value} (hname : item.name? = some name)
      (htext : ∀ text, name ≠ .str text)

/-! ## Errors of kinds -/

/-- Whether values of the kind are numbers, or truth values, which count as numbers. -/
def Kind.isNumber : Kind → Bool
  | .bool | .int | .float => true
  | .null | .str | .arr | .obj => false

/-- Whether values of the two kinds have an order. -/
def Kind.ordered : Kind → Kind → Bool
  | .str, .str | .arr, .arr => true
  | k, k' => k.isNumber && k'.isNumber

/-- Whether an error says that an operation is not made for the kinds of values it was given: a comparison
of values that have no order, or a join with what is no text. -/
def RenderError.OfKinds : RenderError → Prop
  | .unordered kinds => kinds.left.ordered kinds.right = false
  | .notText _ found => found ≠ .str
  | .notAppendable found => found ≠ .str

theorem Value.isSome_number? (v : Value) : v.number?.isSome = v.kind.isNumber := by
  cases v <;> rfl

/-- Values have no order because of their kinds, or because they are lists and values in them have none. -/
theorem Value.before_eq_error {v w : Value} {kinds : Unordered} (h : v.before w = .error kinds) :
    (∃ items items', v = .arr items ∧ w = .arr items' ∧
      Value.itemsBefore items items' = .error kinds) ∨ kinds.left.ordered kinds.right = false := by
  unfold Value.before at h
  split at h
  · cases h
  · exact .inl ⟨_, _, rfl, rfl, h⟩
  · rename_i hstr harr
    -- neither two texts nor two lists: an order is left to numbers only
    right
    split at h
    · cases h
    · rename_i hnumbers
      cases h
      have hnumber : (v.kind.isNumber && w.kind.isNumber) = false := by
        rw [← v.isSome_number?, ← w.isSome_number?]
        cases hv : v.number? with
        | none => rfl
        | some x =>
            cases hw : w.number? with
            | none => rfl
            | some y => exact absurd hw (hnumbers x y hv)
      cases v <;> cases w <;> simp_all [kind, Kind.ordered]

mutual

/-- Values without an order are of kinds that have none, or are lists with such values. -/
theorem Value.ordered_of_before {v w : Value} {kinds : Unordered} (h : v.before w = .error kinds) :
    kinds.left.ordered kinds.right = false := by
  rcases Value.before_eq_error h with ⟨items, items', rfl, rfl, h⟩ | h
  · exact Value.ordered_of_itemsBefore h
  · exact h
termination_by sizeOf v

theorem Value.ordered_of_itemsBefore {items items' : List Value} {kinds : Unordered}
    (h : Value.itemsBefore items items' = .error kinds) : kinds.left.ordered kinds.right = false := by
  match items, items' with
  | [], _ => cases h
  | _ :: _, [] => cases h
  | v :: items, w :: items' =>
      rw [Value.itemsBefore] at h
      split at h
      · exact Value.ordered_of_itemsBefore h
      · exact Value.ordered_of_before h
termination_by sizeOf items

end

/-! ## Names that are texts -/

/-- Whether an item is named by a text, if it is named at all. -/
def ItemType.NamedByText (item : ItemType) : Prop :=
  ∀ name, item.name? = some name → ∃ text, name = .str text

/-- Whether the items that fields list, at any depth, are named by texts if they are named at all. -/
def ItemsNamed (fields : List Field) : Prop :=
  ∀ f, Within f fields → ∀ item ∈ f.type.items, item.NamedByText

/-- Whether the name of a definition is a text, and what its fields list is named by texts. -/
def Definition.NamedByText (d : Definition) : Prop :=
  (∃ text, d.name = .str text) ∧ ItemsNamed d.fields

theorem Schema.misnamed_iff (schema : Schema) :
    schema.Misnamed ↔ ¬∀ d ∈ schema.definitions, d.NamedByText := by
  constructor
  · intro h hnamed
    cases h with
    | definition hd hname =>
        obtain ⟨text, htext⟩ := (hnamed _ hd).1
        exact hname text htext
    | item hd hf hitem hname htext =>
        obtain ⟨text, rfl⟩ := (hnamed _ hd).2 _ hf _ hitem _ hname
        exact htext text rfl
  · intro h
    by_contra hmisnamed
    refine h fun d hd => ⟨?_, ?_⟩
    · by_contra hname
      exact hmisnamed (.definition hd (not_exists.mp hname))
    · intro f hf item hitem name hname
      by_contra htext
      exact hmisnamed (.item hd hf hitem hname (not_exists.mp htext))

theorem Schema.forall_mem_definitions {schema : Schema} {p : Definition → Prop} :
    (∀ d ∈ schema.definitions, p d) ↔ (∀ d ∈ schema.documents.map (·.2), p d.toDefinition) ∧
      ∀ d ∈ schema.objects.map (·.2), p d := by
  simp only [Schema.definitions, List.forall_mem_append, List.forall_mem_map]

theorem itemsNamed_nil : ItemsNamed [] := forall_within_nil

theorem itemsNamed_append {fields fields' : List Field} :
    ItemsNamed (fields ++ fields') ↔ ItemsNamed fields ∧ ItemsNamed fields' := forall_within_append

/-- What a field and the fields after it list is what its type lists, what is listed below it, and what
the other fields list. -/
theorem itemsNamed_cons {field : Field} {fields : List Field} :
    ItemsNamed (field :: fields) ↔
      ((∀ item ∈ field.type.items, item.NamedByText) ∧ ItemsNamed field.type.fields) ∧
        ItemsNamed fields := forall_within_cons

namespace TypeScript

/-! ## What can be written -/

/-- Whether a text can be written if `p`, and an error of kinds is all that can come of it otherwise. -/
structure WritesIf {β : Type} (x : Except RenderError β) (p : Prop) : Prop where
  exists_ok : p → ∃ b, x = .ok b
  ofKinds : ∀ e, x = .error e → e.OfKinds

/-- Whether a text can be written exactly if `p`, and an error of kinds is what comes of it otherwise. -/
structure WritesIff {β : Type} (x : Except RenderError β) (p : Prop) : Prop extends WritesIf x p where
  of_ok : ∀ b, x = .ok b → p

section Writes

variable {β γ : Type} {x : Except RenderError β} {k : β → Except RenderError γ} {p q : Prop}

theorem WritesIff.ok (b : β) (h : p) : WritesIff (.ok b : Except RenderError β) p where
  exists_ok := fun _ => ⟨b, rfl⟩
  ofKinds := nofun
  of_ok := fun _ _ => h

theorem WritesIff.error {e : RenderError} (he : e.OfKinds) (h : ¬p) :
    WritesIff (.error e : Except RenderError β) p where
  exists_ok := fun hp => absurd hp h
  ofKinds := by
    rintro _ ⟨⟩
    exact he
  of_ok := nofun

theorem WritesIff.congr (h : WritesIff x p) (hpq : p ↔ q) : WritesIff x q := propext hpq ▸ h

/-- What is written in two parts can be written if `p`, if that is so of both parts. -/
theorem WritesIf.bind (hx : WritesIf x p) (hk : ∀ b, x = .ok b → WritesIf (k b) p) :
    WritesIf (x >>= k) p := by
  cases x with
  | error e =>
      refine ⟨fun hp => ?_, ?_⟩
      · obtain ⟨b, hb⟩ := hx.exists_ok hp
        cases hb
      · rintro _ ⟨⟩
        exact hx.ofKinds e rfl
  | ok b => exact hk b rfl

/-- What is written in two parts can be written exactly if `p`, if that is so of the second part, whatever
the first part is, and the first part can be written if `p`. -/
theorem WritesIf.bind_iff (hx : WritesIf x p) (hk : ∀ b, x = .ok b → WritesIff (k b) p) :
    WritesIff (x >>= k) p := by
  refine ⟨hx.bind fun b hb => (hk b hb).toWritesIf, ?_⟩
  intro c hc
  obtain ⟨b, hb, hc⟩ := bind_eq_ok_iff.mp hc
  exact (hk b hb).of_ok c hc

/-- What is written in two parts can be written exactly if both parts can be. -/
theorem WritesIff.bind (hx : WritesIff x p) (hk : ∀ b, x = .ok b → WritesIff (k b) q) :
    WritesIff (x >>= k) (p ∧ q) := by
  have hfirst : WritesIf x (p ∧ q) := ⟨fun h => hx.exists_ok h.1, hx.ofKinds⟩
  exact hfirst.bind_iff fun b hb => (hk b hb).congr (and_iff_right (hx.of_ok b hb)).symm

theorem WritesIff.map (hx : WritesIff x p) (f : β → γ) : WritesIff (x.map f) p := by
  cases x with
  | error e => exact .error (hx.ofKinds e rfl) fun hp => nomatch hx.exists_ok hp
  | ok b => exact .ok (f b) (hx.of_ok b rfl)

theorem WritesIff.mapM {α : Type} {f : α → Except RenderError β} {p : α → Prop}
    (hf : ∀ a, WritesIff (f a) (p a)) (as : List α) : WritesIff (as.mapM f) (∀ a ∈ as, p a) := by
  induction as with
  | nil => exact .ok [] (List.forall_mem_nil p)
  | cons a as ih =>
      rw [List.mapM_cons, List.forall_mem_cons]
      exact (hf a).bind fun b _ => (ih.map (b :: ·)).congr Iff.rfl

end Writes

/-! ## Types -/

theorem writesIff_textsFrom (position : Nat) (values : List Value) :
    WritesIff (textsFrom position values) (∀ v ∈ values, ∃ text, v = .str text) := by
  induction values generalizing position with
  | nil => exact .ok [] (List.forall_mem_nil _)
  | cons v values ih =>
      cases v with
      | str s => exact ((ih (position + 1)).map (s :: ·)).congr (by simp)
      | _ => exact .error nofun (by simp)

theorem writesIff_union (types : List Value) :
    WritesIff (union types) (∀ type ∈ types, ∃ text, type = .str text) :=
  (writesIff_textsFrom 0 types).map _

theorem writesIff_listOf (type : Value) : WritesIff (listOf type) (∃ text, type = .str text) := by
  cases type with
  | str s => exact .ok _ ⟨s, rfl⟩
  | _ => exact .error nofun nofun

/-- The type of an item is a text exactly if it is not named by something else. -/
theorem exists_str_iff_of_itemExpression {item : ItemType} {type : Value}
    (h : itemExpression item = .ok type) : (∃ text, type = .str text) ↔ item.NamedByText := by
  cases item with
  | object name | reference name =>
      cases h
      simp [ItemType.NamedByText, ItemType.name?]
  | inlineObject fields =>
      obtain ⟨lines, -, h⟩ := bind_eq_ok_iff.mp h
      cases h
      simp [ItemType.NamedByText, ItemType.name?]
  | _ =>
      cases h
      simp [ItemType.NamedByText, ItemType.name?]

theorem exists_str_iff_of_itemExpressions {items : List ItemType} {types : List Value}
    (h : itemExpressions items = .ok types) :
    (∀ type ∈ types, ∃ text, type = .str text) ↔ ∀ item ∈ items, item.NamedByText := by
  induction items generalizing types with
  | nil =>
      cases h
      simp
  | cons item items ih =>
      obtain ⟨type, htype, h⟩ := bind_eq_ok_iff.mp h
      obtain ⟨rest, hrest, h⟩ := bind_eq_ok_iff.mp h
      cases h
      rw [List.forall_mem_cons, List.forall_mem_cons, exists_str_iff_of_itemExpression htype, ih hrest]

mutual

/-- A type can be written exactly if what it lists, itself or in a record below it, is named by texts. -/
theorem writesIff_fieldExpression : ∀ type : FieldType, WritesIff (fieldExpression type)
    ((∀ item ∈ type.items, item.NamedByText) ∧ ItemsNamed type.fields)
  | .boolean | .string | .date | .image | .markdown | .reference _ | .object _ | .enumeration _
  | .list none | .unknown _ _ | .plain => .ok _ ⟨List.forall_mem_nil _, itemsNamed_nil⟩
  | .inlineObject fields => by
      have hfields := writesIff_fieldLines fields
      exact (hfields.map fun lines => Value.str (record lines)).congr
        (and_iff_right (List.forall_mem_nil _)).symm
  | .list (some item) => by
      -- the type of the item is joined with brackets, so it has to be a text
      have hitem := writesIff_itemExpression item
      have hlist : WritesIff (itemExpression item >>= fun type => (listOf type).map Value.str)
          (ItemsNamed item.fields ∧ item.NamedByText) :=
        hitem.bind fun type htype => ((writesIff_listOf type).map Value.str).congr
          (exists_str_iff_of_itemExpression htype)
      refine hlist.congr ?_
      simp [FieldType.items, FieldType.fields, and_comm]
  | .polymorphicList items => by
      have hitems := writesIff_itemExpressions items
      have hunion : WritesIff (itemExpressions items >>= fun types =>
            (union types).map fun text => Value.str ("(" ++ text ++ ")[]"))
          (ItemsNamed (items.flatMap ItemType.fields) ∧ ∀ item ∈ items, item.NamedByText) :=
        hitems.bind fun types htypes => ((writesIff_union types).map _).congr
          (exists_str_iff_of_itemExpressions htypes)
      exact hunion.congr and_comm

theorem writesIff_fieldLine : ∀ field : FieldOf FieldType, WritesIff (fieldLine field)
    ((∀ item ∈ field.type.items, item.NamedByText) ∧ ItemsNamed field.type.fields)
  | ⟨_, _, _, _, type⟩ => (writesIff_fieldExpression type).map _

theorem writesIff_fieldLines : ∀ fields : List (FieldOf FieldType),
    WritesIff (fieldLines fields) (ItemsNamed fields)
  | [] => .ok [] itemsNamed_nil
  | field :: fields => by
      have hfield := writesIff_fieldLine field
      have hfields := writesIff_fieldLines fields
      exact (hfield.bind fun line _ => hfields.map (line :: ·)).congr itemsNamed_cons.symm

theorem writesIff_itemExpression : ∀ item : ItemType,
    WritesIff (itemExpression item) (ItemsNamed item.fields)
  | .boolean | .string | .object _ | .enumeration _ | .reference _ | .unknown _ _ | .plain =>
      .ok _ itemsNamed_nil
  | .inlineObject fields => (writesIff_fieldLines fields).map fun lines => Value.str (record lines)

theorem writesIff_itemExpressions : ∀ items : List ItemType,
    WritesIff (itemExpressions items) (ItemsNamed (items.flatMap ItemType.fields))
  | [] => .ok [] itemsNamed_nil
  | item :: items => by
      have hitem := writesIff_itemExpression item
      have hitems := writesIff_itemExpressions items
      exact (hitem.bind fun type _ => hitems.map (type :: ·)).congr itemsNamed_append.symm

end

/-! ## Definitions in order -/

theorem ofKinds_of_nameBefore {name name' : Value} {e : RenderError}
    (h : nameBefore name name' = .error e) : e.OfKinds := by
  unfold nameBefore at h
  cases hbefore : name.before name' with
  | ok b =>
      rw [hbefore] at h
      cases h
  | error kinds =>
      rw [hbefore] at h
      cases h
      exact Value.ordered_of_before hbefore

/-- Definitions whose names are texts can be put in order. Others may or may not have one. -/
theorem writesIf_sortByName {α : Type} (nameOf : α → Value) (definitions : List α) :
    WritesIf (sortByName nameOf definitions) (∀ d ∈ definitions, ∃ text, nameOf d = .str text) where
  exists_ok := by
    intro h
    obtain ⟨sorted, hsorted, -⟩ := exists_sortByName nameOf h
    exact ⟨sorted, hsorted⟩
  ofKinds := by
    intro e he
    obtain ⟨d, d', hbefore⟩ := Sorting.exists_of_sort_eq_error he
    exact ofKinds_of_nameBefore hbefore

/-! ## Declarations -/

theorem writesIff_documentDeclaration (d : Document) :
    WritesIff (documentDeclaration d) (ItemsNamed d.fields) :=
  ((writesIff_fieldLines d.fields).map (· ++ d.computed.map computedLine)).map fun members =>
    (⟨d.name, declarationText d.toDefinition ["  _id: string"] members⟩ : Declaration)

theorem writesIff_objectDeclaration (d : Definition) :
    WritesIff (objectDeclaration d) (ItemsNamed d.fields) :=
  (writesIff_fieldLines d.fields).map fun members =>
    (⟨d.name, declarationText d [] members⟩ : Declaration)

theorem writesIff_nameUnion (names : List Value) :
    WritesIff (nameUnion names) (∀ name ∈ names, ∃ text, name = .str text) := by
  cases names with
  | nil => exact .ok "never" (List.forall_mem_nil _)
  | cons name names => exact writesIff_union (name :: names)

/-- The sections of a module can be written exactly if all declarations are named by texts. -/
theorem writesIff_sections (settings : Settings) (documents objects : List Declaration) :
    WritesIff (sections settings documents objects)
      ((∀ name ∈ documents.map (·.name), ∃ text, name = .str text) ∧
        ∀ name ∈ objects.map (·.name), ∃ text, name = .str text) :=
  (writesIff_nameUnion _).bind fun _ _ => (writesIff_nameUnion _).map _

theorem names_of_mapM {α : Type} {nameOf : α → Value}
    {declaration : α → Except RenderError Declaration} {ds : List α} {declarations : List Declaration}
    (hname : ∀ d declared, declaration d = .ok declared → declared.name = nameOf d)
    (h : ds.mapM declaration = .ok declarations) :
    declarations.map (·.name) = ds.map nameOf := by
  have hall := forall₂_of_mapM h
  have hnames : List.Forall₂ (· = ·) (declarations.map (·.name)) (ds.map nameOf) := by
    rw [List.forall₂_map_left_iff, List.forall₂_map_right_iff]
    exact hall.flip.imp fun declared d hdeclared => hname d declared hdeclared
  exact List.forall₂_eq_eq_eq ▸ hnames

/-! ## The module -/

theorem writesIf_sortedDefinitions (schema : Schema) :
    WritesIf (sortedDefinitions schema) (∀ d ∈ schema.definitions, d.NamedByText) := by
  have hdocuments := writesIf_sortByName (fun d : Document => d.name) (schema.documents.map (·.2))
  have hobjects := writesIf_sortByName (fun d : Definition => d.name) (schema.objects.map (·.2))
  refine WritesIf.bind ⟨fun h => hdocuments.exists_ok ?_, hdocuments.ofKinds⟩ fun documents _ =>
    WritesIf.bind ⟨fun h => hobjects.exists_ok ?_, hobjects.ofKinds⟩ fun objects _ => ⟨?_, nofun⟩
  · exact fun d hd => ((Schema.forall_mem_definitions.mp h).1 d hd).1
  · exact fun d hd => ((Schema.forall_mem_definitions.mp h).2 d hd).1
  · exact fun _ => ⟨_, rfl⟩

theorem perm_of_sortedDefinitions {schema : Schema} {documents : List Document}
    {objects : List Definition} (h : sortedDefinitions schema = .ok (documents, objects)) :
    documents.Perm (schema.documents.map (·.2)) ∧ objects.Perm (schema.objects.map (·.2)) := by
  obtain ⟨documents, hdocuments, h⟩ := bind_eq_ok_iff.mp h
  obtain ⟨objects, hobjects, h⟩ := bind_eq_ok_iff.mp h
  cases h
  exact ⟨Sorting.perm_of_sort hdocuments, Sorting.perm_of_sort hobjects⟩

/-- The module of a schema can be written exactly if its names are texts. -/
theorem writesIff_moduleText (settings : Settings) (schema : Schema) :
    WritesIff (moduleText settings schema) (∀ d ∈ schema.definitions, d.NamedByText) := by
  -- names that are no texts may have an order or not; if they have one, the unions refuse them
  refine (writesIf_sortedDefinitions schema).bind_iff fun (documents, objects) hsorted => ?_
  obtain ⟨hdocuments, hobjects⟩ := perm_of_sortedDefinitions hsorted
  have hdeclared := WritesIff.mapM writesIff_documentDeclaration documents
  have hdeclared' := WritesIff.mapM writesIff_objectDeclaration objects
  have hmodule := hdeclared.bind fun ds hds => hdeclared'.bind fun os hos =>
    ((writesIff_sections settings ds os).map fun texts =>
      String.intercalate "\n\n" texts ++ "\n").congr <| by
        rw [names_of_mapM (fun _ _ => name_of_documentDeclaration) hds,
          names_of_mapM (fun _ _ => name_of_objectDeclaration) hos]
  refine hmodule.congr ?_
  simp only [Schema.forall_mem_definitions, ← hdocuments.mem_iff, ← hobjects.mem_iff, List.forall_mem_map,
    Definition.NamedByText, imp_and, forall_and]
  tauto

theorem exists_moduleText_iff {settings : Settings} {schema : Schema} :
    (∃ text, moduleText settings schema = .ok text) ↔ ¬schema.Misnamed := by
  have h := writesIff_moduleText settings schema
  rw [schema.misnamed_iff, not_not]
  exact ⟨fun ⟨text, htext⟩ => h.of_ok text htext, h.exists_ok⟩

/-- **A module is written unless a name is no text.** Whatever the settings and whatever else the schema
holds, its module is a text if its definitions and what their fields list, at any depth, are named by
texts. Otherwise there is no module, and the error is that an operation was given values of kinds that it
is not made for. -/
theorem moduleText_total (settings : Settings) (schema : Schema) :
    (schema.Misnamed → ∃ e, moduleText settings schema = .error e ∧ e.OfKinds) ∧
      (¬schema.Misnamed → ∃ text, moduleText settings schema = .ok text) := by
  have h := writesIff_moduleText settings schema
  rw [schema.misnamed_iff, not_not]
  refine ⟨fun hmisnamed => ?_, h.exists_ok⟩
  cases htext : moduleText settings schema with
  | ok text => exact absurd (h.of_ok text htext) hmisnamed
  | error e => exact ⟨e, rfl, h.ofKinds e htext⟩

end TypeScript

end ContentTypes
