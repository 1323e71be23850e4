import ContentTypes.Proofs.TypeScript.Grammar
import ContentTypes.Proofs.TypeScript.Totality
import ContentTypes.Proofs.TypeScript.Writable
import ContentTypes.Schema.OfValue

/-!
# Types with nothing in them

An enumeration may have no options, a list of several kinds of items no items, and the name of an object
or a document may be missing; a schema with any of these is taken. `typeTree` is the type of a field by
the parts that it is written in, and `fieldLine_solid` says exactly when none of them is blank: a union
without branches, between parentheses or not, or a name of nothing. The unions over the definitions
of a module have `never` in this place, those in the types of fields have nothing.
-/

set_option autoImplicit false

namespace ContentTypes

/-! ## What fields may leave empty -/

/-- The name that the type of a field consists of, if it is one that the schema gives. -/
def FieldType.name? : FieldType → Option Value
  | .object name => some name
  | _ => none

/-- Whether something was given for what the type of a field is made of: options, kinds of items, a
name. -/
def FieldType.IsGiven : FieldType → Prop
  | .object name => name ≠ .str ""
  | .enumeration options => options ≠ []
  | .polymorphicList items => items ≠ []
  | _ => True

/-- The same for the type of a list item. -/
def ItemType.IsGiven : ItemType → Prop
  | .object name | .reference name => name ≠ .str ""
  | .enumeration options => options ≠ []
  | _ => True

/-- Whether something was given for the type of a field and for all items that it lists. -/
def FieldType.Filled (type : FieldType) : Prop := type.IsGiven ∧ ∀ item ∈ type.items, item.IsGiven

/-- Whether a name is an identifier, or the empty text that stands for a missing one. -/
def IsNameOrMissing (name : Value) : Prop := name = .str "" ∨ TypeScript.IsName name

/-- Whether the name of an item, if it has one, is an identifier or missing. -/
def ItemType.NameIdentifies (item : ItemType) : Prop := ∀ name, item.name? = some name → IsNameOrMissing name

/-- Whether the names of a type and of the items that it lists are identifiers or missing. -/
def FieldType.NamesIdentify (type : FieldType) : Prop :=
  (∀ name, type.name? = some name → IsNameOrMissing name) ∧ ∀ item ∈ type.items, item.NameIdentifies

namespace TypeScript

/-! ## Types by their parts -/

/-- A type expression by the parts it is written in. The members of a record are fields whose types are
written. -/
inductive TypeTree where
  | name (text : String)
  | literal (text : String)
  | union (branches : List TypeTree)
  | parentheses (inner : TypeTree)
  | array (item : TypeTree)
  | record (members : List (FieldOf TypeTree))

mutual

/-- The text of a type expression. -/
def TypeTree.text : TypeTree → String
  | .name text => text
  | .literal text => "'" ++ text ++ "'"
  | .union branches => String.intercalate unionBar (branchTexts branches)
  | .parentheses inner => "(" ++ inner.text ++ ")"
  | .array item => item.text ++ "[]"
  | .record members => TypeScript.record (memberTexts members)

/-- The text of a member of a record. -/
def memberText : FieldOf TypeTree → String
  | ⟨name, required, description, _, type⟩ => memberLine name required description (.str type.text)

def branchTexts : List TypeTree → List String
  | [] => []
  | branch :: rest => branch.text :: branchTexts rest

def memberTexts : List (FieldOf TypeTree) → List String
  | [] => []
  | member :: rest => memberText member :: memberTexts rest

end

mutual

/-- The type of a field by its parts. -/
def typeTree : FieldType → TypeTree
  | .boolean => .name "boolean"
  | .string | .date | .reference _ => .name "string"
  | .image => .name "Image"
  | .markdown => .name "Markdown"
  | .object name => .name name.display
  | .inlineObject fields => .record (memberTrees fields)
  | .enumeration options => .union (options.map fun option => .literal option.display)
  | .list none => .literal ("todo " ++ FieldTag.list.name)
  | .list (some item) => .array (itemTree item)
  | .polymorphicList items => .array (.parentheses (.union (itemTrees items)))
  | .unknown kind _ => .literal ("todo " ++ kind.display)
  | .plain => .literal "todo "

/-- A field as a member of a record, by the parts of its type. -/
def memberTree : FieldOf FieldType → FieldOf TypeTree
  | ⟨name, required, description, default, type⟩ => ⟨name, required, description, default, typeTree type⟩

def memberTrees : List (FieldOf FieldType) → List (FieldOf TypeTree)
  | [] => []
  | field :: rest => memberTree field :: memberTrees rest

/-- The type of a list item by its parts. -/
def itemTree : ItemType → TypeTree
  | .boolean => .name "boolean"
  | .string => .name "string"
  | .object name | .reference name => .name name.display
  | .enumeration options => .parentheses (.union (options.map fun option => .literal option.display))
  | .inlineObject fields => .record (memberTrees fields)
  | .unknown kind _ => .literal ("todo " ++ kind.display)
  | .plain => .literal "todo "

def itemTrees : List ItemType → List TypeTree
  | [] => []
  | item :: rest => itemTree item :: itemTrees rest

end

/-- `HasPart tree part`: a type expression has another one in it, or is it. -/
inductive HasPart : TypeTree → TypeTree → Prop where
  | whole (tree : TypeTree) : HasPart tree tree
  | branch {branches : List TypeTree} {branch part : TypeTree} (hbranch : branch ∈ branches)
      (h : HasPart branch part) : HasPart (.union branches) part
  | inner {inner part : TypeTree} (h : HasPart inner part) : HasPart (.parentheses inner) part
  | item {item part : TypeTree} (h : HasPart item part) : HasPart (.array item) part
  | member {members : List (FieldOf TypeTree)} {member : FieldOf TypeTree} {part : TypeTree}
      (hmember : member ∈ members) (h : HasPart member.type part) : HasPart (.record members) part

/-- Whether a text has nothing but blanks in it. -/
def IsBlankText (text : String) : Prop := ∀ c ∈ text.toList, isBlank c = true

instance : DecidablePred IsBlankText := fun text =>
  List.decidableBAll (fun c => isBlank c = true) text.toList

/-- Whether a type expression has no blank one in it. -/
def Solid (tree : TypeTree) : Prop := ∀ part, HasPart tree part → ¬IsBlankText part.text

/-! ## Parts that are blank -/

theorem not_isBlankText_of_mem {text : String} {c : Char} (hc : c ∈ text.toList)
    (hblank : isBlank c = false) : ¬IsBlankText text := by
  intro h
  rw [h c hc] at hblank
  cases hblank

/-- A union without branches is blank; a blank union has a blank branch, if it has any. -/
theorem eq_nil_or_isBlankText_of_union {branches : List TypeTree}
    (h : IsBlankText (TypeTree.union branches).text) :
    branches = [] ∨ ∃ branch ∈ branches, IsBlankText branch.text := by
  match branches with
  | [] => exact .inl rfl
  | [branch] =>
      refine .inr ⟨branch, List.mem_singleton_self branch, ?_⟩
      rwa [TypeTree.text, branchTexts, branchTexts, String.intercalate_singleton] at h
  | branch :: branch' :: branches =>
      -- the bar between the first two is not blank
      refine absurd h (not_isBlankText_of_mem (c := '|') ?_ (by decide))
      rw [TypeTree.text, branchTexts, branchTexts, String.intercalate_cons_cons]
      simp [unionBar]

theorem solid_name {text : String} : Solid (.name text) ↔ ¬IsBlankText text := by
  constructor
  · intro h
    exact h _ (.whole _)
  · rintro h _ ⟨⟩
    exact h

theorem solid_literal (text : String) : Solid (.literal text) := by
  rintro _ ⟨⟩
  exact not_isBlankText_of_mem (c := '\'') (by simp [TypeTree.text]) (by decide)

theorem solid_union {branches : List TypeTree} :
    Solid (.union branches) ↔ branches ≠ [] ∧ ∀ branch ∈ branches, Solid branch := by
  constructor
  · intro h
    constructor
    · rintro rfl
      exact h _ (.whole _) (List.forall_mem_nil _)
    · exact fun branch hbranch part hpart => h part (.branch hbranch hpart)
  · rintro ⟨hne, h⟩ _ (_ | ⟨hbranch, hpart⟩)
    · intro hblank
      obtain rfl | ⟨branch, hbranch, hblank⟩ := eq_nil_or_isBlankText_of_union hblank
      · exact hne rfl
      · exact h branch hbranch branch (.whole branch) hblank
    · exact h _ hbranch _ hpart

theorem solid_parentheses {inner : TypeTree} : Solid (.parentheses inner) ↔ Solid inner := by
  constructor
  · exact fun h part hpart => h part (.inner hpart)
  · rintro h _ (_ | _ | hpart)
    · exact not_isBlankText_of_mem (c := '(') (by simp [TypeTree.text]) (by decide)
    · exact h _ hpart

theorem solid_array {item : TypeTree} : Solid (.array item) ↔ Solid item := by
  constructor
  · exact fun h part hpart => h part (.item hpart)
  · rintro h _ (_ | _ | _ | hpart)
    · exact not_isBlankText_of_mem (c := '[') (by simp [TypeTree.text]) (by decide)
    · exact h _ hpart

theorem solid_record {members : List (FieldOf TypeTree)} :
    Solid (.record members) ↔ ∀ member ∈ members, Solid member.type := by
  constructor
  · exact fun h member hmember part hpart => h part (.member hmember hpart)
  · rintro h _ (_ | _ | _ | _ | ⟨hmember, hpart⟩)
    · exact not_isBlankText_of_mem (c := '\x7b') (by simp [TypeTree.text, record]) (by decide)
    · exact h _ hmember _ hpart

/-! ## Names -/

theorem display_of_isNameOrMissing {name : Value} (h : IsNameOrMissing name) :
    name = .str name.display := by
  rcases h with rfl | ⟨text, rfl, -⟩ <;> rfl

/-- A name is blank only if it is missing. -/
theorem solid_name_iff {name : Value} (h : IsNameOrMissing name) :
    Solid (.name name.display) ↔ name ≠ .str "" := by
  rw [solid_name]
  rcases h with rfl | ⟨text, rfl, c, rest, htext, hc, -⟩
  · have hblank : IsBlankText (Value.str "").display := List.forall_mem_nil _
    exact iff_of_false (not_not_intro hblank) (not_not_intro rfl)
  · have hne : Value.str text ≠ .str "" := by
      rintro ⟨⟩
      cases htext
    have hmem : c ∈ (Value.str text).display.toList := htext ▸ List.mem_cons_self
    have hblank : isBlank c = false := by
      rw [isBlank, Bool.or_eq_false_iff]
      exact ⟨decide_eq_false (ne_of_isNamePart (isNamePart_of_isNameStart hc) (by decide)),
        decide_eq_false (ne_of_isNamePart (isNamePart_of_isNameStart hc) (by decide))⟩
    exact iff_of_true (not_isBlankText_of_mem hmem hblank) hne

theorem solid_literals {options : List Value} :
    Solid (.union (options.map fun option => .literal option.display)) ↔ options ≠ [] := by
  rw [solid_union, List.forall_mem_map, Ne, List.map_eq_nil_iff]
  exact and_iff_left fun option _ => solid_literal option.display

/-! ## Types of fields -/

theorem branchTexts_literals (options : List Value) :
    branchTexts (options.map fun option => .literal option.display) = options.map literal := by
  induction options with
  | nil => rfl
  | cons option options ih =>
      rw [List.map_cons, branchTexts, ih, List.map_cons]
      rfl

theorem text_literals (options : List Value) :
    (TypeTree.union (options.map fun option => .literal option.display)).text = literalUnion options := by
  rw [TypeTree.text, branchTexts_literals, literalUnion]

theorem text_todo (kind : Value) : (TypeTree.literal ("todo " ++ kind.display)).text = todo kind :=
  (todo_eq kind).symm

theorem itemTrees_eq_nil_iff {items : List ItemType} : itemTrees items = [] ↔ items = [] := by
  cases items <;> simp [itemTrees]

mutual

/-- The text of the type of a field is the text of its parts. -/
theorem fieldExpression_eq : ∀ type : FieldType, type.NamesIdentify →
    (∀ f, Within f type.fields → f.type.NamesIdentify) →
    fieldExpression type = .ok (.str (typeTree type).text)
  | .boolean, _, _ | .string, _, _ | .date, _, _ | .image, _, _ | .markdown, _, _ | .reference _, _, _
  | .list none, _, _ | .plain, _, _ => rfl
  | .unknown kind _, _, _ => by rw [fieldExpression, typeTree, text_todo]
  | .enumeration options, _, _ => by rw [fieldExpression, typeTree, text_literals]
  | .object name, h, _ => by
      rw [fieldExpression, typeTree, TypeTree.text, ← display_of_isNameOrMissing (h.1 name rfl)]
  | .inlineObject fields, _, hfields => by
      rw [fieldExpression, fieldLines_eq fields hfields]
      rfl
  | .list (some item), h, hfields => by
      have hitem := itemExpression_eq item (h.2 item (List.mem_singleton_self item)) fun f hf =>
        hfields f (by simpa [FieldType.fields, FieldType.items] using hf)
      rw [fieldExpression, hitem]
      rfl
  | .polymorphicList items, h, hfields => by
      have hitems := itemExpressions_eq items h.2 hfields
      rw [fieldExpression, hitems]
      show (do return Value.str ("(" ++ (← union ((branchTexts (itemTrees items)).map Value.str)) ++ ")[]"))
        = _
      rw [union_texts, typeTree, TypeTree.text, TypeTree.text, TypeTree.text, String.append_assoc]
      rfl

theorem fieldLine_eq : ∀ field : FieldOf FieldType, field.type.NamesIdentify →
    (∀ f, Within f field.type.fields → f.type.NamesIdentify) →
    fieldLine field = .ok (memberText (memberTree field))
  | ⟨_, _, _, _, type⟩, h, hfields => by
      rw [fieldLine, fieldExpression_eq type h hfields]
      rfl

theorem fieldLines_eq : ∀ fields : List (FieldOf FieldType),
    (∀ f, Within f fields → f.type.NamesIdentify) →
    fieldLines fields = .ok (memberTexts (memberTrees fields))
  | [], _ => rfl
  | field :: fields, h => by
      obtain ⟨⟨hfield, hbelow⟩, hrest⟩ := forall_within_cons.mp h
      rw [fieldLines, fieldLine_eq field hfield hbelow, fieldLines_eq fields hrest]
      rfl

/-- The text of the type of an item is the text of its parts. -/
theorem itemExpression_eq : ∀ item : ItemType, item.NameIdentifies →
    (∀ f, Within f item.fields → f.type.NamesIdentify) →
    itemExpression item = .ok (.str (itemTree item).text)
  | .boolean, _, _ | .string, _, _ | .plain, _, _ => rfl
  | .unknown kind _, _, _ => by rw [itemExpression, itemTree, text_todo]
  | .enumeration options, _, _ => by rw [itemExpression, itemTree, TypeTree.text, text_literals]
  | .object name, h, _ => by
      rw [itemExpression, itemTree, TypeTree.text, ← display_of_isNameOrMissing (h name rfl)]
  | .reference name, h, _ => by
      rw [itemExpression, itemTree, TypeTree.text, ← display_of_isNameOrMissing (h name rfl)]
  | .inlineObject fields, _, hfields => by
      rw [itemExpression, fieldLines_eq fields hfields]
      rfl

theorem itemExpressions_eq : ∀ items : List ItemType, (∀ item ∈ items, item.NameIdentifies) →
    (∀ f, Within f (items.flatMap ItemType.fields) → f.type.NamesIdentify) →
    itemExpressions items = .ok ((branchTexts (itemTrees items)).map Value.str)
  | [], _, _ => rfl
  | item :: items, h, hfields => by
      obtain ⟨hitem, hitems⟩ := List.forall_mem_cons.mp h
      rw [List.flatMap_cons] at hfields
      obtain ⟨hbelow, hrest⟩ := forall_within_append.mp hfields
      rw [itemExpressions, itemExpression_eq item hitem hbelow, itemExpressions_eq items hitems hrest]
      rfl

end

mutual

/-- The type of a field has no blank part exactly if something was given for all that it consists of. -/
theorem solid_typeTree_iff : ∀ type : FieldType, type.NamesIdentify →
    (∀ f, Within f type.fields → f.type.NamesIdentify) →
    (Solid (typeTree type) ↔ type.Filled ∧ ∀ f, Within f type.fields → f.type.Filled)
  | .boolean, _, _ | .string, _, _ | .date, _, _ | .image, _, _ | .markdown, _, _ | .reference _, _, _ =>
      iff_of_true (solid_name.mpr (by decide)) ⟨⟨trivial, List.forall_mem_nil _⟩, forall_within_nil⟩
  | .list none, _, _ | .unknown _ _, _, _ | .plain, _, _ =>
      iff_of_true (solid_literal _) ⟨⟨trivial, List.forall_mem_nil _⟩, forall_within_nil⟩
  | .object name, h, _ => by
      rw [typeTree, solid_name_iff (h.1 name rfl)]
      exact (and_iff_left ⟨List.forall_mem_nil _, forall_within_nil⟩).symm.trans and_assoc.symm
  | .enumeration options, _, _ => by
      rw [typeTree, solid_literals]
      exact (and_iff_left ⟨List.forall_mem_nil _, forall_within_nil⟩).symm.trans and_assoc.symm
  | .inlineObject fields, _, hfields => by
      rw [typeTree, solid_record, solid_members_iff fields hfields]
      exact (and_iff_right ⟨trivial, List.forall_mem_nil _⟩).symm
  | .list (some item), h, hfields => by
      have hbelow : (FieldType.list (some item)).fields = item.fields := List.flatMap_singleton ..
      rw [hbelow] at hfields ⊢
      have hitem := h.2 item (List.mem_singleton_self item)
      rw [typeTree, solid_array, solid_itemTree_iff item hitem hfields]
      simp [FieldType.Filled, FieldType.IsGiven, FieldType.items]
  | .polymorphicList items, h, hfields => by
      rw [typeTree, solid_array, solid_parentheses, solid_union, Ne, itemTrees_eq_nil_iff,
        solid_itemTrees_iff items h.2 hfields]
      exact and_assoc.symm

theorem solid_members_iff : ∀ fields : List (FieldOf FieldType),
    (∀ f, Within f fields → f.type.NamesIdentify) →
    ((∀ member ∈ memberTrees fields, Solid member.type) ↔ ∀ f, Within f fields → f.type.Filled)
  | [], _ => iff_of_true (List.forall_mem_nil _) forall_within_nil
  | ⟨name, required, description, default, type⟩ :: fields, h => by
      obtain ⟨⟨hfield, hbelow⟩, hrest⟩ := forall_within_cons.mp h
      rw [memberTrees, List.forall_mem_cons, solid_members_iff fields hrest, forall_within_cons]
      exact and_congr_left' (solid_typeTree_iff type hfield hbelow)

theorem solid_itemTree_iff : ∀ item : ItemType, item.NameIdentifies →
    (∀ f, Within f item.fields → f.type.NamesIdentify) →
    (Solid (itemTree item) ↔ item.IsGiven ∧ ∀ f, Within f item.fields → f.type.Filled)
  | .boolean, _, _ | .string, _, _ =>
      iff_of_true (solid_name.mpr (by decide)) ⟨trivial, forall_within_nil⟩
  | .plain, _, _ | .unknown _ _, _, _ => iff_of_true (solid_literal _) ⟨trivial, forall_within_nil⟩
  | .enumeration options, _, _ => by
      rw [itemTree, solid_parentheses, solid_literals]
      exact (and_iff_left forall_within_nil).symm
  | .object name, h, _ | .reference name, h, _ => by
      rw [itemTree, solid_name_iff (h name rfl)]
      exact (and_iff_left forall_within_nil).symm
  | .inlineObject fields, _, hfields => by
      rw [itemTree, solid_record, solid_members_iff fields hfields]
      exact (and_iff_right trivial).symm

theorem solid_itemTrees_iff : ∀ items : List ItemType, (∀ item ∈ items, item.NameIdentifies) →
    (∀ f, Within f (items.flatMap ItemType.fields) → f.type.NamesIdentify) →
    ((∀ tree ∈ itemTrees items, Solid tree) ↔
      (∀ item ∈ items, item.IsGiven) ∧ ∀ f, Within f (items.flatMap ItemType.fields) → f.type.Filled)
  | [], _, _ => iff_of_true (List.forall_mem_nil _) ⟨List.forall_mem_nil _, forall_within_nil⟩
  | item :: items, h, hfields => by
      obtain ⟨hitem, hitems⟩ := List.forall_mem_cons.mp h
      rw [List.flatMap_cons] at hfields ⊢
      obtain ⟨hbelow, hrest⟩ := forall_within_append.mp hfields
      rw [itemTrees, List.forall_mem_cons, List.forall_mem_cons, solid_itemTree_iff item hitem hbelow,
        solid_itemTrees_iff items hitems hrest, forall_within_append]
      exact and_and_and_comm

end

/-- **What is blank in a type is what the schema left empty.** Let the names in the type of a field, at any
depth, be identifiers or missing. Then the field is written as its parts say, and no part of its type is
blank, so that no union is without branches and no member without a type, exactly if at every depth each
enumeration has an option, each list of several kinds of items has one, and no name is missing. -/
theorem fieldLine_solid (field : Field) (h : ∀ f, Within f [field] → f.type.NamesIdentify) :
    fieldExpression field.type = .ok (.str (typeTree field.type).text) ∧
      fieldLine field = .ok (memberText (memberTree field)) ∧
      (Solid (typeTree field.type) ↔ ∀ f, Within f [field] → f.type.Filled) := by
  obtain ⟨⟨hfield, hbelow⟩, -⟩ := forall_within_cons.mp h
  refine ⟨fieldExpression_eq field.type hfield hbelow, fieldLine_eq field hfield hbelow, ?_⟩
  rw [solid_typeTree_iff field.type hfield hbelow, forall_within_cons]
  exact (and_iff_left forall_within_nil).symm

/-- A member that stands for an object without a name. -/
def namelessField : Field := ⟨.str "teaser", .bool true, .null, .null, .object (.str "")⟩

theorem namesIdentify_namelessField : namelessField.type.NamesIdentify :=
  ⟨by rintro _ ⟨⟩; exact .inl rfl, List.forall_mem_nil _⟩

/-- A list of items of which two were given nothing to consist of, one in a record. -/
def partlyFilledField : Field where
  name := .str "sections"
  required := .bool false
  description := .null
  default := .null
  type := .polymorphicList [.enumeration [], .inlineObject [namelessField], .reference (.str "Page")]

theorem fieldLine_solid_partlyFilledField :
    (∀ f, Within f [partlyFilledField] → f.type.NamesIdentify) ∧
      fieldLine partlyFilledField = .ok (memberText (memberTree partlyFilledField)) ∧
      ¬Solid (typeTree partlyFilledField.type) := by
  have hitems : partlyFilledField.type.NamesIdentify := by
    refine ⟨nofun, List.forall_mem_cons.mpr ⟨nofun, List.forall_mem_cons.mpr ⟨nofun, ?_⟩⟩⟩
    rw [List.forall_mem_singleton]
    rintro _ ⟨⟩
    exact .inr ⟨_, rfl, by decide⟩
  have hnames : ∀ f, Within f [partlyFilledField] → f.type.NamesIdentify :=
    forall_within_cons.mpr ⟨⟨hitems, forall_within_cons.mpr
      ⟨⟨namesIdentify_namelessField, forall_within_nil⟩, forall_within_nil⟩⟩, forall_within_nil⟩
  obtain ⟨-, hline, hsolid⟩ := fieldLine_solid partlyFilledField hnames
  refine ⟨hnames, hline, fun h => ?_⟩
  exact (hsolid.mp h _ (.here (List.mem_singleton_self _))).2 _ List.mem_cons_self rfl

/-- A record of members that say nothing of what their types consist of. -/
def unfilledValue : Value :=
  .obj [("name", .str "block"), ("type", .str "inline_object"), ("fieldDefs", .arr [
    .obj [("name", .str "kind"), ("type", .str "enum"), ("required", .bool true)],
    .obj [("name", .str "parts"), ("type", .str "polymorphic_list"), ("required", .bool true)],
    .obj [("name", .str "teaser"), ("type", .str "object"), ("required", .bool true)]])]

/-- The field of `unfilledValue`. -/
def unfilledField : Field where
  name := .str "block"
  required := .bool false
  description := .null
  default := .null
  type := .inlineObject [
    ⟨.str "kind", .bool true, .null, .null, .enumeration []⟩,
    ⟨.str "parts", .bool true, .null, .null, .polymorphicList []⟩,
    namelessField]

/-- A field that is taken may have members without a type and a union without branches in it. A union of
definitions without any is `never` instead. -/
theorem blank_unfilledField :
    fieldOfValue .root unfilledValue = .ok unfilledField ∧
      (∀ f, Within f [unfilledField] → f.type.NamesIdentify) ∧
      fieldExpression unfilledField.type =
        .ok (.str "\x7b\n  kind: \n  parts: ()[]\n  teaser: \n\x7d") ∧
      nameUnion [] = .ok "never" := by
  refine ⟨fieldOfValue_eq_ok_iff.mpr ?_, ?_, ?_, rfl⟩
  · exact .field rfl rfl (.inlineObject (.list rfl) (.cons (.field rfl rfl (.enumeration (.missing rfl)))
      (.cons (.field rfl rfl (.polymorphicList (.missing rfl) .nil)) (.cons (.field rfl rfl .object) .nil))))
  · have hmembers : ∀ f, Within f unfilledField.type.fields → f.type.NamesIdentify :=
      forall_within_cons.mpr ⟨⟨⟨nofun, nofun⟩, forall_within_nil⟩, forall_within_cons.mpr
        ⟨⟨⟨nofun, nofun⟩, forall_within_nil⟩, forall_within_cons.mpr
          ⟨⟨namesIdentify_namelessField, forall_within_nil⟩, forall_within_nil⟩⟩⟩
    exact forall_within_cons.mpr ⟨⟨⟨nofun, nofun⟩, hmembers⟩, forall_within_nil⟩
  · rfl

end TypeScript

end ContentTypes
