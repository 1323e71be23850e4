import ContentTypes.Proofs.Schema.Form

/-!
# Edits that declarations do not depend on

Of the members of a node some are not read at all, and some are read but come to nothing in a declaration.
`Edit part raw raw'` says that a value is changed into another one in one such member, of the node itself
or of one below it, at any depth. What counts as such a member depends on which part of a schema a node is.
-/

set_option autoImplicit false

namespace ContentTypes

/-! ## The parts of a schema -/

/-- The parts of a schema that are nodes with members. -/
inductive Part where
  | schema | document | object | field | item | computed
  deriving DecidableEq, Repr

/-- The member that is read for a field of this kind only. -/
def FieldTag.member? : FieldTag → Option String
  | .reference => some "documentName"
  | .object => some "objectName"
  | .inlineObject => some "fieldDefs"
  | .enumeration => some "options"
  | .list | .polymorphicList => some "of"
  | .boolean | .string | .date | .image | .markdown => none

/-- The member that is read for a list item of this kind only. -/
def ItemTag.member? : ItemTag → Option String
  | .reference => some "documentName"
  | .object => some "objectName"
  | .inlineObject => some "fieldDefs"
  | .enumeration => some "options"
  | .boolean | .string => none

/-- The members that are read of a node which is this part of a schema. -/
def Part.membersRead (members : Members) : Part → List String
  | .schema => ["documentDefMap", "objectDefMap"]
  | .document => ["name", "label", "description", "fieldDefs", "computedFields", "filePathPattern"]
  | .object => ["name", "label", "description", "fieldDefs"]
  | .field =>
      commonMembers ++ (((members.lookup "type").bind FieldTag.ofValue?).bind FieldTag.member?).toList
  | .item => "type" :: (((members.lookup "type").bind ItemTag.ofValue?).bind ItemTag.member?).toList
  | .computed => ["name", "type", "description"]

/-- `Lists part name part'`: the member of a part is a list whose values are parts, too. -/
inductive Lists : Part → String → Part → Prop where
  | documentFields : Lists .document "fieldDefs" .field
  | objectFields : Lists .object "fieldDefs" .field
  | recordFields : Lists .field "fieldDefs" .field
  | itemFields : Lists .item "fieldDefs" .field
  | listItems : Lists .field "of" .item
  | computedFields : Lists .document "computedFields" .computed

/-- `Maps name part`: the member of a schema maps keys to parts. -/
inductive Maps : String → Part → Prop where
  | documents : Maps "documentDefMap" .document
  | objects : Maps "objectDefMap" .object

/-! ## Edits -/

/-- Whether two objects differ in one member at most, which is `before` in the first and `after` in the
second. -/
structure Changes (members members' : Members) (name : String) (before after : Option Value) :
    Prop where
  before : members.lookup name = before
  after : members'.lookup name = after
  others : ∀ name' ≠ name, members'.lookup name' = members.lookup name'

/-- Replacing the value of a member changes that member only. -/
theorem changes_replace {name : String} {v v' : Value} (before after : Members)
    (hname : name ∉ before.map (·.1)) :
    Changes (before ++ (name, v) :: after) (before ++ (name, v') :: after) name (some v) (some v') := by
  induction before with
  | nil =>
      refine ⟨by simp, by simp, fun name' hne => ?_⟩
      simp [List.lookup_cons, beq_false_of_ne hne]
  | cons first before ih =>
      obtain ⟨hfirst, hbefore⟩ : name ≠ first.1 ∧ name ∉ before.map (·.1) := by
        simpa [not_or] using hname
      obtain ⟨hv, hv', hothers⟩ := ih hbefore
      have hne : (name == first.1) = false := beq_false_of_ne hfirst
      refine ⟨?_, ?_, fun name' hname' => ?_⟩
      · rwa [List.cons_append, List.lookup_cons, hne]
      · rwa [List.cons_append, List.lookup_cons, hne]
      · rw [List.cons_append, List.cons_append, List.lookup_cons, List.lookup_cons, hothers name' hname']

mutual

/-- `Edit part raw raw'`: the two values differ in what declarations do not depend on, in one place. -/
inductive Edit : Part → Value → Value → Prop where
  | member {part : Part} {members members' : Members} {name : String} {v v' : Option Value}
      (h : Changes members members' name v v') (hmember : MemberEdit part members name v v') :
      Edit part (.obj members) (.obj members')

/-- `MemberEdit part members name v v'`: that the member `name` of a part with these members is changed
from `v` to `v'` makes no difference to declarations. -/
inductive MemberEdit : Part → Members → String → Option Value → Option Value → Prop where
  -- what is not read
  | unread {part : Part} {members : Members} {name : String} {v v' : Option Value}
      (hname : name ∉ part.membersRead members) : MemberEdit part members name v v'
  -- what is read
  | default {members : Members} {v v' : Option Value} : MemberEdit .field members "default" v v'
  | filePathPattern {members : Members} {v v' : Option Value} :
      MemberEdit .document members "filePathPattern" v v'
  | label {part : Part} {members : Members} {v v' : Option Value}
      (hpart : part = .document ∨ part = .object)
      (h : ((members.lookup "description").getD .null).holds = true) :
      MemberEdit part members "label" v v'
  | documentName {members : Members} {v v' : Option Value}
      (h : members.lookup "type" = some (.str FieldTag.reference.name)) :
      MemberEdit .field members "documentName" v v'
  | required {members : Members} {v v' : Option Value}
      (h : (v'.getD (.bool false)).holds = (v.getD (.bool false)).holds) :
      MemberEdit .field members "required" v v'
  | description {part : Part} {members : Members} {v v' : Option Value}
      (hpart : part = .field ∨ part = .computed) (h : (v.getD .null).holds = false)
      (h' : (v'.getD .null).holds = false) : MemberEdit part members "description" v v'
  -- what is below
  | listed {part part' : Part} {members : Members} {name : String} {before after : List Value}
      {raw raw' : Value} (hpart : Lists part name part') (h : Edit part' raw raw') :
      MemberEdit part members name (some (.arr (before ++ raw :: after)))
        (some (.arr (before ++ raw' :: after)))
  | item {members : Members} {raw raw' : Value} (h : Edit .item raw raw') :
      MemberEdit .field members "of" (some raw) (some raw')
  | entry {part : Part} {members before after : Members} {name key : String} {raw raw' : Value}
      (hpart : Maps name part) (h : Edit part raw raw') :
      MemberEdit .schema members name (some (.obj (before ++ (key, raw) :: after)))
        (some (.obj (before ++ (key, raw') :: after)))
  -- a definition that has a name of its own is entered under another key
  | key {part : Part} {members before after node : Members} {name key key' : String} {found : Value}
      (hpart : Maps name part) (hname : node.lookup "name" = some found)
      (hkey : key' ∉ (before ++ after).map (·.1)) :
      MemberEdit .schema members name (some (.obj (before ++ (key, .obj node) :: after)))
        (some (.obj (before ++ (key', .obj node) :: after)))

end

/-! ## Forms where members agree -/

/-- The key of a definition plays no part if the definition has a name of its own. -/
theorem definitionOfParts_eq_of_name {node : Members} {found : Value} (key key' : String)
    (fields : List Field) (hname : node.lookup "name" = some found) :
    definitionOfParts key' node fields = definitionOfParts key node fields := by
  simp only [definitionOfParts, hname, Option.getD_some]

theorem ObjectForm.of_name {key key' : String} {node : Members} {found : Value} {d : Definition}
    (hname : node.lookup "name" = some found) (h : ObjectForm key (.obj node) d) :
    ObjectForm key' (.obj node) d := by
  cases h with
  | object hraws hfields =>
      rw [definitionOfParts_eq_of_name key' key _ hname]
      exact .object hraws hfields

theorem DocumentForm.of_name {key key' : String} {node : Members} {found : Value} {d : Document}
    (hname : node.lookup "name" = some found) (h : DocumentForm key (.obj node) d) :
    DocumentForm key' (.obj node) d := by
  cases h with
  | document hraws hfields hcomputedRaws hcomputed =>
      rw [definitionOfParts_eq_of_name key' key _ hname]
      exact .document hraws hfields hcomputedRaws hcomputed

theorem fieldsForm_iff {raws : List Value} {fields : List Field} :
    FieldsForm raws fields ↔ List.Forall₂ FieldForm raws fields := by
  constructor
  · intro h
    induction raws generalizing fields with
    | nil =>
        cases h
        exact .nil
    | cons raw raws ih =>
        cases h with
        | cons hfield hfields => exact .cons hfield (ih hfields)
  · intro h
    induction h with
    | nil => exact .nil
    | cons hfield _ ih => exact .cons hfield ih

theorem itemsForm_iff {raws : List Value} {items : List ItemType} :
    ItemsForm raws items ↔ List.Forall₂ ItemForm raws items := by
  constructor
  · intro h
    induction raws generalizing items with
    | nil =>
        cases h
        exact .nil
    | cons raw raws ih =>
        cases h with
        | cons hitem hitems => exact .cons hitem (ih hitems)
  · intro h
    induction h with
    | nil => exact .nil
    | cons hitem _ ih => exact .cons hitem ih

end ContentTypes
