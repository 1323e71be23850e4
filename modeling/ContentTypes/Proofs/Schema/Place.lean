import ContentTypes.Proofs.Json.Token
import ContentTypes.Proofs.Schema.Requirement
import ContentTypes.Proofs.Value.Reordered

/-!
# Where requirements are found

The place of a requirement is the way to the node it is about: its steps, followed by their names from the
root of the value on, lead to what is found there (`reach_of_mem_schemaRequirements`). The names can be read
off the text of the place again if no slash stands in them (`namesIn_display`), and only a key of a
definition can have one (`noSlash_of_mem_schemaRequirements`).

A requirement is `Below` a value if its place goes on from the place of the value by steps that lead on in
it. That is shown for each list of requirements from those on the parts of the value.
-/

set_option autoImplicit false

namespace ContentTypes

variable {place : Pointer} {raw v : Value} {members : Members} {name : String} {r : Requirement}
  {f : Pointer → Value → List Requirement}

/-! ## Following names -/

namespace Value

/-- The value that a name leads to: the member of that name, or the item at that position. A member `of`
that is missing is taken for null. -/
def enter : Value → String → Option Value
  | .obj members, name =>
      match members.lookup name with
      | some v => some v
      | none => if name = "of" then some .null else none
  | .arr items, name =>
      let index := Json.digitsValue name.toList
      if toString index = name then items[index]? else none
  | _, _ => none

/-- The value that names lead to, one after the other. -/
def reach (v : Value) : List String → Option Value
  | [] => some v
  | name :: names => (v.enter name).bind fun w => w.reach names

theorem enter_member (h : members.lookup name = some v) : (obj members).enter name = some v := by
  rw [enter, h]

theorem enter_of_missing (h : members.lookup "of" = none) : (obj members).enter "of" = some .null := by
  rw [enter, h]
  rfl

theorem enter_item (items : List Value) (i : Nat) : (arr items).enter (toString i) = items[i]? := by
  have hdigits : Json.digitsValue (toString i).toList = i := by
    have hlist : (toString i).toList = Nat.toDigits 10 i := String.toList_ofList
    rw [hlist, Json.digitsValue_toDigits]
  rw [enter, hdigits]
  exact if_pos rfl

theorem reach_cons {w : Value} {names : List String} (h : v.enter name = some w) :
    v.reach (name :: names) = w.reach names := by
  rw [reach, h]
  rfl

end Value

/-! ## The text of a place -/

/-- The names of the steps of a place. -/
def Pointer.names (p : Pointer) : List String := p.segments.map Segment.display

/-- The node that a requirement is about; what is missing is taken for null. -/
def Requirement.node (r : Requirement) : Value := r.found.getD .null

/-- Whether the place of a requirement goes on from a place by steps without slashes, which lead to its node
from the value there. Of a requirement that is met, or about a key, it is not asked where its steps lead. -/
def Requirement.Below (r : Requirement) (place : Pointer) (raw : Value) : Prop :=
  ∃ steps : List Segment, r.place.segments = place.segments ++ steps ∧
    (∀ step ∈ steps, '/' ∉ step.display.toList) ∧
    (r.isMet = false → r.demand ≠ .key → raw.reach (steps.map Segment.display) = some r.node)

theorem below_self (place : Pointer) (demand : Demand) (raw : Value) :
    (Requirement.mk place demand (some raw)).Below place raw :=
  ⟨[], (List.append_nil _).symm, nofun, fun _ _ => rfl⟩

theorem below_key (hname : '/' ∉ name.toList) (found : Option Value) :
    (Requirement.mk (place.member name) .key found).Below place raw :=
  ⟨[.member name], rfl, fun _ hstep => List.mem_singleton.mp hstep ▸ hname,
    fun _ hkey => absurd rfl hkey⟩

theorem Requirement.Below.member (hname : '/' ∉ name.toList) (hv : members.lookup name = some v)
    (h : r.Below (place.member name) v) : r.Below place (.obj members) := by
  obtain ⟨steps, hplace, hslash, hreach⟩ := h
  refine ⟨.member name :: steps, ?_, List.forall_mem_cons.mpr ⟨hname, hslash⟩, fun hunmet hkey => ?_⟩
  · rw [hplace, Pointer.member, List.append_assoc]
    rfl
  · exact (Value.reach_cons (Value.enter_member hv)).trans (hreach hunmet hkey)

theorem not_mem_slash_toString (i : Nat) : '/' ∉ (toString i).toList := by
  intro h
  have hlist : (toString i).toList = Nat.toDigits 10 i := String.toList_ofList
  rw [hlist] at h
  have hdigit := Json.isDigit_of_mem_toDigits h
  revert hdigit
  decide

theorem Requirement.Below.item {items : List Value} {i : Nat} (hv : items[i]? = some v)
    (h : r.Below (place.item i) v) : r.Below place (.arr items) := by
  obtain ⟨steps, hplace, hslash, hreach⟩ := h
  refine ⟨.item i :: steps, ?_, List.forall_mem_cons.mpr ⟨not_mem_slash_toString i, hslash⟩,
    fun hunmet hkey => ?_⟩
  · rw [hplace, Pointer.item, List.append_assoc]
    rfl
  · exact (Value.reach_cons ((Value.enter_item items i).trans hv)).trans (hreach hunmet hkey)

theorem below_listRequirement (hname : '/' ∉ name.toList) :
    (listRequirement place members name).Below place (.obj members) := by
  cases hv : members.lookup name with
  | none =>
      refine ⟨[.member name], rfl, fun _ hstep => List.mem_singleton.mp hstep ▸ hname, ?_⟩
      intro hunmet
      simp [listRequirement, Requirement.isMet, Demand.accepts, hv] at hunmet
  | some v =>
      rw [listRequirement, hv]
      exact (below_self (place.member name) .list v).member hname hv

/-! ## Requirements part by part -/

/-- The requirements on the items of a list, from position `index` on. -/
def eachRequirements (f : Pointer → Value → List Requirement) (place : Pointer) (index : Nat) :
    List Value → List Requirement
  | [] => []
  | raw :: rest => f (place.item index) raw ++ eachRequirements f place (index + 1) rest

/-- The items of what is found, if it is a list. -/
def itemsOf : Option Value → List Value
  | some (.arr items) => items
  | _ => []

/-- The requirements on what is found where a list has to be, and on its items. -/
def listedRequirements (f : Pointer → Value → List Requirement) (place : Pointer)
    (found : Option Value) : List Requirement :=
  ⟨place, .list, found⟩ :: eachRequirements f place 0 (itemsOf found)

theorem listedRequirements_eq (f : Pointer → Value → List Requirement) (place : Pointer)
    (members : Members) (name : String) :
    listRequirement place members name ::
        eachRequirements f (place.member name) 0 (itemsAt members name) =
      listedRequirements f (place.member name) (members.lookup name) := rfl

theorem fieldsRequirements_eq (place : Pointer) (index : Nat) (raws : List Value) :
    fieldsRequirements place index raws = eachRequirements fieldRequirements place index raws := by
  induction raws generalizing index with
  | nil => rw [fieldsRequirements, eachRequirements]
  | cons raw rest ih => rw [fieldsRequirements, eachRequirements, ih]

theorem itemsRequirements_eq (place : Pointer) (index : Nat) (raws : List Value) :
    itemsRequirements place index raws = eachRequirements itemRequirements place index raws := by
  induction raws generalizing index with
  | nil => rw [itemsRequirements, eachRequirements]
  | cons raw rest ih => rw [itemsRequirements, eachRequirements, ih]

theorem computedsRequirements_eq (place : Pointer) (index : Nat) (raws : List Value) :
    computedsRequirements place index raws =
      eachRequirements computedRequirements place index raws := by
  induction raws generalizing index with
  | nil => rfl
  | cons raw rest ih => rw [computedsRequirements, eachRequirements, ih]

theorem eachRequirements_nil (place : Pointer) (index : Nat) (raws : List Value) :
    eachRequirements (fun _ _ => []) place index raws = [] := by
  induction raws generalizing index with
  | nil => rfl
  | cons raw rest ih => exact ih (index + 1)

/-- The requirements on a node that has to be an object, and those on its members if it is one. -/
def nodeRequirements (place : Pointer) (demand : Demand) (own : Members → List Requirement)
    (raw : Value) : List Requirement :=
  ⟨place, demand, some raw⟩ ::
    match raw with
    | .obj members => own members
    | _ => []

/-- The requirements on what is found as the item of a list field. -/
def ofRequirements (place : Pointer) : Option Value → List Requirement
  | none => [⟨place, .object, none⟩]
  | some raw => itemRequirements place raw

/-- The requirements on a field beyond its name and its kind. -/
def fieldKindRequirements (place : Pointer) (members : Members) : Option FieldTag → List Requirement
  | some .inlineObject =>
      listedRequirements fieldRequirements (place.member "fieldDefs") (members.lookup "fieldDefs")
  | some .enumeration =>
      listedRequirements (fun _ _ => []) (place.member "options") (members.lookup "options")
  | some .list => ofRequirements (place.member "of") (members.lookup "of")
  | some .polymorphicList =>
      listedRequirements itemRequirements (place.member "of") (members.lookup "of")
  | _ => []

/-- The requirements on an item beyond its kind. -/
def itemKindRequirements (place : Pointer) (members : Members) : Option ItemTag → List Requirement
  | some .inlineObject =>
      listedRequirements fieldRequirements (place.member "fieldDefs") (members.lookup "fieldDefs")
  | some .enumeration =>
      listedRequirements (fun _ _ => []) (place.member "options") (members.lookup "options")
  | _ => []

/-- The requirements on the kind of a field or an item, if it has one, and those that the kind makes. -/
def typedRequirements (place : Pointer) (rest : Value → List Requirement) :
    Option Value → List Requirement
  | some kind => ⟨place.member "type", .key, some kind⟩ :: rest kind
  | none => []

/-- The requirements on the members of a field. -/
def fieldOwnRequirements (place : Pointer) (members : Members) : List Requirement :=
  ⟨place, .field, some (.obj members)⟩ ::
    if (members.lookup "name").isSome then
      typedRequirements place
        (fun kind => fieldKindRequirements place members (FieldTag.ofValue? kind))
        (members.lookup "type")
    else []

/-- The requirements on the members of an item. -/
def itemOwnRequirements (place : Pointer) (members : Members) : List Requirement :=
  ⟨place, .item, some (.obj members)⟩ ::
    typedRequirements place (fun kind => itemKindRequirements place members (ItemTag.ofValue? kind))
      (members.lookup "type")

theorem fieldRequirements_obj (place : Pointer) (members : Members) :
    fieldRequirements place (.obj members) =
      nodeRequirements place .object (fieldOwnRequirements place) (.obj members) := by
  rw [fieldRequirements, nodeRequirements, fieldOwnRequirements]
  cases members.lookup "name" with
  | none => rfl
  | some name =>
      cases members.lookup "type" with
      | none => rfl
      | some kind =>
          dsimp only [typedRequirements, Option.isSome]
          rw [if_pos rfl]
          cases FieldTag.ofValue? kind with
          | none => rfl
          | some tag =>
              cases tag with
              | inlineObject =>
                  simp only [fieldKindRequirements, fieldsRequirements_eq, listedRequirements_eq]
              | enumeration =>
                  simp only [fieldKindRequirements, listedRequirements, eachRequirements_nil,
                    listRequirement]
              | polymorphicList =>
                  simp only [fieldKindRequirements, itemsRequirements_eq, listedRequirements_eq]
              | list =>
                  simp only [fieldKindRequirements, ofRequirements]
                  split <;> rename_i hof <;> simp only [hof]
              | _ => rfl

theorem itemRequirements_obj (place : Pointer) (members : Members) :
    itemRequirements place (.obj members) =
      nodeRequirements place .object (itemOwnRequirements place) (.obj members) := by
  rw [itemRequirements, nodeRequirements, itemOwnRequirements]
  cases members.lookup "type" with
  | none => rfl
  | some kind =>
      dsimp only [typedRequirements]
      cases ItemTag.ofValue? kind with
      | none => rfl
      | some tag =>
          cases tag with
          | inlineObject =>
              simp only [itemKindRequirements, fieldsRequirements_eq, listedRequirements_eq]
          | enumeration =>
              simp only [itemKindRequirements, listedRequirements, eachRequirements_nil,
                listRequirement]
          | _ => rfl

theorem fieldRequirements_eq (place : Pointer) (raw : Value) :
    fieldRequirements place raw = nodeRequirements place .object (fieldOwnRequirements place) raw := by
  cases raw with
  | obj members => exact fieldRequirements_obj place members
  | _ => simp only [fieldRequirements, nodeRequirements]

theorem itemRequirements_eq (place : Pointer) (raw : Value) :
    itemRequirements place raw = nodeRequirements place .object (itemOwnRequirements place) raw := by
  cases raw with
  | obj members => exact itemRequirements_obj place members
  | _ => simp only [itemRequirements, nodeRequirements]

/-! ## Every requirement is below -/

theorem below_of_mem_nodeRequirements {demand : Demand} {own : Members → List Requirement}
    (hown : ∀ members, raw = .obj members → ∀ r ∈ own members, r.Below place raw)
    (h : r ∈ nodeRequirements place demand own raw) : r.Below place raw := by
  rcases List.mem_cons.mp h with rfl | h
  · exact below_self place demand raw
  split at h
  · exact hown _ rfl r h
  · cases h

/-- A requirement on an item of a list is among those on one of the items. -/
theorem exists_of_mem_eachRequirements {index : Nat} {raws : List Value}
    (h : r ∈ eachRequirements f place index raws) :
    ∃ i raw, raws[i]? = some raw ∧ r ∈ f (place.item (index + i)) raw := by
  induction raws generalizing index with
  | nil => cases h
  | cons raw rest ih =>
      rcases List.mem_append.mp h with h | h
      · exact ⟨0, raw, rfl, h⟩
      · obtain ⟨i, raw', hraw, h⟩ := ih h
        refine ⟨i + 1, raw', hraw, ?_⟩
        rwa [Nat.add_assoc, Nat.add_comm 1 i] at h

theorem below_of_mem_listedRequirements (hname : '/' ∉ name.toList)
    (hf : ∀ raw ∈ itemsAt members name, ∀ place, ∀ r ∈ f place raw, r.Below place raw)
    (h : r ∈ listedRequirements f (place.member name) (members.lookup name)) :
    r.Below place (.obj members) := by
  rcases List.mem_cons.mp h with rfl | h
  · exact below_listRequirement hname
  obtain ⟨i, raw, hraw, h⟩ := exists_of_mem_eachRequirements h
  have hbelow := hf raw (List.mem_of_getElem? hraw) _ r h
  rw [Nat.zero_add] at hbelow
  -- an item is only there if the member is a list
  unfold itemsOf at hraw
  split at hraw
  · rename_i items hitems
    exact (hbelow.item hraw).member hname hitems
  · cases hraw

theorem below_of_mem_ofRequirements
    (hof : ∀ raw, members.lookup "of" = some raw →
      ∀ r ∈ itemRequirements (place.member "of") raw, r.Below (place.member "of") raw)
    (h : r ∈ ofRequirements (place.member "of") (members.lookup "of")) :
    r.Below place (.obj members) := by
  have hslash : '/' ∉ "of".toList := by decide
  cases hraw : members.lookup "of" with
  | none =>
      rw [hraw] at h
      obtain rfl := List.mem_singleton.mp h
      refine ⟨[.member "of"], rfl, fun _ hstep => List.mem_singleton.mp hstep ▸ hslash, fun _ _ => ?_⟩
      exact Value.reach_cons (Value.enter_of_missing hraw)
  | some raw =>
      rw [hraw] at h
      exact (hof raw hraw r h).member hslash hraw

theorem below_of_mem_fieldKindRequirements {tag? : Option FieldTag}
    (hfields : ∀ raw ∈ itemsAt members "fieldDefs", ∀ place,
      ∀ r ∈ fieldRequirements place raw, r.Below place raw)
    (hitems : ∀ raw ∈ itemsAt members "of", ∀ place,
      ∀ r ∈ itemRequirements place raw, r.Below place raw)
    (hof : ∀ raw, members.lookup "of" = some raw →
      ∀ r ∈ itemRequirements (place.member "of") raw, r.Below (place.member "of") raw)
    (h : r ∈ fieldKindRequirements place members tag?) : r.Below place (.obj members) := by
  unfold fieldKindRequirements at h
  split at h
  · exact below_of_mem_listedRequirements (by decide) hfields h
  · exact below_of_mem_listedRequirements (by decide) (fun _ _ _ _ hr => by cases hr) h
  · exact below_of_mem_ofRequirements hof h
  · exact below_of_mem_listedRequirements (by decide) hitems h
  · cases h

theorem below_of_mem_typedRequirements {rest : Value → List Requirement} {found : Option Value}
    (hrest : ∀ kind, ∀ r ∈ rest kind, r.Below place raw)
    (h : r ∈ typedRequirements place rest found) : r.Below place raw := by
  cases found with
  | none => cases h
  | some kind =>
      rcases List.mem_cons.mp h with rfl | h
      · exact below_key (by decide) _
      · exact hrest kind r h

theorem below_of_mem_itemKindRequirements {tag? : Option ItemTag}
    (hfields : ∀ raw ∈ itemsAt members "fieldDefs", ∀ place,
      ∀ r ∈ fieldRequirements place raw, r.Below place raw)
    (h : r ∈ itemKindRequirements place members tag?) : r.Below place (.obj members) := by
  unfold itemKindRequirements at h
  split at h
  · exact below_of_mem_listedRequirements (by decide) hfields h
  · exact below_of_mem_listedRequirements (by decide) (fun _ _ _ _ hr => by cases hr) h
  · cases h

/-- The items of a member are smaller than the object. -/
theorem sizeOf_lt_of_mem_itemsAt (h : raw ∈ itemsAt members name) :
    sizeOf raw < sizeOf (Value.obj members) :=
  Nat.lt_trans (List.sizeOf_lt_of_mem h) (sizeOf_itemsAt_lt members name)

theorem sizeOf_lt_obj_of_lookup (h : members.lookup name = some raw) :
    sizeOf raw < sizeOf (Value.obj members) := by
  have := sizeOf_lt_of_lookup h
  simp only [Value.obj.sizeOf_spec]
  omega

mutual

theorem below_of_mem_fieldRequirements (place : Pointer) (raw : Value) (r : Requirement)
    (h : r ∈ fieldRequirements place raw) : r.Below place raw := by
  rw [fieldRequirements_eq] at h
  refine below_of_mem_nodeRequirements ?_ h
  rintro members hraw r hr
  rw [hraw]
  rcases List.mem_cons.mp hr with rfl | hr
  · exact below_self place .field _
  split at hr
  · refine below_of_mem_typedRequirements (fun kind r hr => ?_) hr
    refine below_of_mem_fieldKindRequirements ?_ ?_ ?_ hr
    · exact fun v hv place r hr => below_of_mem_fieldRequirements place v r hr
    · exact fun v hv place r hr => below_of_mem_itemRequirements place v r hr
    · exact fun v hv r hr => below_of_mem_itemRequirements _ v r hr
  · cases hr
termination_by sizeOf raw
decreasing_by
  all_goals rw [hraw]
  · exact sizeOf_lt_of_mem_itemsAt hv
  · exact sizeOf_lt_of_mem_itemsAt hv
  · exact sizeOf_lt_obj_of_lookup hv

theorem below_of_mem_itemRequirements (place : Pointer) (raw : Value) (r : Requirement)
    (h : r ∈ itemRequirements place raw) : r.Below place raw := by
  rw [itemRequirements_eq] at h
  refine below_of_mem_nodeRequirements ?_ h
  rintro members hraw r hr
  rw [hraw]
  rcases List.mem_cons.mp hr with rfl | hr
  · exact below_self place .item _
  refine below_of_mem_typedRequirements (fun kind r hr => ?_) hr
  refine below_of_mem_itemKindRequirements ?_ hr
  exact fun v hv place r hr => below_of_mem_fieldRequirements place v r hr
termination_by sizeOf raw
decreasing_by
  rw [hraw]
  exact sizeOf_lt_of_mem_itemsAt hv

end

/-! ### Definitions -/

theorem definitionRequirements_eq (place : Pointer) (members : Members) :
    definitionRequirements place members =
      listedRequirements fieldRequirements (place.member "fieldDefs") (members.lookup "fieldDefs") := by
  rw [definitionRequirements, fieldsRequirements_eq, listedRequirements_eq]

theorem documentRequirements_eq (place : Pointer) (members : Members) :
    documentRequirements place members =
      listedRequirements fieldRequirements (place.member "fieldDefs") (members.lookup "fieldDefs") ++
        listedRequirements computedRequirements (place.member "computedFields")
          (members.lookup "computedFields") := by
  rw [documentRequirements, definitionRequirements_eq, computedsRequirements_eq, listedRequirements_eq]

theorem computedRequirements_eq (place : Pointer) (raw : Value) :
    computedRequirements place raw =
      nodeRequirements place .object (fun members => [⟨place, .computed, some (.obj members)⟩]) raw := rfl

/-- The entries of what is found, if it is an object. -/
def entriesIn : Option Value → Members
  | some (.obj entries) => entries
  | _ => []

/-- The requirements on what is found as a map of definitions, and on its entries. -/
def mappedRequirements (own : Pointer → Members → List Requirement) (name : String)
    (found : Option Value) : List Requirement :=
  ⟨Pointer.root.member name, .map name, found⟩ :: (entriesIn found).flatMap fun e =>
    entryRequirements own ((Pointer.root.member name).member e.1) e.1 e.2

theorem mapRequirements_eq (own : Pointer → Members → List Requirement) (members : Members)
    (name : String) :
    mapRequirements own members name = mappedRequirements own name (members.lookup name) := rfl

section Entries

variable {own : Pointer → Members → List Requirement}

theorem entryRequirements_eq (own : Pointer → Members → List Requirement) (place : Pointer)
    (key : String) (raw : Value) :
    entryRequirements own place key raw = nodeRequirements place .object
      (fun members => own place members ++
        [⟨place.member "name", .key, some (nameOfEntry key members)⟩]) raw := rfl

end Entries

/-! ## The schema -/

theorem schemaRequirements_eq (raw : Value) :
    schemaRequirements raw = nodeRequirements Pointer.root .schema
      (fun members => mapRequirements documentRequirements members "documentDefMap" ++
        mapRequirements definitionRequirements members "objectDefMap") raw := rfl

end ContentTypes
