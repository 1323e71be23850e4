import ContentTypes.Proofs.Schema.Grammar

/-!
# What a schema has to meet

The demands on the nodes of a value that is to be a schema, listed in the order in which they are
looked at: the root, then the documents, then the objects; a definition before its fields, the fields
depth first, then the computed fields, then the name that the definition is kept under. A node that
fails a demand has no further ones, those behind it have theirs all the same.

Loading reports the first demand that is not met, and nothing but that (`Schema.defect?_ofValue`); a
value that meets all of them is in the grammar. So a value outside the grammar is refused for a node
that is malformed, unless what fails first is a name or a kind that cannot be a key
(`Schema.ofValue_grammar`).
-/

set_option autoImplicit false

namespace ContentTypes

/-! ## Requirements -/

/-- What may be demanded of a node. -/
inductive Demand where
  /-- The root is an object. -/
  | schema
  /-- The map of that name is an object, unless it is missing or counts as no. -/
  | map (name : String)
  /-- An object. -/
  | object
  /-- A list, unless it is missing. -/
  | list
  /-- Both members that a field needs. -/
  | field
  /-- Both members that a computed field needs. -/
  | computed
  /-- The member that an item of a list needs. -/
  | item
  /-- A value that can be a key. -/
  | key
  deriving DecidableEq

/-- A demand on what is found at a place. -/
structure Requirement where
  place : Pointer
  demand : Demand
  found : Option Value

/-- Whether what is found, if anything, meets a demand. -/
def Demand.accepts : Demand → Option Value → Bool
  | .schema, some (.obj _) | .object, some (.obj _) => true
  | .map _, none | .map _, some (.obj _) => true
  | .map _, some v => !v.holds
  | .list, none | .list, some (.arr _) => true
  | .field, some (.obj members) | .computed, some (.obj members) =>
      (members.lookup "name").isSome && (members.lookup "type").isSome
  | .item, some (.obj members) => (members.lookup "type").isSome
  | .key, some v => v.isScalar
  | _, _ => false

namespace Requirement

/-- Whether a requirement is met. -/
def isMet (r : Requirement) : Bool := r.demand.accepts r.found

/-- The sort of what is found; what is missing is taken for null. -/
def foundKind (r : Requirement) : Kind := (r.found.getD .null).kind

/-- What is reported of a requirement that is not met. -/
def error (r : Requirement) : LoadError :=
  match r.demand with
  | .schema => .malformed r.place .schemaNotObject
  | .map name => .malformed r.place (.mapNotObject name)
  | .object => .malformed r.place (.notObject r.foundKind)
  | .list => .malformed r.place (.notList r.foundKind)
  | .field => .malformed r.place .fieldIncomplete
  | .computed => .malformed r.place .computedIncomplete
  | .item => .malformed r.place .itemIncomplete
  | .key => .unusableKey r.foundKind

/-- Only a key that is not met is reported as one. -/
theorem exists_error_eq_unusableKey_iff (r : Requirement) :
    (∃ kind, r.error = .unusableKey kind) ↔ r.demand = .key := by
  obtain ⟨place, demand, found⟩ := r
  cases demand <;> simp [error]

/-- All other requirements are reported with the place that they are about. -/
theorem exists_error_eq_malformed_iff (r : Requirement) :
    (∃ problem, r.error = .malformed r.place problem) ↔ r.demand ≠ .key := by
  obtain ⟨place, demand, found⟩ := r
  cases demand <;> simp [error]

end Requirement

@[simp] theorem isMet_field (place : Pointer) (members : Members) :
    (Requirement.mk place .field (some (.obj members))).isMet =
      ((members.lookup "name").isSome && (members.lookup "type").isSome) := rfl

@[simp] theorem isMet_computed (place : Pointer) (members : Members) :
    (Requirement.mk place .computed (some (.obj members))).isMet =
      ((members.lookup "name").isSome && (members.lookup "type").isSome) := rfl

@[simp] theorem isMet_item (place : Pointer) (members : Members) :
    (Requirement.mk place .item (some (.obj members))).isMet = (members.lookup "type").isSome := rfl

@[simp] theorem isMet_key (place : Pointer) (v : Value) :
    (Requirement.mk place .key (some v)).isMet = v.isScalar := rfl

/-- What is reported of the first requirement that is not met. -/
def firstDefect? (requirements : List Requirement) : Option LoadError :=
  (requirements.find? fun r => !r.isMet).map Requirement.error

@[simp] theorem firstDefect?_nil : firstDefect? [] = none := rfl

theorem firstDefect?_cons (r : Requirement) (rs : List Requirement) :
    firstDefect? (r :: rs) = if r.isMet then firstDefect? rs else some r.error := by
  unfold firstDefect?
  rw [List.find?_cons]
  cases r.isMet <;> rfl

theorem firstDefect?_append (rs rs' : List Requirement) :
    firstDefect? (rs ++ rs') = (firstDefect? rs).or (firstDefect? rs') := by
  unfold firstDefect?
  rw [List.find?_append]
  cases rs.find? fun r => !r.isMet <;> rfl

/-- Nothing is reported of a requirement that is met. -/
theorem firstDefect?_of_met {r : Requirement} (h : r.isMet = true) (rs : List Requirement) :
    firstDefect? (r :: rs) = firstDefect? rs := by
  rw [firstDefect?_cons, if_pos h]

/-- Nothing behind a requirement that is not met is reported. -/
theorem firstDefect?_of_not_met {r : Requirement} (h : r.isMet = false) (rs : List Requirement) :
    firstDefect? (r :: rs) = some r.error := by
  rw [firstDefect?_cons, h]
  rfl

/-- Nothing is reported exactly if all requirements are met. -/
theorem firstDefect?_eq_none_iff {rs : List Requirement} :
    firstDefect? rs = none ↔ ∀ r ∈ rs, r.isMet = true := by
  simp [firstDefect?]

/-- What is reported comes from a requirement with none before it that is not met. -/
theorem exists_of_firstDefect?_eq_some {rs : List Requirement} {e : LoadError}
    (h : firstDefect? rs = some e) :
    ∃ before r after, rs = before ++ r :: after ∧ (∀ q ∈ before, q.isMet = true) ∧
      r.isMet = false ∧ r.error = e := by
  obtain ⟨r, hr, rfl⟩ := Option.map_eq_some_iff.mp h
  obtain ⟨hunmet, before, after, rfl, hbefore⟩ := List.find?_eq_some_iff_append.mp hr
  refine ⟨before, r, after, rfl, ?_, by simpa using hunmet, rfl⟩
  intro q hq
  simpa using hbefore q hq

/-! ## The requirements on a schema -/

/-- The items of a member that is a list; none of what is not. -/
def itemsAt (members : Members) (name : String) : List Value :=
  match members.lookup name with
  | some (.arr items) => items
  | _ => []

/-- The items of a member are smaller than the object. -/
theorem sizeOf_itemsAt_lt (members : Members) (name : String) :
    sizeOf (itemsAt members name) < sizeOf (Value.obj members) := by
  unfold itemsAt
  split
  · have := sizeOf_lt_of_lookup ‹_›
    simp only [Value.arr.sizeOf_spec, Value.obj.sizeOf_spec] at this ⊢
    omega
  · exact sizeOf_nil_lt_obj members

/-- The requirement that a member is a list, unless it is missing. -/
def listRequirement (place : Pointer) (members : Members) (name : String) : Requirement :=
  ⟨place.member name, .list, members.lookup name⟩

mutual

/-- The requirements on a field. -/
def fieldRequirements (place : Pointer) (raw : Value) : List Requirement :=
  ⟨place, .object, some raw⟩ ::
    match raw with
    | .obj members => ⟨place, .field, some (.obj members)⟩ ::
        match members.lookup "name", members.lookup "type" with
        | some _, some kind => ⟨place.member "type", .key, some kind⟩ ::
            match FieldTag.ofValue? kind with
            | some .inlineObject =>
                listRequirement place members "fieldDefs" ::
                  fieldsRequirements (place.member "fieldDefs") 0 (itemsAt members "fieldDefs")
            | some .enumeration => [listRequirement place members "options"]
            | some .list =>
                match _h : members.lookup "of" with
                | none => [⟨place.member "of", .object, none⟩]
                | some raw => itemRequirements (place.member "of") raw
            | some .polymorphicList =>
                listRequirement place members "of" ::
                  itemsRequirements (place.member "of") 0 (itemsAt members "of")
            | _ => []
        | _, _ => []
    | _ => []
termination_by sizeOf raw
decreasing_by
  · exact sizeOf_itemsAt_lt members "fieldDefs"
  · have := sizeOf_lt_of_lookup _h
    simp only [Value.obj.sizeOf_spec]
    omega
  · exact sizeOf_itemsAt_lt members "of"

/-- The requirements on the fields of a list, from position `index` on. -/
def fieldsRequirements (place : Pointer) (index : Nat) (raws : List Value) : List Requirement :=
  match raws with
  | [] => []
  | raw :: rest =>
      fieldRequirements (place.item index) raw ++ fieldsRequirements place (index + 1) rest
termination_by sizeOf raws

/-- The requirements on an item of a list. -/
def itemRequirements (place : Pointer) (raw : Value) : List Requirement :=
  ⟨place, .object, some raw⟩ ::
    match raw with
    | .obj members => ⟨place, .item, some (.obj members)⟩ ::
        match members.lookup "type" with
        | some kind => ⟨place.member "type", .key, some kind⟩ ::
            match ItemTag.ofValue? kind with
            | some .inlineObject =>
                listRequirement place members "fieldDefs" ::
                  fieldsRequirements (place.member "fieldDefs") 0 (itemsAt members "fieldDefs")
            | some .enumeration => [listRequirement place members "options"]
            | _ => []
        | none => []
    | _ => []
termination_by sizeOf raw
decreasing_by
  exact sizeOf_itemsAt_lt members "fieldDefs"

/-- The requirements on the items of a list, from position `index` on. -/
def itemsRequirements (place : Pointer) (index : Nat) (raws : List Value) : List Requirement :=
  match raws with
  | [] => []
  | raw :: rest =>
      itemRequirements (place.item index) raw ++ itemsRequirements place (index + 1) rest
termination_by sizeOf raws

end

/-- The requirements on a computed field. -/
def computedRequirements (place : Pointer) (raw : Value) : List Requirement :=
  ⟨place, .object, some raw⟩ ::
    match raw with
    | .obj members => [⟨place, .computed, some (.obj members)⟩]
    | _ => []

/-- The requirements on the computed fields of a list, from position `index` on. -/
def computedsRequirements (place : Pointer) (index : Nat) : List Value → List Requirement
  | [] => []
  | raw :: rest =>
      computedRequirements (place.item index) raw ++ computedsRequirements place (index + 1) rest

/-- The requirements on the fields of a definition with these members. -/
def definitionRequirements (place : Pointer) (members : Members) : List Requirement :=
  listRequirement place members "fieldDefs" ::
    fieldsRequirements (place.member "fieldDefs") 0 (itemsAt members "fieldDefs")

/-- The requirements on an entry of a map of definitions, with those on the members of its own sort
before the one on its name. -/
def entryRequirements (own : Pointer → Members → List Requirement) (place : Pointer) (key : String)
    (raw : Value) : List Requirement :=
  ⟨place, .object, some raw⟩ ::
    match raw with
    | .obj members =>
        own place members ++ [⟨place.member "name", .key, some (nameOfEntry key members)⟩]
    | _ => []

/-- The requirements on the members of a kind of document. -/
def documentRequirements (place : Pointer) (members : Members) : List Requirement :=
  definitionRequirements place members ++ listRequirement place members "computedFields" ::
    computedsRequirements (place.member "computedFields") 0 (itemsAt members "computedFields")

/-- The entries of a map of definitions that is an object; none of what is not. -/
def entriesAt (members : Members) (name : String) : Members :=
  match members.lookup name with
  | some (.obj entries) => entries
  | _ => []

/-- The requirements on a map of definitions. -/
def mapRequirements (own : Pointer → Members → List Requirement) (members : Members)
    (name : String) : List Requirement :=
  ⟨Pointer.root.member name, .map name, members.lookup name⟩ ::
    (entriesAt members name).flatMap fun e =>
      entryRequirements own ((Pointer.root.member name).member e.1) e.1 e.2

/-- The requirements on a schema. -/
def schemaRequirements (raw : Value) : List Requirement :=
  ⟨Pointer.root, .schema, some raw⟩ ::
    match raw with
    | .obj members =>
        mapRequirements documentRequirements members "documentDefMap" ++
          mapRequirements definitionRequirements members "objectDefMap"
    | _ => []

/-! ## What loading reports -/

/-- The error of a result, if it is one. -/
def defect? {ε α : Type} : Except ε α → Option ε
  | .error e => some e
  | .ok _ => none

theorem defect?_eq_none_iff {ε α : Type} {x : Except ε α} :
    defect? x = none ↔ ∃ a, x = .ok a := by
  cases x <;> simp [defect?]

theorem eq_error_of_defect?_eq_some {ε α : Type} {x : Except ε α} {e : ε}
    (h : defect? x = some e) : x = .error e := by
  cases x with
  | error e' =>
      cases h
      rfl
  | ok a => cases h

/-- A result keeps its error when it is mapped. -/
theorem defect?_map {ε α β : Type} (f : α → β) (x : Except ε α) : defect? (x.map f) = defect? x := by
  cases x <;> rfl

/-- The error of a result that is carried on is its own, else that of what follows. -/
theorem defect?_bind {ε α β : Type} {f : α → Except ε β} {x : Except ε α} {d : Option ε}
    (h : ∀ a, x = .ok a → defect? (f a) = d) : defect? (x >>= f) = (defect? x).or d := by
  cases x with
  | error e => rfl
  | ok a => exact h a rfl

/-! ### Members -/

theorem itemsAt_of_memberItems {members : Members} {name : String} {items : List Value}
    (h : MemberItems members name items) : itemsAt members name = items := by
  cases h with
  | missing h => rw [itemsAt, h]
  | list h => rw [itemsAt, h]

theorem defect?_listMember (place : Pointer) (members : Members) (name : String) :
    defect? (listMember place members name) =
      firstDefect? [listRequirement place members name] := by
  unfold listMember
  split
  · rename_i h
    simp [firstDefect?_cons, listRequirement, Requirement.isMet, Demand.accepts, h, defect?]
  · rename_i h
    simp [firstDefect?_cons, listRequirement, Requirement.isMet, Demand.accepts, h, defect?]
  · rename_i v hnone h
    have hunmet : Demand.list.accepts (some v) = false := by
      cases v with
      | arr items => exact (hnone items rfl).elim
      | _ => rfl
    simp [firstDefect?_cons, listRequirement, Requirement.isMet, h, hunmet, defect?,
      Requirement.error, Requirement.foundKind]

/-- What follows a member that has to be a list is looked at with its items. -/
theorem defect?_listMember_bind {β : Type} {place : Pointer} {members : Members} {name : String}
    {f : List Value → Except LoadError β} {rs : List Requirement}
    (h : defect? (f (itemsAt members name)) = firstDefect? rs) :
    defect? (listMember place members name >>= f) =
      firstDefect? (listRequirement place members name :: rs) := by
  rw [defect?_bind (d := firstDefect? rs), defect?_listMember, ← firstDefect?_append]
  · rfl
  · intro items hitems
    rw [← itemsAt_of_memberItems (listMember_eq_ok_iff.mp hitems)]
    exact h

/-- The requirement that a value is an object, for one that is not. -/
theorem firstDefect?_of_not_obj {place : Pointer} {raw : Value} (h : ∀ members, raw ≠ .obj members)
    (rs : List Requirement) : firstDefect? (⟨place, .object, some raw⟩ :: rs) =
      some (.malformed place (.notObject raw.kind)) := by
  cases raw with
  | obj members => exact absurd rfl (h members)
  | _ => rfl

/-! ### Fields and items

First what the four kinds that ask for more are taken for, once the name and the type of a node are
known, and then what is reported. -/

section Kinds

variable {place : Pointer} {members : Members} {name : Value}

theorem fieldOfValue_inlineObject (hname : members.lookup "name" = some name)
    (hkind : members.lookup "type" = some (.str FieldTag.inlineObject.name)) :
    fieldOfValue place (.obj members) = listMember place members "fieldDefs" >>= fun raws =>
      (fieldsOfValues (place.member "fieldDefs") 0 raws).map fun fields =>
        fieldOfMembers members name (.inlineObject fields) := by
  simp only [fieldOfValue, hname, hkind, FieldTag.ofValue?_name, Value.isScalar, Bool.not_true,
    Bool.false_eq_true, if_false]
  split <;> rename_i h <;> rw [h] <;> rfl

theorem fieldOfValue_enumeration (hname : members.lookup "name" = some name)
    (hkind : members.lookup "type" = some (.str FieldTag.enumeration.name)) :
    fieldOfValue place (.obj members) = (listMember place members "options").map fun options =>
      fieldOfMembers members name (.enumeration options) := by
  simp only [fieldOfValue, hname, hkind, FieldTag.ofValue?_name, Value.isScalar, Bool.not_true,
    Bool.false_eq_true, if_false]
  rfl

theorem fieldOfValue_list {raw : Value} (hname : members.lookup "name" = some name)
    (hkind : members.lookup "type" = some (.str FieldTag.list.name))
    (hof : members.lookup "of" = some raw) :
    fieldOfValue place (.obj members) = (itemOfValue (place.member "of") raw).map fun item =>
      fieldOfMembers members name (.list (some item)) := by
  simp only [fieldOfValue, hname, hkind, FieldTag.ofValue?_name, Value.isScalar, Bool.not_true,
    Bool.false_eq_true, if_false]
  split <;> rename_i h <;> rw [hof] at h <;> cases h
  rfl

theorem fieldOfValue_list_of_missing (hname : members.lookup "name" = some name)
    (hkind : members.lookup "type" = some (.str FieldTag.list.name))
    (hof : members.lookup "of" = none) :
    fieldOfValue place (.obj members) =
      .error (.malformed (place.member "of") (.notObject .null)) := by
  simp only [fieldOfValue, hname, hkind, FieldTag.ofValue?_name, Value.isScalar, Bool.not_true,
    Bool.false_eq_true, if_false]
  split
  · rfl
  · rename_i h
    rw [hof] at h
    cases h

theorem fieldOfValue_polymorphicList (hname : members.lookup "name" = some name)
    (hkind : members.lookup "type" = some (.str FieldTag.polymorphicList.name)) :
    fieldOfValue place (.obj members) = listMember place members "of" >>= fun raws =>
      (itemsOfValues (place.member "of") 0 raws).map fun items =>
        fieldOfMembers members name (.polymorphicList items) := by
  simp only [fieldOfValue, hname, hkind, FieldTag.ofValue?_name, Value.isScalar, Bool.not_true,
    Bool.false_eq_true, if_false]
  split <;> rename_i h <;> rw [h] <;> rfl

theorem itemOfValue_inlineObject
    (hkind : members.lookup "type" = some (.str ItemTag.inlineObject.name)) :
    itemOfValue place (.obj members) = listMember place members "fieldDefs" >>= fun raws =>
      (fieldsOfValues (place.member "fieldDefs") 0 raws).map ItemType.inlineObject := by
  simp only [itemOfValue, hkind, ItemTag.ofValue?_name, Value.isScalar, Bool.not_true,
    Bool.false_eq_true, if_false]
  split <;> rename_i h <;> rw [h] <;> rfl

theorem itemOfValue_enumeration
    (hkind : members.lookup "type" = some (.str ItemTag.enumeration.name)) :
    itemOfValue place (.obj members) =
      (listMember place members "options").map ItemType.enumeration := by
  simp only [itemOfValue, hkind, ItemTag.ofValue?_name, Value.isScalar, Bool.not_true,
    Bool.false_eq_true, if_false]

end Kinds

mutual

theorem defect?_fieldOfValue (place : Pointer) (raw : Value) :
    defect? (fieldOfValue place raw) = firstDefect? (fieldRequirements place raw) := by
  match raw with
  | .obj members =>
      rw [fieldRequirements, firstDefect?_of_met rfl]
      split
      · rename_i name kind hname hkind
        rw [firstDefect?_of_met (by simp [hname, hkind])]
        by_cases hscalar : kind.isScalar = true
        · rw [firstDefect?_of_met (by simpa using hscalar)]
          split
          · rename_i htag
            obtain rfl := FieldTag.eq_name_of_ofValue? htag
            rw [fieldOfValue_inlineObject hname hkind]
            apply defect?_listMember_bind
            rw [defect?_map]
            exact defect?_fieldsOfValues _ _ _
          · rename_i htag
            obtain rfl := FieldTag.eq_name_of_ofValue? htag
            rw [fieldOfValue_enumeration hname hkind, defect?_map]
            exact defect?_listMember _ _ _
          · rename_i htag
            obtain rfl := FieldTag.eq_name_of_ofValue? htag
            split
            · rename_i hof
              rw [fieldOfValue_list_of_missing hname hkind hof]
              rfl
            · rename_i raw hof
              rw [fieldOfValue_list hname hkind hof, defect?_map]
              exact defect?_itemOfValue _ _
          · rename_i htag
            obtain rfl := FieldTag.eq_name_of_ofValue? htag
            rw [fieldOfValue_polymorphicList hname hkind]
            apply defect?_listMember_bind
            rw [defect?_map]
            exact defect?_itemsOfValues _ _ _
          · rename_i h₁ h₂ h₃ h₄
            have hother : ∀ s ∈ ["inline_object", "enum", "list", "polymorphic_list"],
                kind ≠ .str s := by
              rintro s hs rfl
              simp only [List.mem_cons, List.not_mem_nil, or_false] at hs
              rcases hs with rfl | rfl | rfl | rfl
              exacts [h₁ rfl, h₂ rfl, h₃ rfl, h₄ rfl]
            obtain ⟨type, htype⟩ := exists_fieldTypeForm_of_other members hscalar hother
            rw [htype.fieldOfValue_eq place hname hkind]
            rfl
        · have hkey : kind.isScalar = false := by simpa using hscalar
          rw [firstDefect?_of_not_met (by simpa using hkey)]
          simp only [fieldOfValue, hname, hkind, hkey]
          rfl
      · rename_i hnone
        rw [firstDefect?_of_not_met]
        · simp only [fieldOfValue]
          rfl
        · cases hname : members.lookup "name" with
          | none => simp [hname]
          | some name =>
              cases hkind : members.lookup "type" with
              | none => simp [hkind]
              | some kind => exact (hnone _ _ hname hkind).elim
  | .null | .bool _ | .int _ | .float _ | .str _ | .arr _ =>
      simp [fieldOfValue, fieldRequirements, firstDefect?_of_not_obj, defect?]
termination_by sizeOf raw
decreasing_by
  · exact sizeOf_itemsAt_lt _ _
  · have := sizeOf_lt_of_lookup ‹_›
    simp only [Value.obj.sizeOf_spec]
    omega
  · exact sizeOf_itemsAt_lt _ _

theorem defect?_fieldsOfValues (place : Pointer) (index : Nat) (raws : List Value) :
    defect? (fieldsOfValues place index raws) =
      firstDefect? (fieldsRequirements place index raws) := by
  match raws with
  | [] =>
      rw [fieldsOfValues, fieldsRequirements]
      rfl
  | raw :: rest =>
      have hfield := defect?_fieldOfValue (place.item index) raw
      have hrest := defect?_fieldsOfValues place (index + 1) rest
      rw [fieldsOfValues, fieldsRequirements, firstDefect?_append, ← hfield, ← hrest]
      cases fieldOfValue (place.item index) raw with
      | error e => rfl
      | ok field => exact defect?_map _ _
termination_by sizeOf raws

theorem defect?_itemOfValue (place : Pointer) (raw : Value) :
    defect? (itemOfValue place raw) = firstDefect? (itemRequirements place raw) := by
  match raw with
  | .obj members =>
      rw [itemRequirements, firstDefect?_of_met rfl]
      split
      · rename_i kind hkind
        rw [firstDefect?_of_met (by simp [hkind])]
        by_cases hscalar : kind.isScalar = true
        · rw [firstDefect?_of_met (by simpa using hscalar)]
          split
          · rename_i htag
            obtain rfl := ItemTag.eq_name_of_ofValue? htag
            rw [itemOfValue_inlineObject hkind]
            apply defect?_listMember_bind
            rw [defect?_map]
            exact defect?_fieldsOfValues _ _ _
          · rename_i htag
            obtain rfl := ItemTag.eq_name_of_ofValue? htag
            rw [itemOfValue_enumeration hkind, defect?_map]
            exact defect?_listMember _ _ _
          · rename_i h₁ h₂
            have hother : ∀ s ∈ ["inline_object", "enum"], kind ≠ .str s := by
              rintro s hs rfl
              simp only [List.mem_cons, List.not_mem_nil, or_false] at hs
              rcases hs with rfl | rfl
              exacts [h₁ rfl, h₂ rfl]
            obtain ⟨type, htype⟩ := exists_itemTypeForm_of_other members hscalar hother
            rw [htype.itemOfValue_eq place hkind]
            rfl
        · have hkey : kind.isScalar = false := by simpa using hscalar
          rw [firstDefect?_of_not_met (by simpa using hkey)]
          simp only [itemOfValue, hkind, hkey]
          rfl
      · rename_i hkind
        rw [firstDefect?_of_not_met (by simp [hkind])]
        simp only [itemOfValue, hkind]
        rfl
  | .null | .bool _ | .int _ | .float _ | .str _ | .arr _ =>
      simp [itemOfValue, itemRequirements, firstDefect?_of_not_obj, defect?]
termination_by sizeOf raw
decreasing_by
  exact sizeOf_itemsAt_lt _ _

theorem defect?_itemsOfValues (place : Pointer) (index : Nat) (raws : List Value) :
    defect? (itemsOfValues place index raws) =
      firstDefect? (itemsRequirements place index raws) := by
  match raws with
  | [] =>
      rw [itemsOfValues, itemsRequirements]
      rfl
  | raw :: rest =>
      have hitem := defect?_itemOfValue (place.item index) raw
      have hrest := defect?_itemsOfValues place (index + 1) rest
      rw [itemsOfValues, itemsRequirements, firstDefect?_append, ← hitem, ← hrest]
      cases itemOfValue (place.item index) raw with
      | error e => rfl
      | ok item => exact defect?_map _ _
termination_by sizeOf raws

end

/-! ### Definitions -/

/-- The requirement that a node is an object stands before those on its members. -/
theorem defect?_membersOf_bind {β : Type} {place : Pointer} {f : Members → Except LoadError β}
    {rs : Members → List Requirement} (h : ∀ members, defect? (f members) = firstDefect? (rs members))
    (raw : Value) :
    defect? (membersOf place raw >>= f) = firstDefect? (⟨place, .object, some raw⟩ ::
      match raw with
      | .obj members => rs members
      | _ => []) := by
  cases raw with
  | obj members =>
      rw [firstDefect?_of_met rfl]
      exact h members
  | _ => rfl

theorem defect?_computedOfValue (place : Pointer) (raw : Value) :
    defect? (computedOfValue place raw) = firstDefect? (computedRequirements place raw) := by
  cases raw with
  | obj members =>
      rw [computedRequirements, firstDefect?_of_met rfl, firstDefect?_cons, isMet_computed]
      cases hname : members.lookup "name" with
      | none =>
          simp only [computedOfValue, hname]
          rfl
      | some name =>
          cases htype : members.lookup "type" <;> simp only [computedOfValue, hname, htype] <;> rfl
  | _ => rfl

theorem defect?_computedOfValues (place : Pointer) (index : Nat) (raws : List Value) :
    defect? (computedOfValues place index raws) =
      firstDefect? (computedsRequirements place index raws) := by
  induction raws generalizing index with
  | nil => rfl
  | cons raw rest ih =>
      rw [computedOfValues, computedsRequirements, firstDefect?_append, ← defect?_computedOfValue]
      refine defect?_bind fun field _ => ?_
      rw [← ih (index + 1)]
      exact defect?_map _ _

theorem defect?_definitionOfMembers (place : Pointer) (key : String) (members : Members) :
    defect? (definitionOfMembers place key members) =
      firstDefect? (definitionRequirements place members) := by
  apply defect?_listMember_bind
  rw [← defect?_fieldsOfValues]
  exact defect?_map _ _

/-- The kind of document that a node with these members is, entered under a key. -/
def documentOfMembers (place : Pointer) (key : String) (members : Members) :
    Except LoadError Document := do
  let definition ← definitionOfMembers place key members
  let raws ← listMember place members "computedFields"
  let computed ← computedOfValues (place.member "computedFields") 0 raws
  return ⟨definition, computed, (members.lookup "filePathPattern").getD .null⟩

theorem defect?_documentOfMembers (place : Pointer) (key : String) (members : Members) :
    defect? (documentOfMembers place key members) =
      firstDefect? (documentRequirements place members) := by
  rw [documentRequirements, firstDefect?_append, ← defect?_definitionOfMembers place key]
  refine defect?_bind fun definition _ => defect?_listMember_bind ?_
  rw [← defect?_computedOfValues]
  exact defect?_map _ _

/-! ### Maps of definitions -/

/-- A name as the key of a map. -/
def asKey (name : Value) : Except LoadError Unit :=
  if name.isScalar then .ok () else .error (.unusableKey name.kind)

theorem defect?_asKey (place : Pointer) (name : Value) :
    defect? (asKey name) = firstDefect? [⟨place, .key, some name⟩] := by
  rw [firstDefect?_cons, isMet_key, asKey]
  split <;> rfl

/-- What is reported of an entry: what keeps it from being a definition, else that its name is no
key. -/
theorem defect?_entry {α : Type} {place : Pointer} {key : String}
    {ofMembers : Members → Except LoadError α} {nameOf : α → Value}
    {own : Pointer → Members → List Requirement}
    (hown : ∀ members, defect? (ofMembers members) = firstDefect? (own place members))
    (hname : ∀ members d, ofMembers members = .ok d → nameOf d = nameOfEntry key members)
    (raw : Value) :
    defect? (membersOf place raw >>= ofMembers >>= fun d => asKey (nameOf d)) =
      firstDefect? (entryRequirements own place key raw) := by
  rw [bind_assoc]
  refine defect?_membersOf_bind (fun members => ?_) raw
  rw [firstDefect?_append, ← hown]
  refine defect?_bind fun d hd => ?_
  rw [hname members d hd]
  exact defect?_asKey _ _

/-- The entries of a map are looked at one after the other. -/
theorem defect?_addEntries {α : Type} {ofEntry : Pointer → String → Value → Except LoadError α}
    {nameOf : α → Value} {own : Pointer → Members → List Requirement}
    (hentry : ∀ place key raw, defect? (ofEntry place key raw >>= fun d => asKey (nameOf d)) =
      firstDefect? (entryRequirements own place key raw)) (place : Pointer)
    (map : List (Value × α)) (entries : Members) :
    defect? (addEntries place ofEntry nameOf map entries) = firstDefect?
      (entries.flatMap fun e => entryRequirements own (place.member e.1) e.1 e.2) := by
  induction entries generalizing map with
  | nil => rfl
  | cons entry rest ih =>
      obtain ⟨key, raw⟩ := entry
      rw [List.flatMap_cons, firstDefect?_append, ← hentry, addEntries]
      cases ofEntry (place.member key) key raw with
      | error e => rfl
      | ok d =>
          show defect? (if _ then _ else _) = (defect? (asKey (nameOf d))).or _
          unfold asKey
          split
          · exact ih _
          · rfl

theorem defect?_documentOfEntry (place : Pointer) (key : String) (raw : Value) :
    defect? (documentOfEntry place key raw >>= fun d => asKey d.name) =
      firstDefect? (entryRequirements documentRequirements place key raw) := by
  refine defect?_entry (defect?_documentOfMembers place key) ?_ raw
  intro members d hd
  simp only [documentOfMembers, bind_eq_ok_iff, pure_eq_ok_iff, definitionOfMembers_eq_ok_iff] at hd
  obtain ⟨_, ⟨_, _, _, _, rfl⟩, _, _, _, _, rfl⟩ := hd
  rfl

theorem defect?_objectOfEntry (place : Pointer) (key : String) (raw : Value) :
    defect? (objectOfEntry place key raw >>= fun d => asKey d.name) =
      firstDefect? (entryRequirements definitionRequirements place key raw) := by
  refine defect?_entry (defect?_definitionOfMembers place key) ?_ raw
  intro members d hd
  obtain ⟨_, _, _, _, rfl⟩ := definitionOfMembers_eq_ok_iff.mp hd
  rfl

theorem entriesAt_of_mapEntries {members : Members} {name : String} {entries : Members}
    (h : MapEntries members name entries) : entriesAt members name = entries := by
  cases h with
  | missing h => rw [entriesAt, h]
  | @no v h hv =>
      rw [entriesAt, h]
      cases v with
      | obj entries =>
          cases entries with
          | nil => rfl
          | cons entry entries => simp [Value.holds] at hv
      | _ => rfl
  | object h => rw [entriesAt, h]

theorem defect?_entriesOf (members : Members) (name : String) :
    defect? (entriesOf members name) =
      firstDefect? [⟨Pointer.root.member name, .map name, members.lookup name⟩] := by
  unfold entriesOf
  cases members.lookup name with
  | none => rfl
  | some v =>
      rw [firstDefect?_cons, Requirement.isMet]
      cases hv : v.holds with
      | false =>
          have haccepts : (Demand.map name).accepts (some v) = true := by
            cases v <;> simp [Demand.accepts, hv]
          simp [hv, haccepts, defect?]
      | true =>
          cases v <;> simp [hv, Demand.accepts, defect?, Requirement.error]

/-- What is reported of a map: that it is none, else what is reported of its entries. -/
theorem defect?_mapOfEntries {α : Type} {ofEntry : Pointer → String → Value → Except LoadError α}
    {nameOf : α → Value} {own : Pointer → Members → List Requirement}
    (hentry : ∀ place key raw, defect? (ofEntry place key raw >>= fun d => asKey (nameOf d)) =
      firstDefect? (entryRequirements own place key raw)) (members : Members) (name : String) :
    defect? (entriesOf members name >>= addEntries (Pointer.root.member name) ofEntry nameOf []) =
      firstDefect? (mapRequirements own members name) := by
  rw [mapRequirements, ← List.singleton_append, firstDefect?_append, ← defect?_entriesOf]
  refine defect?_bind fun entries hentries => ?_
  rw [entriesAt_of_mapEntries (entriesOf_eq_ok_iff.mp hentries)]
  exact defect?_addEntries hentry _ _ _

/-- **Loading reports the first requirement that is not met,** and succeeds if there is none. -/
theorem Schema.defect?_ofValue (raw : Value) :
    defect? (Schema.ofValue raw) = firstDefect? (schemaRequirements raw) := by
  cases raw with
  | obj members =>
      rw [schemaRequirements, firstDefect?_of_met rfl, firstDefect?_append,
        ← defect?_mapOfEntries defect?_documentOfEntry,
        ← defect?_mapOfEntries defect?_objectOfEntry]
      have hsplit : Schema.ofValue (.obj members) =
          (entriesOf members "documentDefMap" >>=
            addEntries (Pointer.root.member "documentDefMap") documentOfEntry (fun d => d.name) []) >>=
          fun documents => (entriesOf members "objectDefMap" >>=
            addEntries (Pointer.root.member "objectDefMap") objectOfEntry (fun d => d.name) []) >>=
          fun objects => return ⟨documents, objects⟩ := by
        simp only [Schema.ofValue, bind_assoc]
      rw [hsplit]
      refine defect?_bind fun documents _ => ?_
      exact defect?_map _ _
  | _ => rfl

/-- Whether a requirement is the first one of a schema that is not met. -/
def FirstUnmet (raw : Value) (r : Requirement) : Prop :=
  ∃ before after, schemaRequirements raw = before ++ r :: after ∧ (∀ q ∈ before, q.isMet = true) ∧
    r.isMet = false

/-- Loading ends with the error of the first requirement that is not met. -/
theorem Schema.ofValue_eq_error_iff {raw : Value} {e : LoadError} :
    Schema.ofValue raw = .error e ↔ ∃ r, FirstUnmet raw r ∧ r.error = e := by
  have hdefect : Schema.ofValue raw = .error e ↔ firstDefect? (schemaRequirements raw) = some e := by
    rw [← Schema.defect?_ofValue]
    exact ⟨fun h => by rw [h]; rfl, eq_error_of_defect?_eq_some⟩
  rw [hdefect]
  constructor
  · intro h
    obtain ⟨before, r, after, hsplit, hmet, hunmet, herror⟩ := exists_of_firstDefect?_eq_some h
    exact ⟨r, ⟨before, after, hsplit, hmet, hunmet⟩, herror⟩
  · rintro ⟨r, ⟨before, after, hsplit, hmet, hunmet⟩, rfl⟩
    rw [hsplit, firstDefect?_append, firstDefect?_eq_none_iff.mpr hmet, firstDefect?_of_not_met hunmet]
    rfl

/-- The values of the grammar are those that meet all requirements. -/
theorem isSchema_iff_forall_isMet {raw : Value} :
    IsSchema raw ↔ ∀ r ∈ schemaRequirements raw, r.isMet = true := by
  rw [isSchema_iff, ← defect?_eq_none_iff, Schema.defect?_ofValue, firstDefect?_eq_none_iff]

/-- **Loading accepts exactly the grammar.** Of a value outside of it, what is reported is the first
requirement that is not met: one on a name or a kind that is no scalar as a key that cannot be used,
every other one as a malformed node. -/
theorem Schema.ofValue_grammar (raw : Value) :
    ((∃ schema, Schema.ofValue raw = .ok schema) ↔ IsSchema raw) ∧
      (¬ IsSchema raw → ∃ before r after, schemaRequirements raw = before ++ r :: after ∧
        (∀ q ∈ before, q.isMet = true) ∧ r.isMet = false ∧
        Schema.ofValue raw = .error r.error ∧
        ((∃ kind, r.error = .unusableKey kind) ↔ r.demand = .key) ∧
        ((∃ problem, r.error = .malformed r.place problem) ↔ r.demand ≠ .key)) := by
  refine ⟨isSchema_iff.symm, fun h => ?_⟩
  have hdefect : firstDefect? (schemaRequirements raw) ≠ none := by
    rw [Ne, firstDefect?_eq_none_iff, ← isSchema_iff_forall_isMet]
    exact h
  obtain ⟨e, he⟩ := Option.ne_none_iff_exists'.mp hdefect
  obtain ⟨before, r, after, hsplit, hbefore, hunmet, rfl⟩ := exists_of_firstDefect?_eq_some he
  have herror : Schema.ofValue raw = .error r.error :=
    eq_error_of_defect?_eq_some ((Schema.defect?_ofValue raw).trans he)
  exact ⟨before, r, after, hsplit, hbefore, hunmet, herror, r.exists_error_eq_unusableKey_iff,
    r.exists_error_eq_malformed_iff⟩

/-! ## What is wrong with a file -/

namespace Schema

variable {bytes : List UInt8}

theorem valueOfBytes_eq (bytes : List UInt8) :
    valueOfBytes bytes =
      match Utf8.decode bytes with
      | .error fault => .error (.notText fault)
      | .ok text => (Json.read (Text.foldLineBreaks text)).mapError .notJson := by
  unfold valueOfBytes
  cases Utf8.decode bytes <;> rfl

theorem ofBytes_eq (bytes : List UInt8) :
    ofBytes bytes =
      match valueOfBytes bytes with
      | .error defect => .error defect
      | .ok raw => (ofValue raw).mapError .notSchema := by
  unfold ofBytes
  cases valueOfBytes bytes <;> rfl

/-- A file is no text if its bytes are not UTF-8. -/
theorem ofBytes_eq_error_notText_iff {fault : Utf8.Fault} :
    ofBytes bytes = .error (.notText fault) ↔ Utf8.decode bytes = .error fault := by
  rw [ofBytes_eq, valueOfBytes_eq]
  cases Utf8.decode bytes with
  | error fault' => simp
  | ok text =>
      simp only
      cases Json.read (Text.foldLineBreaks text) with
      | error fault' => simp [Except.mapError]
      | ok raw =>
          simp only [Except.mapError]
          cases ofValue raw <;> simp

/-- What keeps the bytes of a file from holding a value is not that the value is no schema. -/
theorem valueOfBytes_ne_notSchema {e : LoadError} : valueOfBytes bytes ≠ .error (.notSchema e) := by
  rw [valueOfBytes_eq]
  cases Utf8.decode bytes with
  | error fault => simp
  | ok text => cases hread : Json.read (Text.foldLineBreaks text) <;> simp [Except.mapError, hread]

/-- A file is no schema if the value that it holds is none. -/
theorem ofBytes_eq_error_notSchema_iff {e : LoadError} :
    ofBytes bytes = .error (.notSchema e) ↔
      ∃ raw, valueOfBytes bytes = .ok raw ∧ ofValue raw = .error e := by
  rw [ofBytes_eq]
  cases hvalue : valueOfBytes bytes with
  | ok raw => cases hload : ofValue raw <;> simp [Except.mapError, hload]
  | error defect =>
      refine iff_of_false ?_ (by simp)
      rintro ⟨⟩
      exact valueOfBytes_ne_notSchema hvalue

end Schema

end ContentTypes
