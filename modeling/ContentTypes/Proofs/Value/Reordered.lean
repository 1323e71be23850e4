import ContentTypes.Proofs.Value
import Mathlib.Data.List.Perm.Basic

/-!
# Values up to the order of members

`Reordered v w` says that two values differ in nothing but the order of the members of their objects, at
any depth; lists keep their order. Under the names of its members an object then holds values that are
reordered themselves (`Reordered.lookup`), and values without members are equal.
-/

set_option autoImplicit false

namespace ContentTypes

mutual

/-- Whether two values differ in nothing but the order of the members of objects. -/
inductive Reordered : Value → Value → Prop where
  | scalar {v : Value} (h : v.isScalar = true) : Reordered v v
  | arr {items items' : List Value} (h : ReorderedItems items items') :
      Reordered (.arr items) (.arr items')
  | obj {members members' members'' : Members} (h : ReorderedMembers members members')
      (hperm : members'.Perm members'') : Reordered (.obj members) (.obj members'')

/-- Whether lists differ in nothing but the order of the members of objects in them. -/
inductive ReorderedItems : List Value → List Value → Prop where
  | nil : ReorderedItems [] []
  | cons {v w : Value} {items items' : List Value} (h : Reordered v w)
      (hitems : ReorderedItems items items') : ReorderedItems (v :: items) (w :: items')

/-- Whether members in the same order have values that differ in nothing but the order of members. -/
inductive ReorderedMembers : Members → Members → Prop where
  | nil : ReorderedMembers [] []
  | cons {key : String} {v w : Value} {members members' : Members} (h : Reordered v w)
      (hmembers : ReorderedMembers members members') :
      ReorderedMembers ((key, v) :: members) ((key, w) :: members')

end

/-- Members in the same order, pair by pair. -/
theorem reorderedMembers_iff {members members' : Members} :
    ReorderedMembers members members' ↔
      List.Forall₂ (fun m m' => m.1 = m'.1 ∧ Reordered m.2 m'.2) members members' := by
  induction members generalizing members' with
  | nil =>
      constructor
      · rintro ⟨⟩
        exact .nil
      · rintro ⟨⟩
        exact .nil
  | cons m members ih =>
      constructor
      · rintro ⟨⟩
        exact .cons ⟨rfl, ‹_›⟩ (ih.mp ‹_›)
      · intro h
        obtain ⟨⟨key, w⟩, rest, ⟨hkey, hw⟩, hrest, rfl⟩ := List.forall₂_cons_left_iff.mp h
        obtain ⟨key', v⟩ := m
        cases hkey
        exact .cons hw (ih.mpr hrest)

theorem ReorderedMembers.keys_eq {members members' : Members} (h : ReorderedMembers members members') :
    members.map (·.1) = members'.map (·.1) := by
  induction members generalizing members' with
  | nil =>
      cases h
      rfl
  | cons m members ih =>
      cases h with
      | cons h hmembers => rw [List.map_cons, List.map_cons, ih hmembers]

mutual

/-- The other value is reordered too. -/
theorem Reordered.symm {v w : Value} : Reordered v w → Reordered w v
  | .scalar h => .scalar h
  | .arr h => .arr h.symm
  | .obj h hperm => by
      -- the members go back to their places first, and then back to their values
      obtain ⟨rest, hrest, hback⟩ :=
        List.perm_comp_forall₂ hperm.symm (reorderedMembers_iff.mp h.symm)
      exact .obj (reorderedMembers_iff.mpr hrest) hback

theorem ReorderedItems.symm {items items' : List Value} :
    ReorderedItems items items' → ReorderedItems items' items
  | .nil => .nil
  | .cons h hitems => .cons h.symm hitems.symm

theorem ReorderedMembers.symm {members members' : Members} :
    ReorderedMembers members members' → ReorderedMembers members' members
  | .nil => .nil
  | .cons h hmembers => .cons h.symm hmembers.symm

end

mutual

/-- Reordering leaves each member in place once. -/
theorem Reordered.wellKeyed {v w : Value} : Reordered v w → v.WellKeyed → w.WellKeyed
  | .scalar _, hv => hv
  | .arr h, hv => h.wellKeyed hv
  | .obj h hperm, hv => by
      refine ⟨((hperm.map (·.1)).nodup_iff).mp (h.keys_eq ▸ hv.1), ?_⟩
      have hmembers := wellKeyedMembers_iff.mp (h.wellKeyed hv.2)
      exact wellKeyedMembers_iff.mpr fun m hm => hmembers m (hperm.mem_iff.mpr hm)

theorem ReorderedItems.wellKeyed {items items' : List Value} :
    ReorderedItems items items' → WellKeyedItems items → WellKeyedItems items'
  | .nil, _ => trivial
  | .cons h hitems, hv => ⟨h.wellKeyed hv.1, hitems.wellKeyed hv.2⟩

theorem ReorderedMembers.wellKeyed {members members' : Members} :
    ReorderedMembers members members' → WellKeyedMembers members → WellKeyedMembers members'
  | .nil, _ => trivial
  | .cons h hmembers, hv => ⟨h.wellKeyed hv.1, hmembers.wellKeyed hv.2⟩

end

/-! ## What reordered values share -/

/-- A value without members or items stays what it is. -/
theorem Reordered.eq_of_isScalar {v w : Value} (h : Reordered v w) (hv : v.isScalar = true) : w = v := by
  cases h with
  | scalar => rfl
  | arr => cases hv
  | obj => cases hv

/-- Items without members or items of their own stay what they are. -/
theorem ReorderedItems.eq_of_isScalar {items items' : List Value} (h : ReorderedItems items items')
    (hitems : ∀ v ∈ items, v.isScalar = true) : items' = items := by
  induction items generalizing items' with
  | nil =>
      cases h
      rfl
  | cons v items ih =>
      rw [List.forall_mem_cons] at hitems
      cases h with
      | cons h hrest => rw [h.eq_of_isScalar hitems.1, ih hrest hitems.2]

/-- An object stays an object. -/
theorem Reordered.exists_obj {members : Members} {w : Value} (h : Reordered (.obj members) w) :
    ∃ members', w = .obj members' := by
  cases h with
  | scalar h => cases h
  | obj => exact ⟨_, rfl⟩

theorem Reordered.holds_eq {v w : Value} (h : Reordered v w) : w.holds = v.holds := by
  cases h with
  | scalar => rfl
  | arr h => cases h <;> rfl
  | @obj members members' members'' h hperm =>
      have hlength : members''.length = members.length := by
        rw [← hperm.length_eq, ← List.length_map (·.1), ← h.keys_eq, List.length_map]
      cases members <;> cases members'' <;> first | rfl | simp at hlength

/-- What is found under a name, if each name is there once. -/
theorem lookup_eq_some_iff_mem {members : Members} (h : (members.map (·.1)).Nodup) {name : String}
    {v : Value} : members.lookup name = some v ↔ (name, v) ∈ members := by
  constructor
  · intro hv
    obtain ⟨before, after, rfl, -⟩ := List.lookup_eq_some_iff.mp hv
    simp
  · intro hv
    obtain ⟨before, after, rfl⟩ := List.append_of_mem hv
    rw [List.map_append, List.map_cons] at h
    refine List.lookup_eq_some_iff.mpr ⟨before, after, rfl, fun m hm => ?_⟩
    -- the name stands once, so not before its place
    have hne := (List.nodup_append.mp h).2.2 m.1 (List.mem_map_of_mem hm) name List.mem_cons_self
    simpa using Ne.symm hne

/-- Members that stand once are found in any order. -/
theorem lookup_eq_of_perm {members members' : Members} (h : (members.map (·.1)).Nodup)
    (hperm : members.Perm members') (name : String) : members.lookup name = members'.lookup name := by
  have h' : (members'.map (·.1)).Nodup := (hperm.map (·.1)).nodup_iff.mp h
  ext v
  rw [lookup_eq_some_iff_mem h, lookup_eq_some_iff_mem h', hperm.mem_iff]

theorem ReorderedMembers.lookup {members members' : Members} (h : ReorderedMembers members members')
    (name : String) : Option.Rel Reordered (members.lookup name) (members'.lookup name) := by
  induction members generalizing members' with
  | nil =>
      cases h
      exact .none
  | cons m members ih =>
      cases h with
      | @cons key v w _ members' h hmembers =>
          rw [List.lookup_cons, List.lookup_cons]
          cases name == key with
          | true => exact .some h
          | false => exact ih hmembers

/-- Under each name, reordered objects hold values that are reordered, or none of them holds one. -/
theorem Reordered.lookup {members members' : Members} (h : Reordered (.obj members) (.obj members'))
    (hkeys : (members.map (·.1)).Nodup) (name : String) :
    Option.Rel Reordered (members.lookup name) (members'.lookup name) := by
  cases h with
  | scalar h => cases h
  | obj h hperm =>
      rw [h.keys_eq] at hkeys
      rw [← lookup_eq_of_perm hkeys hperm]
      exact h.lookup name

theorem Reordered.lookup_eq_none {members members' : Members} {name : String}
    (h : Reordered (.obj members) (.obj members')) (hkeys : (members.map (·.1)).Nodup)
    (hnone : members.lookup name = none) : members'.lookup name = none := by
  have hrel := h.lookup hkeys name
  rw [hnone] at hrel
  generalize members'.lookup name = found at hrel ⊢
  cases hrel
  rfl

theorem Reordered.exists_lookup {members members' : Members} {name : String} {v : Value}
    (h : Reordered (.obj members) (.obj members')) (hkeys : (members.map (·.1)).Nodup)
    (hv : members.lookup name = some v) : ∃ w, members'.lookup name = some w ∧ Reordered v w := by
  have hrel := h.lookup hkeys name
  rw [hv] at hrel
  generalize members'.lookup name = found at hrel ⊢
  cases hrel with
  | some h => exact ⟨_, rfl, h⟩

/-- What stands under a name, or in its place where nothing does, is reordered. -/
theorem Reordered.getD {members members' : Members} (h : Reordered (.obj members) (.obj members'))
    (hkeys : (members.map (·.1)).Nodup) (name : String) {d : Value} (hd : d.isScalar = true) :
    Reordered ((members.lookup name).getD d) ((members'.lookup name).getD d) := by
  have hrel := h.lookup hkeys name
  generalize members.lookup name = found, members'.lookup name = found' at hrel ⊢
  cases hrel with
  | none => exact .scalar hd
  | some h => exact h

end ContentTypes
