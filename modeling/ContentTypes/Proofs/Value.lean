import ContentTypes.Proofs.Text.CodePoint
import ContentTypes.Value.Basic

/-!
# Values of JSON proper

Three properties of a value as a whole, down to its innermost parts. `WellKeyed` values are those that a
JSON text can stand for: no object has a member twice. `WellCoded` values have texts only that can be told
from what is printed of them. `FloatFree` values hold whole numbers only, which are printed as they are.
-/

set_option autoImplicit false

namespace ContentTypes

/-! ## Members once -/

mutual

/-- Whether no object in the value has a member twice. -/
def Value.WellKeyed : Value → Prop
  | .arr items => WellKeyedItems items
  | .obj members => (members.map (·.1)).Nodup ∧ WellKeyedMembers members
  | .null | .bool _ | .int _ | .float _ | .str _ => True

/-- Whether the items of a list are `WellKeyed`. -/
def WellKeyedItems : List Value → Prop
  | [] => True
  | v :: rest => v.WellKeyed ∧ WellKeyedItems rest

/-- Whether the values of members are `WellKeyed`. -/
def WellKeyedMembers : List (String × Value) → Prop
  | [] => True
  | (_, v) :: rest => v.WellKeyed ∧ WellKeyedMembers rest

end

theorem wellKeyedMembers_iff {members : Members} :
    WellKeyedMembers members ↔ ∀ m ∈ members, m.2.WellKeyed := by
  induction members with
  | nil => simp [WellKeyedMembers]
  | cons m rest ih => simp [WellKeyedMembers, ih]

/-- What is found in an object is `WellKeyed` if the object is. -/
theorem Value.WellKeyed.of_lookup {members : Members} {name : String} {v : Value}
    (h : (Value.obj members).WellKeyed) (hv : members.lookup name = some v) : v.WellKeyed := by
  obtain ⟨-, hm⟩ := h
  obtain ⟨before, after, rfl, -⟩ := List.lookup_eq_some_iff.mp hv
  exact wellKeyedMembers_iff.mp hm (name, v) (by simp)

/-! ## Texts that can be told from what is printed -/

mutual

/-- Whether every text in the value is well coded, the names of members too. -/
def Value.WellCoded : Value → Prop
  | .str s => Text.WellCoded s
  | .arr items => WellCodedItems items
  | .obj members => WellCodedMembers members
  | .null | .bool _ | .int _ | .float _ => True

/-- Whether the items of a list are `WellCoded`. -/
def WellCodedItems : List Value → Prop
  | [] => True
  | v :: rest => v.WellCoded ∧ WellCodedItems rest

/-- Whether the names and the values of members are `WellCoded`. -/
def WellCodedMembers : List (String × Value) → Prop
  | [] => True
  | (name, v) :: rest => Text.WellCoded name ∧ v.WellCoded ∧ WellCodedMembers rest

end

/-! ## Whole numbers only -/

mutual

/-- Whether the value holds no floating-point number. -/
def Value.FloatFree : Value → Prop
  | .float _ => False
  | .arr items => FloatFreeItems items
  | .obj members => FloatFreeMembers members
  | .null | .bool _ | .int _ | .str _ => True

/-- Whether the items of a list are `FloatFree`. -/
def FloatFreeItems : List Value → Prop
  | [] => True
  | v :: rest => v.FloatFree ∧ FloatFreeItems rest

/-- Whether the values of members are `FloatFree`. -/
def FloatFreeMembers : List (String × Value) → Prop
  | [] => True
  | (_, v) :: rest => v.FloatFree ∧ FloatFreeMembers rest

end

end ContentTypes
