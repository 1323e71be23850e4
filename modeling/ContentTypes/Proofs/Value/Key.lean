import ContentTypes.Value.Order
import Mathlib.Algebra.Order.Field.Rat
import Mathlib.Tactic.NormNum

/-!
# Equal names

What a scalar is apart from how it is written: null, a text, or a number by its exact value, where truth
values are the numbers one and zero. Scalars are equal if they are the same in this sense. Names are one
key exactly if they are equal, or if both are not a number (`Value.sameKey_iff`); what is not a number is
equal to nothing, not even to itself.
-/

set_option autoImplicit false

namespace ContentTypes

/-- What a scalar is, apart from how it is written. -/
inductive Identity where
  | null
  | text (s : String)
  | number (q : ℚ)
  | infinite (negative : Bool)
  deriving DecidableEq

/-- What a number is, if it is one. -/
def Floating.identity? : Floating → Option Identity
  | .nan => none
  | .infinite negative => some (.infinite negative)
  | .finite negative significand exponent =>
      some (.number (Floating.signed negative significand * 2 ^ exponent))

namespace Value

/-- What a value is, if it is a scalar. What is not a number is nothing. -/
def identity? : Value → Option Identity
  | .null => some .null
  | .bool b => some (.number (if b then 1 else 0))
  | .int n => some (.number n)
  | .float x => x.identity?
  | .str s => some (.text s)
  | .arr _ => none
  | .obj _ => none

/-- Whether two scalars are equal. -/
def Equals (v w : Value) : Prop := v.identity?.isSome = true ∧ v.identity? = w.identity?

instance (v w : Value) : Decidable (v.Equals w) :=
  inferInstanceAs (Decidable (_ ∧ _))

theorem Equals.symm {v w : Value} (h : v.Equals w) : w.Equals v := ⟨h.2 ▸ h.1, h.2.symm⟩

theorem Equals.trans {u v w : Value} (h : u.Equals v) (h' : v.Equals w) : u.Equals w :=
  ⟨h.1, h.2.trans h'.2⟩

end Value

/-! ## Numbers by value -/

namespace Floating

/-- A number written over a smaller exponent. -/
theorem mul_zpow_eq {a e k : Int} {n : Nat} (h : e = n + k) :
    (a : ℚ) * 2 ^ e = ((a * Nat.pow 2 n : Int) : ℚ) * 2 ^ k := by
  calc (a : ℚ) * 2 ^ e = a * (2 ^ (n : Int) * 2 ^ k) := by rw [h, zpow_add₀ (by norm_num)]
    _ = a * 2 ^ n * 2 ^ k := by rw [zpow_natCast, mul_assoc]
    _ = ((a * Nat.pow 2 n : Int) : ℚ) * 2 ^ k := by simp

/-- Significands that are compared over the smaller exponent compare as the numbers do. -/
theorem compareScaled_eq_iff (a e b f : Int) :
    compareScaled a e b f = .eq ↔ (a : ℚ) * 2 ^ e = b * 2 ^ f := by
  have he : e = (e - f).toNat + min e f := by omega
  have hf : f = (f - e).toNat + min e f := by omega
  have hne : (2 : ℚ) ^ min e f ≠ 0 := zpow_ne_zero _ (by norm_num)
  calc compareScaled a e b f = .eq
      ↔ a * Nat.pow 2 (e - f).toNat = b * Nat.pow 2 (f - e).toNat := compare_eq_iff_eq
    _ ↔ ((a * Nat.pow 2 (e - f).toNat : Int) : ℚ) * 2 ^ min e f =
          ((b * Nat.pow 2 (f - e).toNat : Int) : ℚ) * 2 ^ min e f := by
        rw [mul_left_inj' hne, Int.cast_inj]
    _ ↔ (a : ℚ) * 2 ^ e = b * 2 ^ f := by rw [← mul_zpow_eq he, ← mul_zpow_eq hf]

theorem compare?_eq_iff {x y : Floating} :
    compare? x y = some .eq ↔ x.identity?.isSome = true ∧ x.identity? = y.identity? := by
  cases x with
  | nan => simp [compare?, identity?]
  | infinite s =>
      cases y with
      | nan => simp [compare?, identity?]
      | infinite t => cases s <;> cases t <;> decide
      | finite t n f => cases s <;> simp [compare?, identity?]
  | finite s m e =>
      cases y with
      | nan => simp [compare?, identity?]
      | infinite t => cases t <;> simp [compare?, identity?]
      | finite t n f => simp [compare?, identity?, compareScaled_eq_iff]

/-- A number is neither null nor a text. -/
theorem identity?_ne (x : Floating) :
    x.identity? ≠ some .null ∧ ∀ s, x.identity? ≠ some (.text s) := by
  cases x <;> simp [identity?]

theorem identity?_ofInt (n : Int) : (ofInt n).identity? = some (.number n) := by
  have hsigned : signed (decide (n < 0)) n.natAbs = n := by
    unfold signed
    split
    · rename_i h
      have hneg : n < 0 := by simpa using h
      omega
    · rename_i h
      have hnonneg : ¬n < 0 := by simpa using h
      omega
  simp [ofInt, identity?, hsigned]

end Floating

namespace Value

theorem identity?_of_number? {v : Value} {x : Floating} (h : v.number? = some x) :
    v.identity? = x.identity? := by
  cases v with
  | bool b =>
      cases h
      cases b <;> simp [identity?, Floating.identity?_ofInt]
  | int n =>
      cases h
      rw [identity?, Floating.identity?_ofInt]
  | float x =>
      cases h
      rfl
  | _ => cases h

theorem sameNumber_iff {x y : Floating} :
    sameNumber x y = true ↔
      (x.identity?.isSome = true ∧ x.identity? = y.identity?) ∨ x = .nan ∧ y = .nan := by
  rw [← Floating.compare?_eq_iff]
  cases x <;> cases y <;> simp [sameNumber, Floating.compare?]

theorem eq_nan_iff_of_number? {v : Value} {x : Floating} (h : v.number? = some x) :
    v = .float .nan ↔ x = .nan := by
  cases v <;> cases h <;> simp [Floating.ofInt]

theorem sameKey_of_number? {v w : Value} {x y : Floating} (hv : v.number? = some x)
    (hw : w.number? = some y) : v.sameKey w = sameNumber x y := by
  unfold sameKey
  split
  · cases hv
  · cases hv
  · simp only [hv, hw]

/-- Names are one key if they are equal, or are both not a number. -/
theorem sameKey_iff {v w : Value} :
    v.sameKey w = true ↔ v.Equals w ∨ v = .float .nan ∧ w = .float .nan := by
  by_cases hnumbers : v.number?.isSome = true ∧ w.number?.isSome = true
  · obtain ⟨x, hv⟩ := Option.isSome_iff_exists.mp hnumbers.1
    obtain ⟨y, hw⟩ := Option.isSome_iff_exists.mp hnumbers.2
    rw [sameKey_of_number? hv hw, sameNumber_iff, eq_nan_iff_of_number? hv, eq_nan_iff_of_number? hw,
      Equals, identity?_of_number? hv, identity?_of_number? hw]
  · -- only null and texts are equal to something that is no number, each to its own kind
    have hnull (x : Floating) := x.identity?_ne.1
    have htext (x : Floating) := x.identity?_ne.2
    cases v <;> cases w <;>
      simp_all [sameKey, Equals, identity?, number?, Option.isSome_iff_ne_none,
        (hnull _).symm, (htext _ _).symm]

theorem sameKey_iff_equals {v w : Value} (hw : w ≠ .float .nan) : v.sameKey w = true ↔ v.Equals w := by
  rw [sameKey_iff]
  exact or_iff_left fun h => hw h.2

/-- A scalar is equal to itself, unless it is not a number. -/
theorem equals_self {v : Value} (hscalar : v.isScalar = true) (hv : v ≠ .float .nan) : v.Equals v := by
  refine ⟨?_, rfl⟩
  cases v with
  | float x =>
      cases x with
      | nan => exact absurd rfl hv
      | infinite _ => rfl
      | finite _ _ _ => rfl
  | arr _ => cases hscalar
  | obj _ => cases hscalar
  | _ => rfl

theorem sameKey_symm {v w : Value} (h : v.sameKey w = true) : w.sameKey v = true := by
  rw [sameKey_iff] at h ⊢
  exact h.imp Equals.symm And.symm

theorem sameKey_trans {u v w : Value} (h : u.sameKey v = true) (h' : v.sameKey w = true) :
    u.sameKey w = true := by
  rw [sameKey_iff] at h h' ⊢
  rcases h with h | ⟨hu, hv⟩
  · rcases h' with h' | ⟨rfl, -⟩
    · exact .inl (h.trans h')
    · cases h.2 ▸ h.1
  · rcases h' with h' | ⟨-, hw⟩
    · cases hv ▸ h'.1
    · exact .inr ⟨hu, hw⟩

end Value

end ContentTypes
