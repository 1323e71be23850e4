/-!
# Floating-point numbers

A floating-point number as an exact value: not a number, an infinity, or a signed integer
multiple of a power of two. Nothing is rounded here, so that an integer of any size is a
floating-point number too (`Floating.ofInt`), and `Floating.compare?` orders numbers of both
kinds by their exact values. Rounding to the 64-bit format is in `Number.Rounding`.
-/

set_option autoImplicit false

namespace ContentTypes

/-- A floating-point number. A finite one stands for `± significand · 2 ^ exponent`, and zero
keeps its sign. -/
inductive Floating where
  | nan
  | infinite (negative : Bool)
  | finite (negative : Bool) (significand : Nat) (exponent : Int)
  deriving DecidableEq, Repr

namespace Floating

/-- The integer `n` as a floating-point number, exactly. -/
def ofInt (n : Int) : Floating := .finite (decide (n < 0)) n.natAbs 0

/-- A significand with its sign. -/
def signed (negative : Bool) (significand : Nat) : Int :=
  if negative then -(significand : Int) else significand

/-- Whether the number is zero, of either sign. -/
def isZero : Floating → Bool
  | .finite _ 0 _ => true
  | _ => false

/-- The order of `a · 2 ^ e` and `b · 2 ^ f`: both are written over the smaller exponent. -/
def compareScaled (a e b f : Int) : Ordering :=
  compare (a * Nat.pow 2 (e - f).toNat) (b * Nat.pow 2 (f - e).toNat)

/-- The order of two numbers by value. There is none when one of them is not a number. -/
def compare? : Floating → Floating → Option Ordering
  | .nan, _ => none
  | _, .nan => none
  | .infinite s, .infinite t => some (compare (signed s 1) (signed t 1))
  | .infinite s, .finite _ _ _ => some (if s then .lt else .gt)
  | .finite _ _ _, .infinite t => some (if t then .gt else .lt)
  | .finite s m e, .finite t n f => some (compareScaled (signed s m) e (signed t n) f)

end Floating

end ContentTypes
