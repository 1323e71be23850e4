import ContentTypes.Number.Floating

/-!
# Rounding decimals to the 64-bit format

`Floating.ofDecimal` is the number of the 64-bit binary format nearest to `± digits · 10 ^ exponent`,
a tie going to the even significand. All arithmetic is exact, on natural numbers.
-/

set_option autoImplicit false

namespace ContentTypes

/-- The quotient rounded to the nearest natural number, a half going to the even neighbour. -/
def roundHalfEven (num den : Nat) : Nat :=
  let q := num / den
  let r := num % den
  if 2 * r < den then q
  else if den < 2 * r then q + 1
  else if q % 2 = 0 then q else q + 1

namespace Floating

/-- The smallest exponent of the 64-bit format. -/
def minExponent : Int := -1074

/-- The largest exponent of the 64-bit format. -/
def maxExponent : Int := 971

/-- `num / den · 2 ^ (-e)`, rounded. -/
def scaledRound (num den : Nat) (e : Int) : Nat :=
  roundHalfEven (num * Nat.pow 2 (-e).toNat) (den * Nat.pow 2 e.toNat)

/-- The exponent under which `num / den` has a significand of 53 binary digits, or the smallest
exponent of the format if that one is larger. With `l` the difference of the binary lengths, the
quotient lies between `2 ^ (l - 1)` and `2 ^ (l + 1)`, so the exponent is `l - 53` or `l - 52`. -/
def unitExponent (num den : Nat) : Int :=
  let e : Int := (num.log2 : Int) - den.log2 - 53
  let e := if num * Nat.pow 2 (-e).toNat < Nat.pow 2 53 * (den * Nat.pow 2 e.toNat) then e else e + 1
  max e minExponent

/-- The number of the 64-bit format nearest to the positive quotient `num / den`. -/
def ofQuotient (negative : Bool) (num den : Nat) : Floating :=
  let e := unitExponent num den
  let m := scaledRound num den e
  -- a significand rounded up to the next binary length
  let (m, e) := if m = Nat.pow 2 53 then (Nat.pow 2 52, e + 1) else (m, e)
  if maxExponent < e then .infinite negative else .finite negative m e

/-- The zero of the given sign. -/
def zero (negative : Bool) : Floating := .finite negative 0 minExponent

/-- The number of the 64-bit format nearest to `± digits · 10 ^ exponent`. The two bounds on the
decimal magnitude only keep the powers of ten small: beyond them the answer is an infinity or
zero. -/
def ofDecimal (negative : Bool) (digits : Nat) (exponent : Int) : Floating :=
  let magnitude : Int := (Nat.toDigits 10 digits).length + exponent
  if digits = 0 then zero negative
  else if 400 < magnitude then .infinite negative
  else if magnitude < -400 then zero negative
  else ofQuotient negative (digits * Nat.pow 10 exponent.toNat) (Nat.pow 10 (-exponent).toNat)

end Floating

end ContentTypes
