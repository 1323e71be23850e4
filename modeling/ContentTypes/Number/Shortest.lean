import ContentTypes.Number.Rounding

/-!
# Shortest decimal text

`Floating.shortest` chooses, among the decimals that round to a given number of the 64-bit format,
one with the fewest digits, and of those the nearest. `Floating.display` writes it: positionally
for values from `10 ^ -4` up to `10 ^ 16`, with an exponent otherwise.
-/

set_option autoImplicit false

namespace ContentTypes

/-- The decimal number `digits · 10 ^ exponent`. -/
structure Decimal where
  digits : Nat
  exponent : Int
  deriving DecidableEq, Repr

namespace Floating

/-- The point of the grid of multiples of `10 ^ p` that reads back as `m · 2 ^ e`, if there is one.

With all quantities in quarters of `2 ^ e`, the reals that round to `m · 2 ^ e` are those between
`4m - 2` (or `4m - 1`, when `m` is the smallest significand of its binary length) and `4m + 2`,
the ends included iff `m` is even. If a point of the grid lies there, so does one of the two
neighbours of the value; of two hits the nearer is taken, and of two equally near the even one. -/
def gridPoint? (m : Nat) (e p : Int) : Option Nat :=
  let unit := Nat.pow 2 (e - 2).toNat * Nat.pow 10 (-p).toNat
  let grid := Nat.pow 2 (2 - e).toNat * Nat.pow 10 p.toNat
  let value := 4 * m * unit
  let low := (4 * m - (if m = Nat.pow 2 52 ∧ minExponent < e then 1 else 2)) * unit
  let high := (4 * m + 2) * unit
  let readsBack := fun (k : Nat) =>
    if m % 2 = 0 then low ≤ k * grid && k * grid ≤ high else low < k * grid && k * grid < high
  let below := value / grid
  let above := below + 1
  match readsBack below, readsBack above with
  | true, true =>
      let down := value - below * grid
      let up := above * grid - value
      if down < up || (down = up && below % 2 = 0) then some below else some above
  | true, false => some below
  | false, true => some above
  | false, false => none

/-- The shortest decimal that reads back as `m · 2 ^ e`, for `m` not zero: the point of the coarsest
grid that has one. The grids are tried from one that is too coarse for the value down to 17 digits
and beyond, where a point is always found. -/
def shortest (m : Nat) (e : Int) : Decimal :=
  let top : Int := ((m.log2 : Int) + e) * 30103 / 100000 + 2
  let grids := (List.range 24).map fun (i : Nat) => top - (i : Int)
  match grids.findSome? fun p => (gridPoint? m e p).map fun k => Decimal.mk k p with
  | some d => d
  | none => ⟨m, e⟩

/-- The digits of a decimal, with a point after as many of them as `exponent` says. -/
def positional (digits : List Char) (point : Int) : List Char :=
  if point ≤ 0 then
    '0' :: '.' :: (List.replicate (-point).toNat '0' ++ digits)
  else
    let whole := digits.take point.toNat
    let fraction := digits.drop point.toNat
    whole ++ List.replicate (point.toNat - digits.length) '0' ++
      '.' :: (if fraction.isEmpty then ['0'] else fraction)

/-- The digits of a decimal in exponent form: one digit before the point, and an exponent with its
sign and at least two digits. -/
def scientific (digits : List Char) (point : Int) : List Char :=
  let exponent := point - 1
  let size := Nat.toDigits 10 exponent.natAbs
  let mantissa := match digits with
    | [] => []
    | [d] => [d]
    | d :: rest => d :: '.' :: rest
  mantissa ++ 'e' :: (if exponent < 0 then '-' else '+') ::
    (List.replicate (2 - size.length) '0' ++ size)

/-- The text of a positive decimal: positional while the point falls less than four zeros before
the first digit and at most sixteen places after it. -/
def decimalText (d : Decimal) : List Char :=
  let digits := Nat.toDigits 10 d.digits
  let point : Int := digits.length + d.exponent
  if -4 < point ∧ point ≤ 16 then positional digits point else scientific digits point

/-- The text of a number: the shortest decimal that reads back as it. -/
def display : Floating → String
  | .nan => "nan"
  | .infinite negative => if negative then "-inf" else "inf"
  | .finite negative m e =>
      let text := if m = 0 then ['0', '.', '0'] else decimalText (shortest m e)
      String.ofList (if negative then '-' :: text else text)

end Floating

end ContentTypes
