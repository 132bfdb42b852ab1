import Cookbook.Decimal.Binary64

/-!
# The shortest decimal

The shortest decimal text of a binary number is the one with the fewest digits that still reads
back as that number, and among those the nearest to it. The numbers that read back as `x` fill an
interval around `x` (`Magnitude.readsBack`); on the grid of decimals with a given number of digits
only the two neighbours of `x` have to be tried.
-/

namespace Cookbook.Decimal

/-- A decimal number `digits · 10 ^ exponent`. -/
structure Scientific where
  digits : Nat
  exponent : Int
  deriving DecidableEq, Repr

namespace Scientific

/-- The decimal number as a quotient of natural numbers. -/
def toRatio (d : Scientific) : Nat × Nat :=
  (d.digits * Nat.pow 10 d.exponent.toNat, Nat.pow 10 (-d.exponent).toNat)

end Scientific

namespace Magnitude

/-- Four times the half-way points between `x` and its neighbours, in units of `2 ^ exponent`. The
distance to the lower neighbour halves where the exponent changes. -/
def quarters (x : Magnitude) : Nat × Nat :=
  let m := x.significand
  let lower := if m = Nat.pow 2 52 ∧ minExponent < x.exponent then 4 * m - 1 else 4 * m - 2
  (lower, 4 * m + 2)

/-- Whether the decimal reads back as `x`: it lies between the half-way points, which themselves
go to the even significand. -/
def readsBack (x : Magnitude) (d : Scientific) : Bool :=
  let (dn, dd) := d.toRatio
  let (lower, upper) := x.quarters
  let scaleUp := Nat.pow 2 x.exponent.toNat
  let scaleDown := Nat.pow 2 (-x.exponent).toNat
  let low := lower * scaleUp * dd
  let high := upper * scaleUp * dd
  let value := 4 * dn * scaleDown
  if x.significand % 2 = 0 then low ≤ value && value ≤ high else low < value && value < high

/-- The number of digits before the decimal point of a positive number: the `p` with
`10 ^ (p - 1) ≤ x < 10 ^ p`. -/
def digitsBefore (x : Magnitude) : Int :=
  let (n, d) := x.toRatio
  -- The logarithm of two to base ten is about 0.30103; the tests set right what that misses.
  let guess := ((Nat.log2 x.significand : Int) + x.exponent) * 30103 / 100000
  let below (p : Int) : Bool := n * Nat.pow 10 (-p).toNat < d * Nat.pow 10 p.toNat
  if below (guess - 1) then guess - 1
  else if below guess then guess
  else if below (guess + 1) then guess + 1
  else guess + 2

/-- Whichever of the two neighbours of `x` on the grid of multiples of `10 ^ exponent` reads back,
the nearer one if both do; of two equally near the even one. -/
def onGrid? (x : Magnitude) (exponent : Int) : Option Scientific :=
  let (n, d) := x.toRatio
  let num := n * Nat.pow 10 (-exponent).toNat
  let den := d * Nat.pow 10 exponent.toNat
  let lower : Scientific := ⟨num / den, exponent⟩
  let upper : Scientific := ⟨num / den + 1, exponent⟩
  match x.readsBack lower, x.readsBack upper with
  | true, true => some ⟨roundDiv num den, exponent⟩
  | true, false => some lower
  | false, true => some upper
  | false, false => none

/-- The shortest decimal that reads back as `x`; seventeen digits always suffice. -/
def shortest (x : Magnitude) : Scientific :=
  if x.isZero then ⟨0, 0⟩
  else
    let before := x.digitsBefore
    ((List.range 17).findSome? fun (n : Nat) => x.onGrid? (before - (n + 1))).getD ⟨0, 0⟩

end Magnitude

end Cookbook.Decimal
