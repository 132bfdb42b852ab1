/-!
# Binary floating point of double precision

A finite number of the 64-bit binary format, held as sign, significand and exponent. All arithmetic
is exact on natural numbers and rounds once, to nearest with ties to even.

## Main definitions

* `Magnitude`: a non-negative number `significand · 2 ^ exponent` of the format.
* `Magnitude.ofRatio?`: the magnitude nearest to a quotient, none where it is too large.
* `Binary64`: a magnitude with a sign.

## Main results

* `roundDiv_near`, `roundDiv_even`: how a quotient is rounded.
-/

namespace Cookbook.Decimal

/-- The nearest natural number to `num / den`, the even one of two that are equally near. -/
def roundDiv (num den : Nat) : Nat :=
  let quotient := num / den
  let twice := 2 * (num % den)
  if twice < den then quotient
  else if den < twice then quotient + 1
  else quotient + quotient % 2

/-- A non-negative number of the format, `significand · 2 ^ exponent`. The numbers that the
operations here build have a significand below `2 ^ 53`, and one of at least `2 ^ 52` or else the
least exponent. -/
structure Magnitude where
  significand : Nat
  exponent : Int
  deriving DecidableEq, Repr

namespace Magnitude

/-- The least exponent of the format. -/
def minExponent : Int := -1074

/-- The greatest exponent of the format. -/
def maxExponent : Int := 971

/-- Zero. -/
def zero : Magnitude := ⟨0, minExponent⟩

/-- Whether the number is zero. -/
def isZero (x : Magnitude) : Bool := x.significand == 0

/-- The magnitude as a quotient of natural numbers. -/
def toRatio (x : Magnitude) : Nat × Nat :=
  (x.significand * Nat.pow 2 x.exponent.toNat, Nat.pow 2 (-x.exponent).toNat)

/-- The quotient `num / den` measured in units of `2 ^ exponent`, again as a quotient. -/
def inUnits (num den : Nat) (exponent : Int) : Nat × Nat :=
  (num * Nat.pow 2 (-exponent).toNat, den * Nat.pow 2 exponent.toNat)

/-- The exponent with which the format writes `num / den`: the one that leaves 53 binary digits
before the point, or the least exponent if that is greater. -/
def exponentOf (num den : Nat) : Int :=
  let guess := max minExponent ((Nat.log2 num : Int) - Nat.log2 den - 53)
  let (n, d) := inUnits num den guess
  if Nat.pow 2 53 * d ≤ n then guess + 1 else guess

/-- The magnitude nearest to `num / den`; none if it lies beyond the greatest one. -/
def ofRatio? (num den : Nat) : Option Magnitude :=
  if num = 0 then some zero
  else
    let exponent := exponentOf num den
    let (n, d) := inUnits num den exponent
    let significand := roundDiv n d
    -- Rounding up may reach the next power of two, which is written with one exponent more.
    let result : Magnitude :=
      if significand = Nat.pow 2 53 then ⟨Nat.pow 2 52, exponent + 1⟩ else ⟨significand, exponent⟩
    if maxExponent < result.exponent then none else some result

/-- The product, rounded. -/
def mul? (x y : Magnitude) : Option Magnitude :=
  let (xn, xd) := x.toRatio
  let (yn, yd) := y.toRatio
  ofRatio? (xn * yn) (xd * yd)

/-- The quotient, rounded; the divisor is not zero. -/
def div? (x y : Magnitude) : Option Magnitude :=
  let (xn, xd) := x.toRatio
  let (yn, yd) := y.toRatio
  ofRatio? (xn * yd) (xd * yn)

/-- The magnitude nearest to a natural number. -/
def ofNat? (n : Nat) : Option Magnitude :=
  ofRatio? n 1

end Magnitude

/-- A finite number of the format, zero with either sign included. -/
structure Binary64 where
  negative : Bool
  magnitude : Magnitude
  deriving DecidableEq, Repr

/-! ## Laws -/

/-- The nearest natural number lies within half a unit of the quotient. -/
theorem roundDiv_near (num : Nat) {den : Nat} (h : 0 < den) :
    2 * num ≤ 2 * (den * roundDiv num den) + den ∧
      2 * (den * roundDiv num den) ≤ 2 * num + den := by
  have hsplit := Nat.div_add_mod num den
  have hlt := Nat.mod_lt num h
  have hnext : den * (num / den + 1) = den * (num / den) + den := Nat.mul_succ ..
  simp only [roundDiv]
  split
  · omega
  · split
    · omega
    · rcases Nat.mod_two_eq_zero_or_one (num / den) with hq | hq
      · rw [hq, Nat.add_zero]
        omega
      · rw [hq]
        omega

/-- Of two natural numbers that are equally near, the even one is taken. -/
theorem roundDiv_even {num den : Nat} (h : 2 * (num % den) = den) : roundDiv num den % 2 = 0 := by
  simp only [roundDiv, h, Nat.lt_irrefl, if_false]
  omega

end Cookbook.Decimal
