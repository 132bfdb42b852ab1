import Cookbook.Decimal.Shortest

/-!
# Numbers of the data format

A number is an integer where its text has neither fraction nor exponent and fits 64 bits, and a
binary floating-point number otherwise; `1` and `1.0` are different numbers.

## Main definitions

* `Number.read?`: reads a number at the start of a text.
* `Number.render`: writes a number; a float gets the fewest digits that read back as it.
-/

namespace Cookbook

open Cookbook.Decimal

/-- An integer or a finite floating-point number. -/
inductive Number where
  | int (value : Int)
  | float (value : Binary64)
  deriving DecidableEq, Repr

namespace Number

/-! ## Reading -/

/-- The greatest significand that is kept exactly. -/
def maxSignificand : Nat := Nat.pow 2 64 - 1

/-- The greatest exponent that is read as it stands. -/
def maxExponent : Nat := Nat.pow 2 31 - 1

/-- Appends decimal digits to a number as long as the result is at most `limit`; also returns the
digits that were left out. -/
def absorb (limit : Nat) : Nat → List Char → Nat × List Char
  | value, [] => (value, [])
  | value, d :: rest =>
    let next := value * 10 + (d.toNat - '0'.toNat)
    if next ≤ limit then absorb limit next rest else (value, d :: rest)

/-- The floating-point number nearest to `10 ^ n`. -/
def powerOfTen? (n : Nat) : Option Magnitude :=
  Magnitude.ofNat? (Nat.pow 10 n)

/-- The greatest power of ten that a floating-point number can hold. -/
def maxPower : Nat := 308

/-- Divides `n` times, each time with one rounding; zero stays zero. -/
def divideTimes (divisor : Magnitude) : Nat → Magnitude → Option Magnitude
  | 0, x => some x
  | n + 1, x => if x.isZero then some x else do divideTimes divisor n (← x.div? divisor)

/-- `x / 10 ^ n` with one rounding for each full `10 ^ 308` and one for the rest. -/
def divideByPower (x : Magnitude) (n : Nat) : Option Magnitude := do
  let full := (n - 1) / maxPower
  let partly ← divideTimes (← powerOfTen? maxPower) full x
  if partly.isZero then some partly
  else partly.div? (← powerOfTen? (n - full * maxPower))

/-- The number `significand · 10 ^ exponent`: the significand is rounded first, then multiplied or
divided by the rounded power of ten. None if the result is too large. -/
def scale? (significand : Nat) (exponent : Int) : Option Magnitude := do
  let x ← Magnitude.ofNat? significand
  if exponent < 0 then divideByPower x exponent.natAbs
  else if exponent.natAbs ≤ maxPower then x.mul? (← powerOfTen? exponent.natAbs)
  else if x.isZero then some x
  else none

/-- An exponent mark, a sign and digits. An exponent too large to hold makes the number zero if it
is negative or the significand is zero, and is refused otherwise. -/
def readExponent? (negative : Bool) (significand : Nat) (start : Int) (input : List Char) :
    Option (Number × List Char) :=
  let (down, digits) :=
    match input with
    | '+' :: rest => (false, rest)
    | '-' :: rest => (true, rest)
    | rest => (false, rest)
  let written := digits.takeWhile Char.isDigit
  let rest := digits.dropWhile Char.isDigit
  if written.isEmpty then none
  else
    match absorb maxExponent 0 written with
    | (exponent, []) =>
      (scale? significand (if down then start - exponent else start + exponent)).map
        fun x => (.float ⟨negative, x⟩, rest)
    | (_, _ :: _) =>
      if significand ≠ 0 ∧ down = false then none
      else some (.float ⟨negative, .zero⟩, rest)

/-- What follows the significand: an exponent, or nothing. -/
def readScale? (negative : Bool) (significand : Nat) (exponent : Int) (input : List Char) :
    Option (Number × List Char) :=
  match input with
  | 'e' :: rest | 'E' :: rest => readExponent? negative significand exponent rest
  | _ => (scale? significand exponent).map fun x => (.float ⟨negative, x⟩, input)

/-- The digits after the point. Those that no longer fit the significand are left out. -/
def readFraction? (negative : Bool) (significand : Nat) (exponent : Int) (input : List Char) :
    Option (Number × List Char) :=
  let written := input.takeWhile Char.isDigit
  let rest := input.dropWhile Char.isDigit
  if written.isEmpty then none
  else
    let (significand, left) := absorb maxSignificand significand written
    readScale? negative significand (exponent - (written.length - left.length : Nat)) rest

/-- A number that was written without fraction and exponent. Zero has a negative form only as a
float, and below the integers of 64 bits a float stands in. -/
def ofInteger? (negative : Bool) (value : Nat) : Option Number :=
  if !negative then some (.int value)
  else if 0 < value ∧ value ≤ Nat.pow 2 63 then some (.int (-value))
  else (Magnitude.ofNat? value).map fun x => .float ⟨true, x⟩

/-- The number at the start of a text, and what follows it. Integer digits that no longer fit the
significand only raise the exponent. -/
def read? (input : List Char) : Option (Number × List Char) :=
  let (negative, digits) :=
    match input with
    | '-' :: rest => (true, rest)
    | rest => (false, rest)
  let written := digits.takeWhile Char.isDigit
  let rest := digits.dropWhile Char.isDigit
  if written.isEmpty || (written.head? == some '0' && 1 < written.length) then none
  else
    let (significand, left) := absorb maxSignificand 0 written
    match rest with
    | '.' :: rest => readFraction? negative significand left.length rest
    | 'e' :: rest | 'E' :: rest => readExponent? negative significand left.length rest
    | _ =>
      if left.isEmpty then (ofInteger? negative significand).map fun n => (n, rest)
      else readScale? negative significand left.length rest

/-! ## Writing -/

/-- The text of a natural number in decimal. -/
def decimal (n : Nat) : String :=
  String.ofList (Nat.toDigits 10 n)

/-- The text of an integer in decimal. -/
def decimalInt (n : Int) : String :=
  if n < 0 then "-" ++ decimal n.natAbs else decimal n.natAbs

/-- Which decimal exponents of the first digit are written without an exponent. -/
structure FloatStyle where
  leastPositional : Int
  greatestPositional : Int

/-- From `0.00001` up to sixteen digits before the point a float is written without exponent. -/
def floatStyle : FloatStyle := ⟨-5, 15⟩

/-- Writes a decimal. Without exponent it has at least one digit on each side of the point; with
one, a point only where more than one digit is there, and always the sign of the exponent. -/
def renderDecimal (style : FloatStyle) (d : Scientific) : String :=
  let digits := Nat.toDigits 10 d.digits
  let leading := d.exponent + digits.length - 1
  if style.leastPositional ≤ leading ∧ leading ≤ style.greatestPositional then
    if 0 ≤ d.exponent then
      String.ofList (digits ++ List.replicate d.exponent.toNat '0' ++ ".0".toList)
    else
      let places := d.exponent.natAbs
      -- Zeros in front, so that one digit is left before the point.
      let padded := List.replicate (places + 1 - digits.length) '0' ++ digits
      let before := padded.length - places
      String.ofList (padded.take before ++ '.' :: padded.drop before)
  else
    let fraction := digits.drop 1
    let mantissa := digits.take 1 ++ (if fraction.isEmpty then [] else '.' :: fraction)
    let sign := if leading < 0 then "-" else "+"
    String.ofList mantissa ++ "e" ++ sign ++ decimal leading.natAbs

/-- A decimal without zeros at its end. -/
def trimZeros (d : Scientific) : Scientific :=
  if h : d.digits ≠ 0 ∧ d.digits % 10 = 0 then
    trimZeros ⟨d.digits / 10, d.exponent + 1⟩
  else d
termination_by d.digits
decreasing_by omega

/-- Writes a number. -/
def render : Number → String
  | .int n => decimalInt n
  | .float x =>
    (if x.negative then "-" else "") ++ renderDecimal floatStyle (trimZeros x.magnitude.shortest)

/-- Whether the number differs from zero. -/
def isNonzero : Number → Bool
  | .int n => n != 0
  | .float x => !x.magnitude.isZero

end Number

end Cookbook
