/-!
# Binary floating-point numbers

The double-precision numbers of IEEE 754, without any machine arithmetic: a finite number is a sign,
a significand and a power of two, kept in the one form in which the significand has 53 bits or the
power is the least one. A decimal is rounded to the nearest such number, a tie going to the even
significand, and to infinity past the largest one.
-/

namespace MonkeyLang

/-- A double-precision number. -/
inductive Binary64 where
  | nan
  | infinite (negative : Bool)
  /-- The number `significand * 2 ^ power`, negated or not. -/
  | finite (negative : Bool) (significand : Nat) (power : Int)
  deriving DecidableEq, Repr

namespace Binary64

/-- The least power of two by which a significand is scaled. -/
def minPower : Int := -1074

/-- The greatest power of two by which a significand is scaled. -/
def maxPower : Int := 971

/-- A quotient rounded to the nearest integer, a tie going to the even one. -/
def roundDiv (num den : Nat) : Nat :=
  let low := num / den
  let twice := 2 * (num % den)
  if twice < den || (twice == den && low % 2 == 0) then low else low + 1

/-- A natural number times a power of a base, as a fraction. -/
def scaled (base n : Nat) (power : Int) : Nat × Nat :=
  if 0 ≤ power then (n * base.pow power.toNat, 1) else (n, base.pow (-power).toNat)

/-- The power of two at which a positive fraction has a significand of 53 bits, but no less than
the least power. -/
def powerFor (num den : Nat) : Int :=
  let estimate := (num.log2 : Int) - den.log2 - 52
  let (n, d) := scaled 2 num (-estimate)
  max minPower (if n < Nat.pow 2 52 * (d * den) then estimate - 1 else estimate)

/-- The number nearest to a fraction. -/
def ofFraction (negative : Bool) (num den : Nat) : Binary64 :=
  if num = 0 then
    finite negative 0 minPower
  else
    let power := powerFor num den
    let (n, d) := scaled 2 num (-power)
    let significand := roundDiv n (d * den)
    let (significand, power) :=
      if significand = Nat.pow 2 53 then (Nat.pow 2 52, power + 1) else (significand, power)
    if maxPower < power then infinite negative else finite negative significand power

/-- The number of decimal digits of a positive number. -/
def decimalLength (n : Nat) : Nat := (Nat.toDigits 10 n).length

/-- The number nearest to `digits * 10 ^ exponent`. Decimals far outside the range of the format are
told apart by their length alone. -/
def ofDecimal (negative : Bool) (digits : Nat) (exponent : Int) : Binary64 :=
  if digits = 0 then
    finite negative 0 minPower
  else
    let point := exponent + decimalLength digits
    if 310 < point then infinite negative
    else if point < -330 then finite negative 0 minPower
    else
      let (num, den) := scaled 10 digits exponent
      ofFraction negative num den

/-- The value of a finite number as an integer over a power of two. -/
def dyadic? : Binary64 → Option (Int × Nat)
  | finite negative significand power =>
    let n : Int := significand * Nat.pow 2 power.toNat
    some (if negative then -n else n, (-power).toNat)
  | _ => none

end Binary64

end MonkeyLang
