import MonkeyLang.Data.Binary64
import MonkeyLang.Text.Letters

/-!
# Decimal text of floating-point numbers

A number is written with the fewest digits that read back as the same number, and of those with the
nearest; an exact tie goes to the even digit. Powers of ten from -4 to 15 are written positionally,
always with a point, all others with an exponent of at least two digits.
-/

namespace MonkeyLang

namespace Binary64

/-- A decimal: digits without zeros at the end, and the position of the point before, within or
after them. -/
structure Decimal where
  digits : List Char
  point : Int
  deriving DecidableEq, Repr

namespace Decimal

/-- The decimal of `n * 10 ^ exponent`. -/
def ofScaled (n : Nat) (exponent : Int) : Decimal :=
  let digits := Nat.toDigits 10 n
  ⟨(digits.reverse.dropWhile (· == '0')).reverse, digits.length + exponent⟩

/-- The position of the point in the decimal of a positive fraction: the number of its digits before
the point, or less than one by the number of zeros right after the point. -/
def pointOf (num den : Nat) : Int :=
  if den ≤ num then
    decimalLength (num / den)
  else
    -(((List.range 400).find? fun j => decide (den ≤ num * Nat.pow 10 (j + 1))).getD 0 : Nat)

/-- The neighbour of a fraction on the grid of multiples of a power of ten that reads back as a
given number; of two such neighbours the nearer one, and the even one at a tie. -/
def onGrid? (x : Binary64) (num den : Nat) (exponent : Int) : Option Decimal :=
  let (n, d) := scaled 10 num (-exponent)
  let below := n / (d * den)
  let readsBack := fun (k : Nat) => decide (ofDecimal false k exponent = x)
  let nearest := roundDiv n (d * den)
  if readsBack nearest then some (ofScaled nearest exponent)
  else if readsBack below then some (ofScaled below exponent)
  else if readsBack (below + 1) then some (ofScaled (below + 1) exponent)
  else none

/-- The shortest decimal that reads back as a positive finite number. Seventeen digits are always
enough. -/
def shortest (significand : Nat) (power : Int) : Decimal :=
  let (num, den) := scaled 2 significand power
  let point := pointOf num den
  ((List.range 17).findSome? fun (k : Nat) =>
    onGrid? (finite false significand power) num den (point - (k + 1))).getD ⟨[], 0⟩

/-- Two digits or more of a power of ten, with its sign. -/
def exponentText (e : Int) : String :=
  (if e < 0 then "e-" else "e+") ++ (if e.natAbs < 10 then "0" else "") ++ toString e.natAbs

/-- The text of a positive decimal. -/
def text (x : Decimal) : String :=
  let zeros := fun (n : Int) => List.replicate n.toNat '0'
  if -4 < x.point ∧ x.point ≤ 16 then
    if x.point ≤ 0 then
      String.ofList ("0.".toList ++ zeros (-x.point) ++ x.digits)
    else if x.digits.length ≤ x.point then
      String.ofList (x.digits ++ zeros (x.point - x.digits.length) ++ ".0".toList)
    else
      String.ofList (x.digits.take x.point.toNat ++ '.' :: x.digits.drop x.point.toNat)
  else
    match x.digits with
    | [] => "0.0"
    | [d] => String.ofList [d] ++ exponentText (x.point - 1)
    | d :: more => String.ofList (d :: '.' :: more) ++ exponentText (x.point - 1)

end Decimal

/-- The text of a number. -/
def text : Binary64 → String
  | nan => "nan"
  | infinite negative => if negative then "-inf" else "inf"
  | finite negative significand power =>
    (if negative then "-" else "")
      ++ if significand = 0 then "0.0" else (Decimal.shortest significand power).text

/-- The digits of a decimal numeral before and after its point, and its exponent. -/
structure Numeral where
  whole : List Char
  fraction : List Char := []
  exponent : Int := 0
  deriving DecidableEq, Repr

namespace Numeral

/-- The number that decimal digits denote. -/
def digitsValue (cs : List Char) : Nat :=
  cs.foldl (fun n c => 10 * n + (c.toNat - '0'.toNat)) 0

/-- The floating-point number nearest to a numeral. -/
def value (negative : Bool) (x : Numeral) : Binary64 :=
  ofDecimal negative (digitsValue (x.whole ++ x.fraction)) (x.exponent - x.fraction.length)

/-- The exponent at the head of a text, with the text after it. Without a digit there is none, and
nothing is taken. -/
def exponentAt? (cs : List Char) : Option (Int × List Char) :=
  match cs with
  | e :: cs =>
    if e = 'e' ∨ e = 'E' then
      let (negative, cs) :=
        match cs with
        | '-' :: cs => (true, cs)
        | '+' :: cs => (false, cs)
        | cs => (false, cs)
      let digits := cs.takeWhile Text.isDigit
      if digits = [] then none
      else
        let n : Int := digitsValue digits
        some (if negative then -n else n, cs.drop digits.length)
    else none
  | [] => none

end Numeral

/-- The number that a text denotes: a sign, digits with or without a point, and an exponent, or the
name of an infinity or of a value that is no number. -/
def ofText? (text : String) : Option Binary64 :=
  let (negative, cs) :=
    match text.toList with
    | '-' :: cs => (true, cs)
    | '+' :: cs => (false, cs)
    | cs => (false, cs)
  let name := String.ofList (cs.map Char.toLower)
  if name = "nan" then some nan
  else if name = "inf" ∨ name = "infinity" then some (infinite negative)
  else
    let whole := cs.takeWhile Text.isDigit
    let (fraction, cs) :=
      match cs.drop whole.length with
      | '.' :: cs => (cs.takeWhile Text.isDigit, cs.dropWhile Text.isDigit)
      | cs => ([], cs)
    if whole ++ fraction = [] then none
    else
      match Numeral.exponentAt? cs with
      | some (exponent, []) => some (Numeral.value negative ⟨whole, fraction, exponent⟩)
      | some _ => none
      | none => if cs = [] then some (Numeral.value negative ⟨whole, fraction, 0⟩) else none

example : (ofText? "64").map text = some "64.0" := by decide +kernel

example : (ofText? "1e16").map text = some "1e+16" := by decide +kernel

example : (ofText? "0.00001").map text = some "1e-05" := by decide +kernel

example : (ofText? "1e400").map text = some "inf" := by decide +kernel

end Binary64

end MonkeyLang
