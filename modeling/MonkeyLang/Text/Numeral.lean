/-!
# Numerals

Reading an integer from a text: blanks of any script may surround it, one sign may stand directly
before it, its digits may come from any script that has decimal digits (Unicode 14), and single
underscores may stand between digits. A numeral of more than 4300 digits is refused, leading zeros
counted.
-/

namespace MonkeyLang.Text

/-- The code points of the zeros of all decimal digit sets. The nine digits after a zero follow it
directly. -/
def zeros : List Nat :=
  [0x30, 0x660, 0x6f0, 0x7c0, 0x966, 0x9e6, 0xa66, 0xae6, 0xb66, 0xbe6, 0xc66, 0xce6, 0xd66,
    0xde6, 0xe50, 0xed0, 0xf20, 0x1040, 0x1090, 0x17e0, 0x1810, 0x1946, 0x19d0, 0x1a80, 0x1a90,
    0x1b50, 0x1bb0, 0x1c40, 0x1c50, 0xa620, 0xa8d0, 0xa900, 0xa9d0, 0xa9f0, 0xaa50, 0xabf0,
    0xff10, 0x104a0, 0x10d30, 0x11066, 0x110f0, 0x11136, 0x111d0, 0x112f0, 0x11450, 0x114d0,
    0x11650, 0x116c0, 0x11730, 0x118e0, 0x11950, 0x11c50, 0x11d50, 0x11da0, 0x16a60, 0x16ac0,
    0x16b50, 0x1d7ce, 0x1d7d8, 0x1d7e2, 0x1d7ec, 0x1d7f6, 0x1e140, 0x1e2f0, 0x1e950, 0x1fbf0]

/-- The value of a decimal digit of any script. -/
def digitValue? (c : Char) : Option Nat :=
  (zeros.find? fun z => decide (z ≤ c.toNat ∧ c.toNat < z + 10)).map (c.toNat - ·)

/-- The code points outside ASCII that count as blank around a numeral. -/
def wideBlanks : List Nat :=
  [0x85, 0xa0, 0x1680, 0x2000, 0x2001, 0x2002, 0x2003, 0x2004, 0x2005, 0x2006, 0x2007, 0x2008,
    0x2009, 0x200a, 0x2028, 0x2029, 0x202f, 0x205f, 0x3000]

/-- The characters that may surround a numeral: the space, tab, newline, vertical tab, form feed
and carriage return of ASCII, and the blanks of other scripts. -/
def isNumeralBlank (c : Char) : Bool :=
  c == ' ' || (decide (9 ≤ c.toNat) && decide (c.toNat ≤ 13)) || wideBlanks.contains c.toNat

/-- The largest number of digits that a numeral may have. -/
def maxDigits : Nat := 4300

/-- The digits of a numeral, a single underscore being free between any two of them. -/
def digits? : List Char → Option (List Nat)
  | [] => none
  | [c] => (digitValue? c).map ([·])
  | c :: '_' :: rest => do
    let d ← digitValue? c
    let more ← digits? rest
    some (d :: more)
  | c :: rest => do
    let d ← digitValue? c
    let more ← digits? rest
    some (d :: more)

/-- The number that a sequence of decimal digits denotes. -/
def ofDigits (ds : List Nat) : Nat :=
  ds.foldl (fun n d => 10 * n + d) 0

/-- The number that unsigned digits denote, unless they are too many. -/
def natural? (cs : List Char) : Option Nat := do
  let ds ← digits? cs
  if ds.length ≤ maxDigits then some (ofDigits ds) else none

/-- A text without the numeral blanks at its two ends. -/
def trim (cs : List Char) : List Char :=
  ((cs.dropWhile isNumeralBlank).reverse.dropWhile isNumeralBlank).reverse

/-- The integer that a text denotes, if it denotes one. -/
def integer? (text : String) : Option Int :=
  match trim text.toList with
  | '+' :: cs => (natural? cs).map fun n => (n : Int)
  | '-' :: cs => (natural? cs).map fun n => -(n : Int)
  | cs => (natural? cs).map fun n => (n : Int)

example : integer? " +1_000 " = some 1000 := by decide +kernel

example : integer? "1__0" = none := by decide +kernel

example : integer? "- 1" = none := by decide +kernel

end MonkeyLang.Text
