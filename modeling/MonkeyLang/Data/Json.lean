import MonkeyLang.Data.Value
import MonkeyLang.Data.Decimal
import MonkeyLang.Text.Numeral

/-!
# Reading JSON

A reader for one JSON value. Besides the numbers of the standard it takes the names of infinities
and of the value that is no number. A numeral with a point or an exponent is a floating-point
number, any other an integer of at most 4300 digits. Every fault is found at some point of the text,
which a message states by line, column and number of characters before it.
-/

namespace MonkeyLang.Json

open Text

/-- What is wrong at a point of the text. -/
inductive Problem where
  | expectingValue
  | expectingName
  | expectingColon
  | expectingComma
  | unterminatedText
  | controlCharacter
  | invalidEscape
  | invalidCodePoint
  | extraData
  | byteOrderMark
  deriving DecidableEq, Repr

/-- The wording of a problem. -/
def Problem.message : Problem → String
  | expectingValue => "Expecting value"
  | expectingName => "Expecting property name enclosed in double quotes"
  | expectingColon => "Expecting ':' delimiter"
  | expectingComma => "Expecting ',' delimiter"
  | unterminatedText => "Unterminated string starting at"
  | controlCharacter => "Invalid control character at"
  | invalidEscape => "Invalid \\escape"
  | invalidCodePoint => "Invalid \\uXXXX escape"
  | extraData => "Extra data"
  | byteOrderMark => "Unexpected UTF-8 BOM (decode using utf-8-sig)"

/-- Why a text is no JSON value: a problem at the beginning of the given rest of the text, or an
integer with too many digits. -/
inductive Fault where
  | malformed (problem : Problem) (rest : List Char)
  | tooManyDigits (count : Nat)
  deriving DecidableEq, Repr

/-- A reader yields what it read and the rest of the text. -/
abbrev Reader (α : Type) : Type := List Char → Except Fault (α × List Char)

/-- Fails at the beginning of a text. -/
def fault {α : Type} (problem : Problem) (rest : List Char) : Except Fault α :=
  .error (.malformed problem rest)

/-- The blanks between the parts of a value. -/
def isSpace (c : Char) : Bool := c == ' ' || c == '\t' || c == '\n' || c == '\r'

/-- A text without the blanks at its beginning. -/
def skipSpace (cs : List Char) : List Char := cs.dropWhile isSpace

/-! ### Texts -/

/-- The value of a hexadecimal digit. -/
def hexValue? (c : Char) : Option Nat :=
  if isDigit c then some (c.toNat - '0'.toNat)
  else if 'a' ≤ c ∧ c ≤ 'f' then some (c.toNat - 'a'.toNat + 10)
  else if 'A' ≤ c ∧ c ≤ 'F' then some (c.toNat - 'A'.toNat + 10)
  else none

/-- The number that hexadecimal digits denote. -/
def hexNumber? (cs : List Char) : Option Nat :=
  cs.foldl (fun n c => do some (16 * (← n) + (← hexValue? c))) (some 0)

/-- The four hexadecimal digits after the letter that announces them, as a number. The text has to
go on after them. -/
def codeUnit : Reader Nat := fun cs =>
  let digits := cs.tail
  match (if digits.length ≤ 4 then none else hexNumber? (digits.take 4)) with
  | some n => .ok (n, digits.drop 4)
  | none => fault .invalidCodePoint cs

/-- Whether a number is the first half of a surrogate pair. -/
def isHighSurrogate (n : Nat) : Bool := decide (0xd800 ≤ n ∧ n ≤ 0xdbff)

/-- Whether a number is the second half of a surrogate pair. -/
def isLowSurrogate (n : Nat) : Bool := decide (0xdc00 ≤ n ∧ n ≤ 0xdfff)

/-- The character of a code point. Half of a surrogate pair is no character and reads as the
replacement character. -/
def character (n : Nat) : Char :=
  if n.isValidChar then Char.ofNat n else '\ufffd'

/-- The character given by one escape of four hexadecimal digits, or by two of them that form a
surrogate pair. The text begins with the letter that announces the digits. -/
def escapedCodePoint : Reader Char := fun cs => do
  let (high, rest) ← codeUnit cs
  match rest with
  | '\\' :: 'u' :: digits =>
    if isHighSurrogate high && decide (5 ≤ digits.length) then
      let (low, after) ← codeUnit ('u' :: digits)
      if isLowSurrogate low then
        .ok (character (0x10000 + (high - 0xd800) * 0x400 + (low - 0xdc00)), after)
      else
        .ok (character high, rest)
    else
      .ok (character high, rest)
  | _ => .ok (character high, rest)

/-- The character that a letter after a backslash stands for. -/
def escapedLetter? : Char → Option Char
  | '"' => some '"'
  | '\\' => some '\\'
  | '/' => some '/'
  | 'b' => some '\x08'
  | 'f' => some '\x0c'
  | 'n' => some '\n'
  | 'r' => some '\r'
  | 't' => some '\t'
  | _ => none

/-- The character after a backslash, in a text that begins at `start`. -/
def escapeAfter (start : List Char) : Reader Char := fun cs =>
  match cs with
  | [] => fault .unterminatedText start
  | 'u' :: _ => escapedCodePoint cs
  | c :: rest =>
    match escapedLetter? c with
    | some d => .ok (d, rest)
    | none => fault .invalidEscape ('\\' :: cs)

/-- The characters up to the closing quote, in a text that begins at `start`. -/
def charactersWithin (start : List Char) : Nat → Reader (List Char)
  | 0, _ => fault .unterminatedText start
  | _ + 1, [] => fault .unterminatedText start
  | n + 1, c :: rest =>
    if c = '"' then .ok ([], rest)
    else if c = '\\' then do
      let (d, rest) ← escapeAfter start rest
      let (more, rest) ← charactersWithin start n rest
      .ok (d :: more, rest)
    else if c.toNat ≤ 0x1f then fault .controlCharacter (c :: rest)
    else do
      let (more, rest) ← charactersWithin start n rest
      .ok (c :: more, rest)

/-- A text from its opening quote on. -/
def text : Reader String := fun cs => do
  let (characters, rest) ← charactersWithin cs cs.length cs.tail
  .ok (String.ofList characters, rest)

/-! ### Numbers -/

/-- The digits before the point of a numeral: a zero alone, or digits that begin with another one.
-/
def wholeDigits (cs : List Char) : List Char :=
  match cs with
  | '0' :: _ => ['0']
  | _ => cs.takeWhile isDigit

/-- The digits after the point at the head of a text. A point without a digit after it is not taken.
-/
def fractionDigits (cs : List Char) : List Char :=
  match cs with
  | '.' :: cs => cs.takeWhile isDigit
  | _ => []

/-- A number. -/
def number : Reader Scalar := fun cs =>
  let (negative, body) :=
    match cs with
    | '-' :: body => (true, body)
    | body => (false, body)
  let whole := wholeDigits body
  if whole = [] then
    fault .expectingValue cs
  else
    let rest := body.drop whole.length
    let fraction := fractionDigits rest
    let rest := if fraction = [] then rest else rest.drop (fraction.length + 1)
    match Binary64.Numeral.exponentAt? rest with
    | some (exponent, rest) =>
      .ok (.float (Binary64.Numeral.value negative ⟨whole, fraction, exponent⟩), rest)
    | none =>
      if fraction ≠ [] then
        .ok (.float (Binary64.Numeral.value negative ⟨whole, fraction, 0⟩), rest)
      else if maxDigits < whole.length then
        .error (.tooManyDigits whole.length)
      else
        let n : Int := Binary64.Numeral.digitsValue whole
        .ok (.int (if negative then -n else n), rest)

/-- The scalars that have a name. -/
def named : List (String × Scalar) :=
  [("null", .null), ("true", .bool true), ("false", .bool false), ("NaN", .float .nan),
    ("Infinity", .float (.infinite false)), ("-Infinity", .float (.infinite true))]

/-- A scalar that is not a text. -/
def scalar : Reader Scalar := fun cs =>
  match named.find? fun e => e.1.toList.isPrefixOf cs with
  | some (name, s) => .ok (s, cs.drop name.toList.length)
  | none => number cs

/-! ### Values -/

/-- Items separated by commas, up to the closing character. Blanks may stand around every item. -/
def itemsWithin {α : Type} (close : Char) (item : Reader α) : Nat → Reader (List α)
  | 0, cs => fault .expectingComma cs
  | n + 1, cs => do
    let (first, rest) ← item cs
    match skipSpace rest with
    | [] => fault .expectingComma []
    | c :: rest =>
      if c = close then
        .ok ([first], rest)
      else if c = ',' then do
        let (more, rest) ← itemsWithin close item n (skipSpace rest)
        .ok (first :: more, rest)
      else
        fault .expectingComma (c :: rest)

/-- What stands between an opening character and the closing one: nothing, or items. -/
def enclosed {α : Type} (close : Char) (item : Reader α) : Reader (List α) := fun cs =>
  match skipSpace cs with
  | [] => itemsWithin close item 1 []
  | c :: rest =>
    if c = close then .ok ([], rest) else itemsWithin close item (rest.length + 1) (c :: rest)

/-- An entry of a mapping: a quoted name, a colon, and a value. -/
def entry (value : Reader Value) : Reader (Scalar × Value) := fun cs =>
  match cs with
  | '"' :: _ => do
    let (name, rest) ← text cs
    match skipSpace rest with
    | ':' :: rest => do
      let (v, rest) ← value (skipSpace rest)
      .ok ((.text name, v), rest)
    | rest => fault .expectingColon rest
  | _ => fault .expectingName cs

/-- A value whose parts nest no deeper than a number of levels. -/
def valueWithin : Nat → Reader Value
  | 0, cs => fault .expectingValue cs
  | n + 1, cs =>
    match cs with
    | '"' :: _ => do
      let (s, rest) ← text cs
      .ok (.ofText s, rest)
    | '\x7b' :: rest => do
      let (entries, rest) ← enclosed '\x7d' (entry (valueWithin n)) rest
      .ok (.ofEntries entries, rest)
    | '[' :: rest => do
      let (items, rest) ← enclosed ']' (valueWithin n) rest
      .ok (.list items, rest)
    | _ => do
      let (s, rest) ← scalar cs
      .ok (.scalar s, rest)

/-- The value that a whole text denotes. Blanks may stand around it, a byte order mark may not. -/
def read (cs : List Char) : Except Fault Value :=
  if cs.head? = some '\ufeff' then
    fault .byteOrderMark cs
  else do
    let (v, rest) ← valueWithin (cs.length + 1) (skipSpace cs)
    match skipSpace rest with
    | [] => .ok v
    | rest => fault .extraData rest

/-- The text of a fault found in a given text. -/
def Fault.message (cs : List Char) : Fault → String
  | malformed problem rest =>
    let before := cs.take (cs.length - rest.length)
    let line := before.count '\n' + 1
    let column := (before.reverse.takeWhile (· != '\n')).length + 1
    problem.message ++ ": line " ++ toString line ++ " column " ++ toString column ++ " (char "
      ++ toString before.length ++ ")"
  | tooManyDigits count =>
    "Exceeds the limit (" ++ toString maxDigits
      ++ " digits) for integer string conversion: value has " ++ toString count
      ++ " digits; use sys.set_int_max_str_digits() to increase the limit"

end MonkeyLang.Json
