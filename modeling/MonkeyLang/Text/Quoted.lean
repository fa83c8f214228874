import MonkeyLang.Text.Printable

/-!
# Quoted text

A text between quotes, on one line and unambiguous. Single quotes are used unless the text has one
and has no double quote. Within, the backslash, the quote in use, newline, carriage return and tab
are escaped by a backslash, and other characters that are not printable by their code point in
hexadecimal.
-/

namespace MonkeyLang.Text

/-- The lower-case hexadecimal digits of a number, with zeros before them up to a width. -/
def hex (width n : Nat) : List Char :=
  let digits := Nat.toDigits 16 n
  List.replicate (width - digits.length) '0' ++ digits

/-- The quote character that surrounds a text: double exactly if the text has a single quote and
no double one. -/
def quoteFor (cs : List Char) : Char :=
  if cs.contains '\x27' && !cs.contains '"' then '"' else '\x27'

/-- A character as it stands within quotes of a given kind. -/
def escape (quote c : Char) : List Char :=
  if c = '\\' || c = quote then ['\\', c]
  else if c = '\n' then ['\\', 'n']
  else if c = '\r' then ['\\', 'r']
  else if c = '\t' then ['\\', 't']
  else if isPrintable c then [c]
  else if c.toNat ≤ 0xff then '\\' :: 'x' :: hex 2 c.toNat
  else if c.toNat ≤ 0xffff then '\\' :: 'u' :: hex 4 c.toNat
  else '\\' :: 'U' :: hex 8 c.toNat

/-- A text between quotes. -/
def quoted (text : String) : String :=
  let quote := quoteFor text.toList
  String.ofList (quote :: text.toList.flatMap (escape quote) ++ [quote])

example : quoted "a\tb" = "\x27a\\tb\x27" := by decide +kernel

example : quoted "it\x27s" = "\"it\x27s\"" := by decide +kernel

example : quoted "\x07\u200b" = "\x27\\x07\\u200b\x27" := by decide +kernel

end MonkeyLang.Text
