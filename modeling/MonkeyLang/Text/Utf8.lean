import MonkeyLang.Text.Quoted

/-!
# UTF-8

Decoding bytes as text. A character is a lead byte followed by up to three continuation bytes; the
first of these is confined further after some lead bytes, which excludes overlong forms, surrogates
and numbers past the last code point. Bytes that form no character are a fault, whose extent is the
longest beginning of a character that stands there.
-/

namespace MonkeyLang.Text.Utf8

/-- Why bytes are no character. -/
inductive Reason where
  | invalidStart
  | invalidContinuation
  | unexpectedEnd
  deriving DecidableEq, Repr

/-- Bytes that form no character: the first of them, where it stands, and how many they are. -/
structure Fault where
  reason : Reason
  first : UInt8
  position : Nat
  width : Nat
  deriving DecidableEq, Repr

/-- The text of a reason. -/
def Reason.message : Reason → String
  | invalidStart => "invalid start byte"
  | invalidContinuation => "invalid continuation byte"
  | unexpectedEnd => "unexpected end of data"

/-- The text of a fault: a single byte is shown, more are given by their positions. -/
def Fault.message (f : Fault) : String :=
  "'utf-8' codec can't decode "
    ++ (if f.width = 1 then
        "byte 0x" ++ String.ofList (hex 2 f.first.toNat) ++ " in position " ++ toString f.position
      else
        "bytes in position " ++ toString f.position ++ "-" ++ toString (f.position + f.width - 1))
    ++ ": " ++ f.reason.message

/-- The number of continuation bytes after a lead byte, the bounds of the first one, and the bits
that the lead byte contributes. -/
def lead? (b : UInt8) : Option (Nat × UInt8 × UInt8 × Nat) :=
  let n := b.toNat
  if n < 0x80 then some (0, 0x80, 0xbf, n)
  else if n < 0xc2 then none
  else if n < 0xe0 then some (1, 0x80, 0xbf, n - 0xc0)
  else if n = 0xe0 then some (2, 0xa0, 0xbf, n - 0xe0)
  else if n = 0xed then some (2, 0x80, 0x9f, n - 0xe0)
  else if n < 0xf0 then some (2, 0x80, 0xbf, n - 0xe0)
  else if n = 0xf0 then some (3, 0x90, 0xbf, n - 0xf0)
  else if n < 0xf4 then some (3, 0x80, 0xbf, n - 0xf0)
  else if n = 0xf4 then some (3, 0x80, 0x8f, n - 0xf0)
  else none

/-- The continuation bytes at the head of some bytes, up to a number of them, the first one within
given bounds. -/
def continuations (low high : UInt8) : Nat → List UInt8 → List UInt8
  | 0, _ => []
  | _ + 1, [] => []
  | n + 1, b :: bs =>
    if low ≤ b ∧ b ≤ high then b :: continuations 0x80 0xbf n bs else []

/-- The character that a lead byte begins, with the bytes after it. -/
def character (position : Nat) (b : UInt8) (bs : List UInt8) : Except Fault (Char × List UInt8) :=
  match lead? b with
  | none => .error ⟨.invalidStart, b, position, 1⟩
  | some (count, low, high, bits) =>
    let more := continuations low high count bs
    if more.length = count then
      .ok (Char.ofNat (more.foldl (fun n c => 64 * n + (c.toNat - 0x80)) bits), bs.drop count)
    else if more.length = bs.length then
      .error ⟨.unexpectedEnd, b, position, 1 + more.length⟩
    else
      .error ⟨.invalidContinuation, b, position, 1 + more.length⟩

private def decodeWithin (total : Nat) : Nat → List UInt8 → Except Fault (List Char)
  | _, [] => .ok []
  | 0, _ => .ok []
  | n + 1, b :: bs => do
    let (c, rest) ← character (total - (bs.length + 1)) b bs
    let more ← decodeWithin total n rest
    .ok (c :: more)

/-- The characters that bytes encode. -/
def decode (bytes : List UInt8) : Except Fault (List Char) :=
  decodeWithin bytes.length bytes.length bytes

example : decode [0xc3, 0xa9] = .ok ['\u00e9'] := rfl

example : decode [0x61, 0xe2, 0x82, 0x28] = .error ⟨.invalidContinuation, 0xe2, 1, 2⟩ := rfl

example : decode [0xf0, 0x9f] = .error ⟨.unexpectedEnd, 0xf0, 0, 2⟩ := rfl

end MonkeyLang.Text.Utf8
