import MonkeyLang.Lexing.Scan

/-!
# A cursor in a text

A cursor keeps the whole text, the position of the next character and the place that it reports
for it. Position and place may start anywhere. Past the end nothing is left to read. Below zero a
position counts from the end of the text: the character there can be read, and reading on arrives
at the start of the text, but looking at such a position shows nothing.
-/

namespace MonkeyLang

open Text

/-- Why no character could be read. -/
inductive ReadFault where
  /-- The position is at or past the end of the text. -/
  | pastEnd (position line : Int)
  /-- The position lies further below zero than the text is long. -/
  | beforeStart
  deriving DecidableEq, Repr

namespace ReadFault

/-- The text of a fault. -/
def message : ReadFault → String
  | pastEnd position line =>
    "read past end of source at position=" ++ toString position ++ ", line=" ++ toString line
  | beforeStart => "string index out of range"

end ReadFault

/-- A text, the position of the next character in it, and the place of that character. -/
structure TextCursor where
  source : String
  position : Int := 0
  place : Place := .start
  deriving DecidableEq, Repr

namespace TextCursor

/-- The number of characters of the text. -/
def length (c : TextCursor) : Nat := c.source.toList.length

/-- Nothing is left at or past the end of the text. -/
def atEnd (c : TextCursor) : Bool :=
  decide ((c.length : Int) ≤ c.position)

/-- The character `offset` places from the cursor; none outside the text. -/
def peek (c : TextCursor) (offset : Int) : Option Char :=
  let index := c.position + offset
  if index < 0 then none else c.source.toList[index.toNat]?

/-- The character at the cursor, counted from the end of the text when the position is below
zero, and the cursor after it. -/
def next (c : TextCursor) : Except ReadFault (Char × TextCursor) :=
  if c.atEnd then
    .error (.pastEnd c.position c.place.line)
  else
    let index := if c.position < 0 then c.position + c.length else c.position
    match if index < 0 then none else c.source.toList[index.toNat]? with
    | some char => .ok (char, ⟨c.source, c.position + 1, c.place.after char⟩)
    | none => .error .beforeStart

/-- The cursor at the start of the text that a cursor below zero arrives at by reading on. A
cursor in or past the text stays where it is. -/
def arrive (c : TextCursor) : Except ReadFault TextCursor :=
  if 0 ≤ c.position then
    .ok c
  else if c.length + c.position < 0 then
    .error .beforeStart
  else
    .ok ⟨c.source, 0, c.place.afterAll (c.source.toList.drop (c.length + c.position).toNat)⟩

/-- A cursor arrives in the text unless its position lies further below zero than the text is long.
-/
theorem arrive_eq_error_iff (c : TextCursor) (e : ReadFault) :
    c.arrive = .error e ↔ c.position < -c.length ∧ e = .beforeStart := by
  unfold arrive
  split
  · next h =>
    simp only [reduceCtorEq, false_iff, not_and]
    omega
  · split
    · simp only [Except.error.injEq]
      constructor
      · rintro rfl
        exact ⟨by omega, rfl⟩
      · rintro ⟨-, rfl⟩
        rfl
    · simp only [reduceCtorEq, false_iff, not_and]
      omega

/-- A cursor that arrives stands in or past the text. -/
theorem position_arrive {c d : TextCursor} (h : c.arrive = .ok d) :
    d.source = c.source ∧ d.position = max c.position 0 := by
  unfold arrive at h
  split at h
  · obtain rfl := Except.ok.inj h
    exact ⟨rfl, by omega⟩
  · split at h
    · simp at h
    · obtain rfl := Except.ok.inj h
      exact ⟨rfl, by simp only; omega⟩

/-- What is unread from a cursor in the text on. -/
def scan (c : TextCursor) : Scan :=
  ⟨c.source.toList.drop c.position.toNat, c.place⟩

/-- The cursor where a later scan of the same text begins. -/
def moveTo (c : TextCursor) (s : Scan) : TextCursor :=
  ⟨c.source, c.position + (c.scan.rest.length - s.rest.length : Nat), s.place⟩

/-- The cursor after the blanks at it; everything below position zero is passed over too. -/
def skipBlanks (c : TextCursor) : Except ReadFault TextCursor :=
  c.arrive.map fun d => d.moveTo d.scan.skipBlanks

/-- The token that comes next, and the cursor after it. -/
def nextToken (c : TextCursor) : Except ReadFault (Token × TextCursor) :=
  c.arrive.map fun d => (d.scan.token, d.moveTo d.scan.next)

/-- All tokens up to and including the end token, and the cursor after them. -/
def tokens (c : TextCursor) : Except ReadFault (List Token × TextCursor) :=
  c.arrive.map fun d => (d.scan.tokens, d.moveTo (d.scan.drop d.scan.rest.length))

/-- The longest run of characters of a class at the cursor, and the cursor after it. -/
def readWhile (c : TextCursor) (inClass : Char → Bool) : String × TextCursor :=
  if c.position < 0 then
    ("", c)
  else
    let run := c.scan.rest.takeWhile inClass
    (String.ofList run, c.moveTo (c.scan.drop run.length))

/-- The operator or delimiter token at the cursor, if one starts there, and the cursor after it.
-/
def matchOperator (c : TextCursor) : Option Token × TextCursor :=
  match if c.position < 0 then none else Kind.operatorAt? c.scan.rest with
  | some k => (some ⟨k, k.text, c.place⟩, c.moveTo (c.scan.drop k.text.toList.length))
  | none => (none, c)

end TextCursor

end MonkeyLang
