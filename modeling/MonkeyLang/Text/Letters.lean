/-!
# Character classes

Letters, digits and blanks of the language are ASCII. A class also has a form for whole texts, in
which a text is compared with the class's bounds as a text, by code points from the left; on a text
of one character the two forms agree.
-/

namespace MonkeyLang.Text

/-- The underscore and the letters of the ASCII alphabet. -/
def isLetter (c : Char) : Bool :=
  c == '_' || (decide ('a' ≤ c) && decide (c ≤ 'z'))
    || (decide ('A' ≤ c) && decide (c ≤ 'Z'))

/-- The ten decimal digits of ASCII. -/
def isDigit (c : Char) : Bool :=
  decide ('0' ≤ c) && decide (c ≤ '9')

/-- The characters that only separate tokens: space, tab, carriage return and newline. -/
def isBlank (c : Char) : Bool :=
  c == ' ' || c == '\t' || c == '\r' || c == '\n'

/-- A text that lies between two texts in the order that compares code points from the left. -/
def liesBetween (low high text : String) : Bool :=
  decide (low ≤ text) && decide (text ≤ high)

/-- The letter class on whole texts: the bounds of the alphabet compared with the whole text. -/
def isLetterText (text : String) : Bool :=
  text == "_" || liesBetween "a" "z" text || liesBetween "A" "Z" text

/-- The digit class on whole texts. -/
def isDigitText (text : String) : Bool :=
  liesBetween "0" "9" text

/-- No letter is a digit. -/
theorem isDigit_of_isLetter {c : Char} (h : isLetter c = true) : isDigit c = false := by
  simp only [isLetter, Bool.or_eq_true, Bool.and_eq_true, beq_iff_eq,
    decide_eq_true_eq] at h
  rcases h with (rfl | ⟨h, -⟩) | ⟨h, -⟩
  · decide
  · have : ¬ c ≤ '9' := fun h' => absurd (Char.le_trans h h') (by decide)
    simp [isDigit, this]
  · have : ¬ c ≤ '9' := fun h' => absurd (Char.le_trans h h') (by decide)
    simp [isDigit, this]

end MonkeyLang.Text
