import MonkeyLang.Lexing.Lexeme
import MonkeyLang.Token.Basic

/-!
# Reading a text token by token

A scan is the part of a text that is still unread, with the place of its first character. Taking a
token skips blanks, takes the lexeme at the head and moves the place over what was taken; at the
end of the text the end token is taken again and again. Main statements: taking a token shortens
the unread part unless it is the end token (`length_next_lt`), and `tokens_eq` unfolds the list of
all tokens by one.
-/

namespace MonkeyLang

open Text

/-- The unread part of a text and the place where it begins. -/
structure Scan where
  rest : List Char
  place : Place := .start
  deriving DecidableEq, Repr, Inhabited

namespace Scan

/-- A whole text, unread. -/
def ofText (text : String) : Scan := ⟨text.toList, .start⟩

/-- The scan after the next `n` characters. -/
def drop (s : Scan) (n : Nat) : Scan :=
  ⟨s.rest.drop n, s.place.afterAll (s.rest.take n)⟩

/-- The scan after the blanks at its head. -/
def skipBlanks (s : Scan) : Scan :=
  ⟨s.rest.dropWhile isBlank, s.place.afterAll (s.rest.takeWhile isBlank)⟩

/-- The token that comes next, blanks skipped. -/
def token (s : Scan) : Token :=
  let lexeme := Lexeme.atHead s.skipBlanks.rest
  ⟨lexeme.kind, String.ofList lexeme.text, s.skipBlanks.place⟩

/-- The scan after the next token. -/
def next (s : Scan) : Scan :=
  s.skipBlanks.drop (Lexeme.atHead s.skipBlanks.rest).text.length

@[simp] theorem kind_token (s : Scan) :
    s.token.kind = (Lexeme.atHead s.skipBlanks.rest).kind := rfl

theorem length_skipBlanks_le (s : Scan) : s.skipBlanks.rest.length ≤ s.rest.length :=
  (List.dropWhile_suffix _).length_le

/-- Only an exhausted text has the end token next. -/
theorem kind_token_eq_eof_iff (s : Scan) : s.token.kind = .eof ↔ s.skipBlanks.rest = [] := by
  simp

theorem length_next_le (s : Scan) : s.next.rest.length ≤ s.rest.length := by
  have h := s.length_skipBlanks_le
  simp only [next, drop, List.length_drop]
  omega

/-- Every token but the end token takes at least one character. -/
theorem length_next_lt {s : Scan} (h : s.token.kind ≠ .eof) :
    s.next.rest.length < s.rest.length := by
  have hle := s.length_skipBlanks_le
  have hne : s.skipBlanks.rest ≠ [] := fun e => h ((kind_token_eq_eof_iff s).2 e)
  have ht := List.length_pos_iff.2 (Lexeme.text_ne_nil hne)
  have hr := List.length_pos_iff.2 hne
  simp only [next, drop, List.length_drop]
  omega

private def tokensWithin : Nat → Scan → List Token
  | 0, s => [s.token]
  | n + 1, s => if s.token.kind = .eof then [s.token] else s.token :: tokensWithin n s.next

/-- All tokens of a scan, up to and including the end token. -/
def tokens (s : Scan) : List Token :=
  tokensWithin s.rest.length s

private theorem tokensWithin_eq {n m : Nat} {s : Scan} (hn : s.rest.length ≤ n)
    (hm : s.rest.length ≤ m) : tokensWithin n s = tokensWithin m s := by
  induction n generalizing m s with
  | zero =>
    have : s.token.kind = .eof := by
      simp [skipBlanks, List.length_eq_zero_iff.1 (Nat.le_zero.1 hn)]
    cases m <;> simp only [tokensWithin, this, if_true]
  | succ n ih =>
    by_cases h : s.token.kind = .eof
    · cases m <;> simp only [tokensWithin, h, if_true]
    · have hlt := length_next_lt h
      cases m with
      | zero => omega
      | succ m =>
        simp only [tokensWithin, h, if_false]
        rw [ih (m := m) (by omega) (by omega)]

/-- The tokens of a scan are its next token and, unless that is the end, the tokens after it. -/
theorem tokens_eq (s : Scan) :
    s.tokens = if s.token.kind = .eof then [s.token] else s.token :: s.next.tokens := by
  unfold tokens
  rw [tokensWithin_eq (Nat.le_refl _) (Nat.le_succ s.rest.length), tokensWithin]
  by_cases h : s.token.kind = .eof
  · simp only [h, if_true]
  · simp only [h, if_false]
    rw [tokensWithin_eq (Nat.le_of_lt (length_next_lt h)) (Nat.le_refl _)]

end Scan

/-- The tokens of a text, the end token included. -/
def tokenize (text : String) : List Token :=
  (Scan.ofText text).tokens

end MonkeyLang
