import MonkeyLang.Token.Kind
import MonkeyLang.Text.Letters

/-!
# Lexemes

The lexeme at the head of a text is the longest one that starts there: a word, a numeral, an
operator or delimiter, or else a single character that starts nothing. Main statements: a lexeme
is a non-empty beginning of its text (`text_isPrefix`, `text_ne_nil`), and only the empty text has
the end-of-text lexeme (`kind_eq_eof_iff`).
-/

namespace MonkeyLang

open Text

/-- A kind together with the characters that spell it. -/
structure Lexeme where
  kind : Kind
  text : List Char
  deriving DecidableEq, Repr

namespace Lexeme

/-- The lexeme at the head of a text. Words and numerals extend as far as their class goes,
operators as far as a longer spelling matches. -/
def atHead : List Char → Lexeme
  | [] => ⟨.eof, []⟩
  | c :: cs =>
    if isLetter c then
      let word := (c :: cs).takeWhile isLetter
      ⟨Kind.ofWord (String.ofList word), word⟩
    else if isDigit c then
      ⟨.int, (c :: cs).takeWhile isDigit⟩
    else
      match Kind.operatorAt? (c :: cs) with
      | some k => ⟨k, k.text.toList⟩
      | none => ⟨.illegal, [c]⟩

theorem operatorAt?_isPrefix {cs : List Char} {k : Kind} (h : Kind.operatorAt? cs = some k) :
    k ∈ Kind.operatorKinds ∧ k.text.toList <+: cs := by
  have hp := List.find?_some h
  exact ⟨List.mem_of_find?_eq_some h, List.isPrefixOf_iff_prefix.1 hp⟩

private theorem operator_text {k : Kind} (h : k ∈ Kind.operatorKinds) :
    k ≠ .eof ∧ k.text.toList ≠ [] := by
  revert h
  cases k <;> decide

/-- No word is the end of the text. -/
theorem ofWord_ne_eof (word : String) : Kind.ofWord word ≠ .eof := by
  have hkeywords : ∀ entry ∈ Kind.keywords, entry.2 ≠ .eof := by decide
  rcases Kind.ofWord_cases word with ⟨-, hident⟩ | hmem
  · rw [hident]
    decide
  · exact hkeywords _ hmem

/-- A lexeme is a beginning of its text. -/
theorem text_isPrefix (cs : List Char) : (atHead cs).text <+: cs := by
  cases cs with
  | nil => simp [atHead]
  | cons c cs =>
    simp only [atHead]
    split
    · exact List.takeWhile_prefix _
    · split
      · exact List.takeWhile_prefix _
      · split
        · next k hk => exact (operatorAt?_isPrefix hk).2
        · exact ⟨cs, rfl⟩

/-- Every lexeme of a non-empty text takes a character. -/
theorem text_ne_nil {cs : List Char} (h : cs ≠ []) : (atHead cs).text ≠ [] := by
  cases cs with
  | nil => exact absurd rfl h
  | cons c cs =>
    simp only [atHead]
    split
    · next hc => simp [hc]
    · split
      · next hc => simp [hc]
      · split
        · next k hk => exact (operator_text (operatorAt?_isPrefix hk).1).2
        · exact List.cons_ne_nil _ _

/-- The end-of-text lexeme stands at the end of the text only. -/
@[simp] theorem kind_eq_eof_iff (cs : List Char) : (atHead cs).kind = .eof ↔ cs = [] := by
  cases cs with
  | nil => simp [atHead]
  | cons c cs =>
    simp only [atHead, reduceCtorEq, iff_false]
    split
    · exact ofWord_ne_eof _
    · split
      · simp
      · split
        · next k hk => exact (operator_text (operatorAt?_isPrefix hk).1).1
        · simp

end Lexeme

end MonkeyLang
