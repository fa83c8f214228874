import MonkeyLang.Lexing.Scan
import MonkeyLang.Parsing.Diagnostic

/-!
# Two tokens in view

Tokens come one at a time from a source, which hands out end tokens forever once it is exhausted. A
window on a source shows the current token and the one after it. Main statement: the number of
tokens that a window still has before it drops with each advance from a token that is not the end
token (`size_advance_lt`), which bounds every loop of the parser.
-/

namespace MonkeyLang

/-- Where tokens come from: a text that is read as needed, or a list that ends in end tokens of a
given place. -/
inductive Source where
  | text (scan : Scan)
  | tokens (pending : List Token) (finish : Place)
  deriving DecidableEq, Repr

namespace Token

/-- An end token weighs nothing and every other token one. -/
def weight (t : Token) : Nat := if t.kind = .eof then 0 else 1

theorem weight_of_eof {t : Token} (h : t.kind = .eof) : t.weight = 0 := if_pos h

theorem weight_of_ne_eof {t : Token} (h : t.kind ≠ .eof) : t.weight = 1 := if_neg h

theorem weight_le_one (t : Token) : t.weight ≤ 1 := by
  unfold weight
  split <;> omega

@[simp] theorem weight_endAt (p : Place) : (endAt p).weight = 0 := rfl

end Token

namespace Source

/-- A whole text as a source of tokens. -/
def ofText (text : String) : Source := .text (.ofText text)

/-- A list of tokens followed by end tokens without a place. -/
def ofTokens (pending : List Token) : Source := .tokens pending ⟨0, 0⟩

/-- The token that a source hands out next. -/
def head : Source → Token
  | text scan => scan.token
  | tokens (t :: _) _ => t
  | tokens [] finish => .endAt finish

/-- The source after one token. -/
def tail : Source → Source
  | text scan => text scan.next
  | tokens (_ :: pending) finish => tokens pending finish
  | tokens [] finish => tokens [] finish

/-- A bound on the number of tokens left: unread characters, or pending tokens. -/
def left : Source → Nat
  | text scan => scan.rest.length
  | tokens pending _ => pending.length

/-- Handing out a token leaves less, except that an end token need not. -/
theorem left_tail_add_le (s : Source) : s.tail.left + s.head.weight ≤ s.left := by
  cases s with
  | text scan =>
    by_cases h : scan.token.kind = .eof
    · rw [head, Token.weight_of_eof h]
      exact scan.length_next_le
    · rw [head, Token.weight_of_ne_eof h]
      exact Scan.length_next_lt h
  | tokens pending finish =>
    cases pending with
    | nil => simp [head, tail, left]
    | cons t pending => exact Nat.add_le_add_left t.weight_le_one _

end Source

/-- The current token, the one after it, the source of all further tokens, and the position of the
current token in the sequence. -/
structure Window where
  index : Nat
  current : Token
  peek : Token
  source : Source
  deriving DecidableEq, Repr

namespace Window

/-- The window on the first two tokens of a source. -/
def ofSource (s : Source) : Window := ⟨0, s.head, s.tail.head, s.tail.tail⟩

/-- The window one token on. -/
def advance (w : Window) : Window :=
  ⟨w.index + 1, w.peek, w.source.head, w.source.tail⟩

/-- The token at a spot. -/
def tokenAt (w : Window) : Spot → Token
  | .current => w.current
  | .peek => w.peek

/-- The position in the sequence of the token at a spot. -/
def indexAt (w : Window) : Spot → Nat
  | .current => w.index
  | .peek => w.index + 1

/-- The diagnostic that blames the token at a spot, before any level of nesting is counted. -/
def blame (w : Window) (spot : Spot) (problem : Problem) : Diagnostic :=
  ⟨problem, w.tokenAt spot, spot, w.indexAt spot, 0⟩

/-- A bound on the number of advances from tokens that are not the end token. -/
def size (w : Window) : Nat :=
  w.source.left + w.peek.weight + w.current.weight

theorem size_advance_add_le (w : Window) : w.advance.size + w.current.weight ≤ w.size := by
  have h := w.source.left_tail_add_le
  simp only [size, advance]
  omega

theorem size_advance_le (w : Window) : w.advance.size ≤ w.size :=
  Nat.le_trans (Nat.le_add_right _ _) w.size_advance_add_le

/-- Each advance from a token that is not the end token lowers the bound. -/
theorem size_advance_lt {w : Window} (h : w.current.kind ≠ .eof) : w.advance.size < w.size := by
  have hw := w.size_advance_add_le
  rw [Token.weight_of_ne_eof h] at hw
  exact hw

end Window

end MonkeyLang
