import MonkeyLang.Token.Basic
import MonkeyLang.Text.Quoted

/-!
# Diagnostics

What a parse has to say against its text. A diagnostic is a problem, the token blamed for it, where
that token stood when the problem was found, its position in the sequence of tokens, and how many
levels of nesting were in use. The wording is computed from problem and token alone.
-/

namespace MonkeyLang

/-- How deeply expressions may nest. -/
def maxNesting : Nat := 100

/-- What is wrong with a token. -/
inductive Problem where
  /-- A token of another kind should stand here. -/
  | expected (kind : Kind)
  /-- No expression starts with this token. -/
  | noExpression
  /-- The token's text denotes no integer that the settings admit. -/
  | notAnInteger
  /-- The expression at this token is nested too deeply. -/
  | nestedTooDeep
  /-- A remark in free wording. -/
  | remark (text : String)
  deriving DecidableEq, Repr

/-- The two tokens in view: the current one and the one after it. -/
inductive Spot where
  | current
  | peek
  deriving DecidableEq, Repr

/-- A problem and the token blamed for it. The depth is the number of levels of nesting in use when
the problem was found, counted from where the parse began. -/
structure Diagnostic where
  problem : Problem
  token : Token
  spot : Spot
  index : Nat
  depth : Nat
  deriving DecidableEq, Repr

namespace Diagnostic

/-- A token as a message shows it: its text, or its kind where the text is empty. -/
def shown (t : Token) : String :=
  if t.literal = "" then t.kind.text else t.literal

/-- The wording of a diagnostic. -/
def message (d : Diagnostic) : String :=
  match d.problem with
  | .expected kind =>
    "expected next token to be " ++ kind.text ++ ", got " ++ d.token.kind.text
  | .noExpression => "no prefix parse function for " ++ shown d.token ++ " found"
  | .notAnInteger => "could not parse " ++ Text.quoted d.token.literal ++ " as integer"
  | .nestedTooDeep => "expression nested deeper than " ++ toString maxNesting ++ " levels"
  | .remark text => text

/-- The place that a diagnostic points at. -/
def place (d : Diagnostic) : Place := d.token.place

/-- The diagnostic of a parse one level further in. -/
def nested (d : Diagnostic) : Diagnostic := { d with depth := d.depth + 1 }

@[simp] theorem problem_nested (d : Diagnostic) : d.nested.problem = d.problem := rfl

@[simp] theorem index_nested (d : Diagnostic) : d.nested.index = d.index := rfl

@[simp] theorem depth_nested (d : Diagnostic) : d.nested.depth = d.depth + 1 := rfl

end Diagnostic

end MonkeyLang
