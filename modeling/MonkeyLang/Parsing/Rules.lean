import MonkeyLang.Parsing.Precedence
import MonkeyLang.Settings.Config

/-!
# Rules

Which tokens may start an expression and which may continue one, each with the form that it
introduces. The tables are data: a parse can be run with any of their entries removed.
-/

namespace MonkeyLang

/-- The forms that a token can introduce at the start of an expression. -/
inductive Opening where
  | name
  | numeral
  | truth
  | unary
  | group
  | conditional
  | function
  deriving DecidableEq, Repr

/-- The forms that a token can introduce after an expression. -/
inductive Continuation where
  | binary
  | call
  deriving DecidableEq, Repr

/-- The form that each kind of token introduces at the start of an expression and after one. -/
structure Rules where
  openings : List (Kind × Opening) :=
    [(.ident, .name), (.int, .numeral), (.trueWord, .truth), (.falseWord, .truth),
      (.bang, .unary), (.minus, .unary), (.lparen, .group), (.ifWord, .conditional),
      (.function, .function)]
  continuations : List (Kind × Continuation) :=
    [(.plus, .binary), (.minus, .binary), (.asterisk, .binary), (.slash, .binary),
      (.eq, .binary), (.notEq, .binary), (.lt, .binary), (.gt, .binary), (.lparen, .call)]
  deriving DecidableEq, Repr

namespace Rules

/-- The form that a kind introduces at the start of an expression. -/
def opening? (r : Rules) (k : Kind) : Option Opening := r.openings.lookup k

/-- The form that a kind introduces after an expression. -/
def continuation? (r : Rules) (k : Kind) : Option Continuation := r.continuations.lookup k

/-- The rules without the one by which a kind starts an expression. -/
def dropOpening (r : Rules) (k : Kind) : Rules :=
  { r with openings := r.openings.filter fun e => e.1 != k }

/-- The rules without the one by which a kind continues an expression. -/
def dropContinuation (r : Rules) (k : Kind) : Rules :=
  { r with continuations := r.continuations.filter fun e => e.1 != k }

end Rules

/-- What a parse goes by: settings and rules. -/
structure Setup where
  config : Config := {}
  rules : Rules := {}
  deriving DecidableEq, Repr

end MonkeyLang
