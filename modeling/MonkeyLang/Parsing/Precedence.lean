import MonkeyLang.Token.Kind

/-!
# Precedence

How tightly an operator binds. Only operators and the opening parenthesis of a call bind at all;
every other kind has the lowest precedence. Precedences are compared by level.
-/

namespace MonkeyLang

/-- How tightly an operator binds, from loosest to tightest. -/
inductive Precedence where
  | lowest
  | equals
  | lessGreater
  | sum
  | product
  | unary
  | call
  deriving DecidableEq, Repr, Inhabited

namespace Precedence

/-- Every precedence once, from loosest to tightest. -/
def all : List Precedence := [lowest, equals, lessGreater, sum, product, unary, call]

/-- The identifying name of a precedence. -/
def name : Precedence → String
  | lowest => "LOWEST"
  | equals => "EQUALS"
  | lessGreater => "LESSGREATER"
  | sum => "SUM"
  | product => "PRODUCT"
  | unary => "PREFIX"
  | call => "CALL"

/-- The precedence with a given name. -/
def ofName? (s : String) : Option Precedence :=
  all.find? fun p => p.name == s

/-- Levels count from one, and a higher level binds tighter. -/
def level : Precedence → Nat
  | lowest => 1
  | equals => 2
  | lessGreater => 3
  | sum => 4
  | product => 5
  | unary => 6
  | call => 7

instance : LT Precedence := ⟨fun p q => p.level < q.level⟩

instance (p q : Precedence) : Decidable (p < q) :=
  inferInstanceAs (Decidable (p.level < q.level))

theorem lt_def (p q : Precedence) : p < q ↔ p.level < q.level := Iff.rfl

end Precedence

namespace Kind

/-- The precedence at which a token of a kind continues an expression. -/
def precedence : Kind → Precedence
  | eq | notEq => .equals
  | lt | gt => .lessGreater
  | plus | minus => .sum
  | asterisk | slash => .product
  | lparen => .call
  | _ => .lowest

/-- The kinds that continue an expression, with their precedences. -/
def precedences : List (Kind × Precedence) :=
  (all.filter fun k => k.precedence != .lowest).map fun k => (k, k.precedence)

end Kind

end MonkeyLang
