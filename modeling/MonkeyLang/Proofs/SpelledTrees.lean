import MonkeyLang.Proofs.WellFormed

/-!
# Trees that spell themselves out

The trees of programs without regard to any settings: the literals of numerals are digits in any
number, and which number such a literal may stand for is a parameter. Main statement:
`WellFormed.Program.spelled`, by which a tree that is well-formed for some settings is one of these.
-/

namespace MonkeyLang

open Text

/-- The number that a literal denotes in decimal. -/
def Text.IsDecimal (s : String) (value : Int) : Prop := value = decimal s.toList

namespace Spelled

mutual

/-- Expressions. A numeral may have a value that its literal stands for. -/
inductive Expression (standsFor : String → Int → Prop) : Node → Prop
  | name {n} : WellFormed.Name n → Expression standsFor n
  | numeral {t v} : t.kind = .int → IsDigits t.literal → standsFor t.literal v →
    Expression standsFor (.integer t v)
  | yes {t} : t.Spells .trueWord → Expression standsFor (.boolean t true)
  | no {t} : t.Spells .falseWord → Expression standsFor (.boolean t false)
  | unary {t e} {k : Kind} : k = .bang ∨ k = .minus → t.Spells k → Expression standsFor e →
    Expression standsFor (.unary t t.literal e)
  | binary {t l r} {s : Stratum} {k : Kind} : k ∈ s.operators → t.Spells k →
    Expression standsFor l → Expression standsFor r →
    Expression standsFor (.binary t l t.literal r)
  | choice {t e b} : t.Spells .ifWord → Expression standsFor e → Block standsFor b →
    Expression standsFor (.conditional t e b none)
  | alternative {t e b a} : t.Spells .ifWord → Expression standsFor e → Block standsFor b →
    Block standsFor a → Expression standsFor (.conditional t e b (some a))
  | function {t ps b} : t.Spells .function → (∀ p ∈ ps, WellFormed.Name p) → Block standsFor b →
    Expression standsFor (.function t ps b)
  | call {t e ns} : t.Spells .lparen → Expression standsFor e →
    (∀ n ∈ ns, Expression standsFor n) → Expression standsFor (.call t e ns)

/-- Statements in braces. -/
inductive Block (standsFor : String → Int → Prop) : Node → Prop
  | braces {t ns} : t.Spells .lbrace → (∀ n ∈ ns, Statement standsFor n) →
    Block standsFor (.block t ns)

/-- Statements. The token of an expression statement may be any. -/
inductive Statement (standsFor : String → Int → Prop) : Node → Prop
  | binding {t n e} : t.Spells .letWord → WellFormed.Name n → Expression standsFor e →
    Statement standsFor (.letStatement t n e)
  | result {t e} : t.Spells .returnWord → Expression standsFor e →
    Statement standsFor (.returnStatement t e)
  | expression {t e} : Expression standsFor e → Statement standsFor (.expressionStatement t e)

end

/-- Programs. -/
inductive Program (standsFor : String → Int → Prop) : Node → Prop
  | intro {ns} : (∀ n ∈ ns, Statement standsFor n) → Program standsFor (.program ns)

end Spelled

namespace WellFormed

variable {config : Config}

mutual

theorem Expression.spelled {n : Node} : Expression config n → Spelled.Expression IsDecimal n
  | .name hn => .name hn
  | .numeral ht hn _ => .numeral ht hn.isDigits (congrArg Nat.cast hn.value.symm)
  | .yes ht => .yes ht
  | .no ht => .no ht
  | .unary hk ht he => .unary hk ht he.spelled
  | .binary hk ht hl hr => .binary hk ht hl.spelled hr.spelled
  | .choice ht he hb => .choice ht he.spelled hb.spelled
  | .alternative ht he hb ha => .alternative ht he.spelled hb.spelled ha.spelled
  | .function ht hps hb => .function ht hps hb.spelled
  | .call ht he hns => .call ht he.spelled fun n hn => (hns n hn).spelled

theorem Block.spelled {n : Node} : Block config n → Spelled.Block IsDecimal n
  | .braces ht hns => .braces ht fun n hn => (hns n hn).spelled

theorem Statement.spelled {n : Node} : Statement config n → Spelled.Statement IsDecimal n
  | .binding ht hn he => .binding ht hn he.spelled
  | .result ht he => .result ht he.spelled
  | .expression he => .expression he.spelled

end

/-- A program that is well-formed for some settings spells itself out. -/
theorem Program.spelled {n : Node} : Program config n → Spelled.Program IsDecimal n
  | .intro hns => .intro fun n hn => (hns n hn).spelled

end WellFormed

end MonkeyLang
