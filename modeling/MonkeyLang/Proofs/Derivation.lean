import MonkeyLang.Syntax.Node
import MonkeyLang.Settings.Config
import MonkeyLang.Text.Numeral

/-!
# Reference grammar

What a program is, without reference to any way of parsing it: an expression belongs to one of seven
strata, from equalities down to names and parentheses, and a binary operator joins an expression of
its own stratum on the left to one of a tighter stratum on the right. A derivation relates a list of
tokens to the tree that it stands for and carries two numbers, of which the second bounds how deep
the derivation nests; the first is one more than the number of operators and calls that were applied
to the leftmost operand.
-/

namespace MonkeyLang

/-- The strata of expressions, from loosest to tightest. -/
inductive Stratum where
  | equality
  | comparison
  | sum
  | product
  | unary
  | application
  | primary
  deriving DecidableEq, Repr

namespace Stratum

/-- The next tighter stratum. -/
def tighter : Stratum → Stratum
  | equality => comparison
  | comparison => sum
  | sum => product
  | product => unary
  | unary => application
  | application | primary => primary

/-- The binary operators of a stratum. -/
def operators : Stratum → List Kind
  | equality => [.eq, .notEq]
  | comparison => [.lt, .gt]
  | sum => [.plus, .minus]
  | product => [.asterisk, .slash]
  | unary | application | primary => []

end Stratum

namespace Kind

/-- The kinds of tokens that go on with an expression which could end before them. -/
def continuing : List Kind :=
  [plus, minus, asterisk, slash, eq, notEq, lt, gt, lparen]

end Kind

namespace Derivation

/-- Names separated by commas. -/
inductive MoreNames : List Token → List Node → Prop
  | nil : MoreNames [] []
  | cons {comma t us ns} : comma.kind = .comma → t.kind = .ident → MoreNames us ns →
    MoreNames (comma :: t :: us) (.identifier t t.literal :: ns)

/-- The parameters of a function, without the parentheses around them. -/
inductive Names : List Token → List Node → Prop
  | nil : Names [] []
  | cons {t us ns} : t.kind = .ident → MoreNames us ns →
    Names (t :: us) (.identifier t t.literal :: ns)

mutual

/-- Expressions of a stratum. -/
inductive Expression (config : Config) : Stratum → List Token → Node → Nat → Nat → Prop
  | name {t} : t.kind = .ident → Expression config .primary [t] (.identifier t t.literal) 1 1
  | numeral {t n} : t.kind = .int → Text.integer? t.literal = some n → n ≤ config.maxInt →
    Expression config .primary [t] (.integer t n) 1 1
  | yes {t} : t.kind = .trueWord → Expression config .primary [t] (.boolean t true) 1 1
  | no {t} : t.kind = .falseWord → Expression config .primary [t] (.boolean t false) 1 1
  | group {o us c e f m} : o.kind = .lparen → Expression config .equality us e f m →
    c.kind = .rparen → Expression config .primary (o :: us ++ [c]) e 1 (1 + m)
  | choice {t o us c bs e b f m k} : t.kind = .ifWord → o.kind = .lparen →
    Expression config .equality us e f m → c.kind = .rparen → Block config bs b k →
    Expression config .primary (t :: o :: us ++ c :: bs) (.conditional t e b none) 1 (1 + max m k)
  | alternative {t o us c bs l as e b a f m k j} : t.kind = .ifWord → o.kind = .lparen →
    Expression config .equality us e f m → c.kind = .rparen → Block config bs b k →
    l.kind = .elseWord → Block config as a j →
    Expression config .primary (t :: o :: us ++ c :: bs ++ l :: as) (.conditional t e b (some a)) 1
      (1 + max m (max k j))
  | function {t o us c bs ps b k} : t.kind = .function → o.kind = .lparen → Names us ps →
    c.kind = .rparen → Block config bs b k →
    Expression config .primary (t :: o :: us ++ c :: bs) (.function t ps b) 1 (1 + k)
  | call {us o as c e ns f m k} : Expression config .application us e f m → o.kind = .lparen →
    Arguments config as ns k → c.kind = .rparen →
    Expression config .application (us ++ o :: as ++ [c]) (.call o e ns) (f + 1) (max m (f + 1 + k))
  | unary {t us e f m} : t.kind = .bang ∨ t.kind = .minus → Expression config .unary us e f m →
    Expression config .unary (t :: us) (.unary t t.literal e) 1 (1 + m)
  | binary {s us t vs l r f m g k} : Expression config s us l f m → t.kind ∈ s.operators →
    Expression config s.tighter vs r g k →
    Expression config s (us ++ t :: vs) (.binary t l t.literal r) (f + 1) (max m (f + 1 + k))
  | tighter {s us e f m} : Expression config s.tighter us e f m → Expression config s us e f m

/-- The arguments of a call, without the parentheses around them. -/
inductive Arguments (config : Config) : List Token → List Node → Nat → Prop
  | nil : Arguments config [] [] 0
  | cons {us vs e ns f m k} : Expression config .equality us e f m →
    MoreArguments config vs ns k → Arguments config (us ++ vs) (e :: ns) (max m k)

/-- The arguments after the first one, each with its comma. -/
inductive MoreArguments (config : Config) : List Token → List Node → Nat → Prop
  | nil : MoreArguments config [] [] 0
  | cons {comma us vs e ns f m k} : comma.kind = .comma → Expression config .equality us e f m →
    MoreArguments config vs ns k →
    MoreArguments config (comma :: us ++ vs) (e :: ns) (max m k)

/-- Statements in braces. -/
inductive Block (config : Config) : List Token → Node → Nat → Prop
  | braces {o us c ns m} : o.kind = .lbrace → Statements config us ns m → c.kind = .rbrace →
    Block config (o :: us ++ [c]) (.block o ns) m

/-- Statements without the semicolon that may end them. -/
inductive Statement (config : Config) : List Token → Node → Nat → Prop
  | binding {t x a us e f m} : t.kind = .letWord → x.kind = .ident → a.kind = .assign →
    Expression config .equality us e f m →
    Statement config (t :: x :: a :: us) (.letStatement t (.identifier x x.literal) e) m
  | result {t us e f m} : t.kind = .returnWord → Expression config .equality us e f m →
    Statement config (t :: us) (.returnStatement t e) m
  | expression {t us e f m} : Expression config .equality (t :: us) e f m →
    Statement config (t :: us) (.expressionStatement t e) m

/-- Sequences of statements. A statement without a semicolon of its own is not followed by a token
with which its expression could go on. -/
inductive Statements (config : Config) : List Token → List Node → Nat → Prop
  | nil : Statements config [] [] 0
  | empty {t us ns m} : t.kind = .semicolon → Statements config us ns m →
    Statements config (t :: us) ns m
  | terminated {us t vs n ns m k} : Statement config us n m → t.kind = .semicolon →
    Statements config vs ns k → Statements config (us ++ t :: vs) (n :: ns) (max m k)
  | unterminated {us vs n ns m k} : Statement config us n m →
    (∀ t ∈ vs.head?, t.kind ∉ Kind.continuing) → Statements config vs ns k →
    Statements config (us ++ vs) (n :: ns) (max m k)

end

end Derivation

end MonkeyLang
