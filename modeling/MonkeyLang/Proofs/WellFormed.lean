import MonkeyLang.Proofs.Spelling
import MonkeyLang.Syntax.Render

/-!
# Well-formed trees

The trees of programs: statements where statements stand and expressions where expressions stand,
and every node with a token of its own kind and spelling. A well-formed tree has lexemes, which are
those of its rendering, and a depth, which is the depth of the derivation of these lexemes: the
parentheses that the rendering puts around every operator count like those of a source text.
-/

namespace MonkeyLang

namespace WellFormed

/-- Names, where a parameter or a binding stands. -/
inductive Name : Node → Prop
  | intro {t} : t.kind = .ident → IsName t.literal → Name (.identifier t t.literal)

mutual

/-- Expressions for given settings. -/
inductive Expression (config : Config) : Node → Prop
  | name {n} : Name n → Expression config n
  | numeral {t} {n : Nat} : t.kind = .int → IsNumeral t.literal n → n ≤ config.maxInt →
    Expression config (.integer t n)
  | yes {t} : t.Spells .trueWord → Expression config (.boolean t true)
  | no {t} : t.Spells .falseWord → Expression config (.boolean t false)
  | unary {t e} {k : Kind} : k = .bang ∨ k = .minus → t.Spells k → Expression config e →
    Expression config (.unary t t.literal e)
  | binary {t l r} {s : Stratum} {k : Kind} : k ∈ s.operators → t.Spells k →
    Expression config l → Expression config r → Expression config (.binary t l t.literal r)
  | choice {t e b} : t.Spells .ifWord → Expression config e → Block config b →
    Expression config (.conditional t e b none)
  | alternative {t e b a} : t.Spells .ifWord → Expression config e → Block config b →
    Block config a → Expression config (.conditional t e b (some a))
  | function {t ps b} : t.Spells .function → (∀ p ∈ ps, Name p) → Block config b →
    Expression config (.function t ps b)
  | call {t e ns} : t.Spells .lparen → Expression config e → (∀ n ∈ ns, Expression config n) →
    Expression config (.call t e ns)

/-- Statements in braces. -/
inductive Block (config : Config) : Node → Prop
  | braces {t ns} : t.Spells .lbrace → (∀ n ∈ ns, Statement config n) → Block config (.block t ns)

/-- Statements. The token of an expression statement may be any. -/
inductive Statement (config : Config) : Node → Prop
  | binding {t n e} : t.Spells .letWord → Name n → Expression config e →
    Statement config (.letStatement t n e)
  | result {t e} : t.Spells .returnWord → Expression config e →
    Statement config (.returnStatement t e)
  | expression {t e} : Expression config e → Statement config (.expressionStatement t e)

end

/-- Programs for given settings. -/
inductive Program (config : Config) : Node → Prop
  | intro {ns} : (∀ n ∈ ns, Statement config n) → Program config (.program ns)

end WellFormed

/-! ### Measures -/

namespace Node

/-- One more than the number of calls applied one after the other to the innermost callee. -/
def reach : Node → Nat
  | call _ callee _ => callee.reach + 1
  | _ => 1

mutual

/-- How deep the rendering of a tree nests. -/
def nesting : Node → Nat
  | identifier _ _ | integer _ _ | boolean _ _ => 1
  | unary _ _ right => 2 + right.nesting
  | binary _ left _ right => max (1 + left.nesting) (2 + left.reach + right.nesting)
  | conditional _ condition consequence alternative =>
    1 + max condition.nesting (max consequence.nesting (nestingOption alternative))
  | function _ _ body => 1 + body.nesting
  | call _ callee arguments => max callee.nesting (callee.reach + 1 + nestingList arguments)
  | letStatement _ _ value | returnStatement _ value | expressionStatement _ value => value.nesting
  | block _ statements | program statements => nestingList statements

/-- How deep the renderings of some trees nest. -/
def nestingList : List Node → Nat
  | [] => 0
  | node :: more => max node.nesting (nestingList more)

/-- How deep the rendering of an optional tree nests. -/
def nestingOption : Option Node → Nat
  | none => 0
  | some node => node.nesting

end

/-- No tree of a list nests deeper than the list. -/
theorem nestingList_le_iff {ns : List Node} {k : Nat} :
    nestingList ns ≤ k ↔ ∀ n ∈ ns, n.nesting ≤ k := by
  induction ns with
  | nil => simp [nestingList]
  | cons n ns ih => rw [nestingList, Nat.max_le, ih, List.forall_mem_cons]

/-! ### Trees without places -/

end Node

/-- The token without its place. -/
def Token.unplaced (t : Token) : Token := { t with place := ⟨0, 0⟩ }

/-- Tokens differ in their places only if they are read from the same lexeme. -/
theorem Token.unplaced_eq_iff {t u : Token} : t.unplaced = u.unplaced ↔ t.lexeme = u.lexeme := by
  simp [unplaced, lexeme, String.toList_inj]

namespace Node

mutual

/-- The tree without places, and without the tokens of expression statements. -/
def unplaced : Node → Node
  | identifier t value => identifier t.unplaced value
  | integer t value => integer t.unplaced value
  | boolean t value => boolean t.unplaced value
  | unary t operator right => unary t.unplaced operator right.unplaced
  | binary t left operator right => binary t.unplaced left.unplaced operator right.unplaced
  | conditional t condition consequence alternative =>
    conditional t.unplaced condition.unplaced consequence.unplaced (unplacedOption alternative)
  | function t parameters body => function t.unplaced (unplacedList parameters) body.unplaced
  | call t callee arguments => call t.unplaced callee.unplaced (unplacedList arguments)
  | letStatement t name value => letStatement t.unplaced name.unplaced value.unplaced
  | returnStatement t value => returnStatement t.unplaced value.unplaced
  | expressionStatement _ expression => expressionStatement (.endAt ⟨0, 0⟩) expression.unplaced
  | block t statements => block t.unplaced (unplacedList statements)
  | program statements => program (unplacedList statements)

/-- The trees of a list without places. -/
def unplacedList : List Node → List Node
  | [] => []
  | node :: more => node.unplaced :: unplacedList more

/-- An optional tree without places. -/
def unplacedOption : Option Node → Option Node
  | none => none
  | some node => some node.unplaced

end

/-! ### Lexemes -/

mutual

/-- The lexemes of the rendering of a tree. -/
def lexemes : Node → List Lexeme
  | identifier t _ | integer t _ | boolean t _ => [t.lexeme]
  | unary t _ right => Kind.lparen.lexeme :: t.lexeme :: right.lexemes ++ [Kind.rparen.lexeme]
  | binary t left _ right =>
    Kind.lparen.lexeme :: (left.lexemes ++ t.lexeme :: right.lexemes) ++ [Kind.rparen.lexeme]
  | conditional t condition consequence alternative =>
    t.lexeme :: Kind.lparen.lexeme :: condition.lexemes ++
      Kind.rparen.lexeme :: consequence.lexemes ++ lexemesElse alternative
  | function t parameters body =>
    t.lexeme :: Kind.lparen.lexeme :: lexemesCommas parameters ++ Kind.rparen.lexeme :: body.lexemes
  | call t callee arguments =>
    callee.lexemes ++ t.lexeme :: lexemesCommas arguments ++ [Kind.rparen.lexeme]
  | letStatement t name value =>
    t.lexeme :: name.lexemes ++ Kind.assign.lexeme :: value.lexemes ++ [Kind.semicolon.lexeme]
  | returnStatement t value => t.lexeme :: value.lexemes ++ [Kind.semicolon.lexeme]
  | expressionStatement _ expression => expression.lexemes
  | block t statements => t.lexeme :: lexemesList statements ++ [Kind.rbrace.lexeme]
  | program statements => lexemesList statements

/-- The lexemes of the part of a choice that states its alternative. -/
def lexemesElse : Option Node → List Lexeme
  | none => []
  | some alternative => Kind.elseWord.lexeme :: alternative.lexemes

/-- The lexemes of trees separated by commas. -/
def lexemesCommas : List Node → List Lexeme
  | [] => []
  | [node] => node.lexemes
  | node :: more => node.lexemes ++ Kind.comma.lexeme :: lexemesCommas more

/-- The lexemes of a sequence of statements. -/
def lexemesList : List Node → List Lexeme
  | [] => []
  | [node] => node.lexemes
  | node :: more =>
    node.lexemes ++ (if node.isExpressionStatement then [Kind.semicolon.lexeme] else [])
      ++ lexemesList more

end

end Node

end MonkeyLang
