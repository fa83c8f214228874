import MonkeyLang.Proofs.SpelledTrees

/-!
# Legible trees

The rendering shows a part of a tree only: of a name its value, of an operator its text, and of
numerals, truth values and some keywords the text of their token. A tree is legible if what is shown
can be read as what it stands for. It flattens to the lexemes that its shape asks for, and nothing
that is not shown bears on these. Main statements: `Spelled.Program.legible` and
`Spelled.Program.flatten_eq`, by which a tree that spells itself out flattens to its own lexemes.
-/

namespace MonkeyLang

namespace Legible

/-- Names, by their values. -/
inductive Name : Node → Prop
  | intro {t s} : IsName s → Name (.identifier t s)

mutual

/-- Expressions. Numerals may have any number of digits and any value, and an operator may be
spelled like any operator or delimiter. -/
inductive Expression : Node → Prop
  | name {n} : Name n → Expression n
  | numeral {t v} : IsDigits t.literal → Expression (.integer t v)
  | yes {t} : t.literal = Kind.trueWord.spelling → Expression (.boolean t true)
  | no {t} : t.literal = Kind.falseWord.spelling → Expression (.boolean t false)
  | unary {t e} {k : Kind} : k ∈ Kind.operatorKinds → Expression e →
    Expression (.unary t k.spelling e)
  | binary {t l r} {k : Kind} : k ∈ Kind.operatorKinds → Expression l → Expression r →
    Expression (.binary t l k.spelling r)
  | choice {t e b} : Expression e → Block b → Expression (.conditional t e b none)
  | alternative {t e b a} : Expression e → Block b → Block a →
    Expression (.conditional t e b (some a))
  | function {t ps b} : t.literal = Kind.function.spelling → (∀ p ∈ ps, Name p) → Block b →
    Expression (.function t ps b)
  | call {t e ns} : Expression e → (∀ n ∈ ns, Expression n) → Expression (.call t e ns)

/-- Statements in braces. -/
inductive Block : Node → Prop
  | braces {t ns} : (∀ n ∈ ns, Statement n) → Block (.block t ns)

/-- Statements. -/
inductive Statement : Node → Prop
  | binding {t n e} : t.literal = Kind.letWord.spelling → Name n → Expression e →
    Statement (.letStatement t n e)
  | result {t e} : t.literal = Kind.returnWord.spelling → Expression e →
    Statement (.returnStatement t e)
  | expression {t e} : Expression e → Statement (.expressionStatement t e)

end

/-- Programs. -/
inductive Program : Node → Prop
  | intro {ns} : (∀ n ∈ ns, Statement n) → Program (.program ns)

end Legible

/-! ### Flattening -/

/-- The lexeme of an operator or delimiter that is spelled like this. -/
def Lexeme.ofOperator (text : String) : Lexeme := ⟨(Kind.ofText? text).getD .illegal, text.toList⟩

@[simp] theorem Lexeme.ofOperator_spelling {k : Kind} (hk : k ∈ Kind.operatorKinds) :
    ofOperator k.spelling = k.lexeme := by
  revert hk
  cases k <;> decide

namespace Node

mutual

/-- The lexemes that write a tree, whatever its tokens are: parentheses around every operator,
commas between parameters and between arguments, and a semicolon behind each binding and result. -/
def flatten : Node → List Lexeme
  | identifier _ value => [⟨.ident, value.toList⟩]
  | integer t _ => [⟨.int, t.literal.toList⟩]
  | boolean _ value => [(bif value then Kind.trueWord else .falseWord).lexeme]
  | unary _ operator right =>
    Kind.lparen.lexeme :: Lexeme.ofOperator operator :: right.flatten ++ [Kind.rparen.lexeme]
  | binary _ left operator right =>
    Kind.lparen.lexeme :: (left.flatten ++ Lexeme.ofOperator operator :: right.flatten) ++
      [Kind.rparen.lexeme]
  | conditional _ condition consequence alternative =>
    Kind.ifWord.lexeme :: Kind.lparen.lexeme :: condition.flatten ++
      Kind.rparen.lexeme :: consequence.flatten ++ flattenElse alternative
  | function _ parameters body =>
    Kind.function.lexeme :: Kind.lparen.lexeme :: flattenCommas parameters ++
      Kind.rparen.lexeme :: body.flatten
  | call _ callee arguments =>
    callee.flatten ++ Kind.lparen.lexeme :: flattenCommas arguments ++ [Kind.rparen.lexeme]
  | letStatement _ name value =>
    Kind.letWord.lexeme :: name.flatten ++ Kind.assign.lexeme :: value.flatten ++
      [Kind.semicolon.lexeme]
  | returnStatement _ value =>
    Kind.returnWord.lexeme :: value.flatten ++ [Kind.semicolon.lexeme]
  | expressionStatement _ expression => expression.flatten
  | block _ statements => Kind.lbrace.lexeme :: flattenList statements ++ [Kind.rbrace.lexeme]
  | program statements => flattenList statements

/-- The lexemes that write the part of a choice that states its alternative. -/
def flattenElse : Option Node → List Lexeme
  | none => []
  | some alternative => Kind.elseWord.lexeme :: alternative.flatten

/-- The lexemes that write trees separated by commas. -/
def flattenCommas : List Node → List Lexeme
  | [] => []
  | [node] => node.flatten
  | node :: more => node.flatten ++ Kind.comma.lexeme :: flattenCommas more

/-- The lexemes that write a sequence of statements. An expression statement is followed by a
semicolon exactly if another statement follows it. -/
def flattenList : List Node → List Lexeme
  | [] => []
  | [node] => node.flatten
  | node :: more =>
    node.flatten ++ (if node.isExpressionStatement then [Kind.semicolon.lexeme] else [])
      ++ flattenList more

end

theorem flattenCommas_eq {ns : List Node} (h : ∀ n ∈ ns, n.flatten = n.lexemes) :
    flattenCommas ns = lexemesCommas ns := by
  induction ns with
  | nil => rfl
  | cons n ns ih =>
    have hn := h n List.mem_cons_self
    have hmore := ih fun x hx => h x (List.mem_cons_of_mem _ hx)
    cases ns with
    | nil => simpa [flattenCommas, lexemesCommas] using hn
    | cons m ns => simp [flattenCommas, lexemesCommas, hn, hmore]

theorem flattenList_eq {ns : List Node} (h : ∀ n ∈ ns, n.flatten = n.lexemes) :
    flattenList ns = lexemesList ns := by
  induction ns with
  | nil => rfl
  | cons n ns ih =>
    have hn := h n List.mem_cons_self
    have hmore := ih fun x hx => h x (List.mem_cons_of_mem _ hx)
    cases ns with
    | nil => simpa [flattenList, lexemesList] using hn
    | cons m ns => simp [flattenList, lexemesList, hn, hmore]

end Node

/-! ### Trees that spell themselves out -/

theorem Stratum.mem_operatorKinds {s : Stratum} {k : Kind} (h : k ∈ s.operators) :
    k ∈ Kind.operatorKinds := by
  revert h
  cases s <;> cases k <;> decide

/-- The lexeme of an operator's token is the one that its text spells. -/
theorem Token.Spells.ofOperator_eq {t : Token} {k : Kind} (h : t.Spells k)
    (hk : k ∈ Kind.operatorKinds) : Lexeme.ofOperator t.literal = t.lexeme := by
  rw [h.lexeme, h.2, Lexeme.ofOperator_spelling hk]

theorem Kind.mem_operatorKinds_of_unary {k : Kind} (h : k = .bang ∨ k = .minus) :
    k ∈ operatorKinds := by
  rcases h with rfl | rfl <;> decide

namespace WellFormed

theorem Name.legible {n : Node} (h : Name n) : Legible.Name n := by
  obtain ⟨-, hname⟩ := h
  exact .intro hname

theorem Name.flatten_eq {n : Node} (h : Name n) : n.flatten = n.lexemes := by
  obtain ⟨ht, -⟩ := h
  simp [Node.flatten, Node.lexemes, Token.lexeme, ht]

end WellFormed

namespace Spelled

variable {standsFor : String → Int → Prop}

mutual

theorem Expression.legible {n : Node} : Expression standsFor n → Legible.Expression n
  | .name hn => .name hn.legible
  | .numeral _ hn _ => .numeral hn
  | .yes ht => .yes ht.2
  | .no ht => .no ht.2
  | .unary hk ht he => ht.2 ▸ .unary (Kind.mem_operatorKinds_of_unary hk) he.legible
  | .binary hk ht hl hr => ht.2 ▸ .binary (Stratum.mem_operatorKinds hk) hl.legible hr.legible
  | .choice _ he hb => .choice he.legible hb.legible
  | .alternative _ he hb ha => .alternative he.legible hb.legible ha.legible
  | .function ht hps hb => .function ht.2 (fun p hp => (hps p hp).legible) hb.legible
  | .call _ he hns => .call he.legible fun n hn => (hns n hn).legible

theorem Block.legible {n : Node} : Block standsFor n → Legible.Block n
  | .braces _ hns => .braces fun n hn => (hns n hn).legible

theorem Statement.legible {n : Node} : Statement standsFor n → Legible.Statement n
  | .binding ht hn he => .binding ht.2 hn.legible he.legible
  | .result ht he => .result ht.2 he.legible
  | .expression he => .expression he.legible

end

/-- A program that spells itself out is legible. -/
theorem Program.legible {n : Node} : Program standsFor n → Legible.Program n
  | .intro hns => .intro fun n hn => (hns n hn).legible

open Node

mutual

theorem Expression.flatten_eq {n : Node} : Expression standsFor n → n.flatten = n.lexemes
  | .name hn => hn.flatten_eq
  | .numeral ht _ _ => by simp [flatten, lexemes, Token.lexeme, ht]
  | .yes ht | .no ht => by simp [flatten, lexemes, ht.lexeme]
  | .unary hk ht he => by
    simp [flatten, lexemes, ht.ofOperator_eq (Kind.mem_operatorKinds_of_unary hk), he.flatten_eq]
  | .binary hk ht hl hr => by
    simp [flatten, lexemes, ht.ofOperator_eq (Stratum.mem_operatorKinds hk), hl.flatten_eq,
      hr.flatten_eq]
  | .choice ht he hb => by
    simp [flatten, flattenElse, lexemes, lexemesElse, ht.lexeme, he.flatten_eq, hb.flatten_eq]
  | .alternative ht he hb ha => by
    simp [flatten, flattenElse, lexemes, lexemesElse, ht.lexeme, he.flatten_eq, hb.flatten_eq,
      ha.flatten_eq]
  | .function ht hps hb => by
    have hparameters := flattenCommas_eq fun p hp => (hps p hp).flatten_eq
    simp [flatten, lexemes, ht.lexeme, hparameters, hb.flatten_eq]
  | .call ht he hns => by
    have harguments := flattenCommas_eq fun n hn => (hns n hn).flatten_eq
    simp [flatten, lexemes, ht.lexeme, he.flatten_eq, harguments]

theorem Block.flatten_eq {n : Node} : Block standsFor n → n.flatten = n.lexemes
  | .braces ht hns => by
    have hstatements := flattenList_eq fun n hn => (hns n hn).flatten_eq
    simp [flatten, lexemes, ht.lexeme, hstatements]

theorem Statement.flatten_eq {n : Node} : Statement standsFor n → n.flatten = n.lexemes
  | .binding ht hn he => by simp [flatten, lexemes, ht.lexeme, hn.flatten_eq, he.flatten_eq]
  | .result ht he => by simp [flatten, lexemes, ht.lexeme, he.flatten_eq]
  | .expression he => by simp [flatten, lexemes, he.flatten_eq]

end

/-- A program that spells itself out flattens to its own lexemes. -/
theorem Program.flatten_eq {n : Node} (h : Program standsFor n) : n.flatten = n.lexemes := by
  obtain ⟨hns⟩ := h
  simpa [flatten, lexemes] using flattenList_eq fun n hn => (hns n hn).flatten_eq

end Spelled

end MonkeyLang
