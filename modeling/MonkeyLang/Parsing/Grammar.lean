import MonkeyLang.Parsing.Run
import MonkeyLang.Parsing.Rules
import MonkeyLang.Syntax.Node
import MonkeyLang.Text.Numeral

/-!
# Grammar

The parser. Statements and the forms of expressions are parsed by descent; within an expression,
operators are taken as long as they bind tighter than the precedence that the expression was called
for. Each form is given the parser for its operands, and an expression at a number of levels hands
out operands at fewer levels, so nesting ends where the levels do: starting an expression takes a
level, and so does each operator applied to what was parsed before it. A malformed statement leaves
a diagnostic and is dropped; the statements around it are parsed all the same.
-/

namespace MonkeyLang

namespace Grammar

open Parse

/-- How a form parses its operands, given the precedence above which operators belong to them. -/
abbrev Operand : Type := Precedence → Parse Node

/-! ### Sequences -/

/-- Statements up to the first token of a stopping kind. After each statement, whether it was well
formed or not, the parse moves on by one token. -/
def statementsWithin (stop : Kind → Bool) (statement : Parse (Option Node)) :
    Nat → Run (List Node)
  | 0 => pure []
  | n + 1 => do
    if stop (← Run.current).kind then
      pure []
    else
      let found ← recover statement
      Run.advance
      (found.join.toList ++ ·) <$> statementsWithin stop statement n

/-- Statements up to the first token of a stopping kind. -/
def statementsUntil (stop : Kind → Bool) (statement : Parse (Option Node)) : Run (List Node) :=
  fun w => statementsWithin stop statement w.size w

/-- Further items, each after a comma. -/
def itemsWithin (item : Parse Node) : Nat → Parse (List Node)
  | 0 => pure []
  | n + 1 => do
    if (← peek).kind = .comma then
      advance
      let first ← item
      cons first (itemsWithin item n)
    else
      pure []

/-- As many further items as there are, each after a comma. -/
def moreItems (item : Parse Node) : Parse (List Node) :=
  fun w => itemsWithin item w.size w

/-- Items separated by commas up to a closing token. The parse starts on the token before the first
item and ends on the closing token. -/
def commaList (item : Parse Node) (close : Kind) : Parse (List Node) := do
  if (← peek).kind = close then
    advance
    pure []
  else
    let first ← item
    let more ← moreItems item
    expect close
    pure (first :: more)

/-! ### Statements and blocks -/

/-- The current token as a name. -/
def name : Parse Node := do
  let t ← current
  pure (.identifier t t.literal)

/-- A binding, from its keyword on. -/
def letStatement (operand : Operand) : Parse Node := do
  let t ← current
  expect .ident
  let bound ← name
  expect .assign
  advance
  let value ← terminated (operand .lowest)
  pure (.letStatement t bound value)

/-- A return, from its keyword on. -/
def returnStatement (operand : Operand) : Parse Node := do
  let t ← current
  advance
  let value ← terminated (operand .lowest)
  pure (.returnStatement t value)

/-- An expression that stands as a statement. -/
def expressionStatement (operand : Operand) : Parse Node := do
  let t ← current
  let expression ← terminated (operand .lowest)
  pure (.expressionStatement t expression)

/-- The statement at the current token. A semicolon on its own is a statement without a node. -/
def statement (operand : Operand) : Parse (Option Node) := do
  match (← current).kind with
  | .letWord => some <$> letStatement operand
  | .returnWord => some <$> returnStatement operand
  | .semicolon => pure none
  | _ => some <$> expressionStatement operand

/-- A block, from its opening brace to its closing one. -/
def block (operand : Operand) : Parse Node := do
  let t ← current
  advance
  let statements ← statementsUntil (fun k => k == .rbrace || k == .eof) (statement operand)
  if (← current).kind = .rbrace then
    pure (.block t statements)
  else
    reject .current (.expected .rbrace)

/-! ### Forms that start an expression -/

/-- The current token as a numeral that the settings admit. -/
def numeral (config : Config) : Parse Node := do
  let t ← current
  match Text.integer? t.literal with
  | some n => if config.admits n then pure (.integer t n) else reject .current .notAnInteger
  | none => reject .current .notAnInteger

/-- The current token as a truth value. -/
def truth : Parse Node := do
  let t ← current
  pure (.boolean t (t.kind == .trueWord))

/-- An operator and the operand after it. -/
def unary (operand : Operand) : Parse Node := do
  let t ← current
  advance
  let right ← operand .unary
  pure (.unary t t.literal right)

/-- An expression in parentheses, which has no node of its own. -/
def group (operand : Operand) : Parse Node := do
  advance
  let inner ← operand .lowest
  expect .rparen
  pure inner

/-- A choice: the condition in parentheses, a block, and a second block if an alternative is
announced. -/
def conditional (operand : Operand) : Parse Node := do
  let t ← current
  expect .lparen
  advance
  let condition ← operand .lowest
  expect .rparen
  expect .lbrace
  let consequence ← block operand
  if ← Run.take .elseWord then
    expect .lbrace
    let alternative ← block operand
    pure (.conditional t condition consequence (some alternative))
  else
    pure (.conditional t condition consequence none)

/-- The parameters of a function, from the opening parenthesis to the closing one. -/
def parameters : Parse (List Node) :=
  commaList (do expect .ident; name) .rparen

/-- A function: parameters in parentheses and a block. -/
def function (operand : Operand) : Parse Node := do
  let t ← current
  expect .lparen
  let parameters ← parameters
  expect .lbrace
  let body ← block operand
  pure (.function t parameters body)

/-- The form that a rule introduces at the current token. -/
def opening (config : Config) (operand : Operand) : Opening → Parse Node
  | .name => name
  | .numeral => numeral config
  | .truth => truth
  | .unary => unary operand
  | .group => group operand
  | .conditional => conditional operand
  | .function => function operand

/-! ### Forms that continue an expression -/

/-- An operator between what stands before it and the operand after it. Operators of the same
precedence do not belong to that operand, so they associate to the left. -/
def binary (operand : Operand) (left : Node) : Parse Node := do
  let t ← current
  advance
  let right ← operand t.kind.precedence
  pure (.binary t left t.literal right)

/-- Expressions separated by commas up to a closing token. -/
def arguments (operand : Operand) (close : Kind) : Parse (List Node) :=
  commaList (do advance; operand .lowest) close

/-- A call of what stands before the opening parenthesis. -/
def call (operand : Operand) (callee : Node) : Parse Node := do
  let t ← current
  let arguments ← arguments operand .rparen
  pure (.call t callee arguments)

/-- The form that a rule introduces at the current token after an expression. -/
def continuation (operand : Operand) (left : Node) : Continuation → Parse Node
  | .binary => binary operand left
  | .call => call operand left

/-- The rule by which the next token continues an expression, if it binds tighter than a given
precedence. A semicolon never continues one. -/
def continuationAhead (rules : Rules) (p : Precedence) : Parse (Option Continuation) := do
  let kind := (← peek).kind
  if kind ≠ .semicolon ∧ p < kind.precedence then
    pure (rules.continuation? kind)
  else
    pure none

/-! ### Expressions -/

mutual

/-- An expression at a number of levels of nesting, with the operators that bind tighter than a
given precedence. -/
def expression (setup : Setup) : Nat → Operand
  | 0, _ => nested (reject .current .nestedTooDeep)
  | levels + 1, p => nested do
    match setup.rules.opening? (← current).kind with
    | none => reject .current .noExpression
    | some rule =>
      let left ← opening setup.config (expression setup levels) rule
      chain setup levels p left

/-- The operators that follow what was parsed so far, each of which takes a level. -/
def chain (setup : Setup) : Nat → Precedence → Node → Parse Node
  | 0, p, left => do
    match ← continuationAhead setup.rules p with
    | none => pure left
    | some _ => nested (reject .peek .nestedTooDeep)
  | levels + 1, p, left => do
    match ← continuationAhead setup.rules p with
    | none => pure left
    | some rule => nested do
      advance
      let wider ← continuation (expression setup levels) left rule
      chain setup levels p wider

end

/-- The statements up to the end token. -/
def program (setup : Setup) (levels : Nat) : Run Node := do
  let statements ← statementsUntil (· == .eof) (statement (expression setup levels))
  pure (.program statements)

end Grammar

end MonkeyLang
