import MonkeyLang.Syntax.Node

/-!
# Source text of a tree

The text that writes a tree: a pair of parentheses around every operator, one blank between tokens
where the layout has one, and a semicolon after every expression statement that another statement
follows, so that a name followed by a parenthesised expression is not read back as a call.
-/

namespace MonkeyLang

namespace Node

/-- Whether a node is a statement that is just an expression. -/
def isExpressionStatement : Node → Bool
  | expressionStatement _ _ => true
  | _ => false

mutual

/-- The source text of a tree. -/
def render : Node → String
  | identifier _ value => value
  | integer t _ => t.literal
  | boolean t _ => t.literal
  | unary _ operator right => "(" ++ operator ++ right.render ++ ")"
  | binary _ left operator right =>
    "(" ++ left.render ++ " " ++ operator ++ " " ++ right.render ++ ")"
  | conditional _ condition consequence alternative =>
    "if (" ++ condition.render ++ ") " ++ consequence.render ++ renderElse alternative
  | function t parameters body =>
    t.literal ++ "(" ++ renderCommas parameters ++ ") " ++ body.render
  | call _ callee arguments => callee.render ++ "(" ++ renderCommas arguments ++ ")"
  | letStatement t name value =>
    t.literal ++ " " ++ name.render ++ " = " ++ value.render ++ ";"
  | returnStatement t value => t.literal ++ " " ++ value.render ++ ";"
  | expressionStatement _ expression => expression.render
  | block _ [] => "\x7b \x7d"
  | block _ (first :: more) =>
    "\x7b " ++ first.render ++ renderAfter first.isExpressionStatement more ++ " \x7d"
  | program [] => ""
  | program (first :: more) =>
    first.render ++ renderAfter first.isExpressionStatement more

/-- The part of a choice that states its alternative. -/
def renderElse : Option Node → String
  | none => ""
  | some alternative => " else " ++ alternative.render

/-- Trees separated by commas. -/
def renderCommas : List Node → String
  | [] => ""
  | [node] => node.render
  | node :: more => node.render ++ ", " ++ renderCommas more

/-- The statements that follow another one, which was just an expression or not. -/
def renderAfter (afterExpression : Bool) : List Node → String
  | [] => ""
  | node :: more =>
    (if afterExpression then "; " else " ") ++ node.render
      ++ renderAfter node.isExpressionStatement more

end

/-- The source text of a sequence of statements. -/
def renderStatements : List Node → String
  | [] => ""
  | first :: more => first.render ++ renderAfter first.isExpressionStatement more

@[simp] theorem render_program (statements : List Node) :
    (program statements).render = renderStatements statements := by
  cases statements <;> simp [render, renderStatements]

@[simp] theorem render_block (t : Token) (first : Node) (more : List Node) :
    (block t (first :: more)).render =
      "\x7b " ++ renderStatements (first :: more) ++ " \x7d" := by
  simp [render, renderStatements, String.append_assoc]

end Node

end MonkeyLang
