import MonkeyLang.Syntax.Node
import MonkeyLang.Data.Value

/-!
# Outline of a tree

A tree as structured data: each node becomes a mapping that names the kind of node, gives the place
of its token, and lists its own fields, child nodes outlined in turn.
-/

namespace MonkeyLang

namespace Node

/-- The mapping for one node: the name of its kind, the place of its token, and its fields. -/
def outlineWith (kind : String) (t : Token) (fields : List (String × Value)) : Value :=
  .mapping <| [(.text "kind", .ofText kind), (.text "line", .ofInt t.place.line),
    (.text "col", .ofInt t.place.col)] ++ fields.map fun f => (.text f.1, f.2)

mutual

/-- The outline of a tree. -/
def outline : Node → Value
  | identifier t value => outlineWith "Identifier" t [("value", .ofText value)]
  | integer t value => outlineWith "IntegerLiteral" t [("value", .ofInt value)]
  | boolean t value => outlineWith "BooleanLiteral" t [("value", .ofBool value)]
  | unary t operator right =>
    outlineWith "PrefixExpression" t
      [("operator", .ofText operator), ("right", right.outline)]
  | binary t left operator right =>
    outlineWith "InfixExpression" t
      [("left", left.outline), ("operator", .ofText operator), ("right", right.outline)]
  | conditional t condition consequence alternative =>
    outlineWith "IfExpression" t
      [("condition", condition.outline), ("consequence", consequence.outline),
        ("alternative", outlineOption alternative)]
  | function t parameters body =>
    outlineWith "FunctionLiteral" t
      [("parameters", .list (outlineList parameters)), ("body", body.outline)]
  | call t callee arguments =>
    outlineWith "CallExpression" t
      [("function", callee.outline), ("arguments", .list (outlineList arguments))]
  | letStatement t name value =>
    outlineWith "LetStatement" t [("name", name.outline), ("value", value.outline)]
  | returnStatement t value =>
    outlineWith "ReturnStatement" t [("return_value", value.outline)]
  | expressionStatement t expression =>
    outlineWith "ExpressionStatement" t [("expression", expression.outline)]
  | block t statements =>
    outlineWith "BlockStatement" t [("statements", .list (outlineList statements))]
  | program statements =>
    .mapping [(.text "kind", .ofText "Program"),
      (.text "statements", .list (outlineList statements))]

/-- The outlines of some trees in order. -/
def outlineList : List Node → List Value
  | [] => []
  | node :: more => node.outline :: outlineList more

/-- The outline of a tree that may be absent. -/
def outlineOption : Option Node → Value
  | none => .scalar .null
  | some node => node.outline

end

end Node

end MonkeyLang
