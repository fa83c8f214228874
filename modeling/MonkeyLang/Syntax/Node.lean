import MonkeyLang.Token.Basic

/-!
# Trees

The tree of a program. Every node but the program itself carries the token that introduced it, and
keeps its own fields beside that token: nothing ties a name's value to its token's text, nor the
kind of a child to its place, so a tree can be built by hand in any shape. Equality of trees is
decided by `Node.same`, which `same_iff` proves to be equality.
-/

namespace MonkeyLang

/-- A node of a program's tree. -/
inductive Node where
  /-- A name, where a value or a binding stands. -/
  | identifier (token : Token) (value : String)
  /-- A numeral with the number that it denotes. -/
  | integer (token : Token) (value : Int)
  /-- A truth value. -/
  | boolean (token : Token) (value : Bool)
  /-- An operator written before its operand. -/
  | unary (token : Token) (operator : String) (right : Node)
  /-- An operator written between its operands. -/
  | binary (token : Token) (left : Node) (operator : String) (right : Node)
  /-- A choice by a condition, with or without an alternative. -/
  | conditional (token : Token) (condition consequence : Node) (alternative : Option Node)
  /-- A function with its parameters and its body. -/
  | function (token : Token) (parameters : List Node) (body : Node)
  /-- A call; the token is the opening parenthesis. -/
  | call (token : Token) (callee : Node) (arguments : List Node)
  /-- The statement that binds a name. -/
  | letStatement (token : Token) (name value : Node)
  /-- The statement that returns a value. -/
  | returnStatement (token : Token) (value : Node)
  /-- The statement that is an expression; the token is the expression's first. -/
  | expressionStatement (token : Token) (expression : Node)
  /-- Statements in braces; the token is the opening brace. -/
  | block (token : Token) (statements : List Node)
  /-- The top-level statements of a text. -/
  | program (statements : List Node)
  deriving Repr, Inhabited

namespace Node

/-- The token that introduced a node; a program has none. -/
def token? : Node → Option Token
  | identifier t _ | integer t _ | boolean t _ | unary t _ _ | binary t _ _ _
  | conditional t _ _ _ | function t _ _ | call t _ _ | letStatement t _ _
  | returnStatement t _ | expressionStatement t _ | block t _ => some t
  | program _ => none

mutual

/-- The text of the token that introduced a node. A program has the text of its first statement,
and the empty text if it has no statement. -/
def literal : Node → String
  | identifier t _ | integer t _ | boolean t _ | unary t _ _ | binary t _ _ _
  | conditional t _ _ _ | function t _ _ | call t _ _ | letStatement t _ _
  | returnStatement t _ | expressionStatement t _ | block t _ => t.literal
  | program statements => headLiteral statements

/-- The text of the token that introduced the first of some nodes. -/
def headLiteral : List Node → String
  | [] => ""
  | node :: _ => node.literal

end

/-- The top-level statements of a program, or the statements of a block. -/
def statements : Node → List Node
  | program statements | block _ statements => statements
  | _ => []

mutual

/-- Two trees are the same if they have the same shape, tokens and fields throughout. -/
def same : Node → Node → Bool
  | identifier t a, identifier u b => t == u && a == b
  | integer t a, integer u b => t == u && a == b
  | boolean t a, boolean u b => t == u && a == b
  | unary t o a, unary u p b => t == u && o == p && a.same b
  | binary t a o c, binary u b p d => t == u && o == p && a.same b && c.same d
  | conditional t a c e, conditional u b d f =>
    t == u && a.same b && c.same d && sameOption e f
  | function t ps a, function u qs b => t == u && sameList ps qs && a.same b
  | call t a as, call u b bs => t == u && a.same b && sameList as bs
  | letStatement t a c, letStatement u b d => t == u && a.same b && c.same d
  | returnStatement t a, returnStatement u b => t == u && a.same b
  | expressionStatement t a, expressionStatement u b => t == u && a.same b
  | block t as, block u bs => t == u && sameList as bs
  | program as, program bs => sameList as bs
  | _, _ => false

/-- Two sequences of trees are the same if they agree in length and position by position. -/
def sameList : List Node → List Node → Bool
  | [], [] => true
  | a :: as, b :: bs => a.same b && sameList as bs
  | _, _ => false

/-- Two optional trees are the same if both are absent or both are there and the same. -/
def sameOption : Option Node → Option Node → Bool
  | none, none => true
  | some a, some b => a.same b
  | _, _ => false

end

mutual

/-- The comparison of trees decides their equality. -/
theorem same_iff : ∀ a b : Node, a.same b = true ↔ a = b
  | identifier t a, b => by cases b <;> simp [same]
  | integer t a, b => by cases b <;> simp [same]
  | boolean t a, b => by cases b <;> simp [same]
  | unary t o a, b => by cases b <;> simp [same, same_iff a, and_assoc]
  | binary t a o c, b => by
    cases b <;> simp [same, same_iff a, same_iff c, and_assoc, and_left_comm]
  | conditional t a c e, b => by
    cases b <;> simp [same, same_iff a, same_iff c, sameOption_iff e, and_assoc]
  | function t ps a, b => by cases b <;> simp [same, sameList_iff ps, same_iff a, and_assoc]
  | call t a as, b => by cases b <;> simp [same, sameList_iff as, same_iff a, and_assoc]
  | letStatement t a c, b => by cases b <;> simp [same, same_iff a, same_iff c, and_assoc]
  | returnStatement t a, b => by cases b <;> simp [same, same_iff a]
  | expressionStatement t a, b => by cases b <;> simp [same, same_iff a]
  | block t as, b => by cases b <;> simp [same, sameList_iff as]
  | program as, b => by cases b <;> simp [same, sameList_iff as]

/-- The comparison of sequences of trees decides their equality. -/
theorem sameList_iff : ∀ as bs : List Node, sameList as bs = true ↔ as = bs
  | [], bs => by cases bs <;> simp [sameList]
  | a :: as, bs => by cases bs <;> simp [sameList, same_iff a, sameList_iff as]

/-- The comparison of optional trees decides their equality. -/
theorem sameOption_iff : ∀ a b : Option Node, sameOption a b = true ↔ a = b
  | none, b => by cases b <;> simp [sameOption]
  | some a, b => by cases b <;> simp [sameOption, same_iff a]

end

instance : DecidableEq Node := fun a b => decidable_of_iff _ (same_iff a b)

end Node

end MonkeyLang
