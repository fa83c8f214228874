import MonkeyLang.Parsing.Grammar
import MonkeyLang.Parsing.Record

/-!
# Parse sessions

A session is a parse under way: the window on its tokens, the levels of nesting in use, the
diagnostics found so far, and the log. Every form of the grammar can be called at any time and works
on whatever token is current; `Session.answer` performs one call. A call of a form gives back the
levels that it used, so only `Call.enterNesting` raises the count for good.
-/

namespace MonkeyLang

/-- A parse under way. -/
structure Session where
  setup : Setup
  window : Window
  depth : Nat := 0
  diagnostics : List Diagnostic := []
  log : List Record := []
  deriving DecidableEq, Repr

/-- What can be asked of a session. -/
inductive Call where
  /-- Move on by one token. -/
  | advance
  /-- Move onto the next token if it has a kind, and note a problem otherwise. -/
  | expect (kind : Kind)
  | currentIs (kind : Kind)
  | peekIs (kind : Kind)
  /-- Note that the next token should have a kind. -/
  | notePeek (kind : Kind)
  | currentPrecedence
  | peekPrecedence
  /-- Note that no expression starts with the current token. -/
  | noteNoExpression
  /-- Note a remark on the current token. -/
  | remark (text : String)
  /-- Take one more level of nesting for good, and note a problem past the limit. -/
  | enterNesting
  | messages
  | diagnostics
  | program
  | statement
  | letStatement
  | returnStatement
  | expressionStatement
  | block
  | expression (precedence : Precedence)
  | opening (form : Opening)
  | binary (left : Node)
  | call (callee : Node)
  | parameters
  | arguments (close : Kind)
  | dropOpening (kind : Kind)
  | dropContinuation (kind : Kind)

/-- What a session answers. -/
inductive Reply where
  | done
  | truth (b : Bool)
  | precedence (p : Precedence)
  | messages (texts : List String)
  | diagnostics (ds : List Diagnostic)
  | node (n : Option Node)
  | nodes (ns : Option (List Node))

namespace Session

/-- Performs a run: the window moves, and what happened goes to diagnostics and log. -/
def perform {α : Type} (s : Session) (x : Run α) : α × Session :=
  let o := x s.window
  (o.value,
    { s with
      window := o.window
      diagnostics := s.diagnostics ++ Event.diagnostics o.trace
      log := s.log ++ o.trace.flatMap (Record.ofEvent o.window.source) })

/-- A session on the tokens of a source. Two tokens are taken from it at once. -/
def start (setup : Setup) (source : Source) : Session :=
  let window := Window.ofSource source
  { setup, window,
    log := [window.current, window.peek].flatMap fun t => Record.ofEvent source (.took t) }

/-- The operands that forms may use, at the levels that the session has left. -/
def operand (s : Session) : Grammar.Operand :=
  Grammar.expression s.setup (maxNesting - s.depth)

/-- Adds a record to the log. -/
def record (s : Session) (r : Record) : Session :=
  { s with log := s.log ++ [r] }

/-- Parses statements up to the end token, and logs the start and the end of it. -/
def parse (s : Session) : Node × Session :=
  let (program, t) :=
    (s.record .parseStarted).perform (Grammar.program s.setup (maxNesting - s.depth))
  (program, t.record (.parseFinished program.statements.length t.diagnostics.length))

/-- Performs the parse of a form. -/
def parseForm (s : Session) (p : Parse Node) : Reply × Session :=
  let (n, t) := s.perform p.run
  (.node n, t)

/-- Performs the parse of a sequence. -/
def parseForms (s : Session) (p : Parse (List Node)) : Reply × Session :=
  let (ns, t) := s.perform p.run
  (.nodes ns, t)

/-- Notes a problem of the token at a spot. -/
def note (s : Session) (spot : Spot) (problem : Problem) : Session :=
  (s.perform (Run.note spot problem)).2

/-- Performs one call. -/
def answer (s : Session) : Call → Reply × Session
  | .advance => (.done, (s.perform Run.advance).2)
  | .expect kind =>
    let (found, t) := s.perform (Parse.expect kind).run
    (.truth found.isSome, t)
  | .currentIs kind => (.truth (s.window.current.kind == kind), s)
  | .peekIs kind => (.truth (s.window.peek.kind == kind), s)
  | .notePeek kind => (.done, s.note .peek (.expected kind))
  | .currentPrecedence => (.precedence s.window.current.kind.precedence, s)
  | .peekPrecedence => (.precedence s.window.peek.kind.precedence, s)
  | .noteNoExpression => (.done, s.note .current .noExpression)
  | .remark text => (.done, s.note .current (.remark text))
  | .enterNesting =>
    let t := { s with depth := s.depth + 1 }
    if t.depth ≤ maxNesting then
      (.truth true, t)
    else
      (.truth false, t.note .current .nestedTooDeep)
  | .messages => (.messages (s.diagnostics.map Diagnostic.message), s)
  | .diagnostics => (.diagnostics s.diagnostics, s)
  | .program =>
    let (program, t) := s.parse
    (.node (some program), t)
  | .statement =>
    let (found, t) := s.perform (Grammar.statement s.operand).run
    (.node found.join, t)
  | .letStatement => s.parseForm (Grammar.letStatement s.operand)
  | .returnStatement => s.parseForm (Grammar.returnStatement s.operand)
  | .expressionStatement => s.parseForm (Grammar.expressionStatement s.operand)
  | .block => s.parseForm (Grammar.block s.operand)
  | .expression p => s.parseForm (s.operand p)
  | .opening form => s.parseForm (Grammar.opening s.setup.config s.operand form)
  | .binary left => s.parseForm (Grammar.binary s.operand left)
  | .call callee => s.parseForm (Grammar.call s.operand callee)
  | .parameters => s.parseForms Grammar.parameters
  | .arguments close => s.parseForms (Grammar.arguments s.operand close)
  | .dropOpening kind =>
    (.truth (s.setup.rules.opening? kind).isSome,
      { s with setup.rules := s.setup.rules.dropOpening kind })
  | .dropContinuation kind =>
    (.truth (s.setup.rules.continuation? kind).isSome,
      { s with setup.rules := s.setup.rules.dropContinuation kind })

end Session

end MonkeyLang
