import MonkeyLang.Parsing.Session

/-!
# Whole parses

Parsing a text or a list of tokens from its start to its end. A parse always yields a program, which
holds the well-formed statements, and the diagnostics for the rest. A strict parse fails if there is
any diagnostic.
-/

namespace MonkeyLang

/-- What parsing a source from its start yields. -/
structure Parsed where
  program : Node
  diagnostics : List Diagnostic
  log : List Record
  deriving Repr

/-- The failure of a strict parse: its first diagnostic and the ones after it. -/
structure ParseError where
  first : Diagnostic
  more : List Diagnostic
  deriving DecidableEq, Repr

namespace ParseError

/-- All diagnostics of the failed parse. -/
def diagnostics (e : ParseError) : List Diagnostic := e.first :: e.more

/-- The text of the failure. -/
def message (e : ParseError) : String :=
  toString e.diagnostics.length ++ " parse error(s), first at line "
    ++ toString e.first.place.line ++ ", col " ++ toString e.first.place.col ++ ": "
    ++ e.first.message

end ParseError

/-- Parses a source by given settings and rules. -/
def parse (setup : Setup) (source : Source) : Parsed :=
  let (program, s) := (Session.start setup source).parse
  ⟨program, s.diagnostics, s.log⟩

/-- Parses a text by given settings and the rules of the language. -/
def parseText (config : Config) (text : String) : Parsed :=
  parse { config } (.ofText text)

namespace Parsed

/-- The wordings of all diagnostics. -/
def messages (p : Parsed) : List String := p.diagnostics.map Diagnostic.message

/-- The program and the wordings of its diagnostics, or a failure if the parse is strict and there
is any diagnostic. -/
def judged (p : Parsed) (strict : Bool) : Except ParseError (Node × List String) :=
  match p.diagnostics with
  | [] => .ok (p.program, [])
  | first :: more => if strict then .error ⟨first, more⟩ else .ok (p.program, p.messages)

/-- A parse fails exactly if it is strict and there is a diagnostic, and then with all of them. -/
theorem judged_eq_error_iff (p : Parsed) (strict : Bool) (e : ParseError) :
    p.judged strict = .error e ↔ strict = true ∧ p.diagnostics = e.diagnostics := by
  unfold judged ParseError.diagnostics
  cases p.diagnostics with
  | nil => simp
  | cons first more =>
    obtain ⟨f, m⟩ := e
    cases strict <;> simp

end Parsed

/-- Parses a text by given settings, and fails if they are strict and there is any diagnostic. -/
def parseOrFail (config : Config) (text : String) : Except ParseError (Node × List String) :=
  (parseText config text).judged config.strict

end MonkeyLang
