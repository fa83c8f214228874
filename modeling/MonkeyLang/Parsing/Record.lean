import MonkeyLang.Parsing.Run
import MonkeyLang.Settings.Config

/-!
# Log records

What the front end writes to its log, in the order in which it happens: each illegal character of a
text as the token for it is taken, each diagnostic as it is found, the start and the end of a whole
parse, and settings loaded from a file. A record names the part that wrote it by its channel.
-/

namespace MonkeyLang

/-- The part of the front end that writes a record. -/
inductive Channel where
  | lexer
  | parser
  | settings
  deriving DecidableEq, Repr

/-- An entry of the log. -/
inductive Record where
  /-- The text has a character that starts no token. -/
  | illegalCharacter (token : Token)
  | parseStarted
  | diagnosed (diagnostic : Diagnostic)
  | parseFinished (statements diagnostics : Nat)
  | settingsLoaded (path : String) (config : Config)
  deriving DecidableEq, Repr

namespace Record

/-- The part of the front end that a record comes from. -/
def channel : Record → Channel
  | illegalCharacter _ => .lexer
  | parseStarted | diagnosed _ | parseFinished _ _ => .parser
  | settingsLoaded _ _ => .settings

/-- The text of a record. -/
def text : Record → String
  | illegalCharacter t =>
    "illegal character " ++ Text.quoted t.literal ++ " at line " ++ toString t.place.line
      ++ ", col " ++ toString t.place.col
  | parseStarted => "parse started"
  | diagnosed d =>
    "line " ++ toString d.place.line ++ ", col " ++ toString d.place.col ++ ": " ++ d.message
  | parseFinished statements diagnostics =>
    "parse finished: " ++ toString statements ++ " statement(s), "
      ++ toString diagnostics ++ " diagnostic(s)"
  | settingsLoaded path config =>
    "loaded parser config from " ++ path ++ ": " ++ config.summary

/-- The records that taking a token from a text leaves: one if the token is an illegal character.
-/
def ofToken (t : Token) : List Record :=
  if t.kind = .illegal then [illegalCharacter t] else []

/-- The records that an event of a parse leaves. Tokens of a list were not read from a text, so
taking one leaves none. -/
def ofEvent (source : Source) : Event → List Record
  | .took t =>
    match source with
    | .text _ => ofToken t
    | .tokens _ _ => []
  | .noted d => [diagnosed d]
  | .dropped _ => []

end Record

end MonkeyLang
