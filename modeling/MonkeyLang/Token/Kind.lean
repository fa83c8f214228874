/-!
# Token kinds

The closed vocabulary of the language. A kind has a `name`, which identifies it, and a `text`,
which is how a diagnostic mentions it: operators and delimiters are mentioned by their spelling.
Main statement: `ofText?_text`, by which the text determines the kind.
-/

namespace MonkeyLang

/-- What a token is: an operator, a delimiter, a keyword, a name, a numeral, the end of the text,
or a character that starts nothing. -/
inductive Kind where
  | illegal
  | eof
  | ident
  | int
  | assign
  | plus
  | minus
  | asterisk
  | slash
  | bang
  | lt
  | gt
  | eq
  | notEq
  | comma
  | semicolon
  | lparen
  | rparen
  | lbrace
  | rbrace
  | function
  | letWord
  | trueWord
  | falseWord
  | ifWord
  | elseWord
  | returnWord
  deriving DecidableEq, Repr, Inhabited

namespace Kind

/-- Every kind once, in the order in which the vocabulary lists them. -/
def all : List Kind :=
  [illegal, eof, ident, int, assign, plus, minus, asterisk, slash, bang, lt, gt, eq, notEq,
    comma, semicolon, lparen, rparen, lbrace, rbrace, function, letWord, trueWord, falseWord,
    ifWord, elseWord, returnWord]

@[simp] theorem mem_all (k : Kind) : k ∈ all := by
  cases k <;> decide

/-- The identifying name of a kind. -/
def name : Kind → String
  | illegal => "ILLEGAL"
  | eof => "EOF"
  | ident => "IDENT"
  | int => "INT"
  | assign => "ASSIGN"
  | plus => "PLUS"
  | minus => "MINUS"
  | asterisk => "ASTERISK"
  | slash => "SLASH"
  | bang => "BANG"
  | lt => "LT"
  | gt => "GT"
  | eq => "EQ"
  | notEq => "NOT_EQ"
  | comma => "COMMA"
  | semicolon => "SEMICOLON"
  | lparen => "LPAREN"
  | rparen => "RPAREN"
  | lbrace => "LBRACE"
  | rbrace => "RBRACE"
  | function => "FUNCTION"
  | letWord => "LET"
  | trueWord => "TRUE"
  | falseWord => "FALSE"
  | ifWord => "IF"
  | elseWord => "ELSE"
  | returnWord => "RETURN"

/-- How a diagnostic mentions a kind: operators and delimiters by their spelling, all others by
name. -/
def text : Kind → String
  | assign => "="
  | plus => "+"
  | minus => "-"
  | asterisk => "*"
  | slash => "/"
  | bang => "!"
  | lt => "<"
  | gt => ">"
  | eq => "=="
  | notEq => "!="
  | comma => ","
  | semicolon => ";"
  | lparen => "("
  | rparen => ")"
  | lbrace => "\x7b"
  | rbrace => "\x7d"
  | k => k.name

/-- The kind with a given name. -/
def ofName? (s : String) : Option Kind :=
  all.find? fun k => k.name == s

/-- The kind that diagnostics mention by a given text. -/
def ofText? (s : String) : Option Kind :=
  all.find? fun k => k.text == s

@[simp] theorem ofText?_text (k : Kind) : ofText? k.text = some k := by
  cases k <;> rfl

theorem text_injective {a b : Kind} (h : a.text = b.text) : a = b :=
  Option.some.inj (by rw [← ofText?_text a, h, ofText?_text])

/-- The kinds spelled by an operator or a delimiter. Longer spellings come first, so the first
spelling that a text starts with is the longest one. -/
def operatorKinds : List Kind :=
  [eq, notEq, assign, plus, minus, asterisk, slash, bang, lt, gt, comma, semicolon, lparen,
    rparen, lbrace, rbrace]

/-- Operator and delimiter spellings with the kinds that they spell. -/
def operators : List (String × Kind) :=
  operatorKinds.map fun k => (k.text, k)

/-- The length of the longest operator spelling. -/
def maxOperatorLength : Nat :=
  (operators.map fun o => o.1.length).foldl max 0

/-- The operator or delimiter of the longest spelling that a text starts with. -/
def operatorAt? (cs : List Char) : Option Kind :=
  operatorKinds.find? fun k => k.text.toList.isPrefixOf cs

/-- No operator or delimiter that a text starts with is spelled longer than the one found. -/
theorem length_le_of_operatorAt? {cs : List Char} {k l : Kind} (hk : operatorAt? cs = some k)
    (hl : l ∈ operatorKinds) (h : l.text.toList <+: cs) : l.text.length ≤ k.text.length := by
  obtain ⟨-, before, rest, hsplit, hbefore⟩ := List.find?_eq_some_iff_append.1 hk
  have hsorted : operatorKinds.Pairwise fun a b => b.text.length ≤ a.text.length := by decide
  rw [hsplit] at hl hsorted
  rcases List.mem_append.1 hl with hl | hl
  · have := hbefore l hl
    simp [List.isPrefixOf_iff_prefix.2 h] at this
  · rcases List.mem_cons.1 hl with rfl | hl
    · exact Nat.le_refl _
    · exact List.rel_of_pairwise_cons (List.pairwise_append.1 hsorted).2.1 hl

/-- The reserved words with the kinds that they spell. -/
def keywords : List (String × Kind) :=
  [("fn", function), ("let", letWord), ("true", trueWord), ("false", falseWord),
    ("if", ifWord), ("else", elseWord), ("return", returnWord)]

/-- The kind of a word: its keyword kind if it is reserved, and a name otherwise. -/
def ofWord (word : String) : Kind :=
  (keywords.lookup word).getD ident

/-- A word is a name, unless it is reserved and has the kind that it spells. -/
theorem ofWord_cases (word : String) :
    word ∉ keywords.map Prod.fst ∧ ofWord word = ident ∨ (word, ofWord word) ∈ keywords := by
  rw [ofWord]
  cases h : keywords.lookup word with
  | none =>
    refine .inl ⟨fun hmem => ?_, rfl⟩
    obtain ⟨entry, hentry, rfl⟩ := List.mem_map.1 hmem
    simpa using List.lookup_eq_none_iff.1 h entry hentry
  | some k =>
    obtain ⟨_, _, hsplit, -⟩ := List.lookup_eq_some_iff.1 h
    exact .inr (by simp [hsplit])

end Kind

end MonkeyLang
