import MonkeyLang.Proofs.RenderedText
import MonkeyLang.Proofs.TokenTrail

/-!
# Trees of scanned tokens

The lexer reads names, numerals and kinds of one spelling, and a form takes only tokens of its own
kinds. So what a text parses to is a well-formed tree, whatever was dropped around it. A window on a
text stays on it; this is the invariant of the loops. Main statements:
`expression_chain_wellFormed`, by induction on the levels, and `proper_parseText`, which says of
each node what it holds.
-/

namespace MonkeyLang

open Text Grammar

/-! ### What the lexer reads -/

theorem Kind.spelling_of_mem_operatorKinds {k : Kind} (hk : k ∈ Kind.operatorKinds) :
    k.spelling = k.text := by
  revert hk
  cases k <;> decide

/-- An operator's token has the text by which its kind is mentioned. -/
theorem Token.Spells.literal_eq_text {t : Token} {k : Kind} (h : t.Spells k)
    (hk : k ∈ Kind.operatorKinds) : t.literal = t.kind.text := by
  rw [h.1, h.2, Kind.spelling_of_mem_operatorKinds hk]

namespace Lexeme

/-- The lexemes that the lexer reads: names, numerals, kinds of one spelling, single characters that
start nothing, and the end of the text. -/
inductive Read : Lexeme → Prop
  | name {s : String} : IsName s → Read ⟨.ident, s.toList⟩
  | numeral {cs} : cs ≠ [] → (∀ c ∈ cs, isDigit c = true) → Read ⟨.int, cs⟩
  | spelled {k : Kind} : k ∈ Kind.words ∨ k ∈ Kind.operatorKinds → Read k.lexeme
  | illegal {c} : Read ⟨.illegal, [c]⟩
  | eof : Read ⟨.eof, []⟩

theorem read_atHead (cs : List Char) : Read (atHead cs) := by
  cases cs with
  | nil => exact .eof
  | cons c cs =>
    rw [atHead]
    split
    · next hletter =>
      have hne : (c :: cs).takeWhile isLetter ≠ [] := by simp [hletter]
      have hletters : ∀ d ∈ (c :: cs).takeWhile isLetter, isLetter d = true :=
        List.all_eq_true.1 List.all_takeWhile
      generalize (c :: cs).takeWhile isLetter = word at hne hletters
      dsimp only
      rcases Kind.ofWord_cases (String.ofList word) with ⟨hkeyword, hident⟩ | hmem
      · have hname : IsName (String.ofList word) :=
          ⟨by simpa using hne, by simpa using hletters, hkeyword⟩
        rw [hident]
        simpa using Read.name hname
      · have hkeywords : ∀ entry ∈ Kind.keywords, entry.1 = entry.2.spelling := by decide
        have hword : Kind.ofWord (String.ofList word) ∈ Kind.words := List.mem_map_of_mem hmem
        have hread := Read.spelled (.inl hword)
        rw [Kind.lexeme, ← hkeywords _ hmem, String.toList_ofList] at hread
        exact hread
    · split
      · next hdigit =>
        refine .numeral (by simp [hdigit]) ?_
        exact List.all_eq_true.1 List.all_takeWhile
      · split
        · next k hk =>
          have hmem := (operatorAt?_isPrefix hk).1
          have hspelling : k.spelling = k.text := by
            revert hmem
            cases k <;> decide
          rw [← hspelling]
          exact .spelled (.inr hmem)
        · exact .illegal

end Lexeme

namespace Token

/-- The token is one that the lexer reads. -/
def Scanned (t : Token) : Prop := t.lexeme.Read

theorem Scanned.isName {t : Token} (h : t.Scanned) (ht : t.kind = .ident) : IsName t.literal := by
  rw [Scanned] at h
  generalize hl : t.lexeme = l at h
  have hkind : l.kind = .ident := by rw [← hl, ← ht, lexeme]
  cases h with
  | name hname => rwa [String.toList_inj.1 (congrArg Lexeme.text hl)]
  | spelled hk =>
    obtain rfl := hkind
    exact absurd hk (by decide)
  | numeral | illegal | eof => cases hkind

theorem Scanned.digits {t : Token} (h : t.Scanned) (ht : t.kind = .int) :
    t.literal.toList ≠ [] ∧ ∀ c ∈ t.literal.toList, isDigit c = true := by
  rw [Scanned] at h
  generalize hl : t.lexeme = l at h
  have hkind : l.kind = .int := by rw [← hl, ← ht, lexeme]
  cases h with
  | numeral hne hdigits =>
    have htext : t.literal.toList = _ := congrArg Lexeme.text hl
    rw [htext]
    exact ⟨hne, hdigits⟩
  | spelled hk =>
    obtain rfl := hkind
    exact absurd hk (by decide)
  | name | illegal | eof => cases hkind

theorem Scanned.spells {t : Token} (h : t.Scanned) {k : Kind} (ht : t.kind = k)
    (hk : k ∈ Kind.words ∨ k ∈ Kind.operatorKinds) : t.Spells k := by
  rw [Scanned] at h
  generalize hl : t.lexeme = l at h
  have hkind : l.kind = k := by rw [← hl, ← ht, lexeme]
  cases h with
  | spelled _ =>
    obtain rfl := hkind
    exact ⟨ht, String.toList_inj.1 (congrArg Lexeme.text hl)⟩
  | name | numeral | illegal | eof =>
    obtain rfl := hkind
    dsimp only at hk
    exact absurd hk (by decide)

end Token

/-! ### Windows on a text -/

namespace Window

/-- The window shows tokens that are read from a text. -/
def OnText (w : Window) : Prop := ∃ s, w.Shows (.text s)

namespace OnText

variable {w : Window}

theorem advance (h : w.OnText) : w.advance.OnText := by
  obtain ⟨s, hs⟩ := h
  exact ⟨s.next, hs.advance⟩

theorem current (h : w.OnText) : w.current.Scanned := by
  obtain ⟨s, hs⟩ := h
  have hcurrent : w.current = s.token := hs.1
  rw [hcurrent, Token.Scanned, Token.lexeme_scan]
  exact Lexeme.read_atHead _

theorem peek (h : w.OnText) : w.peek.Scanned := h.advance.current

end OnText

end Window

/-- No run leaves the text. -/
theorem StepInvariant.keepsText : StepInvariant fun w _ _ v => w.OnText → v.OnText :=
  TraceInvariant.stepInvariant
    { stay := fun _ hw => hw
      advance := fun _ hw => hw.advance
      reject := fun _ _ _ _ hw => hw
      append := fun ha hb hw => hb (ha hw)
      nested := id
      drop := fun _ h => h }

/-! ### Forms -/

namespace Grammar

section Operand

variable {config : Config} {levels : Nat} {w v : Window} {n : Node}
  (hop : ∀ {p w n v}, w.OnText → (expression { config } levels p).Leads Anyhow w n v →
    WellFormed.Expression config n)

theorem onText_expression {p : Precedence} (hw : w.OnText)
    (h : (expression { config } levels p).Leads Anyhow w n v) : v.OnText :=
  h.keeps (StepInvariant.keepsText.expression _ _ _) hw

theorem wellFormed_parameters {ps : List Node} (hw : w.OnText)
    (h : parameters.Leads Anyhow w ps v) (hn : n ∈ ps) : WellFormed.Name n := by
  have hitem : Parse.Respects (fun w _ _ v => w.OnText → v.OnText) parameter :=
    StepInvariant.keepsText.parse_bind (StepInvariant.keepsText.expect _) fun _ =>
      StepInvariant.keepsText.name
  obtain ⟨x, y, hx, hname⟩ :=
    leads_of_mem_commaList_from (fun _ hw => hw.advance) hitem hw h hn
  obtain ⟨hkind, -, rfl⟩ := leads_parameter.1 hname
  exact .intro hkind (hx.peek.isName hkind)

include hop

theorem wellFormed_arguments {close : Kind} {ns : List Node} (hw : w.OnText)
    (h : (arguments (expression { config } levels) close).Leads Anyhow w ns v) (hn : n ∈ ns) :
    WellFormed.Expression config n := by
  have hitem : Parse.Respects (fun w _ _ v => w.OnText → v.OnText) (argument config levels) :=
    StepInvariant.keepsText.parse_bind StepInvariant.keepsText.parse_advance fun _ =>
      StepInvariant.keepsText.expression _ _ _
  obtain ⟨x, y, hx, hargument⟩ :=
    leads_of_mem_commaList_from (fun _ hw => hw.advance) hitem hw h hn
  exact hop hx.advance (Parse.leads_advance_bind.1 hargument)

theorem wellFormed_statement (hw : w.OnText)
    (h : (statement (expression { config } levels)).Leads Anyhow w (some n) v) :
    WellFormed.Statement config n := by
  rw [leads_statement] at h
  split at h
  · exact absurd h.2 (by simp)
  · obtain ⟨_, hfound, h⟩ := h
    obtain rfl := Option.some.inj hfound
    split at h
    · next hlet =>
      obtain ⟨hname, -, value, u, hvalue, -, rfl⟩ := leads_letStatement.1 h
      exact .binding (hw.current.spells hlet (by decide))
        (.intro hname (hw.peek.isName hname)) (hop hw.advance.advance.advance hvalue)
    · split at h
      · next hreturn =>
        obtain ⟨value, u, hvalue, -, rfl⟩ := leads_returnStatement.1 h
        exact .result (hw.current.spells hreturn (by decide)) (hop hw.advance hvalue)
      · obtain ⟨value, u, hvalue, -, rfl⟩ := leads_expressionStatement.1 h
        exact .expression (hop hw hvalue)

/-- The statements that a loop yields, in spite of those that failed between them. -/
theorem wellFormed_statements {stop : Kind → Bool} {ns : List Node} (hw : w.OnText)
    (h : (statementsUntil stop (statement (expression { config } levels))).Leads Anyhow w ns v)
    (hn : n ∈ ns) : WellFormed.Statement config n := by
  have hkeeps := StepInvariant.keepsText.expression { config } levels
  obtain ⟨x, y, hx, hstatement⟩ := leads_of_mem_statementsUntil_from (fun _ hw => hw.advance)
    (StepInvariant.keepsText.statement hkeeps) hw h hn
  exact wellFormed_statement hop hx hstatement

theorem wellFormed_block (hw : w.OnText) (hbrace : w.current.kind = .lbrace)
    (h : (block (expression { config } levels)).Leads Anyhow w n v) :
    WellFormed.Block config n ∧ v.OnText := by
  have hv := h.keeps
    (StepInvariant.keepsText.block (StepInvariant.keepsText.expression { config } levels)) hw
  obtain ⟨ns, hns, -, rfl⟩ := leads_block.1 h
  exact ⟨.braces (hw.current.spells hbrace (by decide))
    fun _ hn => wellFormed_statements hop hw.advance hns hn, hv⟩

theorem wellFormed_opening {form : Opening} (hw : w.OnText)
    (hform : ({} : Rules).opening? w.current.kind = some form)
    (h : (opening config (expression { config } levels) form).Leads Anyhow w n v) :
    WellFormed.Expression config n := by
  have hkind := opening?_eq_some.1 hform
  cases form with
  | name =>
    obtain ⟨rfl, rfl⟩ := leads_name.1 h
    exact .name (.intro hkind (hw.current.isName hkind))
  | numeral =>
    obtain ⟨k, hk, hmax, rfl, rfl⟩ := leads_numeral.1 h
    obtain ⟨hne, hdigits⟩ := hw.current.digits hkind
    rw [integer?_of_isDigit hne hdigits] at hk
    split at hk
    · next hlength =>
      obtain rfl := Option.some.inj hk
      exact .numeral hkind ⟨hne, hdigits, hlength, rfl⟩ (by omega)
    · cases hk
  | truth =>
    obtain ⟨rfl, rfl⟩ := leads_truth.1 h
    rcases hkind with hkind | hkind
    · rw [hkind]
      exact .yes (hw.current.spells hkind (by decide))
    · rw [hkind]
      exact .no (hw.current.spells hkind (by decide))
  | unary =>
    obtain ⟨right, hright, rfl⟩ := leads_unary.1 h
    refine .unary hkind (hw.current.spells rfl (.inr ?_)) (hop hw.advance hright)
    rcases hkind with hkind | hkind
    · rw [hkind]
      decide
    · rw [hkind]
      decide
  | group =>
    obtain ⟨u, hinner, -, rfl⟩ := leads_group.1 h
    exact hop hw.advance hinner
  | conditional =>
    obtain ⟨-, c, u, hc, -, hlbrace, b, u', hb, h⟩ := leads_conditional.1 h
    have hif := hw.current.spells hkind (by decide)
    have hcondition := hop hw.advance.advance hc
    have hu := onText_expression hw.advance.advance hc
    obtain ⟨hconsequence, hu'⟩ := wellFormed_block hop hu.advance.advance hlbrace hb
    split at h
    · obtain ⟨hlbrace', a, ha, rfl⟩ := h
      obtain ⟨halternative, -⟩ := wellFormed_block hop hu'.advance.advance hlbrace' ha
      exact .alternative hif hcondition hconsequence halternative
    · obtain ⟨rfl, rfl⟩ := h
      exact .choice hif hcondition hconsequence
  | function =>
    obtain ⟨-, ps, u, hps, hlbrace, b, hb, rfl⟩ := leads_function.1 h
    have hu := hps.keeps StepInvariant.keepsText.parameters hw.advance
    obtain ⟨hbody, -⟩ := wellFormed_block hop hu.advance hlbrace hb
    exact .function (hw.current.spells hkind (by decide))
      (fun _ hp => wellFormed_parameters hw.advance hps hp) hbody

/-- What an operator or a call makes of a well-formed tree is one. -/
theorem wellFormed_continuation {p : Precedence} {left : Node}
    (hleft : WellFormed.Expression config left) (hw : w.OnText) (hlt : p < w.peek.kind.precedence)
    (h : (continuation (expression { config } levels) left
      (if w.peek.kind = .lparen then .call else .binary)).Leads Anyhow w.advance n v) :
    WellFormed.Expression config n := by
  split at h
  · next hparen =>
    obtain ⟨ns, hns, rfl⟩ := leads_call.1 h
    exact .call (hw.peek.spells hparen (by decide)) hleft
      fun _ hn => wellFormed_arguments hop hw.advance hns hn
  · next hparen =>
    obtain ⟨right, hright, rfl⟩ := leads_binary.1 h
    obtain ⟨hmem, -⟩ := Kind.mem_operators_stratum hlt hparen
    exact .binary hmem (hw.peek.spells rfl (.inr (Stratum.mem_operatorKinds hmem))) hleft
      (hop hw.advance.advance hright)

end Operand

/-! ### Expressions -/

/-- Induction on the levels, for expressions together with chains: what a chain begins with is
well formed, and each operator keeps that. -/
theorem expression_chain_wellFormed (config : Config) (levels : Nat) :
    (∀ {p w n v}, w.OnText → (expression { config } levels p).Leads Anyhow w n v →
      WellFormed.Expression config n) ∧
    ∀ {p w n v left}, WellFormed.Expression config left → w.OnText →
      (chain { config } levels p left).Leads Anyhow w n v → WellFormed.Expression config n := by
  induction levels with
  | zero =>
    refine ⟨fun _ h => absurd h leads_expression_zero, fun {p w n v left} hleft hw h => ?_⟩
    by_cases hlt : p < w.peek.kind.precedence
    · exact absurd h (leads_chain_zero hlt)
    · obtain ⟨rfl, rfl⟩ := (leads_chain_end hlt).1 h
      exact hleft
  | succ levels ih =>
    obtain ⟨hexpression, hchain⟩ := ih
    have hkeeps := StepInvariant.keepsText.expression { config } levels
    constructor
    · intro p w n v hw h
      obtain ⟨form, hform, left, u, hleft, h⟩ := leads_expression_succ.1 h
      exact hchain (wellFormed_opening hexpression hw hform hleft)
        (hleft.keeps (StepInvariant.keepsText.opening hkeeps _ _) hw) h
    · intro p w n v left hleft hw h
      by_cases hlt : p < w.peek.kind.precedence
      · obtain ⟨wider, u, hwider, h⟩ := (leads_chain_succ hlt).1 h
        exact hchain (wellFormed_continuation hexpression hleft hw hlt hwider)
          (hwider.keeps (StepInvariant.keepsText.continuation hkeeps _ _) hw.advance) h
      · obtain ⟨rfl, rfl⟩ := (leads_chain_end hlt).1 h
        exact hleft

end Grammar

/-- What a text parses to is a well-formed program, also where statements were given up. -/
theorem wellFormed_parseText (config : Config) (text : String) :
    WellFormed.Program config (parseText config text).program :=
  .intro fun _ hn => wellFormed_statements (expression_chain_wellFormed config maxNesting).1
    ⟨_, Window.shows_ofSource (.ofText text)⟩ ⟨rfl, rfl, trivial⟩ hn

/-! ### Nodes -/

namespace Node

/-- Names, where a parameter or a binding stands. -/
def isName : Node → Bool
  | identifier _ _ => true
  | _ => false

def isExpression : Node → Bool
  | identifier _ _ | integer _ _ | boolean _ _ | unary _ _ _ | binary _ _ _ _
  | conditional _ _ _ _ | function _ _ _ | call _ _ _ => true
  | _ => false

def isBlock : Node → Bool
  | block _ _ => true
  | _ => false

/-- Statements. A block is none: it stands only where a form takes one. -/
def isStatement : Node → Bool
  | letStatement _ _ _ | returnStatement _ _ | expressionStatement _ _ => true
  | _ => false

/-- What a node holds for given settings: the kind and the text of its token, a value that agrees
with them, and nodes of the classes that belong where they stand. -/
def Proper (config : Config) : Node → Prop
  | identifier t value => t.kind = .ident ∧ value = t.literal ∧ IsName t.literal
  | integer t value =>
    t.kind = .int ∧ ∃ n : Nat, value = n ∧ IsNumeral t.literal n ∧ n ≤ config.maxInt
  | boolean t value => t.Spells (if value then .trueWord else .falseWord)
  | unary t operator right =>
    t.kind ∈ [Kind.bang, .minus] ∧ operator = t.literal ∧ operator = t.kind.text ∧
      right.isExpression
  | binary t left operator right =>
    t.kind ∈ [Kind.plus, .minus, .asterisk, .slash, .lt, .gt, .eq, .notEq] ∧
      operator = t.literal ∧ operator = t.kind.text ∧ left.isExpression ∧ right.isExpression
  | conditional t condition consequence alternative =>
    t.Spells .ifWord ∧ condition.isExpression ∧ consequence.isBlock ∧
      ∀ a ∈ alternative, a.isBlock
  | function t parameters body =>
    t.Spells .function ∧ (∀ p ∈ parameters, p.isName) ∧ body.isBlock
  | call t callee arguments =>
    t.Spells .lparen ∧ callee.isExpression ∧ ∀ a ∈ arguments, a.isExpression
  | letStatement t name value => t.Spells .letWord ∧ name.isName ∧ value.isExpression
  | returnStatement t value => t.Spells .returnWord ∧ value.isExpression
  | expressionStatement _ expression => expression.isExpression
  | block t statements => t.Spells .lbrace ∧ ∀ s ∈ statements, s.isStatement
  | program statements => ∀ s ∈ statements, s.isStatement

end Node

namespace WellFormed

variable {config : Config} {n m : Node}

/-- A tree that is well formed as what its first node is. -/
def Tree (config : Config) (n : Node) : Prop :=
  match n with
  | .identifier _ _ => Name n
  | .letStatement _ _ _ | .returnStatement _ _ | .expressionStatement _ _ => Statement config n
  | .block _ _ => Block config n
  | .program _ => Program config n
  | _ => Expression config n

theorem Name.tree (h : Name n) : Tree config n := by
  cases h with
  | intro hkind hname => exact .intro hkind hname

theorem Expression.tree (h : Expression config n) : Tree config n := by
  cases h with
  | name h => exact h.tree
  | numeral hkind hvalue hmax => exact .numeral hkind hvalue hmax
  | yes ht => exact .yes ht
  | no ht => exact .no ht
  | unary hk ht he => exact .unary hk ht he
  | binary hk ht hl hr => exact .binary hk ht hl hr
  | choice ht he hb => exact .choice ht he hb
  | alternative ht he hb ha => exact .alternative ht he hb ha
  | function ht hps hb => exact .function ht hps hb
  | call ht he hns => exact .call ht he hns

theorem Block.tree (h : Block config n) : Tree config n := by
  cases h with
  | braces ht hns => exact .braces ht hns

theorem Statement.tree (h : Statement config n) : Tree config n := by
  cases h with
  | binding ht hn he => exact .binding ht hn he
  | result ht he => exact .result ht he
  | expression he => exact .expression he

theorem Program.tree (h : Program config n) : Tree config n := by
  cases h with
  | intro hns => exact .intro hns

/-- What stands in a well-formed tree is well formed. -/
theorem Tree.of_contains {ts : List Token} (h : n.Contains ts m) (hn : Tree config n) :
    Tree config m := by
  induction h with
  | self => exact hn
  | operand _ ih =>
    match hn with
    | .unary _ _ he => exact ih he.tree
  | left _ ih =>
    match hn with
    | .binary _ _ hl _ => exact ih hl.tree
  | right _ ih =>
    match hn with
    | .binary _ _ _ hr => exact ih hr.tree
  | condition _ ih =>
    match hn with
    | .choice _ he _ => exact ih he.tree
    | .alternative _ he _ _ => exact ih he.tree
  | consequence _ ih =>
    match hn with
    | .choice _ _ hb => exact ih hb.tree
    | .alternative _ _ hb _ => exact ih hb.tree
  | alternative _ ih =>
    match hn with
    | .alternative _ _ _ ha => exact ih ha.tree
  | parameter _ ih =>
    match hn with
    | .function _ hps _ => exact ih (hps _ (by simp)).tree
  | body _ ih =>
    match hn with
    | .function _ _ hb => exact ih hb.tree
  | callee _ ih =>
    match hn with
    | .call _ he _ => exact ih he.tree
  | argument _ ih =>
    match hn with
    | .call _ _ hns => exact ih (hns _ (by simp)).tree
  | name _ ih =>
    match hn with
    | .binding _ hx _ => exact ih hx.tree
  | binding _ ih =>
    match hn with
    | .binding _ _ he => exact ih he.tree
  | result _ ih =>
    match hn with
    | .result _ he => exact ih he.tree
  | expression _ ih =>
    match hn with
    | .expression he => exact ih he.tree
  | block _ ih =>
    match hn with
    | .braces _ hns => exact ih (hns _ (by simp)).tree
  | program _ ih =>
    match hn with
    | .intro hns => exact ih (hns _ (by simp)).tree

/-! What a tree is well formed as, its first node says. -/

theorem Name.isName (h : Name n) : n.isName := by
  cases h with
  | intro => rfl

theorem Expression.isExpression (h : Expression config n) : n.isExpression := by
  cases h with
  | name h =>
    cases h with
    | intro => rfl
  | numeral | yes | no | unary | binary | choice | alternative | function | call => rfl

theorem Block.isBlock (h : Block config n) : n.isBlock := by
  cases h with
  | braces => rfl

theorem Statement.isStatement (h : Statement config n) : n.isStatement := by
  cases h with
  | binding | result | expression => rfl

theorem Tree.proper (h : Tree config n) : n.Proper config := by
  match n, h with
  | .identifier _ _, .intro hkind hname => exact ⟨hkind, rfl, hname⟩
  | .integer _ _, .numeral hkind hvalue hmax => exact ⟨hkind, _, rfl, hvalue, hmax⟩
  | .boolean _ _, .yes ht => exact ht
  | .boolean _ _, .no ht => exact ht
  | .unary t _ _, .unary hk ht he =>
    rw [← ht.1] at hk
    have htext := ht.literal_eq_text (by rcases hk with hk | hk <;> rw [← ht.1, hk] <;> decide)
    exact ⟨by simpa using hk, rfl, htext, he.isExpression⟩
  | .binary t _ _ _, .binary (s := s) hk ht hl hr =>
    have htext := ht.literal_eq_text (Stratum.mem_operatorKinds hk)
    rw [← ht.1] at hk
    have hmem : t.kind ∈ [Kind.plus, .minus, .asterisk, .slash, .lt, .gt, .eq, .notEq] := by
      revert hk
      cases s <;> cases t.kind <;> decide
    exact ⟨hmem, rfl, htext, hl.isExpression, hr.isExpression⟩
  | .conditional _ _ _ none, .choice ht he hb =>
    exact ⟨ht, he.isExpression, hb.isBlock, by simp⟩
  | .conditional _ _ _ (some _), .alternative ht he hb ha =>
    exact ⟨ht, he.isExpression, hb.isBlock, by simpa using ha.isBlock⟩
  | .function _ _ _, .function ht hps hb => exact ⟨ht, fun p hp => (hps p hp).isName, hb.isBlock⟩
  | .call _ _ _, .call ht he hns =>
    exact ⟨ht, he.isExpression, fun n hn => (hns n hn).isExpression⟩
  | .letStatement _ _ _, .binding ht hn he => exact ⟨ht, hn.isName, he.isExpression⟩
  | .returnStatement _ _, .result ht he => exact ⟨ht, he.isExpression⟩
  | .expressionStatement _ _, .expression he => exact he.isExpression
  | .block _ _, .braces ht hns => exact ⟨ht, fun n hn => (hns n hn).isStatement⟩
  | .program _, .intro hns => exact fun n hn => (hns n hn).isStatement

end WellFormed

/-- Each node of what a text parses to, at any depth and whatever was dropped around it, holds what
belongs to it. -/
theorem proper_parseText (config : Config) (text : String) {ts : List Token} {m : Node}
    (h : (parseText config text).program.Contains ts m) : m.Proper config :=
  ((wellFormed_parseText config text).tree.of_contains h).proper

/-- The argument of a call behind a binding that was given up. -/
theorem proper_parseText_argument :
    (parseText {} "let x f(01)").messages = ["expected next token to be =, got IDENT"] ∧
      ∃ ts, (parseText {} "let x f(01)").program.Contains ts (.integer ⟨.int, "01", ⟨1, 9⟩⟩ 1) ∧
        (Node.integer ⟨.int, "01", ⟨1, 9⟩⟩ 1).Proper {} := by
  have hprogram : (parseText {} "let x f(01)").program =
      .program [.expressionStatement ⟨.ident, "f", ⟨1, 7⟩⟩ (.call ⟨.lparen, "(", ⟨1, 8⟩⟩
        (.identifier ⟨.ident, "f", ⟨1, 7⟩⟩ "f") [.integer ⟨.int, "01", ⟨1, 9⟩⟩ 1])] := by
    decide +kernel
  have hcontains : ∃ ts, (parseText {} "let x f(01)").program.Contains ts
      (.integer ⟨.int, "01", ⟨1, 9⟩⟩ 1) := by
    rw [hprogram]
    exact ⟨_, @Node.Contains.program [] _ [] _ _
      (.expression (@Node.Contains.argument _ _ [] _ [] _ _ .self))⟩
  obtain ⟨ts, h⟩ := hcontains
  exact ⟨by decide +kernel, ts, h, proper_parseText {} _ h⟩

end MonkeyLang
