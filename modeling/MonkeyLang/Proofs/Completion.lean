import MonkeyLang.Proofs.Soundness
import MonkeyLang.Proofs.Problems

/-!
# Completions

Up to the token that is blamed first, what a run has read is the beginning of something well formed,
unless the problem is that too many levels of nesting are in use: some tokens complete each form
that is unfinished there, and one level is left for an operand that they may have to add. Main
statement: `program_completes`.
-/

namespace MonkeyLang

open Grammar MonkeyLang.Derivation

/-- Some token of a kind. -/
def Kind.sample (k : Kind) : Token := ⟨k, k.text, ⟨0, 0⟩⟩

/-! ### Lists of tokens that are well formed at some levels -/

namespace Derivation

/-- An expression of a stratum that nests to `levels` at most. -/
def FitsExpression (config : Config) (s : Stratum) (levels : Nat) (us : List Token) : Prop :=
  ∃ n f m, Expression config s us n f m ∧ m ≤ levels

/-- Arguments that nest to `levels` at most. -/
def FitsArguments (config : Config) (levels : Nat) (us : List Token) : Prop :=
  ∃ ns m, Arguments config us ns m ∧ m ≤ levels

/-- Further arguments that nest to `levels` at most. -/
def FitsMoreArguments (config : Config) (levels : Nat) (us : List Token) : Prop :=
  ∃ ns m, MoreArguments config us ns m ∧ m ≤ levels

/-- A block that nests to `levels` at most. -/
def FitsBlock (config : Config) (levels : Nat) (us : List Token) : Prop :=
  ∃ b m, Block config us b m ∧ m ≤ levels

/-- A statement that nests to `levels` at most. -/
def FitsStatement (config : Config) (levels : Nat) (us : List Token) : Prop :=
  ∃ n m, Statement config us n m ∧ m ≤ levels

/-- Statements that nest to `levels` at most. -/
def FitsStatements (config : Config) (levels : Nat) (us : List Token) : Prop :=
  ∃ ns m, Statements config us ns m ∧ m ≤ levels

variable {config : Config} {levels : Nat}

namespace FitsExpression

variable {t o c l : Token} {us bs as : List Token}

theorem loosen {s : Stratum} (h : FitsExpression config s levels us) (t : Stratum)
    (hts : t.precedence.level ≤ s.precedence.level) (ht : t ≠ .primary) :
    FitsExpression config t levels us := by
  obtain ⟨n, f, m, he, hm⟩ := h
  exact ⟨n, f, m, he.loosen t hts ht, hm⟩

/-- A name is an expression of every stratum. -/
theorem sample (s : Stratum) (h : 0 < levels) :
    FitsExpression config s levels [Kind.ident.sample] := by
  have he : Expression config .primary [Kind.ident.sample] _ 1 1 := .name rfl
  by_cases hs : s = .primary
  · rw [hs]
    exact ⟨_, 1, 1, he, h⟩
  · refine ⟨_, 1, 1, he.loosen s ?_ hs, h⟩
    cases s <;> decide

theorem group (ho : o.kind = .lparen) (hus : FitsExpression config .equality levels us)
    (hc : c.kind = .rparen) :
    FitsExpression config .primary (levels + 1) (o :: us ++ [c]) := by
  obtain ⟨n, f, m, he, hm⟩ := hus
  exact ⟨n, 1, 1 + m, .group ho he hc, by omega⟩

theorem unary (ht : t.kind = .bang ∨ t.kind = .minus)
    (hus : FitsExpression config .unary levels us) :
    FitsExpression config .unary (levels + 1) (t :: us) := by
  obtain ⟨n, f, m, he, hm⟩ := hus
  exact ⟨_, 1, 1 + m, .unary ht he, by omega⟩

theorem choice (ht : t.kind = .ifWord) (ho : o.kind = .lparen)
    (hus : FitsExpression config .equality levels us) (hc : c.kind = .rparen)
    (hbs : FitsBlock config levels bs) :
    FitsExpression config .primary (levels + 1) (t :: o :: us ++ c :: bs) := by
  obtain ⟨n, f, m, he, hm⟩ := hus
  obtain ⟨b, k, hb, hk⟩ := hbs
  have hmk : max m k ≤ levels := Nat.max_le.2 ⟨hm, hk⟩
  exact ⟨_, 1, _, .choice ht ho he hc hb, by omega⟩

theorem alternative (ht : t.kind = .ifWord) (ho : o.kind = .lparen)
    (hus : FitsExpression config .equality levels us) (hc : c.kind = .rparen)
    (hbs : FitsBlock config levels bs) (hl : l.kind = .elseWord)
    (has : FitsBlock config levels as) :
    FitsExpression config .primary (levels + 1) (t :: o :: us ++ c :: bs ++ l :: as) := by
  obtain ⟨n, f, m, he, hm⟩ := hus
  obtain ⟨b, k, hb, hk⟩ := hbs
  obtain ⟨a, j, ha, hj⟩ := has
  have hmkj : max m (max k j) ≤ levels := Nat.max_le.2 ⟨hm, Nat.max_le.2 ⟨hk, hj⟩⟩
  exact ⟨_, 1, _, .alternative ht ho he hc hb hl ha, by omega⟩

theorem function {ps : List Node} (ht : t.kind = .function) (ho : o.kind = .lparen)
    (hps : Names us ps) (hc : c.kind = .rparen) (hbs : FitsBlock config levels bs) :
    FitsExpression config .primary (levels + 1) (t :: o :: us ++ c :: bs) := by
  obtain ⟨b, k, hb, hk⟩ := hbs
  exact ⟨_, 1, _, .function ht ho hps hc hb, by omega⟩

end FitsExpression

theorem FitsMoreArguments.nil : FitsMoreArguments config levels [] :=
  ⟨[], 0, .nil, Nat.zero_le _⟩

theorem FitsMoreArguments.cons {comma : Token} {us vs : List Token} (hcomma : comma.kind = .comma)
    (hus : FitsExpression config .equality levels us) (hvs : FitsMoreArguments config levels vs) :
    FitsMoreArguments config levels (comma :: us ++ vs) := by
  obtain ⟨n, f, m, he, hm⟩ := hus
  obtain ⟨ns, k, hns, hk⟩ := hvs
  exact ⟨_, _, .cons hcomma he hns, Nat.max_le.2 ⟨hm, hk⟩⟩

theorem FitsArguments.cons {us vs : List Token} (hus : FitsExpression config .equality levels us)
    (hvs : FitsMoreArguments config levels vs) : FitsArguments config levels (us ++ vs) := by
  obtain ⟨n, f, m, he, hm⟩ := hus
  obtain ⟨ns, k, hns, hk⟩ := hvs
  exact ⟨_, _, .cons he hns, Nat.max_le.2 ⟨hm, hk⟩⟩

/-- An expression is the last argument of a list. -/
theorem FitsExpression.arguments {us : List Token} (h : FitsExpression config .equality levels us) :
    FitsArguments config levels us := by
  rw [← us.append_nil]
  exact .cons h .nil

theorem FitsExpression.moreArguments {comma : Token} {us : List Token}
    (h : FitsExpression config .equality levels us) (hcomma : comma.kind = .comma) :
    FitsMoreArguments config levels (comma :: us) := by
  rw [← (comma :: us).append_nil]
  exact .cons hcomma h .nil

theorem FitsBlock.braces {o c : Token} {us : List Token} (ho : o.kind = .lbrace)
    (hus : FitsStatements config levels us) (hc : c.kind = .rbrace) :
    FitsBlock config levels (o :: us ++ [c]) := by
  obtain ⟨ns, m, hns, hm⟩ := hus
  exact ⟨_, m, .braces ho hns hc, hm⟩

theorem FitsStatements.nil : FitsStatements config levels [] := ⟨[], 0, .nil, Nat.zero_le _⟩

/-- A block without statements. -/
theorem FitsBlock.sample : FitsBlock config levels [Kind.lbrace.sample, Kind.rbrace.sample] :=
  FitsBlock.braces rfl .nil rfl

namespace FitsStatement

variable {t x a : Token} {us : List Token}

theorem binding (ht : t.kind = .letWord) (hx : x.kind = .ident) (ha : a.kind = .assign)
    (hus : FitsExpression config .equality levels us) :
    FitsStatement config levels (t :: x :: a :: us) := by
  obtain ⟨n, f, m, he, hm⟩ := hus
  exact ⟨_, m, .binding ht hx ha he, hm⟩

theorem result (ht : t.kind = .returnWord) (hus : FitsExpression config .equality levels us) :
    FitsStatement config levels (t :: us) := by
  obtain ⟨n, f, m, he, hm⟩ := hus
  exact ⟨_, m, .result ht he, hm⟩

theorem expression (hus : FitsExpression config .equality levels us) :
    FitsStatement config levels us := by
  obtain ⟨n, f, m, he, hm⟩ := hus
  obtain ⟨t, vs, rfl, -⟩ := he.head
  exact ⟨_, m, .expression he, hm⟩

/-- A statement is the last one of a sequence. -/
theorem statements (h : FitsStatement config levels us) : FitsStatements config levels us := by
  obtain ⟨n, m, hn, hm⟩ := h
  have hns : Statements config (us ++ []) [n] (max m 0) := .unterminated hn (by simp) .nil
  rw [List.append_nil, Nat.max_zero] at hns
  exact ⟨_, m, hns, hm⟩

end FitsStatement

end Derivation

/-! ### Completions -/

/-- What stands from `w` up to the blamed token is the beginning of a list of tokens with the
property. -/
def Completes (P : List Token → Prop) (w : Window) (d : Diagnostic) : Prop :=
  ∃ us u vs, w.Reads us u ∧ u.index = d.index ∧ P (us ++ vs)

namespace Completes

variable {P Q : List Token → Prop} {w u : Window} {d : Diagnostic} {us vs : List Token}

/-- At the blamed token itself. -/
theorem here (vs : List Token) (hw : w.index = d.index) (h : P vs) : Completes P w d :=
  ⟨[], w, vs, rfl, hw, h⟩

/-- A completion of a part completes the whole, if it does with what stands around that part. -/
theorem within (hus : w.Reads us u) (h : Completes P u d) (ws : List Token)
    (hPQ : ∀ vs, P vs → Q (us ++ vs ++ ws)) : Completes Q w d := by
  obtain ⟨vs, v, rest, hvs, hv, hP⟩ := h
  refine ⟨us ++ vs, v, rest ++ ws, Window.reads_append.2 ⟨u, hus, hvs⟩, hv, ?_⟩
  have hQ := hPQ _ hP
  simp only [List.append_assoc] at hQ ⊢
  exact hQ

/-- A completion of the last part completes the whole. -/
theorem behind (hus : w.Reads us u) (h : Completes P u d) (hPQ : ∀ vs, P vs → Q (us ++ vs)) :
    Completes Q w d := by
  refine h.within hus [] fun vs hvs => ?_
  rw [List.append_nil]
  exact hPQ vs hvs

/-- Levels of nesting do not matter to what is completed. -/
theorem nested (h : Completes P w d) : Completes P w d.nested := by
  obtain ⟨us, u, vs, hus, hu, hP⟩ := h
  exact ⟨us, u, vs, hus, hu.trans d.index_nested.symm, hP⟩

theorem mono (h : Completes P w d) (hPQ : ∀ us, P us → Q us) : Completes Q w d := by
  obtain ⟨us, u, vs, hus, hu, hP⟩ := h
  exact ⟨us, u, vs, hus, hu, hPQ _ hP⟩

end Completes

section Operand

variable {config : Config} {levels : Nat} {d : Diagnostic} (hlevels : 0 < levels)
  (hop : ∀ {p w}, (expression { config } levels p).Stumbles w d →
    Completes (FitsExpression config p.stratum levels) w d)

/-! ### Statements and blocks -/

include hlevels hop

theorem statement_completes {w : Window}
    (h : (statement (expression { config } levels)).Stumbles w d) :
    Completes (FitsStatement config levels) w d := by
  obtain ⟨-, h⟩ := stumbles_statement.1 h
  split at h
  · next hlet =>
    rcases stumbles_letStatement.1 h with ⟨-, rfl⟩ | ⟨hname, ⟨-, rfl⟩ | ⟨hassign, hvalue⟩⟩
    · exact ⟨[w.current], w.advance, [Kind.ident.sample, Kind.assign.sample, Kind.ident.sample],
        ⟨rfl, rfl⟩, rfl, .binding hlet rfl rfl (.sample _ hlevels)⟩
    · exact ⟨[w.current, w.peek], w.advance.advance, [Kind.assign.sample, Kind.ident.sample],
        ⟨rfl, rfl, rfl⟩, rfl, .binding hlet hname rfl (.sample _ hlevels)⟩
    · have hreads : w.Reads [w.current, w.peek, w.advance.peek] w.advance.advance.advance :=
        ⟨rfl, rfl, rfl, rfl⟩
      exact (hop hvalue).behind hreads fun us hus => .binding hlet hname hassign hus
  · split at h
    · next hreturn =>
      have hreads : w.Reads [w.current] w.advance := ⟨rfl, rfl⟩
      exact (hop (stumbles_returnStatement.1 h)).behind hreads fun us hus => .result hreturn hus
    · exact (hop (stumbles_expressionStatement.1 h)).mono fun us hus => .expression hus

theorem statementsUntil_completes {stop : Kind → Bool} (hstop : stop .eof = true) {w : Window}
    (h : (statementsUntil stop (statement (expression { config } levels))).Stumbles w d) :
    Completes (FitsStatements config levels) w d := by
  have hreads := StepInvariant.reads.statement (StepInvariant.reads.expression { config } levels)
  have hloud := StepInvariant.loud.statement (StepInvariant.loud.expression { config } levels)
  induction w using statements_induction hstop hreads with
  | stops w hw => exact absurd h (stumbles_statementsUntil_stop hw)
  | goesOn w hw ih =>
    rcases (stumbles_statementsUntil_next hstop hreads hloud hw).1 h with
      hfirst | ⟨found, u, hfound, hrest⟩
    · exact (statement_completes hlevels hop hfirst).mono fun us hus => hus.statements
    · rw [hfound.2.1] at ih
      obtain ⟨us, m, hus, hm, hprepend⟩ := statement_prepends expression_sound hfound
      obtain ⟨vs, v, ws, hvs, hv, ns, k, hns, hk⟩ := ih hrest
      have hmk : max m k ≤ levels := Nat.max_le.2 ⟨hm, hk⟩
      cases vs with
      | nil =>
        -- nothing may go on with the statement before, so nothing is added
        have hnone := hprepend (by simp) .nil
        exact ⟨us, u.advance, [], hus, hvs ▸ hv, _, _, hnone, by omega⟩
      | cons t vs =>
        have hall : Statements config (us ++ (t :: vs ++ ws)) _ _ :=
          hprepend (by simpa using hvs.1.symm) hns
        rw [← List.append_assoc] at hall
        exact ⟨us ++ t :: vs, v, ws, Window.reads_append.2 ⟨_, hus, hvs⟩, hv, _, _, hall, hmk⟩

theorem block_completes {w : Window} (hw : w.current.kind = .lbrace)
    (h : (block (expression { config } levels)).Stumbles w d) :
    Completes (FitsBlock config levels) w d := by
  rcases stumbles_block.1 h with hinner | ⟨ns, u, hns, -, rfl⟩
  · have hopen : w.Reads [w.current] w.advance := ⟨rfl, rfl⟩
    have hstatements := statementsUntil_completes hlevels hop (by simp) hinner
    exact hstatements.within hopen [Kind.rbrace.sample] fun us hus => .braces hw hus rfl
  · obtain ⟨us, m, hus, hns, hm, -⟩ := statementsUntil_sound expression_sound (by simp) hns
    exact ⟨w.current :: us, u, [Kind.rbrace.sample], ⟨rfl, hus⟩, rfl,
      .braces hw ⟨ns, m, hns, hm⟩ rfl⟩

/-! ### Arguments -/

omit hlevels

theorem moreArguments_completes {w : Window}
    (h : StumblesRest (argument config levels) .rparen w d) :
    Completes (FitsMoreArguments config levels) w.advance d := by
  apply h.induction (takesComma_argument config levels)
  case last =>
    rintro w rfl
    exact .here [] rfl .nil
  case first =>
    intro w hw hfirst
    have hcomma : w.advance.Reads [w.peek] w.advance.advance := ⟨rfl, rfl⟩
    exact (hop (stumbles_argument.1 hfirst)).behind hcomma fun us hus => hus.moreArguments hw
  case next =>
    intro w n u hw hn hmore
    obtain ⟨us, f, m, hus, he, hm, -⟩ := expression_sound (leads_argument.1 hn)
    have hread : w.advance.Reads (w.peek :: us) u.advance := ⟨rfl, hus.reads⟩
    exact hmore.behind hread fun vs hvs => .cons hw ⟨n, f, m, he, hm⟩ hvs

theorem arguments_completes {w : Window}
    (h : (arguments (expression { config } levels) .rparen).Stumbles w d) :
    Completes (FitsArguments config levels) w.advance d := by
  change (commaList (argument config levels) .rparen).Stumbles w d at h
  obtain ⟨-, hfirst | ⟨n, u, hn, hrest⟩⟩ := stumbles_commaList.1 h
  · exact (hop (stumbles_argument.1 hfirst)).mono fun us hus => hus.arguments
  · obtain ⟨us, f, m, hus, he, hm, -⟩ := expression_sound (leads_argument.1 hn)
    exact (moreArguments_completes hop hrest).behind hus.reads fun vs hvs =>
      .cons ⟨n, f, m, he, hm⟩ hvs

omit hop

/-! ### Parameters -/

theorem moreNames_completes {w : Window} (h : StumblesRest parameter .rparen w d) :
    Completes (fun us => ∃ ps, MoreNames us ps) w.advance d := by
  apply h.induction takesComma_parameter
  case last =>
    rintro w rfl
    exact .here [] rfl ⟨[], .nil⟩
  case first =>
    intro w hw hfirst
    obtain ⟨-, rfl⟩ := stumbles_parameter.1 hfirst
    exact ⟨[w.peek], w.advance.advance, [Kind.ident.sample], ⟨rfl, rfl⟩, rfl, _, .cons hw rfl .nil⟩
  case next =>
    intro w n u hw hn hmore
    obtain ⟨hname, rfl, rfl⟩ := leads_parameter.1 hn
    have hread : w.advance.Reads [w.peek, w.advance.peek] w.advance.advance.advance :=
      ⟨rfl, rfl, rfl⟩
    exact hmore.behind hread fun vs ⟨ps, hps⟩ => ⟨_, .cons hw hname hps⟩

theorem parameters_completes {w : Window} (h : parameters.Stumbles w d) :
    Completes (fun us => ∃ ps, Names us ps) w.advance d := by
  change (commaList parameter .rparen).Stumbles w d at h
  obtain ⟨-, hfirst | ⟨n, u, hn, hrest⟩⟩ := stumbles_commaList.1 h
  · obtain ⟨-, rfl⟩ := stumbles_parameter.1 hfirst
    exact .here [] rfl ⟨[], .nil⟩
  · obtain ⟨hname, rfl, rfl⟩ := leads_parameter.1 hn
    have hread : w.advance.Reads [w.peek] w.advance.advance := ⟨rfl, rfl⟩
    exact (moreNames_completes hrest).behind hread fun vs ⟨ps, hps⟩ => ⟨_, .cons hname hps⟩

/-! ### Expressions -/

include hlevels hop

theorem conditional_completes {w : Window} (hw : w.current.kind = .ifWord)
    (h : (conditional (expression { config } levels)).Stumbles w d) :
    Completes (FitsExpression config .primary (levels + 1)) w d := by
  rcases stumbles_conditional.1 h with ⟨-, rfl⟩ | ⟨ho, hinner | ⟨n, u, hn, h⟩⟩
  · exact ⟨[w.current], w.advance, [Kind.lparen.sample, Kind.ident.sample, Kind.rparen.sample,
      Kind.lbrace.sample, Kind.rbrace.sample], ⟨rfl, rfl⟩, rfl,
      .choice hw rfl (.sample _ hlevels) rfl .sample⟩
  · have hread : w.Reads [w.current, w.peek] w.advance.advance := ⟨rfl, rfl, rfl⟩
    exact (hop hinner).within hread [Kind.rparen.sample, Kind.lbrace.sample, Kind.rbrace.sample]
      fun us hus => .choice hw ho hus rfl .sample
  -- the condition is complete
  obtain ⟨us, f, m, hus, he, hm, -⟩ := expression_sound hn
  have hus : w.Reads (w.current :: w.peek :: us) u.advance := ⟨rfl, rfl, hus.reads⟩
  have he : FitsExpression config .equality levels us := ⟨n, f, m, he, hm⟩
  have hclose : w.Reads (w.current :: w.peek :: us ++ [u.peek]) u.advance.advance :=
    Window.reads_append.2 ⟨_, hus, rfl, rfl⟩
  rcases h with ⟨-, rfl⟩ | ⟨hc, ⟨-, rfl⟩ | ⟨hbrace, hinner | ⟨b, v, hb, hl, h⟩⟩⟩
  · exact ⟨_, u.advance, [Kind.rparen.sample, Kind.lbrace.sample, Kind.rbrace.sample], hus, rfl,
      .choice hw ho he rfl .sample⟩
  · refine ⟨_, u.advance.advance, [Kind.lbrace.sample, Kind.rbrace.sample], hclose, rfl, ?_⟩
    rw [List.append_assoc]
    exact .choice hw ho he hc .sample
  · refine (block_completes hlevels hop hbrace hinner).behind hclose fun bs hbs => ?_
    rw [List.append_assoc]
    exact .choice hw ho he hc hbs
  -- the first block is complete
  obtain ⟨bs, k, hbs, hb, hk⟩ := block_sound expression_sound hbrace hb
  have hb : FitsBlock config levels bs := ⟨b, k, hb, hk⟩
  have helse : w.Reads (w.current :: w.peek :: us ++ u.peek :: bs ++ [v.peek]) v.advance.advance :=
    Window.reads_append.2 ⟨_, Window.reads_append.2 ⟨_, hus, rfl, hbs.reads⟩, rfl, rfl⟩
  rcases h with ⟨-, rfl⟩ | ⟨hbrace, hinner⟩
  · refine ⟨_, v.advance.advance, [Kind.lbrace.sample, Kind.rbrace.sample], helse, rfl, ?_⟩
    rw [List.append_assoc]
    exact .alternative hw ho he hc hb hl .sample
  · refine (block_completes hlevels hop hbrace hinner).behind helse fun as has => ?_
    rw [List.append_assoc]
    exact .alternative hw ho he hc hb hl has

theorem function_completes {w : Window} (hw : w.current.kind = .function)
    (h : (function (expression { config } levels)).Stumbles w d) :
    Completes (FitsExpression config .primary (levels + 1)) w d := by
  rcases stumbles_function.1 h with ⟨-, rfl⟩ | ⟨ho, hinner | ⟨ps, u, hps, h⟩⟩
  · exact ⟨[w.current], w.advance, [Kind.lparen.sample, Kind.rparen.sample, Kind.lbrace.sample,
      Kind.rbrace.sample], ⟨rfl, rfl⟩, rfl, .function hw rfl .nil rfl .sample⟩
  · have hread : w.Reads [w.current, w.peek] w.advance.advance := ⟨rfl, rfl, rfl⟩
    exact (parameters_completes hinner).within hread
      [Kind.rparen.sample, Kind.lbrace.sample, Kind.rbrace.sample]
      fun us ⟨ps, hps⟩ => .function hw ho hps rfl .sample
  -- the parameters are complete
  obtain ⟨us, hus, hc, hps⟩ := parameters_sound hps
  have hclose : w.Reads (w.current :: w.peek :: us ++ [u.current]) u.advance :=
    Window.reads_append.2 ⟨u, ⟨rfl, rfl, hus⟩, rfl, rfl⟩
  rcases h with ⟨-, rfl⟩ | ⟨hbrace, hinner⟩
  · refine ⟨_, u.advance, [Kind.lbrace.sample, Kind.rbrace.sample], hclose, rfl, ?_⟩
    rw [List.append_assoc]
    exact .function hw ho hps hc .sample
  · refine (block_completes hlevels hop hbrace hinner).behind hclose fun bs hbs => ?_
    rw [List.append_assoc]
    exact .function hw ho hps hc hbs

theorem opening_completes {form : Opening} {w : Window}
    (hform : ({} : Rules).opening? w.current.kind = some form)
    (h : (opening config (expression { config } levels) form).Stumbles w d) :
    Completes (FitsExpression config .unary (levels + 1)) w d := by
  have hw := opening?_eq_some.1 hform
  have loosen (us : List Token) (hus : FitsExpression config .primary (levels + 1) us) :
      FitsExpression config .unary (levels + 1) us := hus.loosen .unary (by decide) (by decide)
  have hstart : w.Reads [w.current] w.advance := ⟨rfl, rfl⟩
  cases form with
  | name => exact absurd h (by simp [opening, name])
  | truth => exact absurd h (by simp [opening, truth])
  | numeral =>
    obtain rfl := stumbles_numeral h
    exact .here [Kind.ident.sample] rfl (.sample _ levels.succ_pos)
  | unary =>
    exact (hop (stumbles_unary.1 h)).behind hstart fun us hus => .unary hw hus
  | group =>
    refine .mono ?_ loosen
    rcases stumbles_group.1 h with hinner | ⟨n, u, hn, -, rfl⟩
    · exact (hop hinner).within hstart [Kind.rparen.sample] fun us hus => .group hw hus rfl
    · obtain ⟨us, f, m, hus, he, hm, -⟩ := expression_sound hn
      exact ⟨w.current :: us, u.advance, [Kind.rparen.sample], ⟨rfl, hus.reads⟩, rfl,
        .group hw ⟨n, f, m, he, hm⟩ rfl⟩
  | conditional => exact (conditional_completes hlevels hop hw h).mono loosen
  | function => exact (function_completes hlevels hop hw h).mono loosen

omit hlevels in
theorem continuation_completes {total : Nat} {p : Precedence} {w u : Window} {left : Node}
    (hleft : Begins config total (levels + 1) p w left u) (hu : p < u.peek.kind.precedence)
    (h : (continuation (expression { config } levels) left
      (if u.peek.kind = .lparen then .call else .binary)).Stumbles u.advance d) :
    Completes (FitsExpression config p.stratum total) w d := by
  obtain ⟨s, us, f, m, hus, he, hm, hf, hp, hs⟩ := hleft
  have hread : w.Reads (us ++ [u.peek]) u.advance.advance :=
    Window.reads_append.2 ⟨_, hus.reads, rfl, rfl⟩
  split at h
  · next hparen =>
    refine (arguments_completes hop (stumbles_call.1 h)).within hread [Kind.rparen.sample] ?_
    rintro as ⟨ns, k, hns, hk⟩
    have hclose : Kind.rparen.sample.kind = .rparen := rfl
    have hcall := (he.applied_call hs hparen hns hclose).loosen p.stratum
      (by cases p <;> decide) (by cases p <;> decide)
    rw [List.append_assoc us]
    exact ⟨_, _, _, hcall, Nat.max_le.2 ⟨hm, by omega⟩⟩
  · next hparen =>
    refine (hop (stumbles_binary.1 h)).behind hread ?_
    rintro vs ⟨r, g, k, hr, hk⟩
    obtain ⟨-, -, hloose⟩ := Kind.mem_operators_stratum hu hparen
    have hbinary := (he.applied_binary hs hu hparen hr).loosen p.stratum hloose
      (by cases p <;> decide)
    rw [List.append_assoc us]
    exact ⟨_, _, _, hbinary, Nat.max_le.2 ⟨hm, by omega⟩⟩

end Operand

/-- Expressions at any number of levels can be completed, and so can what was parsed before a chain
of operators together with what is left of the chain. -/
theorem expression_chain_completes (config : Config) (levels : Nat) :
    (∀ {p w d}, d.problem ≠ .nestedTooDeep → d.depth < levels →
      (expression { config } levels p).Stumbles w d →
        Completes (FitsExpression config p.stratum levels) w d) ∧
    ∀ {total p w u left d}, d.problem ≠ .nestedTooDeep → d.depth < levels →
      Begins config total levels p w left u → (chain { config } levels p left).Stumbles u d →
        Completes (FitsExpression config p.stratum total) w d := by
  induction levels with
  | zero =>
    constructor
    · intro p w d _ hdepth
      exact absurd hdepth (Nat.not_lt_zero _)
    · intro total p w u left d _ hdepth
      exact absurd hdepth (Nat.not_lt_zero _)
  | succ levels ih =>
    obtain ⟨hexpression, hchain⟩ := ih
    constructor
    · intro p w d hd hdepth h
      obtain ⟨d, hinner, rfl⟩ := stumbles_expression_succ.1 h
      rw [Diagnostic.problem_nested] at hd
      rw [Diagnostic.depth_nested] at hdepth
      have hdepth := Nat.lt_of_succ_lt_succ hdepth
      apply Completes.nested
      rcases hinner with ⟨-, rfl⟩ | ⟨form, hform, hopening | ⟨left, u, hleft, hrest⟩⟩
      · exact .here [Kind.ident.sample] rfl (.sample _ levels.succ_pos)
      · refine (opening_completes (Nat.zero_lt_of_lt hdepth) (hexpression hd hdepth) hform
          hopening).mono fun us hus => hus.loosen p.stratum ?_ ?_
        · cases p <;> decide
        · cases p <;> decide
      · exact hchain hd hdepth (opening_sound expression_sound hform hleft) hrest
    · intro total p w u left d hd hdepth hleft h
      by_cases hu : p < u.peek.kind.precedence
      · obtain ⟨d, hinner, rfl⟩ := (stumbles_chain_succ hu).1 h
        rw [Diagnostic.problem_nested] at hd
        rw [Diagnostic.depth_nested] at hdepth
        have hdepth := Nat.lt_of_succ_lt_succ hdepth
        apply Completes.nested
        rcases hinner with hoperand | ⟨wider, x, hwider, hrest⟩
        · exact continuation_completes (hexpression hd hdepth) hleft hu hoperand
        · exact hchain hd hdepth (continuation_sound expression_sound hleft hu hwider) hrest
      · exact absurd h (stumbles_chain_end hu)

/-- What comes before the first problem of a program can be completed to a program. -/
theorem program_completes {config : Config} {levels : Nat} {w : Window} {d : Diagnostic}
    (hd : d.problem ≠ .nestedTooDeep) (hdepth : d.depth < levels)
    (h : (statementsUntil (· == .eof) (statement (expression { config } levels))).Stumbles w d) :
    Completes (FitsStatements config levels) w d :=
  statementsUntil_completes (Nat.zero_lt_of_lt hdepth)
    ((expression_chain_completes config levels).1 hd hdepth) rfl h

end MonkeyLang
