import MonkeyLang.Parsing.Program
import MonkeyLang.Proofs.Results

/-!
# Looser limits

A parse is limited in two ways: numerals must fit a width, and expressions nest only so deep. Each
limit is only ever looked at to reject a token, so a run that finds no problem goes the same way
under any wider width and from any lower count of levels. One run is loosened by another if the
other does the same wherever the first finds no problem; every combinator and every form keeps that
of its parts. Main statements: `expression_chain_loosenedBy`, by induction on the levels, and
`answer_withLimits`.
-/

namespace MonkeyLang

open Grammar
open Parse (current peek advance expect)

variable {α β : Type}

/-! ### Loosened runs -/

/-- Where the first run finds no problem, the second one does the same. -/
def Run.LoosenedBy (x y : Run α) : Prop := ∀ w, Quiet (x w).trace → y w = x w

/-- Where the first parse finds no problem, the second one does the same. -/
def Parse.LoosenedBy (p q : Parse α) : Prop := Run.LoosenedBy p.run q.run

namespace Run.LoosenedBy

theorem refl (x : Run α) : LoosenedBy x x := fun _ _ => rfl

theorem bind {x y : Run α} {f g : α → Run β} (h : LoosenedBy x y)
    (hfg : ∀ a, LoosenedBy (f a) (g a)) : LoosenedBy (x >>= f) (y >>= g) := by
  intro w hquiet
  obtain ⟨hx, hf⟩ := Benign.append.1 hquiet
  rw [bind_apply, bind_apply, h w hx, hfg _ _ hf]

/-- Behind one and the same run, what follows it decides. -/
theorem after (x : Run α) {f g : α → Run β} (hfg : ∀ a, LoosenedBy (f a) (g a)) :
    LoosenedBy (x >>= f) (x >>= g) :=
  (refl x).bind hfg

theorem map {x y : Run α} {f : α → β} (h : LoosenedBy x y) : LoosenedBy (f <$> x) (f <$> y) := by
  intro w hquiet
  rw [map_apply, map_apply, h w hquiet]

end Run.LoosenedBy

namespace Parse.LoosenedBy

variable {p q : Parse α}

theorem refl (p : Parse α) : LoosenedBy p p := Run.LoosenedBy.refl _

/-- What a parse that rejects a token is loosened by is free, since it always finds a problem. -/
theorem reject (spot : Spot) (problem : Problem) (q : Parse α) :
    LoosenedBy (Parse.reject spot problem) q := by
  intro w hquiet
  cases hquiet

theorem nested_reject (spot : Spot) (problem : Problem) (q : Parse α) :
    LoosenedBy (Parse.nested (Parse.reject spot problem)) q := by
  intro w hquiet
  cases hquiet

theorem bind {f g : α → Parse β} (h : LoosenedBy p q) (hfg : ∀ a, LoosenedBy (f a) (g a)) :
    LoosenedBy (p >>= f) (q >>= g) := by
  intro w hquiet
  rw [bind_apply] at hquiet
  rw [bind_apply, bind_apply]
  cases hp : (p.run w).value with
  | none =>
    rw [hp] at hquiet
    rw [h w hquiet, hp]
  | some a =>
    rw [hp] at hquiet
    obtain ⟨hquiet, hmore⟩ := Benign.append.1 hquiet
    rw [h w hquiet, hp]
    dsimp only
    rw [hfg a _ hmore]

/-- Behind one and the same parse, what follows it decides. -/
theorem after (p : Parse α) {f g : α → Parse β} (hfg : ∀ a, LoosenedBy (f a) (g a)) :
    LoosenedBy (p >>= f) (p >>= g) :=
  (refl p).bind hfg

theorem map {f : α → β} (h : LoosenedBy p q) : LoosenedBy (f <$> p) (f <$> q) := by
  intro w hquiet
  rw [map_apply] at hquiet
  rw [map_apply, map_apply, h w hquiet]

theorem cons {a : α} {p q : Parse (List α)} (h : LoosenedBy p q) :
    LoosenedBy (Parse.cons a p) (Parse.cons a q) := by
  intro w hquiet
  rw [cons_apply, cons_apply, h w hquiet]

theorem lift {x y : Run α} (h : Run.LoosenedBy x y) :
    LoosenedBy (liftM x : Parse α) (liftM y) := by
  intro w hquiet
  rw [lift_apply] at hquiet
  rw [lift_apply, lift_apply, h w hquiet]

/-- Counting a level changes no more of a trace than the depths of its diagnostics. -/
theorem nested (h : LoosenedBy p q) : LoosenedBy (Parse.nested p) (Parse.nested q) := by
  intro w hquiet
  rw [nested_apply, nested_apply, h w (Benign.nested.1 hquiet)]

theorem terminated (h : LoosenedBy p q) :
    LoosenedBy (Parse.terminated p) (Parse.terminated q) := by
  intro w hquiet
  rw [terminated_apply] at hquiet
  rw [terminated_apply, terminated_apply, h w (Benign.append.1 hquiet).1]

theorem recover (h : LoosenedBy p q) :
    Run.LoosenedBy (Parse.recover p) (Parse.recover q) := by
  intro w hquiet
  have hp : Quiet (p.run w).trace := by
    rw [recover_apply] at hquiet
    split at hquiet
    · exact hquiet
    · exact (Benign.append.1 hquiet).1
  rw [recover_apply, recover_apply, h w hp]

end Parse.LoosenedBy

/-! ### Sequences -/

namespace Grammar

theorem statementsUntil_loosenedBy {p q : Parse (Option Node)} (h : p.LoosenedBy q)
    (stop : Kind → Bool) :
    Run.LoosenedBy (statementsUntil stop p) (statementsUntil stop q) := by
  have within (n : Nat) :
      Run.LoosenedBy (statementsWithin stop p n) (statementsWithin stop q n) := by
    induction n with
    | zero => exact .refl _
    | succ n ih =>
      apply Run.LoosenedBy.after Run.current
      intro t
      split
      · exact .refl _
      · apply h.recover.bind
        intro found
        apply Run.LoosenedBy.after Run.advance
        intro _
        exact ih.map
  -- both loops are bounded by the tokens left in the same window
  exact fun w => within w.size w

theorem commaList_loosenedBy {item item' : Parse Node} (h : item.LoosenedBy item') (close : Kind) :
    (commaList item close).LoosenedBy (commaList item' close) := by
  have within (n : Nat) : (itemsWithin item n).LoosenedBy (itemsWithin item' n) := by
    induction n with
    | zero => exact .refl _
    | succ n ih =>
      apply Parse.LoosenedBy.after peek
      intro t
      split
      · apply Parse.LoosenedBy.after advance
        intro _
        apply h.bind
        intro first
        exact ih.cons
      · exact .refl _
  have hmore : (moreItems item).LoosenedBy (moreItems item') := fun w => within w.size w
  apply Parse.LoosenedBy.after peek
  intro t
  split
  · exact .refl _
  · apply h.bind
    intro first
    apply hmore.bind
    intro more
    exact .refl _

/-! ### Forms -/

section Forms

variable {operand operand' : Operand} (hop : ∀ p, (operand p).LoosenedBy (operand' p))

include hop

theorem letStatement_loosenedBy : (letStatement operand).LoosenedBy (letStatement operand') := by
  apply Parse.LoosenedBy.after current
  intro t
  apply Parse.LoosenedBy.after (expect .ident)
  intro _
  apply Parse.LoosenedBy.after name
  intro bound
  apply Parse.LoosenedBy.after (expect .assign)
  intro _
  apply Parse.LoosenedBy.after advance
  intro _
  apply (hop .lowest).terminated.bind
  intro value
  exact .refl _

theorem returnStatement_loosenedBy :
    (returnStatement operand).LoosenedBy (returnStatement operand') := by
  apply Parse.LoosenedBy.after current
  intro t
  apply Parse.LoosenedBy.after advance
  intro _
  apply (hop .lowest).terminated.bind
  intro value
  exact .refl _

theorem expressionStatement_loosenedBy :
    (expressionStatement operand).LoosenedBy (expressionStatement operand') := by
  apply Parse.LoosenedBy.after current
  intro t
  apply (hop .lowest).terminated.bind
  intro e
  exact .refl _

theorem statement_loosenedBy : (statement operand).LoosenedBy (statement operand') := by
  apply Parse.LoosenedBy.after current
  intro t
  split
  · exact (letStatement_loosenedBy hop).map
  · exact (returnStatement_loosenedBy hop).map
  · exact .refl _
  · exact (expressionStatement_loosenedBy hop).map

theorem block_loosenedBy : (block operand).LoosenedBy (block operand') := by
  have hstatements := statementsUntil_loosenedBy (statement_loosenedBy hop)
    fun k => k == .rbrace || k == .eof
  apply Parse.LoosenedBy.after current
  intro t
  apply Parse.LoosenedBy.after advance
  intro _
  apply (Parse.LoosenedBy.lift hstatements).bind
  intro statements
  exact .refl _

theorem arguments_loosenedBy (close : Kind) :
    (arguments operand close).LoosenedBy (arguments operand' close) := by
  apply commaList_loosenedBy
  apply Parse.LoosenedBy.after advance
  intro _
  exact hop .lowest

omit hop in
/-- A numeral that fits a width fits every wider one. -/
theorem numeral_loosenedBy {config config' : Config} (h : config.intBits ≤ config'.intBits) :
    (numeral config).LoosenedBy (numeral config') := by
  apply Parse.LoosenedBy.after current
  intro t
  split
  · next n _ =>
    cases hn : config.admits n with
    | false => exact .reject _ _ _
    | true =>
      have hmax : config.maxInt ≤ config'.maxInt :=
        Nat.sub_le_sub_right (Nat.pow_le_pow_right Nat.two_pos (Nat.sub_le_sub_right h 1)) 1
      have hn' : config'.admits n = true := by
        rw [Config.admits_iff] at hn ⊢
        omega
      rw [if_pos rfl, if_pos hn']
      exact .refl _
  · exact .refl _

theorem conditional_loosenedBy : (conditional operand).LoosenedBy (conditional operand') := by
  have hblock := block_loosenedBy hop
  apply Parse.LoosenedBy.after current
  intro t
  apply Parse.LoosenedBy.after (expect .lparen)
  intro _
  apply Parse.LoosenedBy.after advance
  intro _
  apply (hop .lowest).bind
  intro condition
  apply Parse.LoosenedBy.after (expect .rparen)
  intro _
  apply Parse.LoosenedBy.after (expect .lbrace)
  intro _
  apply hblock.bind
  intro consequence
  apply Parse.LoosenedBy.after
  intro another
  split
  · apply Parse.LoosenedBy.after (expect .lbrace)
    intro _
    apply hblock.bind
    intro alternative
    exact .refl _
  · exact .refl _

theorem function_loosenedBy : (function operand).LoosenedBy (function operand') := by
  apply Parse.LoosenedBy.after current
  intro t
  apply Parse.LoosenedBy.after (expect .lparen)
  intro _
  apply Parse.LoosenedBy.after parameters
  intro ps
  apply Parse.LoosenedBy.after (expect .lbrace)
  intro _
  apply (block_loosenedBy hop).bind
  intro body
  exact .refl _

theorem opening_loosenedBy {config config' : Config} (h : config.intBits ≤ config'.intBits)
    (form : Opening) :
    (opening config operand form).LoosenedBy (opening config' operand' form) := by
  cases form with
  | name => exact .refl _
  | numeral => exact numeral_loosenedBy h
  | truth => exact .refl _
  | unary =>
    apply Parse.LoosenedBy.after current
    intro t
    apply Parse.LoosenedBy.after advance
    intro _
    apply (hop .unary).bind
    intro right
    exact .refl _
  | group =>
    apply Parse.LoosenedBy.after advance
    intro _
    apply (hop .lowest).bind
    intro inner
    exact .refl _
  | conditional => exact conditional_loosenedBy hop
  | function => exact function_loosenedBy hop

theorem continuation_loosenedBy (left : Node) (form : Continuation) :
    (continuation operand left form).LoosenedBy (continuation operand' left form) := by
  cases form with
  | binary =>
    apply Parse.LoosenedBy.after current
    intro t
    apply Parse.LoosenedBy.after advance
    intro _
    apply (hop t.kind.precedence).bind
    intro right
    exact .refl _
  | call =>
    apply Parse.LoosenedBy.after current
    intro t
    apply (arguments_loosenedBy hop .rparen).bind
    intro ns
    exact .refl _

end Forms

/-! ### Expressions -/

/-- Expressions together with chains of operators are loosened by more levels and wider integers.
-/
theorem expression_chain_loosenedBy {config config' : Config} (rules : Rules)
    (h : config.intBits ≤ config'.intBits) {levels levels' : Nat} (hle : levels ≤ levels') :
    (∀ p, (expression ⟨config, rules⟩ levels p).LoosenedBy
        (expression ⟨config', rules⟩ levels' p)) ∧
      ∀ p left, (chain ⟨config, rules⟩ levels p left).LoosenedBy
        (chain ⟨config', rules⟩ levels' p left) := by
  induction levels generalizing levels' with
  | zero =>
    constructor
    · intro p
      rw [expression]
      exact .nested_reject _ _ _
    · intro p left
      cases levels' <;>
      · rw [chain, chain]
        apply Parse.LoosenedBy.after
        intro rule
        split
        · exact .refl _
        · exact .nested_reject _ _ _
  | succ levels ih =>
    cases levels' with
    | zero => cases hle
    | succ levels' =>
      obtain ⟨hexpression, hchain⟩ := ih (Nat.le_of_succ_le_succ hle)
      constructor
      · intro p
        rw [expression, expression]
        apply Parse.LoosenedBy.nested
        apply Parse.LoosenedBy.after current
        intro t
        dsimp only
        split
        · exact .refl _
        · next form _ =>
          apply (opening_loosenedBy hexpression h form).bind
          intro left
          exact hchain p left
      · intro p left
        rw [chain, chain]
        apply Parse.LoosenedBy.after
        intro rule
        split
        · exact .refl _
        · next form =>
          apply Parse.LoosenedBy.nested
          apply Parse.LoosenedBy.after advance
          intro _
          apply (continuation_loosenedBy hexpression left form).bind
          intro wider
          exact hchain p wider

theorem program_loosenedBy {config config' : Config} (rules : Rules)
    (h : config.intBits ≤ config'.intBits) {levels levels' : Nat} (hle : levels ≤ levels') :
    Run.LoosenedBy (program ⟨config, rules⟩ levels) (program ⟨config', rules⟩ levels') := by
  have hexpression := (expression_chain_loosenedBy rules h hle).1
  apply (statementsUntil_loosenedBy (statement_loosenedBy hexpression) (· == .eof)).bind
  intro statements
  exact .refl _

end Grammar

/-! ### Sessions -/

namespace Session

/-- The session under other settings and with another count of levels in use. -/
def withLimits (s : Session) (config : Config) (depth : Nat) : Session :=
  { s with setup.config := config, depth }

/-- A run that adds no diagnostic to a session is the same run under looser limits. -/
theorem perform_withLimits (s : Session) (config : Config) (depth : Nat) {x y : Run α}
    (hxy : x.LoosenedBy y) (h : (s.perform x).2.diagnostics = s.diagnostics) :
    (s.withLimits config depth).perform y =
      ((s.perform x).1, (s.perform x).2.withLimits config depth) := by
  have hquiet : Quiet (x s.window).trace := List.append_right_eq_self.1 h
  have hy : y s.window = x s.window := hxy _ hquiet
  simp only [perform, withLimits, hy]

section Quiet

variable {s : Session} {config : Config} {depth : Nat}

theorem parseForm_withLimits {p q : Parse Node} (hpq : p.LoosenedBy q)
    (h : (s.parseForm p).2.diagnostics = s.diagnostics) :
    (s.withLimits config depth).parseForm q =
      ((s.parseForm p).1, (s.parseForm p).2.withLimits config depth) := by
  rw [parseForm, perform_withLimits s config depth hpq h]
  rfl

theorem parseForms_withLimits {p q : Parse (List Node)} (hpq : p.LoosenedBy q)
    (h : (s.parseForms p).2.diagnostics = s.diagnostics) :
    (s.withLimits config depth).parseForms q =
      ((s.parseForms p).1, (s.parseForms p).2.withLimits config depth) := by
  rw [parseForms, perform_withLimits s config depth hpq h]
  rfl

variable (hbits : s.setup.config.intBits ≤ config.intBits) (hdepth : depth ≤ s.depth)

include hbits hdepth

theorem operand_loosenedBy (p : Precedence) :
    (s.operand p).LoosenedBy ((s.withLimits config depth).operand p) :=
  (expression_chain_loosenedBy s.setup.rules hbits (Nat.sub_le_sub_left hdepth maxNesting)).1 p

theorem parse_withLimits (h : s.parse.2.diagnostics = s.diagnostics) :
    (s.withLimits config depth).parse = (s.parse.1, s.parse.2.withLimits config depth) := by
  have hprogram := program_loosenedBy s.setup.rules hbits (Nat.sub_le_sub_left hdepth maxNesting)
  have hrun : ((s.withLimits config depth).record .parseStarted).perform
      (Grammar.program (s.withLimits config depth).setup
        (maxNesting - (s.withLimits config depth).depth)) = _ :=
    perform_withLimits (s.record .parseStarted) config depth hprogram h
  rw [parse, hrun]
  rfl

/-- A call that adds no diagnostic gives the same reply under looser limits and leaves the session
in the same state, but for the levels in use. -/
theorem exists_answer_withLimits (c : Call) (h : (s.answer c).2.diagnostics = s.diagnostics) :
    ∃ depth', (s.withLimits config depth).answer c =
      ((s.answer c).1, (s.answer c).2.withLimits config depth') := by
  have hop := operand_loosenedBy (s := s) hbits hdepth
  cases c with
  | enterNesting =>
    by_cases hs : s.depth + 1 ≤ maxNesting
    · have hlevels : depth + 1 ≤ maxNesting := by omega
      refine ⟨depth + 1, ?_⟩
      simp only [answer, if_pos hs]
      exact if_pos hlevels
    · -- past the limit the call notes a problem
      simp only [answer, if_neg hs] at h
      exact absurd (List.append_right_eq_self.1 h) (List.cons_ne_nil _ _)
  | advance | notePeek _ | noteNoExpression | remark _ =>
    have hrun := perform_withLimits s config depth (.refl _) h
    exact ⟨depth, congrArg (fun r => (Reply.done, r.2)) hrun⟩
  | expect kind =>
    have hrun := perform_withLimits s config depth (Parse.LoosenedBy.refl (Parse.expect kind)) h
    exact ⟨depth, by rw [answer, hrun]; rfl⟩
  | currentIs _ | peekIs _ | currentPrecedence | peekPrecedence | messages | diagnostics
  | dropOpening _ | dropContinuation _ => exact ⟨depth, rfl⟩
  | program => exact ⟨depth, by rw [answer, parse_withLimits hbits hdepth h]; rfl⟩
  | statement =>
    have hrun := perform_withLimits s config depth (statement_loosenedBy hop) h
    exact ⟨depth, by rw [answer, hrun]; rfl⟩
  | letStatement => exact ⟨depth, parseForm_withLimits (letStatement_loosenedBy hop) h⟩
  | returnStatement => exact ⟨depth, parseForm_withLimits (returnStatement_loosenedBy hop) h⟩
  | expressionStatement =>
    exact ⟨depth, parseForm_withLimits (expressionStatement_loosenedBy hop) h⟩
  | block => exact ⟨depth, parseForm_withLimits (block_loosenedBy hop) h⟩
  | expression p => exact ⟨depth, parseForm_withLimits (hop p) h⟩
  | opening form => exact ⟨depth, parseForm_withLimits (opening_loosenedBy hop hbits form) h⟩
  | binary left => exact ⟨depth, parseForm_withLimits (continuation_loosenedBy hop left .binary) h⟩
  | call callee => exact ⟨depth, parseForm_withLimits (continuation_loosenedBy hop callee .call) h⟩
  | parameters => exact ⟨depth, parseForms_withLimits (.refl _) h⟩
  | arguments close => exact ⟨depth, parseForms_withLimits (arguments_loosenedBy hop close) h⟩

end Quiet

end Session

/-- Any call of a session that records no diagnostic gives the same reply, moves to the same tokens
and records no diagnostic under a wider width of integers and from fewer levels in use. So a source
that parses without a diagnostic parses to the same program under every wider width. -/
theorem answer_withLimits :
    (∀ (s : Session) (c : Call) (config : Config) (depth : Nat),
      s.setup.config.intBits ≤ config.intBits → depth ≤ s.depth →
      (s.answer c).2.diagnostics = s.diagnostics →
        ((s.withLimits config depth).answer c).1 = (s.answer c).1 ∧
          ((s.withLimits config depth).answer c).2.window = (s.answer c).2.window ∧
          ((s.withLimits config depth).answer c).2.diagnostics = s.diagnostics) ∧
    ∀ (rules : Rules) (config config' : Config) (source : Source),
      config.intBits ≤ config'.intBits → (parse ⟨config, rules⟩ source).diagnostics = [] →
        (parse ⟨config', rules⟩ source).program = (parse ⟨config, rules⟩ source).program ∧
          (parse ⟨config', rules⟩ source).diagnostics = [] := by
  constructor
  · intro s c config depth hbits hdepth hquiet
    obtain ⟨depth', hanswer⟩ := Session.exists_answer_withLimits hbits hdepth c hquiet
    rw [hanswer]
    exact ⟨rfl, rfl, hquiet⟩
  · intro rules config config' source hbits hclean
    have hparse : (Session.withLimits (.start ⟨config, rules⟩ source) config' 0).parse = _ :=
      Session.parse_withLimits hbits (Nat.le_refl 0) hclean
    constructor
    · exact congrArg Prod.fst hparse
    · exact (congrArg (fun r => r.2.diagnostics) hparse).trans hclean

/-- A sum that a width of four bits admits just so, read with ten levels left. -/
theorem answer_withLimits_sum :
    let config : Config := ⟨4, false, by decide⟩
    let s : Session := ⟨{ config }, .ofSource (.ofText "7 + a"), 90, [], []⟩
    (s.answer (.expression .lowest)).2.diagnostics = [] ∧
      ((s.withLimits {} 0).answer (.expression .lowest)).1 =
        (s.answer (.expression .lowest)).1 ∧
      ((s.withLimits {} 0).answer (.expression .lowest)).2.diagnostics = [] ∧
      (parse { config } (.ofText "7 + a")).diagnostics = [] ∧
      (parse {} (.ofText "7 + a")).program = (parse { config } (.ofText "7 + a")).program := by
  intro config s
  have hanswer : (s.answer (.expression .lowest)).2.diagnostics = [] := by decide +kernel
  have hparse : (parse { config } (.ofText "7 + a")).diagnostics = [] := by decide +kernel
  obtain ⟨hcalls, hparses⟩ := answer_withLimits
  have hlooser := hcalls s (.expression .lowest) {} 0 (by decide) (by decide) hanswer
  exact ⟨hanswer, hlooser.1, hlooser.2.2, hparse, (hparses {} _ {} _ (by decide) hparse).1⟩

end MonkeyLang
