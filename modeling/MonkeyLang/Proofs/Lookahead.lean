import MonkeyLang.Proofs.ExactForms

/-!
# What is in sight

A form looks at the current token first, and at the token after it only then. It rejects the current
token before it has looked further, and it never moves on from a token at which a statement ends.
So a property of parses that speaks of what has been looked at, at the start and at the end, holds
of every form if the single steps have it and composition preserves it. Main statements:
`Lookahead.expression`, which leaves blocks open, and `StatementLookahead.expression`, which does
not.
-/

namespace MonkeyLang

/-- What of the two tokens in view has been looked at. -/
inductive Sight where
  /-- Neither of them. -/
  | fresh
  /-- The current one, which is of this kind. -/
  | on (kind : Kind)
  /-- Both of them. -/
  | ahead
  /-- Both of them, and the next one is of this kind. -/
  | before (kind : Kind)

namespace Sight

/-- How many tokens behind the current one have been looked at. -/
def reach : Sight → Nat
  | fresh | on _ => 0
  | ahead | before _ => 1

/-- The token that has been seen is of the kind that has been seen. -/
def Agrees (w : Window) : Sight → Prop
  | fresh | ahead => True
  | on k => w.current.kind = k
  | before k => w.peek.kind = k

end Sight

/-- A property of parses, given what has been looked at when they start and when they succeed, that
single steps have and composition preserves. -/
structure Lookahead (P : ∀ {α : Type}, Sight → Sight → Parse α → Prop) : Prop where
  stay : ∀ {α : Type} (s : Sight) (a : α), P s s (pure a : Parse α)
  andThen : ∀ {α β : Type} {s t u : Sight} {p : Parse α} {f : α → Parse β},
    P s t p → (∀ a, P t u (f a)) → P s u (p >>= f)
  look : ∀ {β : Type} {s : Sight} {f : Token → Parse β},
    (∀ t, P (.on t.kind) s (f t)) → P .fresh s (Parse.current >>= f)
  lookAgain : ∀ {β : Type} {k : Kind} {s : Sight} {f : Token → Parse β},
    (∀ t, P (.on k) s (f t)) → P (.on k) s (Parse.current >>= f)
  lookAhead : ∀ {β : Type} {s : Sight} {f : Token → Parse β},
    (∀ t, P (.before t.kind) s (f t)) → P .ahead s (Parse.peek >>= f)
  moveOn : P .ahead .fresh Parse.advance
  moveOnto : ∀ k, P (.before k) (.on k) Parse.advance
  rejectCurrent : ∀ {α : Type} (s : Sight) (problem : Problem),
    P .fresh s (Parse.reject .current problem : Parse α)
  rejectPeek : ∀ {α : Type} (s : Sight) (problem : Problem),
    P .ahead s (Parse.reject .peek problem : Parse α)
  nested : ∀ {α : Type} {s t : Sight} {p : Parse α}, P s t p → P s t (Parse.nested p)
  cons : ∀ {α : Type} {s t : Sight} (a : α) {p : Parse (List α)}, P s t p → P s t (Parse.cons a p)
  /-- What may be done without having looked may be done after a look at the current token. -/
  refresh : ∀ {α : Type} {k : Kind} {s : Sight} {p : Parse α}, P .fresh s p → P (.on k) s p
  /-- Behind a token at which no statement ends there is a token of the same statement. -/
  ahead : ∀ {α : Type} {k : Kind} {s : Sight} {p : Parse α},
    k ∉ Kind.closing → P .ahead s p → P (.on k) s p
  before : ∀ {α : Type} {k : Kind} {s : Sight} {p : Parse α}, P .ahead s p → P (.before k) s p
  seen : ∀ {α : Type} {k : Kind} {s : Sight} {p : Parse α},
    k ∉ Kind.closing → P s (.on k) p → P s .ahead p
  seenBefore : ∀ {α : Type} {k : Kind} {s : Sight} {p : Parse α},
    P s (.before k) p → P s .ahead p
  /-- A loop is what its rounds come to. -/
  limit : ∀ {α : Type} {s t : Sight} {q : Nat → Parse α} {p : Parse α},
    (∀ n, P s t (q n)) → (∀ w n, w.size ≤ n → (q n).run w = p.run w) → P s t p

namespace Lookahead

open Grammar

variable {P : ∀ {α : Type}, Sight → Sight → Parse α → Prop} (hP : Lookahead @P)

/-! ### Steps -/

include hP

theorem map {α β : Type} {s t : Sight} {p : Parse α} (f : α → β) (hp : P s t p) :
    P s t (f <$> p) := by
  rw [← bind_pure_comp]
  exact hP.andThen hp fun _ => hP.stay _ _

theorem current {k : Kind} : P (.on k) (.on k) Parse.current := by
  rw [← bind_pure Parse.current]
  exact hP.lookAgain fun _ => hP.stay _ _

theorem expect (k : Kind) : P .ahead (.on k) (Parse.expect k) := by
  refine hP.lookAhead fun t => ?_
  split
  · next h =>
    rw [h]
    exact hP.moveOnto k
  · exact hP.before (hP.rejectPeek _ _)

/-- Taking the next token if it is of a kind, with what follows in either case. -/
theorem take {β : Type} {k : Kind} {s : Sight} {f : Bool → Parse β} (htrue : P (.on k) s (f true))
    (hfalse : P .ahead s (f false)) : P .ahead s (liftM (Run.take k) >>= f) := by
  have h : (liftM (Run.take k) >>= f : Parse β) =
      Parse.peek >>= fun t =>
        if t.kind = k then Parse.advance >>= fun _ => f true else f false := by
    apply OptionT.ext
    funext w
    rw [Parse.bind_apply, Parse.bind_apply, Parse.lift_apply, Parse.peek_apply, Run.take_apply]
    by_cases hk : w.peek.kind = k
    · simp [hk, Parse.bind_apply, Parse.advance_apply]
    · simp [hk]
  rw [h]
  refine hP.lookAhead fun t => ?_
  split
  · next hk =>
    rw [hk]
    exact hP.andThen (hP.moveOnto k) fun _ => htrue
  · exact hP.before hfalse

theorem name : P (.on .ident) .ahead Grammar.name :=
  hP.lookAgain fun _ => hP.seen (by decide) (hP.stay _ _)

/-! ### Lists -/

theorem commaList {item : Parse Node} (hitem : P .ahead .ahead item) (hcomma : TakesComma item)
    {close : Kind} (hclose : close ∉ Kind.closing) :
    P .ahead .ahead (Grammar.commaList item close) := by
  have within (n : Nat) : P .ahead .ahead (itemsWithin item n) := by
    induction n with
    | zero => exact hP.stay _ _
    | succ n ih =>
      refine hP.lookAhead fun t => ?_
      split
      · next hcomma =>
        rw [hcomma]
        refine hP.andThen (hP.moveOnto _) fun _ => hP.ahead (by decide) ?_
        exact hP.andThen hitem fun _ => hP.cons _ ih
      · exact hP.seenBefore (hP.stay _ _)
  have hmore : P .ahead .ahead (moreItems item) :=
    hP.limit within fun w n hn => itemsWithin_eq hcomma hn
  refine hP.lookAhead fun t => ?_
  split
  · next hk =>
    rw [hk]
    exact hP.andThen (hP.moveOnto _) fun _ => hP.seen hclose (hP.stay _ _)
  · refine hP.before (hP.andThen hitem fun _ => hP.andThen hmore fun _ => ?_)
    exact hP.andThen (hP.expect _) fun _ => hP.seen hclose (hP.stay _ _)

theorem parameters : P .ahead .ahead Grammar.parameters :=
  hP.commaList (hP.andThen (hP.expect _) fun _ => hP.name) takesComma_parameter (by decide)

/-! ### Forms -/

section Forms

variable {operand : Operand} (hop : ∀ p, P .fresh .ahead (operand p))
  (hreads : ∀ p, Parse.Respects (fun w _ _ v => ∃ us, w.Reads us v) (operand p))

include hop

theorem binary {k : Kind} (hk : k ∉ Kind.closing) (left : Node) :
    P (.on k) .ahead (Grammar.binary operand left) := by
  refine hP.lookAgain fun t => hP.ahead hk ?_
  exact hP.andThen hP.moveOn fun _ => hP.andThen (hop _) fun _ => hP.stay _ _

include hreads in
theorem call {k : Kind} (hk : k ∉ Kind.closing) (callee : Node) :
    P (.on k) .ahead (Grammar.call operand callee) := by
  refine hP.lookAgain fun t => hP.ahead hk ?_
  have hargument : P .ahead .ahead (do Parse.advance; operand .lowest) :=
    hP.andThen hP.moveOn fun _ => hop _
  exact hP.andThen (hP.commaList hargument (takesComma_advance (hreads _)) (by decide)) fun _ =>
    hP.stay _ _

variable (hblock : P (.on .lbrace) .ahead (block operand))

include hblock in
theorem opening (config : Config) {form : Opening} {k : Kind} (hk : k ∉ Kind.closing) :
    P (.on k) .ahead (Grammar.opening config operand form) := by
  cases form with
  | name => exact hP.lookAgain fun _ => hP.seen hk (hP.stay _ _)
  | numeral =>
    refine hP.lookAgain fun t => ?_
    split
    · split
      · exact hP.seen hk (hP.stay _ _)
      · exact hP.refresh (hP.rejectCurrent _ _)
    · exact hP.refresh (hP.rejectCurrent _ _)
  | truth => exact hP.lookAgain fun _ => hP.seen hk (hP.stay _ _)
  | unary =>
    refine hP.lookAgain fun t => hP.ahead hk ?_
    exact hP.andThen hP.moveOn fun _ => hP.andThen (hop _) fun _ => hP.stay _ _
  | group =>
    refine hP.ahead hk (hP.andThen hP.moveOn fun _ => hP.andThen (hop _) fun _ => ?_)
    exact hP.andThen (hP.expect _) fun _ => hP.seen (by decide) (hP.stay _ _)
  | conditional =>
    refine hP.lookAgain fun t => hP.ahead hk ?_
    refine hP.andThen (hP.expect _) fun _ => hP.ahead (by decide) ?_
    refine hP.andThen hP.moveOn fun _ => hP.andThen (hop _) fun _ => ?_
    refine hP.andThen (hP.expect _) fun _ => hP.ahead (by decide) ?_
    refine hP.andThen (hP.expect _) fun _ => hP.andThen hblock fun _ => ?_
    refine hP.take (hP.ahead (by decide) ?_) (hP.stay _ _)
    refine hP.andThen (hP.expect _) fun _ => hP.andThen hblock fun _ => ?_
    exact hP.stay _ _
  | function =>
    refine hP.lookAgain fun t => hP.ahead hk ?_
    refine hP.andThen (hP.expect _) fun _ => hP.ahead (by decide) ?_
    refine hP.andThen hP.parameters fun _ => hP.andThen (hP.expect _) fun _ => ?_
    exact hP.andThen hblock fun _ => hP.stay _ _

end Forms

/-! ### Expressions -/

omit hP in
/-- By rules of which none starts an expression where a statement ends, expressions and chains of
operators have a property that grows weaker with each level, if blocks have it whose operands have
it at the level below. -/
theorem expression_chain_of_levels {Q : Nat → ∀ {α : Type}, Sight → Sight → Parse α → Prop}
    (hQ : ∀ levels, Lookahead fun s t p => Q levels s t p)
    (hmono : ∀ {levels : Nat} {α : Type} {s t : Sight} {p : Parse α},
      Q levels s t p → Q (levels + 1) s t p)
    (setup : Setup)
    (hrules : ∀ k form, setup.rules.opening? k = some form → k ∉ Kind.closing)
    (hblock : ∀ levels, (∀ p, Q levels .fresh .ahead (Grammar.expression setup levels p)) →
      Q (levels + 1) (.on .lbrace) .ahead (block (Grammar.expression setup levels)))
    (levels : Nat) :
    (∀ p, Q levels .fresh .ahead (Grammar.expression setup levels p)) ∧
      ∀ p left, Q levels .ahead .ahead (chain setup levels p left) := by
  have hreads (levels : Nat) := StepInvariant.reads.expression setup levels
  induction levels with
  | zero =>
    have hP := hQ 0
    constructor
    · intro p
      rw [Grammar.expression]
      exact hP.nested (hP.rejectCurrent _ _)
    · intro p left
      rw [chain, continuationAhead_rules_bind]
      refine hP.lookAhead fun t => ?_
      split
      · split
        · exact hP.seenBefore (hP.stay _ _)
        · exact hP.before (hP.nested (hP.rejectPeek _ _))
      · exact hP.seenBefore (hP.stay _ _)
  | succ levels ih =>
    have hP := hQ (levels + 1)
    have hexp (p : Precedence) := hmono (ih.1 p)
    have hchain (p : Precedence) (left : Node) := hmono (ih.2 p left)
    constructor
    · intro p
      rw [Grammar.expression]
      refine hP.nested (hP.look fun t => ?_)
      split
      · exact hP.refresh (hP.rejectCurrent _ _)
      · next form hform =>
        have hk := hrules _ _ hform
        exact hP.andThen (hP.opening hexp (hblock levels ih.1) setup.config hk) fun _ => hchain _ _
    · intro p left
      rw [chain, continuationAhead_rules_bind]
      refine hP.lookAhead fun t => ?_
      split
      · next hlt =>
        have hk := not_mem_closing_of_lt hlt
        split
        · exact hP.seenBefore (hP.stay _ _)
        · next form hform =>
          refine hP.nested (hP.andThen (hP.moveOnto _) fun _ => ?_)
          refine hP.andThen ?_ fun _ => hchain _ _
          cases form with
          | binary => exact hP.binary hexp hk _
          | call => exact hP.call hexp (hreads levels) hk _
      · exact hP.seenBefore (hP.stay _ _)

/-- Expressions and chains of operators at any number of levels have the property, if blocks have it
whose operands have it. -/
theorem expression_chain (config : Config)
    (hblock : ∀ levels, (∀ p, P .fresh .ahead (Grammar.expression { config } levels p)) →
      P (.on .lbrace) .ahead (block (Grammar.expression { config } levels))) (levels : Nat) :
    (∀ p, P .fresh .ahead (Grammar.expression { config } levels p)) ∧
      ∀ p left, P .ahead .ahead (chain { config } levels p left) :=
  expression_chain_of_levels (Q := fun _ => @P) (fun _ => hP) id { config }
    (fun _ _ => not_mem_closing_of_opening) hblock levels

theorem expression (config : Config)
    (hblock : ∀ levels, (∀ p, P .fresh .ahead (Grammar.expression { config } levels p)) →
      P (.on .lbrace) .ahead (block (Grammar.expression { config } levels))) (levels : Nat)
    (p : Precedence) : P .fresh .ahead (Grammar.expression { config } levels p) :=
  (hP.expression_chain config hblock levels).1 p

end Lookahead

/-! ### Statements and blocks -/

/-- A statement, given up if it fails, and the move behind it. -/
def Parse.round {α : Type} (p : Parse α) : Parse (Option α) := do
  let found ← (liftM (recover p) : Parse (Option α))
  advance
  pure found

theorem Parse.round_apply {α : Type} (p : Parse α) (w : Window) :
    (round p).run w = ⟨some (p.run w).value, (p.run w).window.advance,
      (recover p w).trace ++ [.took (p.run w).window.advance.peek]⟩ := by
  simp [round, bind_apply, lift_apply, advance_apply, Run.map_apply, recover_value,
    recover_window]

/-- A property that also does not depend on whether a semicolon is taken behind a statement. -/
structure TerminatedLookahead (P : ∀ {α : Type}, Sight → Sight → Parse α → Prop) : Prop
    extends Lookahead @P where
  terminated : ∀ {α : Type} {s : Sight} {p : Parse α},
    P s .ahead p → P s .ahead (Parse.terminated p)
  forget : ∀ {α : Type} {k : Kind} {s : Sight} {p : Parse α}, P s (.on k) p → P s .fresh p
  /-- Only the end is not looked beyond. -/
  seenAny : ∀ {α : Type} {k : Kind} {s : Sight} {p : Parse α},
    k ≠ .eof → P s (.on k) p → P s .ahead p

/-- A property that also does not depend on whether statements are given up. -/
structure StatementLookahead (P : ∀ {α : Type}, Sight → Sight → Parse α → Prop) : Prop
    extends TerminatedLookahead @P where
  round : ∀ {α : Type} {p : Parse α}, P .fresh .ahead p → P .fresh .fresh (Parse.round p)

namespace TerminatedLookahead

open Grammar

variable {P : ∀ {α : Type}, Sight → Sight → Parse α → Prop} (hP : TerminatedLookahead @P)

/-- A round of the loop over statements, as a parse that does not fail. -/
private theorem lift_statementsWithin (stop : Kind → Bool) (p : Parse (Option Node)) (n : Nat) :
    (liftM (statementsWithin stop p (n + 1)) : Parse (List Node)) =
      Parse.current >>= fun t =>
        if stop t.kind then pure []
        else
          Parse.round p >>= fun found =>
            (liftM (statementsWithin stop p n) : Parse _) >>= fun more =>
              pure (found.join.toList ++ more) := by
  apply OptionT.ext
  funext w
  rw [Parse.lift_apply, Parse.bind_apply, Parse.current_apply]
  cases hw : stop w.current.kind with
  | true => simp [statementsWithin_stop hw, hw, Parse.pure_apply]
  | false =>
    simp only [statementsWithin_next hw, followedBy, Parse.recover_value, Parse.recover_window, hw,
      Bool.false_eq_true, if_false, bind_pure_comp, Parse.bind_apply, Parse.round_apply,
      OptionT.run_map, Run.map_apply, Parse.lift_apply, Option.map_some, List.append_assoc,
      List.cons_append, List.nil_append]

section Forms

variable {operand : Operand}

include hP

theorem statement (hop : ∀ p, P .fresh .ahead (operand p)) :
    P .fresh .ahead (Grammar.statement operand) := by
  refine hP.look fun t => ?_
  split
  · next hlet =>
    rw [hlet]
    refine hP.map _ (hP.lookAgain fun _ => hP.ahead (by decide) ?_)
    refine hP.andThen (hP.expect _) fun _ => hP.andThen hP.name fun _ => ?_
    refine hP.andThen (hP.expect _) fun _ => hP.ahead (by decide) ?_
    refine hP.andThen hP.moveOn fun _ => ?_
    exact hP.andThen (hP.terminated (hop _)) fun _ => hP.stay _ _
  · next hreturn =>
    rw [hreturn]
    refine hP.map _ (hP.lookAgain fun _ => hP.ahead (by decide) ?_)
    refine hP.andThen hP.moveOn fun _ => ?_
    exact hP.andThen (hP.terminated (hop _)) fun _ => hP.stay _ _
  · next hsemi => exact hP.seenAny (by simp [hsemi]) (hP.stay _ _)
  · refine hP.map _ (hP.lookAgain fun _ => hP.refresh ?_)
    exact hP.andThen (hP.terminated (hop _)) fun _ => hP.stay _ _

variable (hround : ∀ k, k ≠ .eof → P (.on k) .fresh (Parse.round (Grammar.statement operand)))
  (hreads : ∀ p, Parse.Respects (fun w _ _ v => ∃ us, w.Reads us v) (operand p))

include hround hreads

theorem statementsUntil {stop : Kind → Bool} (hstop : stop .eof = true) :
    P .fresh .fresh (liftM (Grammar.statementsUntil stop (Grammar.statement operand)) :
      Parse (List Node)) := by
  have hstatement := StepInvariant.reads.statement hreads
  have within (n : Nat) : P .fresh .fresh
      (liftM (statementsWithin stop (Grammar.statement operand) n) : Parse (List Node)) := by
    induction n with
    | zero => exact hP.stay _ _
    | succ n ih =>
      rw [lift_statementsWithin]
      refine hP.look fun t => ?_
      split
      · exact hP.forget (hP.stay _ _)
      · next hgo =>
        have hne : t.kind ≠ .eof := fun he => hgo (by rw [he, hstop])
        refine hP.andThen (hround _ hne) fun _ => ?_
        exact hP.andThen ih fun _ => hP.stay _ _
  refine hP.limit within fun w n hn => ?_
  rw [Parse.lift_apply, Parse.lift_apply, statementsWithin_eq hstop hstatement hn]

theorem block : P (.on .lbrace) .ahead (Grammar.block operand) := by
  refine hP.lookAgain fun _ => hP.ahead (by decide) (hP.andThen hP.moveOn fun _ => ?_)
  refine hP.andThen (hP.statementsUntil hround hreads (by decide)) fun _ => hP.look fun t => ?_
  split
  · next hk => exact hP.seenAny (by simp [hk]) (hP.stay _ _)
  · exact hP.refresh (hP.rejectCurrent _ _)

end Forms

end TerminatedLookahead

namespace StatementLookahead

open Grammar

variable {P : ∀ {α : Type}, Sight → Sight → Parse α → Prop} (hP : StatementLookahead @P)

include hP

theorem expression (config : Config) (levels : Nat) (p : Precedence) :
    P .fresh .ahead (Grammar.expression { config } levels p) :=
  hP.toLookahead.expression config (fun levels hexp =>
    hP.block (fun _ _ => hP.refresh (hP.round (hP.statement hexp)))
      (StepInvariant.reads.expression { config } levels)) levels p

/-- The statements of a whole program. -/
theorem statements (config : Config) (levels : Nat) :
    P .fresh .fresh (liftM (Grammar.statementsUntil (· == .eof)
      (Grammar.statement (Grammar.expression { config } levels))) : Parse (List Node)) :=
  hP.statementsUntil
    (fun _ _ => hP.refresh (hP.round (hP.statement (hP.expression config levels))))
    (StepInvariant.reads.expression { config } levels) rfl

end StatementLookahead

end MonkeyLang
