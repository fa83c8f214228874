import MonkeyLang.Proofs.ExactForms

/-!
# First problems

A run stumbles at the first diagnostic that it leaves. What comes before that is a quiet run, so a
composite form stumbles where its first part stumbles, or leads quietly to where another part does;
each form of the grammar has one equation that says which. A run that stumbles need not fail, since
blocks go on after a statement that is given up.
-/

namespace MonkeyLang

variable {α β : Type}

/-- The first problem that the run from `w` finds is `d`. -/
def Run.Stumbles (x : Run α) (w : Window) (d : Diagnostic) : Prop :=
  (Event.diagnostics (x w).trace).head? = some d

/-- The first problem that the parse from `w` finds is `d`. -/
def Parse.Stumbles (p : Parse α) (w : Window) (d : Diagnostic) : Prop :=
  Run.Stumbles p.run w d

namespace Parse

variable {w : Window} {d : Diagnostic}

@[simp] theorem stumbles_pure {a : α} : ¬ Stumbles (pure a) w d := by
  simp [Stumbles, Run.Stumbles, pure_apply]

/-- The second part is reached if the first one succeeds without a problem. -/
theorem stumbles_bind {p : Parse α} {f : α → Parse β} :
    Stumbles (p >>= f) w d ↔
      p.Stumbles w d ∨ ∃ a u, p.Leads Quiet w a u ∧ (f a).Stumbles u d := by
  simp only [Stumbles, Run.Stumbles, Leads, Run.Leads, Quiet, bind_apply]
  cases hd : Event.diagnostics (p.run w).trace with
  | nil =>
    cases ho : (p.run w).value with
    | none => simp [hd]
    | some a =>
      simp only [Event.diagnostics_append, hd, List.nil_append, List.head?_nil, reduceCtorEq,
        false_or, Option.some.injEq, and_true]
      constructor
      · intro h
        exact ⟨a, _, ⟨rfl, rfl⟩, h⟩
      · rintro ⟨_, _, ⟨rfl, rfl⟩, h⟩
        exact h
  | cons e ds =>
    cases ho : (p.run w).value with
    | none => simp [hd]
    | some a => simp [hd]

@[simp] theorem stumbles_map {p : Parse α} {f : α → β} :
    Stumbles (f <$> p) w d ↔ p.Stumbles w d := by
  simp [Stumbles, Run.Stumbles, map_apply]

@[simp] theorem stumbles_lift {x : Run α} : Stumbles (liftM x) w d ↔ x.Stumbles w d := by
  simp [Stumbles, Run.Stumbles, lift_apply]

@[simp] theorem stumbles_reject {spot : Spot} {problem : Problem} :
    Stumbles (reject spot problem : Parse α) w d ↔ d = w.blame spot problem := by
  simp [Stumbles, Run.Stumbles, reject_apply, eq_comm]

@[simp] theorem stumbles_cons {a : α} {p : Parse (List α)} :
    Stumbles (cons a p) w d ↔ p.Stumbles w d := by
  simp [Stumbles, Run.Stumbles, cons_apply]

@[simp] theorem stumbles_nested {p : Parse α} :
    Stumbles (nested p) w d ↔ ∃ d', p.Stumbles w d' ∧ d'.nested = d := by
  simp [Stumbles, Run.Stumbles, nested_apply]

@[simp] theorem stumbles_terminated {p : Parse α} :
    Stumbles (terminated p) w d ↔ p.Stumbles w d := by
  simp [Stumbles, Run.Stumbles, terminated_apply, Run.diagnostics_take]

@[simp] theorem stumbles_recover {p : Parse α} :
    Run.Stumbles (recover p) w d ↔ p.Stumbles w d := by
  rw [Run.Stumbles, recover_apply]
  cases ho : (p.run w).value <;> simp [Stumbles, Run.Stumbles]

theorem stumbles_congr {p q : Parse α} (h : p.run w = q.run w) :
    p.Stumbles w d ↔ q.Stumbles w d := by
  simp only [Stumbles, Run.Stumbles, h]

/-! Of the single steps only a rejection finds a problem. -/

@[simp] theorem stumbles_current : ¬ Stumbles current w d := by
  simp [Stumbles, Run.Stumbles, current_apply]

@[simp] theorem stumbles_advance : ¬ Stumbles advance w d := by
  simp [Stumbles, Run.Stumbles, advance_apply]

@[simp high] theorem stumbles_current_bind {f : Token → Parse β} :
    Stumbles (current >>= f) w d ↔ (f w.current).Stumbles w d := by
  simp [Stumbles, Run.Stumbles, bind_apply, current_apply]

@[simp high] theorem stumbles_peek_bind {f : Token → Parse β} :
    Stumbles (peek >>= f) w d ↔ (f w.peek).Stumbles w d := by
  simp [Stumbles, Run.Stumbles, bind_apply, peek_apply]

@[simp high] theorem stumbles_advance_bind {f : Unit → Parse β} :
    Stumbles (advance >>= f) w d ↔ (f ()).Stumbles w.advance d := by
  simp [Stumbles, Run.Stumbles, bind_apply, advance_apply]

@[simp] theorem stumbles_expect {kind : Kind} :
    Stumbles (expect kind) w d ↔ w.peek.kind ≠ kind ∧ d = w.blame .peek (.expected kind) := by
  simp only [Stumbles, Run.Stumbles, expect_apply]
  split <;> simp_all [eq_comm]

@[simp high] theorem stumbles_expect_bind {kind : Kind} {f : Unit → Parse β} :
    Stumbles (expect kind >>= f) w d ↔
      w.peek.kind ≠ kind ∧ d = w.blame .peek (.expected kind) ∨
        w.peek.kind = kind ∧ (f ()).Stumbles w.advance d := by
  rw [stumbles_bind, stumbles_expect]
  simp only [leads_expect]
  constructor
  · rintro (h | ⟨_, _, ⟨hk, rfl⟩, h⟩)
    · exact .inl h
    · exact .inr ⟨hk, h⟩
  · rintro (h | ⟨hk, h⟩)
    · exact .inl h
    · exact .inr ⟨(), _, ⟨hk, rfl⟩, h⟩

/-- A token that may be missing is no problem. -/
@[simp] theorem stumbles_take {kind : Kind} : ¬ Run.Stumbles (Run.take kind) w d := by
  simp [Run.Stumbles, Run.diagnostics_take]

@[simp high] theorem stumbles_take_bind {kind : Kind} {f : Bool → Parse β} :
    Stumbles (liftM (Run.take kind) >>= f) w d ↔
      if w.peek.kind = kind then (f true).Stumbles w.advance d else (f false).Stumbles w d := by
  simp only [Stumbles, Run.Stumbles, bind_apply, lift_apply, Run.take_apply]
  split <;> simp

end Parse

namespace Grammar

open Parse

variable {operand : Operand} {w : Window} {d : Diagnostic}

/-! ### Sequences -/

theorem stumbles_statementsUntil_stop {stop : Kind → Bool} {p : Parse (Option Node)}
    (h : stop w.current.kind = true) : ¬ (statementsUntil stop p).Stumbles w d := by
  simp [Run.Stumbles, statementsUntil_stop h]

/-- The loop over statements stumbles in the first statement or behind it. -/
theorem stumbles_statementsUntil_next {stop : Kind → Bool} {p : Parse (Option Node)}
    (hstop : stop .eof = true) (hreads : Parse.Respects (fun w _ _ v => ∃ us, w.Reads us v) p)
    (hloud : Parse.Respects
      (fun _ failed trace _ => failed = true → Event.diagnostics trace ≠ []) p)
    (h : stop w.current.kind = false) :
    (statementsUntil stop p).Stumbles w d ↔ p.Stumbles w d ∨
      ∃ found u, p.Leads Quiet w found u ∧ (statementsUntil stop p).Stumbles u.advance d := by
  have hw := hloud w
  have hrecover : Event.diagnostics (Parse.recover p w).trace =
      Event.diagnostics (p.run w).trace := by
    rw [Parse.recover_apply]
    cases (p.run w).value <;> simp
  simp only [Parse.Stumbles, Run.Stumbles, Parse.Leads, Run.Leads, Quiet,
    statementsUntil_next hstop hreads h, followedBy, Event.diagnostics_append,
    Event.diagnostics_took, hrecover, Parse.recover_window]
  cases hd : Event.diagnostics (p.run w).trace with
  | nil =>
    cases ho : (p.run w).value with
    | none =>
      rw [ho] at hw
      exact absurd hd (hw rfl)
    | some found =>
      simp only [List.nil_append, List.head?_nil, reduceCtorEq, false_or, Option.some.injEq,
        and_true]
      constructor
      · intro h
        exact ⟨found, _, ⟨rfl, rfl⟩, h⟩
      · rintro ⟨_, _, ⟨rfl, rfl⟩, h⟩
        exact h
  | cons e ds => simp

section Items

variable {item : Parse Node} {close : Kind}

/-- The first problem of a run over further items, each after a comma, and the closing token behind
them. -/
def StumblesRest (item : Parse Node) (close : Kind) (w : Window) (d : Diagnostic) : Prop :=
  (moreItems item).Stumbles w d ∨
    ∃ ns u, (moreItems item).Leads Quiet w ns u ∧ (expect close).Stumbles u d

theorem stumblesRest_end (h : w.peek.kind ≠ .comma) :
    StumblesRest item close w d ↔ w.peek.kind ≠ close ∧ d = w.blame .peek (.expected close) := by
  have hmore : ¬ (moreItems item).Stumbles w d := by
    simp [Parse.Stumbles, Run.Stumbles, moreItems_end h]
  simp only [StumblesRest, hmore, leads_moreItems_end h, stumbles_expect, false_or]
  constructor
  · rintro ⟨_, _, ⟨rfl, rfl⟩, hd⟩
    exact hd
  · intro hd
    exact ⟨_, _, ⟨rfl, rfl⟩, hd⟩

theorem stumblesRest_comma (hitem : TakesComma item) (h : w.peek.kind = .comma) :
    StumblesRest item close w d ↔ item.Stumbles w.advance d ∨
      ∃ first u, item.Leads Quiet w.advance first u ∧ StumblesRest item close u d := by
  have hmore : (moreItems item).Stumbles w d ↔ item.Stumbles w.advance d ∨
      ∃ first u, item.Leads Quiet w.advance first u ∧ (moreItems item).Stumbles u d := by
    rw [stumbles_congr (moreItems_next hitem h), stumbles_advance_bind, stumbles_bind]
    simp only [stumbles_cons]
  simp only [StumblesRest, hmore, leads_moreItems_comma hitem h]
  constructor
  · rintro ((hfirst | ⟨first, u, hfirst, hd⟩) | ⟨_, v, ⟨first, u, hfirst, more, hmore, rfl⟩, hd⟩)
    · exact .inl hfirst
    · exact .inr ⟨first, u, hfirst, .inl hd⟩
    · exact .inr ⟨first, u, hfirst, .inr ⟨more, v, hmore, hd⟩⟩
  · rintro (hfirst | ⟨first, u, hfirst, hd | ⟨more, v, hmore, hd⟩⟩)
    · exact .inl (.inl hfirst)
    · exact .inl (.inr ⟨first, u, hfirst, hd⟩)
    · exact .inr ⟨_, v, ⟨first, u, hfirst, more, hmore, rfl⟩, hd⟩

/-- Where a run over further items stumbles, the closing token is missing, or an item stumbles, or
the run stumbles behind an item. -/
theorem StumblesRest.induction {motive : Window → Prop} (hitem : TakesComma item)
    (h : StumblesRest item close w d)
    (last : ∀ {w}, d = w.blame .peek (.expected close) → motive w)
    (first : ∀ {w}, w.peek.kind = .comma → item.Stumbles w.advance d → motive w)
    (next : ∀ {w n u}, w.peek.kind = .comma → item.Leads Quiet w.advance n u → motive u →
      motive w) : motive w := by
  -- on the tokens left: every item takes one at least
  induction hk : w.size using Nat.strongRecOn generalizing w with
  | ind k ih =>
    subst hk
    by_cases hw : w.peek.kind = .comma
    · rcases (stumblesRest_comma hitem hw).1 h with hfirst | ⟨n, u, hn, hrest⟩
      · exact first hw hfirst
      · have hlt := hitem w.advance hw (by rw [hn.1]; rfl)
        rw [hn.2.1] at hlt
        exact next hw hn (ih _ (Nat.lt_of_lt_of_le hlt w.size_advance_le) hrest rfl)
    · exact last ((stumblesRest_end hw).1 h).2

theorem stumbles_commaList :
    (commaList item close).Stumbles w d ↔ w.peek.kind ≠ close ∧
      (item.Stumbles w d ∨
        ∃ first u, item.Leads Quiet w first u ∧ StumblesRest item close u d) := by
  rw [commaList, stumbles_peek_bind]
  split
  · next h => simp [h]
  · next h =>
    have hrest (first : Node) (u : Window) :
        Parse.Stumbles (do let more ← moreItems item; expect close; pure (first :: more)) u d ↔
          StumblesRest item close u d := by
      rw [stumbles_bind, StumblesRest]
      simp [stumbles_expect]
    rw [stumbles_bind]
    simp only [hrest, ne_eq, h, not_false_eq_true, true_and]

end Items

theorem stumbles_argument {config : Config} {levels : Nat} :
    (argument config levels).Stumbles w d ↔
      (expression { config } levels .lowest).Stumbles w.advance d :=
  stumbles_advance_bind

theorem stumbles_parameter :
    parameter.Stumbles w d ↔ w.peek.kind ≠ .ident ∧ d = w.blame .peek (.expected .ident) := by
  simp [parameter, name]

/-! ### Statements and blocks -/

theorem stumbles_letStatement :
    (letStatement operand).Stumbles w d ↔
      w.peek.kind ≠ .ident ∧ d = w.blame .peek (.expected .ident) ∨
        w.peek.kind = .ident ∧
          (w.advance.peek.kind ≠ .assign ∧ d = w.advance.blame .peek (.expected .assign) ∨
            w.advance.peek.kind = .assign ∧
              (operand .lowest).Stumbles w.advance.advance.advance d) := by
  simp [letStatement, name]

theorem stumbles_returnStatement :
    (returnStatement operand).Stumbles w d ↔ (operand .lowest).Stumbles w.advance d := by
  simp [returnStatement]

theorem stumbles_expressionStatement :
    (expressionStatement operand).Stumbles w d ↔ (operand .lowest).Stumbles w d := by
  simp [expressionStatement]

theorem stumbles_statement :
    (statement operand).Stumbles w d ↔ w.current.kind ≠ .semicolon ∧
      if w.current.kind = .letWord then (letStatement operand).Stumbles w d
      else if w.current.kind = .returnWord then (returnStatement operand).Stumbles w d
      else (expressionStatement operand).Stumbles w d := by
  simp only [statement, stumbles_current_bind]
  split <;> simp_all

/-- A block stumbles in its statements, or at the token where a closing brace should be. -/
theorem stumbles_block :
    (block operand).Stumbles w d ↔
      (statementsUntil (fun k => k == .rbrace || k == .eof) (statement operand)).Stumbles
          w.advance d ∨
        ∃ ns u, (statementsUntil (fun k => k == .rbrace || k == .eof) (statement operand)).Leads
          Quiet w.advance ns u ∧ u.current.kind ≠ .rbrace ∧
            d = u.blame .current (.expected .rbrace) := by
  rw [block, stumbles_current_bind, stumbles_advance_bind, stumbles_bind]
  simp only [stumbles_lift, leads_lift, stumbles_current_bind]
  refine or_congr_right (exists_congr fun ns => exists_congr fun u => and_congr_right fun _ => ?_)
  split <;> simp [*]

/-! ### Forms that start an expression -/

theorem stumbles_numeral {config : Config} (h : (numeral config).Stumbles w d) :
    d = w.blame .current .notAnInteger := by
  simp only [numeral, stumbles_current_bind] at h
  split at h
  · split at h
    · exact absurd h stumbles_pure
    · exact stumbles_reject.1 h
  · exact stumbles_reject.1 h

theorem stumbles_unary :
    (unary operand).Stumbles w d ↔ (operand .unary).Stumbles w.advance d := by
  simp [unary]

theorem stumbles_group :
    (group operand).Stumbles w d ↔ (operand .lowest).Stumbles w.advance d ∨
      ∃ n u, (operand .lowest).Leads Quiet w.advance n u ∧
        u.peek.kind ≠ .rparen ∧ d = u.blame .peek (.expected .rparen) := by
  rw [group, stumbles_advance_bind, stumbles_bind]
  simp

theorem stumbles_conditional :
    (conditional operand).Stumbles w d ↔
      w.peek.kind ≠ .lparen ∧ d = w.blame .peek (.expected .lparen) ∨
        w.peek.kind = .lparen ∧ ((operand .lowest).Stumbles w.advance.advance d ∨
          ∃ n u, (operand .lowest).Leads Quiet w.advance.advance n u ∧
            (u.peek.kind ≠ .rparen ∧ d = u.blame .peek (.expected .rparen) ∨
              u.peek.kind = .rparen ∧
                (u.advance.peek.kind ≠ .lbrace ∧ d = u.advance.blame .peek (.expected .lbrace) ∨
                  u.advance.peek.kind = .lbrace ∧
                    ((block operand).Stumbles u.advance.advance d ∨
                      ∃ b v, (block operand).Leads Quiet u.advance.advance b v ∧
                        v.peek.kind = .elseWord ∧
                          (v.advance.peek.kind ≠ .lbrace ∧
                              d = v.advance.blame .peek (.expected .lbrace) ∨
                            v.advance.peek.kind = .lbrace ∧
                              (block operand).Stumbles v.advance.advance d))))) := by
  simp [conditional, stumbles_bind]

theorem stumbles_function :
    (function operand).Stumbles w d ↔
      w.peek.kind ≠ .lparen ∧ d = w.blame .peek (.expected .lparen) ∨
        w.peek.kind = .lparen ∧ (parameters.Stumbles w.advance d ∨
          ∃ ps u, parameters.Leads Quiet w.advance ps u ∧
            (u.peek.kind ≠ .lbrace ∧ d = u.blame .peek (.expected .lbrace) ∨
              u.peek.kind = .lbrace ∧ (block operand).Stumbles u.advance d)) := by
  rw [function, stumbles_current_bind, stumbles_expect_bind, stumbles_bind]
  simp

/-! ### Forms that continue an expression -/

theorem stumbles_binary {left : Node} :
    (binary operand left).Stumbles w d ↔
      (operand w.current.kind.precedence).Stumbles w.advance d := by
  simp [binary]

theorem stumbles_call {callee : Node} :
    (call operand callee).Stumbles w d ↔ (arguments operand .rparen).Stumbles w d := by
  simp [call]

/-! ### Expressions -/

section Expressions

variable {config : Config} {p : Precedence} {left : Node} {levels : Nat}

theorem stumbles_chain_end (h : ¬ p < w.peek.kind.precedence) :
    ¬ (chain { config } levels p left).Stumbles w d := by
  cases levels with
  | zero => rw [chain, continuationAhead_bind, stumbles_peek_bind, if_neg h]; exact stumbles_pure
  | succ levels =>
    rw [chain, continuationAhead_bind, stumbles_peek_bind, if_neg h]
    exact stumbles_pure

theorem stumbles_chain_succ (h : p < w.peek.kind.precedence) :
    (chain { config } (levels + 1) p left).Stumbles w d ↔ ∃ d',
      ((continuation (expression { config } levels) left
          (if w.peek.kind = .lparen then .call else .binary)).Stumbles w.advance d' ∨
        ∃ wider u, (continuation (expression { config } levels) left
            (if w.peek.kind = .lparen then .call else .binary)).Leads Quiet w.advance wider u ∧
          (chain { config } levels p wider).Stumbles u d') ∧ d'.nested = d := by
  rw [chain, continuationAhead_bind, stumbles_peek_bind, if_pos h, stumbles_nested]
  refine exists_congr fun d' => and_congr_left fun _ => ?_
  rw [stumbles_advance_bind, stumbles_bind]

theorem stumbles_expression_succ :
    (expression { config } (levels + 1) p).Stumbles w d ↔ ∃ d',
      (({} : Rules).opening? w.current.kind = none ∧ d' = w.blame .current .noExpression ∨
        ∃ form, ({} : Rules).opening? w.current.kind = some form ∧
          ((opening config (expression { config } levels) form).Stumbles w d' ∨
            ∃ left u, (opening config (expression { config } levels) form).Leads Quiet w left u ∧
              (chain { config } levels p left).Stumbles u d')) ∧ d'.nested = d := by
  simp only [expression, stumbles_nested, stumbles_current_bind]
  refine exists_congr fun d' => and_congr_left fun _ => ?_
  cases ({} : Rules).opening? w.current.kind with
  | none => simp
  | some form => simp [stumbles_bind]

end Expressions

end Grammar

end MonkeyLang
