import MonkeyLang.Proofs.DerivedRuns

/-!
# Derivations of what is parsed

Every quiet run of a form reads tokens that have a derivation which nests no deeper than the levels
that the run has, and yields the tree of the derivation. While operators are taken, what was parsed
so far belongs to a stratum at least as tight as the next operator binds, and has used the levels
that are no longer left; this is the invariant that carries the loop over operators. Main
statements: `expression_sound` and `statementsUntil_sound`.
-/

namespace MonkeyLang

open Grammar MonkeyLang.Derivation

/-- The stratum of the expressions that take only operators which bind tighter than a precedence. -/
def Precedence.stratum : Precedence → Stratum
  | lowest => .equality
  | equals => .comparison
  | lessGreater => .sum
  | sum => .product
  | product | unary | call => .unary

/-- The stratum of the binary operations that a kind of token stands for. -/
def Kind.stratum : Kind → Stratum
  | eq | notEq => .equality
  | lt | gt => .comparison
  | plus | minus => .sum
  | asterisk | slash => .product
  | _ => .unary

theorem Kind.mem_operators_stratum {k : Kind} {p : Precedence} (hk : p < k.precedence)
    (hne : k ≠ .lparen) :
    k ∈ k.stratum.operators ∧ k.precedence.stratum = k.stratum.tighter ∧
      p.stratum.precedence.level ≤ k.stratum.precedence.level := by
  revert hk hne
  cases k <;> cases p <;> decide

namespace Derivation

variable {config : Config}

/-- An expression is an expression of every looser stratum. -/
theorem Expression.loosen {s : Stratum} {us : List Token} {e : Node} {f m : Nat}
    (h : Expression config s us e f m) (t : Stratum)
    (hts : t.precedence.level ≤ s.precedence.level) (ht : t ≠ .primary) :
    Expression config t us e f m := by
  by_cases hst : s = t
  · rwa [← hst]
  · apply Expression.tighter
    by_cases hprimary : t.tighter = .primary
    · -- only names, calls and what stands in parentheses bind as tightly as a call
      obtain rfl : t = .application := by
        revert ht hprimary
        cases t <;> decide
      obtain rfl : s = .primary := by
        revert hts hst
        cases s <;> decide
      exact h
    · have hlevel : t.tighter.precedence.level = t.precedence.level + 1 ∧
          t.precedence.level < 7 := by
        revert ht hprimary
        cases t <;> decide
      refine h.loosen t.tighter ?_ hprimary
      revert hts hst
      cases s <;> cases t <;> decide
termination_by 7 - t.precedence.level
decreasing_by omega

/-- An expression after which a call is the next operator is called as a whole. -/
theorem Expression.applied_call {s : Stratum} {us as : List Token} {o c : Token} {e : Node}
    {ns : List Node} {f m k : Nat} (he : Expression config s us e f m)
    (hs : ¬ s.precedence < o.kind.precedence) (ho : o.kind = .lparen)
    (has : Arguments config as ns k) (hc : c.kind = .rparen) :
    Expression config .application (us ++ o :: as ++ [c]) (.call o e ns) (f + 1)
      (max m (f + 1 + k)) := by
  refine .call (he.loosen .application ?_ (by decide)) ho has hc
  rw [ho] at hs
  exact Nat.le_of_not_lt hs

/-- An expression after which a binary operator is the next one is its left operand as a whole. -/
theorem Expression.applied_binary {s : Stratum} {us vs : List Token} {t : Token} {l r : Node}
    {p : Precedence} {f m g k : Nat} (hl : Expression config s us l f m)
    (hs : ¬ s.precedence < t.kind.precedence) (hp : p < t.kind.precedence) (ht : t.kind ≠ .lparen)
    (hr : Expression config t.kind.precedence.stratum vs r g k) :
    Expression config t.kind.stratum (us ++ t :: vs) (.binary t l t.literal r) (f + 1)
      (max m (f + 1 + k)) := by
  obtain ⟨hmem, htighter, -⟩ := Kind.mem_operators_stratum hp ht
  obtain ⟨hprec, -⟩ := Stratum.precedence_of_mem_operators hmem
  refine .binary (hl.loosen _ ?_ ?_) hmem (htighter ▸ hr)
  · rw [← hprec]
    exact Nat.le_of_not_lt hs
  · intro hprimary
    rw [hprimary] at hmem
    cases hmem

end Derivation

/-- From `w` to `v` stand the tokens of an expression with tree `n` that nests to `levels` at most,
and what comes next does not bind tighter than `p`. -/
def Yields (config : Config) (levels : Nat) (p : Precedence) (w : Window) (n : Node) (v : Window) :
    Prop :=
  ∃ us f m, w.Spans us v ∧ Expression config p.stratum us n f m ∧ m ≤ levels ∧
    ¬ p < v.peek.kind.precedence

/-- From `w` to `v` stand the tokens of an expression with tree `n`, to which the next operator, if
there is one, applies as a whole. It nests to `levels` at most, of which `spare` are left to the
operators that follow. -/
def Begins (config : Config) (levels spare : Nat) (p : Precedence) (w : Window) (n : Node)
    (v : Window) : Prop :=
  ∃ s us f m, w.Spans us v ∧ Expression config s us n f m ∧ m ≤ levels ∧ f + spare = levels ∧
    p.stratum.precedence.level ≤ s.precedence.level ∧ ¬ s.precedence < v.peek.kind.precedence

section Operand

variable {config : Config} {levels : Nat}
  (hop : ∀ {p w n v}, (expression { config } levels p).Leads Quiet w n v →
    Yields config levels p w n v)

include hop

/-! ### Statements and blocks -/

theorem statement_sound {w v : Window} {found : Option Node}
    (h : (statement (expression { config } levels)).Leads Quiet w found v) :
    (w.current.kind = .semicolon ∧ v = w ∧ found = none) ∨
      ∃ n us m u, found = some n ∧ w.Spans us u ∧ Statement config us n m ∧ m ≤ levels ∧
        ¬ Precedence.lowest < u.peek.kind.precedence ∧ v = u.pastSemicolon := by
  rw [leads_statement] at h
  split at h
  · next hsemi => exact .inl ⟨hsemi, h⟩
  · obtain ⟨n, rfl, h⟩ := h
    right
    split at h
    · next hlet =>
      obtain ⟨hname, hassign, value, u, hvalue, rfl, rfl⟩ := leads_letStatement.1 h
      obtain ⟨us, f, m, hus, he, hm, hend⟩ := hop hvalue
      refine ⟨_, w.current :: w.peek :: w.advance.peek :: us, m, u, rfl, ?_,
        .binding hlet hname hassign he, hm, hend, rfl⟩
      exact (@Window.spans_append _ _ [_, _, _] _ he.ne_nil).2 ⟨_, ⟨rfl, rfl, rfl, rfl⟩, hus⟩
    · split at h
      · next hreturn =>
        obtain ⟨value, u, hvalue, rfl, rfl⟩ := leads_returnStatement.1 h
        obtain ⟨us, f, m, hus, he, hm, hend⟩ := hop hvalue
        exact ⟨_, w.current :: us, m, u, rfl, (Window.spans_cons he.ne_nil).2 ⟨rfl, hus⟩,
          .result hreturn he, hm, hend, rfl⟩
      · obtain ⟨value, u, hvalue, rfl, rfl⟩ := leads_expressionStatement.1 h
        obtain ⟨us, f, m, hus, he, hm, hend⟩ := hop hvalue
        obtain ⟨t, vs, rfl, -⟩ := he.head
        rw [hus.current]
        exact ⟨_, t :: vs, m, u, rfl, hus, .expression he, hm, hend, rfl⟩

/-- What is read by parsing a statement stands before the statements that begin where that ends. -/
theorem statement_prepends {w u : Window} {found : Option Node}
    (h : (statement (expression { config } levels)).Leads Quiet w found u) :
    ∃ us m, w.Reads us u.advance ∧ m ≤ levels ∧
      ∀ {vs ns k}, (∀ t ∈ vs.head?, t = u.advance.current) → Statements config vs ns k →
        Statements config (us ++ vs) (found.toList ++ ns) (max m k) := by
  obtain ⟨hsemi, rfl, rfl⟩ | ⟨n, us, m, x, rfl, hus, hn, hm, hend, rfl⟩ := statement_sound hop h
  · refine ⟨[u.current], 0, ⟨rfl, rfl⟩, Nat.zero_le _, fun {vs ns k} _ hns => ?_⟩
    rw [Nat.zero_max]
    exact .empty hsemi hns
  · rw [Window.pastSemicolon]
    split
    · next hsemi =>
      refine ⟨us ++ [x.peek], m, Window.reads_append.2 ⟨_, hus.reads, rfl, rfl⟩, hm,
        fun {vs ns k} _ hns => ?_⟩
      rw [List.append_assoc]
      exact .terminated hn hsemi hns
    · refine ⟨us, m, hus.reads, hm, fun {vs ns k} hvs hns => .unterminated hn ?_ hns⟩
      intro t ht
      rw [hvs t ht, Kind.mem_continuing_iff]
      exact hend

theorem statementsUntil_sound {stop : Kind → Bool} (hstop : stop .eof = true) {w v : Window}
    {ns : List Node}
    (h : (statementsUntil stop (statement (expression { config } levels))).Leads Quiet w ns v) :
    ∃ us m, w.Reads us v ∧ Statements config us ns m ∧ m ≤ levels ∧ stop v.current.kind = true := by
  have hreads := StepInvariant.reads.statement (StepInvariant.reads.expression { config } levels)
  have hloud := StepInvariant.loud.statement (StepInvariant.loud.expression { config } levels)
  induction w using statements_induction hstop hreads generalizing ns with
  | stops w hw =>
    obtain ⟨rfl, rfl⟩ := (leads_statementsUntil_stop hw).1 h
    exact ⟨[], 0, rfl, .nil, Nat.zero_le _, hw⟩
  | goesOn w hw ih =>
    obtain ⟨found, u, hfound, more, hmore, rfl⟩ :=
      (leads_statementsUntil_next hstop hreads hloud hw).1 h
    rw [hfound.2.1] at ih
    obtain ⟨vs, k, hvs, hns, hk, hv⟩ := ih hmore
    obtain ⟨us, m, hus, hm, hprepend⟩ := statement_prepends hop hfound
    exact ⟨us ++ vs, max m k, Window.reads_append.2 ⟨_, hus, hvs⟩, hprepend hvs.head hns,
      Nat.max_le.2 ⟨hm, hk⟩, hv⟩

theorem block_sound {w v : Window} {b : Node} (hw : w.current.kind = .lbrace)
    (h : (block (expression { config } levels)).Leads Quiet w b v) :
    ∃ us m, w.Spans us v ∧ Block config us b m ∧ m ≤ levels := by
  obtain ⟨ns, hns, hv, rfl⟩ := leads_block.1 h
  obtain ⟨us, m, hus, hns, hm, -⟩ := statementsUntil_sound hop (by simp) hns
  refine ⟨w.current :: us ++ [v.current], m, ?_, .braces hw hns hv, hm⟩
  exact Window.spans_concat.2 ⟨⟨rfl, hus⟩, rfl⟩

/-! ### Arguments -/

theorem moreArguments_sound {w v : Window} {ns : List Node}
    (h : LeadsRest Quiet (argument config levels) .rparen w ns v) :
    ∃ us m, w.advance.Reads us v ∧ v.current.kind = .rparen ∧ MoreArguments config us ns m ∧
      m ≤ levels := by
  induction ns generalizing w with
  | nil =>
    obtain ⟨hclose, rfl⟩ := h.of_nil (takesComma_argument config levels)
    exact ⟨[], 0, rfl, hclose, .nil, Nat.zero_le _⟩
  | cons e ns ih =>
    obtain ⟨hw, u, hfirst, hmore⟩ := h.of_cons (takesComma_argument config levels)
    obtain ⟨us, f, m, hus, he, hm, -⟩ := hop (leads_argument.1 hfirst)
    obtain ⟨vs, k, hvs, hclose, hns, hk⟩ := ih hmore
    exact ⟨w.peek :: us ++ vs, max m k, Window.reads_append.2 ⟨_, ⟨rfl, hus.reads⟩, hvs⟩, hclose,
      .cons hw he hns, Nat.max_le.2 ⟨hm, hk⟩⟩

theorem arguments_sound {w v : Window} {ns : List Node}
    (h : (arguments (expression { config } levels) .rparen).Leads Quiet w ns v) :
    ∃ us m, w.advance.Reads us v ∧ v.current.kind = .rparen ∧ Arguments config us ns m ∧
      m ≤ levels := by
  change (commaList (argument config levels) .rparen).Leads Quiet w ns v at h
  rw [leads_commaList] at h
  split at h
  · next hclose =>
    obtain ⟨rfl, rfl⟩ := h
    exact ⟨[], 0, rfl, hclose, .nil, Nat.zero_le _⟩
  · obtain ⟨first, u, hfirst, more, hmore, rfl⟩ := h
    obtain ⟨us, f, m, hus, he, hm, -⟩ := hop (leads_argument.1 hfirst)
    obtain ⟨vs, k, hvs, hclose, hns, hk⟩ := moreArguments_sound hop hmore
    exact ⟨us ++ vs, max m k, Window.reads_append.2 ⟨_, hus.reads, hvs⟩, hclose, .cons he hns,
      Nat.max_le.2 ⟨hm, hk⟩⟩

omit hop

/-! ### Parameters -/

theorem moreNames_sound {w v : Window} {ns : List Node}
    (h : LeadsRest Quiet parameter .rparen w ns v) :
    ∃ us, w.advance.Reads us v ∧ v.current.kind = .rparen ∧ MoreNames us ns := by
  induction ns generalizing w with
  | nil =>
    obtain ⟨hclose, rfl⟩ := h.of_nil takesComma_parameter
    exact ⟨[], rfl, hclose, .nil⟩
  | cons n ns ih =>
    obtain ⟨hw, u, hfirst, hmore⟩ := h.of_cons takesComma_parameter
    obtain ⟨hname, rfl, rfl⟩ := leads_parameter.1 hfirst
    obtain ⟨us, hus, hclose, hns⟩ := ih hmore
    exact ⟨w.peek :: w.advance.peek :: us, ⟨rfl, rfl, hus⟩, hclose, .cons hw hname hns⟩

theorem parameters_sound {w v : Window} {ns : List Node} (h : parameters.Leads Quiet w ns v) :
    ∃ us, w.advance.Reads us v ∧ v.current.kind = .rparen ∧ Names us ns := by
  change (commaList parameter .rparen).Leads Quiet w ns v at h
  rw [leads_commaList] at h
  split at h
  · next hclose =>
    obtain ⟨rfl, rfl⟩ := h
    exact ⟨[], rfl, hclose, .nil⟩
  · obtain ⟨first, u, hfirst, more, hmore, rfl⟩ := h
    obtain ⟨hname, rfl, rfl⟩ := leads_parameter.1 hfirst
    obtain ⟨us, hus, hclose, hns⟩ := moreNames_sound hmore
    exact ⟨w.peek :: us, ⟨rfl, hus⟩, hclose, .cons hname hns⟩

/-! ### Expressions -/

/-- What is complete as an expression of a stratum is complete for the precedence it is parsed at.
-/
theorem Begins.yields {spare : Nat} {p : Precedence} {w v : Window} {n : Node}
    (h : Begins config levels spare p w n v) (hv : ¬ p < v.peek.kind.precedence) :
    Yields config levels p w n v := by
  obtain ⟨s, us, f, m, hus, he, hm, -, hp, -⟩ := h
  refine ⟨us, f, m, hus, he.loosen p.stratum hp ?_, hm, hv⟩
  cases p <;> decide

/-- A primary expression may be followed by any operator. -/
theorem begins_primary {p : Precedence} {w v : Window} {n : Node} {us : List Token} {m : Nat}
    (hus : w.Spans us v) (he : Expression config .primary us n 1 (1 + m)) (hm : m ≤ levels) :
    Begins config (levels + 1) levels p w n v := by
  refine ⟨.primary, us, 1, 1 + m, hus, he, by omega, by omega, ?_, ?_⟩
  · cases p <;> decide
  · cases v.peek.kind <;> decide

/-- The kinds of tokens that start each form of expression. -/
theorem opening?_eq_some {k : Kind} {form : Opening} :
    ({} : Rules).opening? k = some form ↔
      match form with
      | .name => k = .ident
      | .numeral => k = .int
      | .truth => k = .trueWord ∨ k = .falseWord
      | .unary => k = .bang ∨ k = .minus
      | .group => k = .lparen
      | .conditional => k = .ifWord
      | .function => k = .function := by
  cases k <;> cases form <;> decide

include hop

theorem opening_sound {p : Precedence} {form : Opening} {w v : Window} {n : Node}
    (hform : ({} : Rules).opening? w.current.kind = some form)
    (h : (opening config (expression { config } levels) form).Leads Quiet w n v) :
    Begins config (levels + 1) levels p w n v := by
  have hw := opening?_eq_some.1 hform
  cases form with
  | name =>
    obtain ⟨rfl, rfl⟩ := leads_name.1 h
    exact begins_primary (m := 0) (Window.spans_singleton.2 ⟨rfl, rfl⟩) (.name hw) (Nat.zero_le _)
  | numeral =>
    obtain ⟨k, hk, hmax, rfl, rfl⟩ := leads_numeral.1 h
    exact begins_primary (m := 0) (Window.spans_singleton.2 ⟨rfl, rfl⟩) (.numeral hw hk hmax)
      (Nat.zero_le _)
  | truth =>
    obtain ⟨rfl, rfl⟩ := leads_truth.1 h
    have hspan : v.Spans [v.current] v := Window.spans_singleton.2 ⟨rfl, rfl⟩
    rcases hw with hw | hw
    · rw [hw]
      exact begins_primary (m := 0) hspan (.yes hw) (Nat.zero_le _)
    · rw [hw]
      exact begins_primary (m := 0) hspan (.no hw) (Nat.zero_le _)
  | unary =>
    obtain ⟨right, hright, rfl⟩ := leads_unary.1 h
    obtain ⟨us, f, m, hus, he, hm, hend⟩ := hop hright
    refine ⟨.unary, _, _, _, (Window.spans_cons he.ne_nil).2 ⟨rfl, hus⟩, .unary hw he, by omega,
      by omega, ?_, hend⟩
    cases p <;> decide
  | group =>
    obtain ⟨u, hinner, hclose, rfl⟩ := leads_group.1 h
    obtain ⟨us, f, m, hus, he, hm, -⟩ := hop hinner
    have hspan : w.Spans (w.current :: us ++ [u.peek]) u.advance :=
      Window.spans_concat.2 ⟨⟨rfl, hus.reads⟩, rfl⟩
    exact begins_primary hspan (.group hw he hclose) hm
  | conditional =>
    obtain ⟨ho, condition, u, hcondition, hclose, hbrace, b, x, hblock, hrest⟩ :=
      leads_conditional.1 h
    obtain ⟨us, f, m, hus, he, hm, -⟩ := hop hcondition
    obtain ⟨bs, k, hbs, hb, hk⟩ := block_sound hop hbrace hblock
    have hhead : w.Spans (w.current :: w.peek :: us ++ u.peek :: bs) x := by
      refine (Window.spans_append (by simp)).2 ⟨u.advance, ⟨rfl, rfl, hus.reads⟩, ?_⟩
      exact (Window.spans_cons hb.ne_nil).2 ⟨rfl, hbs⟩
    split at hrest
    · next hl =>
      obtain ⟨hbrace', a, ha, rfl⟩ := hrest
      obtain ⟨as, j, has, ha, hj⟩ := block_sound hop hbrace' ha
      refine begins_primary ?_ (.alternative hw ho he hclose hb hl ha)
        (Nat.max_le.2 ⟨hm, Nat.max_le.2 ⟨hk, hj⟩⟩)
      refine (Window.spans_append (by simp)).2 ⟨x.advance, hhead.reads, ?_⟩
      exact (Window.spans_cons ha.ne_nil).2 ⟨rfl, has⟩
    · obtain ⟨rfl, rfl⟩ := hrest
      exact begins_primary hhead (.choice hw ho he hclose hb) (Nat.max_le.2 ⟨hm, hk⟩)
  | function =>
    obtain ⟨ho, ps, u, hps, hbrace, b, hb, rfl⟩ := leads_function.1 h
    obtain ⟨us, hus, hclose, hps⟩ := parameters_sound hps
    obtain ⟨bs, k, hbs, hb, hk⟩ := block_sound hop hbrace hb
    have hspan : w.Spans (w.current :: w.peek :: us ++ u.current :: bs) v := by
      refine (Window.spans_append (by simp)).2 ⟨u, ⟨rfl, rfl, hus⟩, ?_⟩
      exact (Window.spans_cons hb.ne_nil).2 ⟨rfl, hbs⟩
    exact begins_primary hspan (.function hw ho hps hclose hb) hk

/-- An operator or a call applies to all that was parsed before it. -/
theorem continuation_sound {total : Nat} {p : Precedence} {w u v : Window} {left n : Node}
    (hleft : Begins config total (levels + 1) p w left u) (hu : p < u.peek.kind.precedence)
    (h : (continuation (expression { config } levels) left
      (if u.peek.kind = .lparen then .call else .binary)).Leads Quiet u.advance n v) :
    Begins config total levels p w n v := by
  obtain ⟨s, us, f, m, hus, he, hm, hf, hp, hs⟩ := hleft
  split at h
  · next hparen =>
    obtain ⟨ns, hns, rfl⟩ := leads_call.1 h
    obtain ⟨as, k, has, hclose, hns, hk⟩ := arguments_sound hop hns
    refine ⟨.application, us ++ u.peek :: as ++ [v.current], _, _, ?_,
      he.applied_call hs hparen hns hclose, Nat.max_le.2 ⟨hm, by omega⟩, by omega, ?_, ?_⟩
    · refine Window.spans_concat.2 ⟨Window.reads_append.2 ⟨_, hus.reads, rfl, has⟩, rfl⟩
    · cases p <;> decide
    · cases v.peek.kind <;> decide
  · next hparen =>
    obtain ⟨right, hright, rfl⟩ := leads_binary.1 h
    obtain ⟨vs, g, k, hvs, hr, hk, hend⟩ := hop hright
    obtain ⟨hmem, -, hloose⟩ := Kind.mem_operators_stratum hu hparen
    obtain ⟨hprec, -⟩ := Stratum.precedence_of_mem_operators hmem
    refine ⟨u.peek.kind.stratum, us ++ u.peek :: vs, _, _, ?_,
      he.applied_binary hs hu hparen hr, Nat.max_le.2 ⟨hm, by omega⟩, by omega, hloose, ?_⟩
    · apply hus.append
      exact (Window.spans_cons hr.ne_nil).2 ⟨rfl, hvs⟩
    · rw [← hprec]
      exact hend

end Operand

/-- Expressions at any number of levels have derivations, and so does what is left of a chain of
operators once it has begun. -/
theorem expression_chain_sound (config : Config) (levels : Nat) :
    (∀ {p w n v}, (expression { config } levels p).Leads Quiet w n v →
      Yields config levels p w n v) ∧
    ∀ {total p w u left n v}, Begins config total levels p w left u →
      (chain { config } levels p left).Leads Quiet u n v → Yields config total p w n v := by
  induction levels with
  | zero =>
    refine ⟨fun h => absurd h leads_expression_zero, fun {total p w u left n v} hleft h => ?_⟩
    by_cases hu : p < u.peek.kind.precedence
    · exact absurd h (leads_chain_zero hu)
    · obtain ⟨rfl, rfl⟩ := (leads_chain_end hu).1 h
      exact hleft.yields hu
  | succ levels ih =>
    obtain ⟨hop, hchain⟩ := ih
    constructor
    · intro p w n v h
      obtain ⟨form, hform, left, u, hleft, hrest⟩ := leads_expression_succ.1 h
      exact hchain (opening_sound hop hform hleft) hrest
    · intro total p w u left n v hleft h
      by_cases hu : p < u.peek.kind.precedence
      · obtain ⟨wider, x, hwider, hrest⟩ := (leads_chain_succ hu).1 h
        exact hchain (continuation_sound hop hleft hu hwider) hrest
      · obtain ⟨rfl, rfl⟩ := (leads_chain_end hu).1 h
        exact hleft.yields hu

theorem expression_sound {config : Config} {levels : Nat} {p : Precedence} {w v : Window} {n : Node}
    (h : (expression { config } levels p).Leads Quiet w n v) : Yields config levels p w n v :=
  (expression_chain_sound config levels).1 h

end MonkeyLang
