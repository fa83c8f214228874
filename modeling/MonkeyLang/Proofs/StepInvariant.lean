import MonkeyLang.Parsing.Grammar

/-!
# What every run respects

A parse is put together from single steps: staying, moving on by one token, rejecting a token,
taking a level of nesting, and giving up a statement. A relation between the start, the outcome and
the end of a run that the single steps respect, and that successive steps preserve, is respected by
every form of the grammar under any rules. Main statements: `StepInvariant.expression` and
`StepInvariant.statement`.
-/

namespace MonkeyLang

/-- What a problem says of the token that is blamed for it: a token that is rejected for want of a
kind has another kind. No form makes a remark. -/
def Problem.Fits (t : Token) : Problem → Prop
  | expected kind => t.kind ≠ kind
  | noExpression | notAnInteger | nestedTooDeep => True
  | remark _ => False

/-- A relation between the window at the start of a run, whether the run fails, what happens in it,
and the window at its end, that single steps respect and successive steps preserve. -/
structure StepInvariant (I : Window → Bool → List Event → Window → Prop) : Prop where
  stay : ∀ w, I w false [] w
  advance : ∀ w, I w false [.took w.advance.peek] w.advance
  reject : ∀ w spot problem, problem.Fits (w.tokenAt spot) →
    I w true [.noted (w.blame spot problem)] w
  andThen : ∀ {w a u failed b v}, I w false a u → I u failed b v → I w failed (a ++ b) v
  nested : ∀ {w failed a v}, I w failed a v → I w failed (a.map Event.nested) v
  /-- A failed statement may still be followed by its semicolon. -/
  finish : ∀ {w a u b v}, I w true a u → I u false b v → I w true (a ++ b) v
  /-- No statement that is given up begins with a semicolon. -/
  drop : ∀ {w a v}, w.current.kind ≠ .semicolon → I w true a v →
    I w false (a ++ [.dropped w.current]) v

/-- A relation that does not depend on whether the run fails, that single steps respect and
successive steps preserve. -/
structure TraceInvariant (J : Window → List Event → Window → Prop) : Prop where
  stay : ∀ w, J w [] w
  advance : ∀ w, J w [.took w.advance.peek] w.advance
  reject : ∀ w spot problem, problem.Fits (w.tokenAt spot) → J w [.noted (w.blame spot problem)] w
  append : ∀ {w a u b v}, J w a u → J u b v → J w (a ++ b) v
  nested : ∀ {w a v}, J w a v → J w (a.map Event.nested) v
  drop : ∀ {w a v}, w.current.kind ≠ .semicolon → J w a v → J w (a ++ [.dropped w.current]) v

theorem TraceInvariant.stepInvariant {J : Window → List Event → Window → Prop}
    (hJ : TraceInvariant J) : StepInvariant fun w _ trace v => J w trace v where
  stay := hJ.stay
  advance := hJ.advance
  reject := hJ.reject
  andThen := hJ.append
  nested := hJ.nested
  finish := hJ.append
  drop := hJ.drop

/-- A run that respects a relation; a run cannot fail. -/
def Run.Respects {α : Type} (I : Window → Bool → List Event → Window → Prop) (x : Run α) : Prop :=
  ∀ w, I w false (x w).trace (x w).window

/-- A parse that respects a relation. -/
def Parse.Respects {α : Type} (I : Window → Bool → List Event → Window → Prop) (p : Parse α) :
    Prop :=
  ∀ w, I w (p.run w).value.isNone (p.run w).trace (p.run w).window

namespace StepInvariant

variable {I : Window → Bool → List Event → Window → Prop} (hI : StepInvariant I)
variable {α β : Type}

/-! ### Steps and their composition -/

include hI

theorem run_pure (a : α) : Run.Respects I (pure a : Run α) := hI.stay

theorem run_current : Run.Respects I Run.current := hI.stay

theorem run_peek : Run.Respects I Run.peek := hI.stay

theorem run_advance : Run.Respects I Run.advance := hI.advance

theorem run_bind {x : Run α} {f : α → Run β} (hx : Run.Respects I x)
    (hf : ∀ a, Run.Respects I (f a)) : Run.Respects I (x >>= f) := by
  intro w
  exact hI.andThen (hx w) (hf _ _)

theorem run_take (kind : Kind) : Run.Respects I (Run.take kind) := by
  refine hI.run_bind hI.run_peek fun t => ?_
  split
  · exact hI.run_bind hI.run_advance fun _ => hI.run_pure _
  · exact hI.run_pure _

theorem parse_pure (a : α) : Parse.Respects I (pure a : Parse α) := hI.stay

theorem parse_bind {p : Parse α} {f : α → Parse β} (hp : Parse.Respects I p)
    (hf : ∀ a, Parse.Respects I (f a)) : Parse.Respects I (p >>= f) := by
  intro w
  have h := hp w
  rw [Parse.bind_apply]
  cases ho : (p.run w).value with
  | none => rwa [ho] at h
  | some a =>
    rw [ho] at h
    exact hI.andThen h (hf a _)

omit hI in
theorem parse_map {p : Parse α} (f : α → β) (hp : Parse.Respects I p) :
    Parse.Respects I (f <$> p) := by
  intro w
  simpa [Parse.map_apply] using hp w

omit hI in
theorem parse_lift {x : Run α} (hx : Run.Respects I x) :
    Parse.Respects I (liftM x : Parse α) := by
  intro w
  simpa [Parse.lift_apply] using hx w

theorem current : Parse.Respects I Parse.current := hI.stay

theorem peek : Parse.Respects I Parse.peek := hI.stay

theorem parse_advance : Parse.Respects I Parse.advance := hI.advance

theorem expect (kind : Kind) : Parse.Respects I (Parse.expect kind) := by
  intro w
  rw [Parse.expect_apply]
  split
  · exact hI.advance w
  · next h => exact hI.reject w .peek (.expected kind) h

/-- Rejecting a token for another reason than its kind. -/
theorem parse_reject (spot : Spot) {problem : Problem} (h : ∀ t, problem.Fits t) :
    Parse.Respects I (Parse.reject spot problem : Parse α) := by
  intro w
  exact hI.reject w spot problem (h _)

omit hI in
theorem cons (a : α) {p : Parse (List α)} (hp : Parse.Respects I p) :
    Parse.Respects I (Parse.cons a p) := by
  intro w
  simpa [Parse.cons_apply] using hp w

theorem parse_nested {p : Parse α} (hp : Parse.Respects I p) :
    Parse.Respects I (Parse.nested p) := by
  intro w
  exact hI.nested (hp w)

theorem terminated {p : Parse α} (hp : Parse.Respects I p) :
    Parse.Respects I (Parse.terminated p) := by
  intro w
  have h := hp w
  rw [Parse.terminated_apply]
  cases ho : (p.run w).value with
  | none =>
    rw [ho] at h
    exact hI.finish h (hI.run_take _ _)
  | some a =>
    rw [ho] at h
    exact hI.andThen h (hI.run_take _ _)

theorem recover {p : Parse α} (hp : Parse.Respects I p)
    (hne : ∀ w, (p.run w).value = none → w.current.kind ≠ .semicolon) :
    Run.Respects I (Parse.recover p) := by
  intro w
  have h := hp w
  rw [Parse.recover_apply]
  cases ho : (p.run w).value with
  | none =>
    rw [ho] at h
    exact hI.drop (hne w ho) h
  | some a => rwa [ho] at h

/-! ### Sequences -/

open Grammar

theorem statementsUntil (stop : Kind → Bool) {p : Parse (Option Node)}
    (hp : Parse.Respects I p)
    (hne : ∀ w, (p.run w).value = none → w.current.kind ≠ .semicolon) :
    Run.Respects I (Grammar.statementsUntil stop p) := by
  have within (n : Nat) : Run.Respects I (statementsWithin stop p n) := by
    induction n with
    | zero => exact hI.run_pure _
    | succ n ih =>
      refine hI.run_bind hI.run_current fun t => ?_
      split
      · exact hI.run_pure _
      · refine hI.run_bind (hI.recover hp hne) fun _ => ?_
        exact hI.run_bind hI.run_advance fun _ => ih
  intro w
  exact within w.size w

theorem commaList {item : Parse Node} (hitem : Parse.Respects I item) (close : Kind) :
    Parse.Respects I (Grammar.commaList item close) := by
  have within (n : Nat) : Parse.Respects I (itemsWithin item n) := by
    induction n with
    | zero => exact hI.parse_pure _
    | succ n ih =>
      refine hI.parse_bind hI.peek fun t => ?_
      split
      · exact hI.parse_bind hI.parse_advance fun _ => hI.parse_bind hitem fun _ => cons _ ih
      · exact hI.parse_pure _
  refine hI.parse_bind hI.peek fun t => ?_
  split
  · exact hI.parse_bind hI.parse_advance fun _ => hI.parse_pure _
  · refine hI.parse_bind hitem fun _ => ?_
    refine hI.parse_bind (p := moreItems item) (fun w => within w.size w) fun _ => ?_
    exact hI.parse_bind (hI.expect close) fun _ => hI.parse_pure _

/-! ### Forms -/

section Forms

variable {operand : Operand} (hop : ∀ p, Parse.Respects I (operand p))

theorem name : Parse.Respects I Grammar.name :=
  hI.parse_bind hI.current fun _ => hI.parse_pure _

theorem parameters : Parse.Respects I Grammar.parameters :=
  hI.commaList (hI.parse_bind (hI.expect .ident) fun _ => hI.name) _

include hop

theorem letStatement : Parse.Respects I (Grammar.letStatement operand) := by
  refine hI.parse_bind hI.current fun _ => hI.parse_bind (hI.expect _) fun _ => ?_
  refine hI.parse_bind hI.name fun _ => hI.parse_bind (hI.expect _) fun _ => ?_
  refine hI.parse_bind hI.parse_advance fun _ => ?_
  exact hI.parse_bind (hI.terminated (hop _)) fun _ => hI.parse_pure _

theorem returnStatement : Parse.Respects I (Grammar.returnStatement operand) := by
  refine hI.parse_bind hI.current fun _ => hI.parse_bind hI.parse_advance fun _ => ?_
  exact hI.parse_bind (hI.terminated (hop _)) fun _ => hI.parse_pure _

theorem expressionStatement : Parse.Respects I (Grammar.expressionStatement operand) := by
  refine hI.parse_bind hI.current fun _ => ?_
  exact hI.parse_bind (hI.terminated (hop _)) fun _ => hI.parse_pure _

theorem statement : Parse.Respects I (Grammar.statement operand) := by
  refine hI.parse_bind hI.current fun t => ?_
  split
  · exact parse_map _ (hI.letStatement hop)
  · exact parse_map _ (hI.returnStatement hop)
  · exact hI.parse_pure _
  · exact parse_map _ (hI.expressionStatement hop)

omit hI hop in
/-- A semicolon is a statement of its own. -/
theorem ne_semicolon_of_statement (operand : Operand) (w : Window)
    (h : ((Grammar.statement operand).run w).value = none) : w.current.kind ≠ .semicolon := by
  intro hw
  rw [Grammar.statement, Parse.bind_apply, Parse.current_apply] at h
  simp [hw, Parse.pure_apply] at h

theorem block : Parse.Respects I (Grammar.block operand) := by
  refine hI.parse_bind hI.current fun _ => hI.parse_bind hI.parse_advance fun _ => ?_
  refine hI.parse_bind (parse_lift (hI.statementsUntil _ (hI.statement hop)
    (ne_semicolon_of_statement operand))) fun _ => ?_
  -- the token that is not a closing brace is the one that the rejection blames
  intro w
  rw [Parse.bind_apply, Parse.current_apply]
  by_cases h : w.current.kind = .rbrace
  · simpa [h, Run.pure_apply] using hI.stay w
  · simpa [h, Parse.reject_apply] using hI.reject w .current (.expected .rbrace) h

theorem opening (config : Config) (form : Opening) :
    Parse.Respects I (Grammar.opening config operand form) := by
  cases form with
  | name => exact hI.name
  | numeral =>
    refine hI.parse_bind hI.current fun t => ?_
    split
    · split
      · exact hI.parse_pure _
      · exact hI.parse_reject _ fun _ => trivial
    · exact hI.parse_reject _ fun _ => trivial
  | truth => exact hI.parse_bind hI.current fun _ => hI.parse_pure _
  | unary =>
    refine hI.parse_bind hI.current fun _ => hI.parse_bind hI.parse_advance fun _ => ?_
    exact hI.parse_bind (hop _) fun _ => hI.parse_pure _
  | group =>
    refine hI.parse_bind hI.parse_advance fun _ => hI.parse_bind (hop _) fun _ => ?_
    exact hI.parse_bind (hI.expect _) fun _ => hI.parse_pure _
  | conditional =>
    refine hI.parse_bind hI.current fun _ => hI.parse_bind (hI.expect _) fun _ => ?_
    refine hI.parse_bind hI.parse_advance fun _ => hI.parse_bind (hop _) fun _ => ?_
    refine hI.parse_bind (hI.expect _) fun _ => hI.parse_bind (hI.expect _) fun _ => ?_
    refine hI.parse_bind (hI.block hop) fun _ => ?_
    refine hI.parse_bind (parse_lift (hI.run_take _)) fun _ => ?_
    split
    · refine hI.parse_bind (hI.expect _) fun _ => hI.parse_bind (hI.block hop) fun _ => ?_
      exact hI.parse_pure _
    · exact hI.parse_pure _
  | function =>
    refine hI.parse_bind hI.current fun _ => hI.parse_bind (hI.expect _) fun _ => ?_
    refine hI.parse_bind hI.parameters fun _ => ?_
    refine hI.parse_bind (hI.expect _) fun _ => hI.parse_bind (hI.block hop) fun _ => ?_
    exact hI.parse_pure _

theorem continuation (left : Node) (form : Continuation) :
    Parse.Respects I (Grammar.continuation operand left form) := by
  cases form with
  | binary =>
    refine hI.parse_bind hI.current fun _ => hI.parse_bind hI.parse_advance fun _ => ?_
    exact hI.parse_bind (hop _) fun _ => hI.parse_pure _
  | call =>
    refine hI.parse_bind hI.current fun _ => ?_
    have hitem := hI.parse_bind hI.parse_advance fun _ => hop .lowest
    exact hI.parse_bind (hI.commaList hitem _) fun _ => hI.parse_pure _

end Forms

/-! ### Expressions -/

theorem continuationAhead (rules : Rules) (p : Precedence) :
    Parse.Respects I (Grammar.continuationAhead rules p) := by
  refine hI.parse_bind hI.peek fun t => ?_
  dsimp only
  split
  · exact hI.parse_pure _
  · exact hI.parse_pure _

/-- Expressions and chains of operators at any number of levels respect the relation. -/
theorem expression_chain (setup : Setup) (levels : Nat) :
    (∀ p, Parse.Respects I (Grammar.expression setup levels p)) ∧
      ∀ p left, Parse.Respects I (chain setup levels p left) := by
  induction levels with
  | zero =>
    constructor
    · intro p
      rw [Grammar.expression]
      exact hI.parse_nested (hI.parse_reject _ fun _ => trivial)
    · intro p left
      rw [chain]
      refine hI.parse_bind (hI.continuationAhead _ _) fun rule => ?_
      split
      · exact hI.parse_pure _
      · exact hI.parse_nested (hI.parse_reject _ fun _ => trivial)
  | succ levels ih =>
    obtain ⟨hexp, hchain⟩ := ih
    constructor
    · intro p
      rw [Grammar.expression]
      refine hI.parse_nested (hI.parse_bind hI.current fun t => ?_)
      split
      · exact hI.parse_reject _ fun _ => trivial
      · exact hI.parse_bind (hI.opening hexp _ _) fun _ => hchain _ _
    · intro p left
      rw [chain]
      refine hI.parse_bind (hI.continuationAhead _ _) fun rule => ?_
      split
      · exact hI.parse_pure _
      · refine hI.parse_nested (hI.parse_bind hI.parse_advance fun _ => ?_)
        exact hI.parse_bind (hI.continuation hexp _ _) fun _ => hchain _ _

theorem expression (setup : Setup) (levels : Nat) (p : Precedence) :
    Parse.Respects I (Grammar.expression setup levels p) :=
  (hI.expression_chain setup levels).1 p

end StepInvariant

end MonkeyLang
