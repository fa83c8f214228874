import MonkeyLang.Proofs.FormResults

/-!
# Forms made of parts whose runs are known

Where a parse has a quiet run at some number of levels and more, and none at fewer, and always
yields the same value at the same window, its quiet runs are known exactly. If the parts of a form
are known exactly, so is the form: it needs as many levels as the part that needs most, and an
expression takes one level for its first form and one for each operator or call.
-/

namespace MonkeyLang

namespace Grammar

open Parse

variable {config : Config}

/-- What is asked of a value and a window at some number of levels holds exactly at `m` levels and
more, and only of the value `a` and the window `u`. -/
structure HoldsFrom {α : Type} (R : Nat → α → Window → Prop) (m : Nat) (a : α) (u : Window) :
    Prop where
  intro ::
  forall_iff : ∀ levels b v, R levels b v ↔ m ≤ levels ∧ v = u ∧ b = a

namespace HoldsFrom

variable {α : Type} {R : Nat → α → Window → Prop} {m levels : Nat} {a b : α} {u v : Window}

theorem iff (h : HoldsFrom R m a u) : R levels b v ↔ m ≤ levels ∧ v = u ∧ b = a :=
  h.forall_iff _ _ _

theorem exists_iff (h : HoldsFrom R m a u) {P : α → Window → Prop} :
    (∃ b v, R levels b v ∧ P b v) ↔ m ≤ levels ∧ P a u := by
  constructor
  · rintro ⟨b, v, hb, hP⟩
    obtain ⟨hm, rfl, rfl⟩ := h.iff.1 hb
    exact ⟨hm, hP⟩
  · rintro ⟨hm, hP⟩
    exact ⟨a, u, h.iff.2 ⟨hm, rfl, rfl⟩, hP⟩

theorem exists_value_iff (h : HoldsFrom R m a u) {P : α → Prop} :
    (∃ b, R levels b v ∧ P b) ↔ m ≤ levels ∧ v = u ∧ P a := by
  constructor
  · rintro ⟨b, hb, hP⟩
    obtain ⟨hm, rfl, rfl⟩ := h.iff.1 hb
    exact ⟨hm, rfl, hP⟩
  · rintro ⟨hm, rfl, hP⟩
    exact ⟨a, h.iff.2 ⟨hm, rfl, rfl⟩, hP⟩

theorem exists_window_iff (h : HoldsFrom R m a u) {P : Window → Prop} :
    (∃ v, R levels b v ∧ P v) ↔ m ≤ levels ∧ P u ∧ b = a := by
  constructor
  · rintro ⟨v, hb, hP⟩
    obtain ⟨hm, rfl, rfl⟩ := h.iff.1 hb
    exact ⟨hm, hP, rfl⟩
  · rintro ⟨hm, hP, rfl⟩
    exact ⟨u, h.iff.2 ⟨hm, rfl, rfl⟩, hP⟩

end HoldsFrom

/-- From `w` the parse has a quiet run exactly at `m` levels and more, which yields `a` at `u`. -/
abbrev Exactly {α : Type} (p : Nat → Parse α) (w : Window) (m : Nat) (a : α) (u : Window) : Prop :=
  HoldsFrom (fun levels => (p levels).Leads Quiet w) m a u

/-- Expressions with all operators that follow. -/
abbrev whole (config : Config) (levels : Nat) : Parse Node := expression { config } levels .lowest

section Forms

variable {w x y z : Window} {e b a : Node} {m k j : Nat}

theorem exactly_group (he : Exactly (whole config) w.advance m e x) (hx : x.peek.kind = .rparen) :
    Exactly (fun levels => group (expression { config } levels)) w m e x.advance := by
  apply HoldsFrom.intro
  intro levels n v
  rw [leads_group, he.exists_window_iff]
  simp [hx]

theorem exactly_unary (he : Exactly (fun levels => expression { config } levels .unary)
      w.advance m e x) :
    Exactly (fun levels => unary (expression { config } levels)) w m
      (.unary w.current w.current.literal e) x := by
  apply HoldsFrom.intro
  intro levels n v
  rw [leads_unary, he.exists_value_iff]

theorem exactly_conditional (ho : w.peek.kind = .lparen)
    (he : Exactly (whole config) w.advance.advance m e x) (hx : x.peek.kind = .rparen)
    (hy : x.advance.peek.kind = .lbrace)
    (hb : Exactly (fun levels => block (expression { config } levels)) x.advance.advance k b y)
    (hl : y.peek.kind ≠ .elseWord) :
    Exactly (fun levels => conditional (expression { config } levels)) w (max m k)
      (.conditional w.current e b none) y := by
  apply HoldsFrom.intro
  intro levels n v
  rw [leads_conditional, he.exists_iff, hb.exists_iff, if_neg hl, Nat.max_le]
  simp [ho, hx, hy, and_assoc]

theorem exactly_alternative (ho : w.peek.kind = .lparen)
    (he : Exactly (whole config) w.advance.advance m e x) (hx : x.peek.kind = .rparen)
    (hy : x.advance.peek.kind = .lbrace)
    (hb : Exactly (fun levels => block (expression { config } levels)) x.advance.advance k b y)
    (hl : y.peek.kind = .elseWord) (hz : y.advance.peek.kind = .lbrace)
    (ha : Exactly (fun levels => block (expression { config } levels)) y.advance.advance j a z) :
    Exactly (fun levels => conditional (expression { config } levels)) w (max m (max k j))
      (.conditional w.current e b (some a)) z := by
  apply HoldsFrom.intro
  intro levels n v
  rw [leads_conditional, he.exists_iff, hb.exists_iff, if_pos hl, ha.exists_value_iff, Nat.max_le,
    Nat.max_le]
  simp [ho, hx, hy, hz, and_assoc]

theorem exactly_function {ps : List Node} (ho : w.peek.kind = .lparen)
    (hps : ∀ {ns v}, parameters.Leads Quiet w.advance ns v ↔ v = x ∧ ns = ps)
    (hx : x.peek.kind = .lbrace)
    (hb : Exactly (fun levels => block (expression { config } levels)) x.advance k b y) :
    Exactly (fun levels => function (expression { config } levels)) w k
      (.function w.current ps b) y := by
  apply HoldsFrom.intro
  intro levels n v
  simp only [leads_function, hps, ho, and_assoc, exists_eq_left, true_and, hx]
  rw [hb.exists_value_iff]

theorem exactly_binary
    (he : Exactly (fun levels => expression { config } levels w.current.kind.precedence)
      w.advance m e x) :
    Exactly (fun levels => binary (expression { config } levels) a) w m
      (.binary w.current a w.current.literal e) x := by
  apply HoldsFrom.intro
  intro levels n v
  rw [leads_binary, he.exists_value_iff]

theorem exactly_call {ns : List Node}
    (has : Exactly (fun levels => arguments (expression { config } levels) .rparen) w m ns x) :
    Exactly (fun levels => call (expression { config } levels) a) w m (.call w.current a ns) x := by
  apply HoldsFrom.intro
  intro levels n v
  rw [leads_call, has.exists_value_iff]

/-- An expression at whose end no operator follows. -/
theorem exactly_expression {p : Precedence} {f : Nat} (hx : ¬ p < x.peek.kind.precedence)
    (h : ∀ {levels n v}, (expression { config } levels p).Leads Quiet w n v ↔
      m ≤ levels ∧ (chain { config } (levels - f) p e).Leads Quiet x n v) :
    Exactly (fun levels => expression { config } levels p) w m e x := by
  apply HoldsFrom.intro
  intro levels n v
  rw [h, leads_chain_end hx]

/-- An expression that begins with a form takes one level for it. -/
theorem leads_expression_of_opening (form : Opening) {p : Precedence} {levels : Nat} {n : Node}
    {v : Window} (hform : ({} : Rules).opening? w.current.kind = some form)
    (h : Exactly (fun levels => opening config (expression { config } levels) form) w m e x) :
    (expression { config } levels p).Leads Quiet w n v ↔
      1 + m ≤ levels ∧ (chain { config } (levels - 1) p e).Leads Quiet x n v := by
  cases levels with
  | zero => simp [leads_expression_zero]
  | succ levels =>
    rw [leads_expression_succ, hform, Nat.add_comm 1 m, Nat.add_le_add_iff_right]
    simp only [Option.some.injEq, exists_eq_left']
    rw [h.exists_iff, Nat.add_sub_cancel]

/-- A call or an operator takes one level from the chain. -/
theorem leads_chain_of_continuation {p : Precedence} {levels : Nat} {n : Node} {v : Window}
    (hw : p < w.peek.kind.precedence)
    (h : Exactly (fun levels => continuation (expression { config } levels) a
      (if w.peek.kind = .lparen then .call else .binary)) w.advance m e x) :
    (chain { config } levels p a).Leads Quiet w n v ↔
      1 + m ≤ levels ∧ (chain { config } (levels - 1) p e).Leads Quiet x n v := by
  cases levels with
  | zero => simp [leads_chain_zero hw]
  | succ levels =>
    rw [leads_chain_succ hw, Nat.add_comm 1 m, Nat.add_le_add_iff_right]
    rw [h.exists_iff, Nat.add_sub_cancel]

/-- An expression that goes on takes one more level, and leaves as many fewer to what follows. -/
theorem leads_expression_of_continuation {p : Precedence} {levels f : Nat} {n : Node} {v : Window}
    (ha : (expression { config } levels p).Leads Quiet w n v ↔
      m ≤ levels ∧ (chain { config } (levels - f) p a).Leads Quiet x n v)
    (hx : p < x.peek.kind.precedence)
    (h : Exactly (fun levels => continuation (expression { config } levels) a
      (if x.peek.kind = .lparen then .call else .binary)) x.advance k e y) :
    (expression { config } levels p).Leads Quiet w n v ↔
      max m (f + 1 + k) ≤ levels ∧ (chain { config } (levels - (f + 1)) p e).Leads Quiet y n v := by
  rw [ha, leads_chain_of_continuation hx h, Nat.max_le, Nat.sub_sub]
  constructor
  · rintro ⟨hm, hk, hchain⟩
    exact ⟨⟨hm, by omega⟩, hchain⟩
  · rintro ⟨⟨hm, hk⟩, hchain⟩
    exact ⟨hm, by omega, hchain⟩

end Forms

/-! ### Lists of names and of arguments -/

/-- The item of an argument list. -/
def argument (config : Config) (levels : Nat) : Parse Node := do
  advance
  expression { config } levels .lowest

/-- The item of a parameter list. -/
def parameter : Parse Node := do
  expect .ident
  name

theorem leads_argument {levels : Nat} {w v : Window} {n : Node} :
    (argument config levels).Leads Quiet w n v ↔
      (expression { config } levels .lowest).Leads Quiet w.advance n v :=
  leads_advance_bind

theorem leads_parameter {ok : List Event → Prop} [Benign ok] {w v : Window} {n : Node} :
    parameter.Leads ok w n v ↔
      w.peek.kind = .ident ∧ v = w.advance ∧ n = .identifier w.peek w.peek.literal := by
  simp [parameter]

theorem takesComma_argument (config : Config) (levels : Nat) :
    TakesComma (argument config levels) :=
  takesComma_advance (StepInvariant.reads.expression { config } levels .lowest)

theorem takesComma_parameter : TakesComma parameter := by
  intro w hw hsome
  obtain ⟨n, hn⟩ := Option.isSome_iff_exists.1 hsome
  have h : parameter.Leads Anyhow w n _ := ⟨hn, rfl, trivial⟩
  rw [leads_parameter] at h
  rw [h.2.1]
  exact Window.size_advance_lt (by simp [hw])

/-- What the arguments after the first one yield from `w`, up to the closing parenthesis, is known
exactly. -/
abbrev RestExactly (config : Config) (w : Window) (m : Nat) (ns : List Node) (u : Window) : Prop :=
  HoldsFrom (fun levels => LeadsRest Quiet (argument config levels) .rparen w) m ns u

section Arguments

variable {w x u : Window} {e : Node} {ns : List Node} {m k : Nat}

theorem restExactly_end (hw : w.peek.kind = .rparen) : RestExactly config w 0 [] w.advance := by
  apply HoldsFrom.intro
  intro levels more v
  rw [leadsRest_end (by simp [hw])]
  simp [hw]

theorem restExactly_comma (hw : w.peek.kind = .comma)
    (he : Exactly (whole config) w.advance.advance m e x) (hns : RestExactly config x k ns u) :
    RestExactly config w (max m k) (e :: ns) u := by
  apply HoldsFrom.intro
  intro levels more v
  rw [leadsRest_comma (takesComma_argument config _) hw, Nat.max_le, and_assoc]
  simp only [leads_argument]
  rw [he.exists_iff, hns.exists_value_iff]

theorem exactly_noArguments (hw : w.peek.kind = .rparen) :
    Exactly (fun levels => arguments (expression { config } levels) .rparen) w 0 [] w.advance := by
  apply HoldsFrom.intro
  intro levels more v
  change (commaList (argument config levels) .rparen).Leads Quiet w more v ↔ _
  rw [leads_commaList, if_pos hw]
  simp

theorem exactly_arguments (hw : w.peek.kind ≠ .rparen)
    (he : Exactly (whole config) w.advance m e x) (hns : RestExactly config x k ns u) :
    Exactly (fun levels => arguments (expression { config } levels) .rparen) w (max m k) (e :: ns)
      u := by
  apply HoldsFrom.intro
  intro levels more v
  change (commaList (argument config levels) .rparen).Leads Quiet w more v ↔ _
  rw [leads_commaList, if_neg hw, Nat.max_le, and_assoc]
  simp only [leads_argument]
  rw [he.exists_iff, hns.exists_value_iff]

end Arguments

/-! ### Statements -/

/-- A semicolon where a statement could begin is passed over. -/
theorem leads_statementsUntil_semicolon {stop : Kind → Bool} {levels : Nat} {w v : Window}
    {ns : List Node} (hstop : stop .eof = true) (hs : stop .semicolon = false)
    (hw : w.current.kind = .semicolon) :
    (statementsUntil stop (statement (expression { config } levels))).Leads Quiet w ns v ↔
      (statementsUntil stop (statement (expression { config } levels))).Leads Quiet w.advance ns
        v := by
  rw [leads_statementsUntil_next hstop
    (StepInvariant.reads.statement (StepInvariant.reads.expression _ _))
    (StepInvariant.loud.statement (StepInvariant.loud.expression _ _)) (by rw [hw, hs])]
  simp only [leads_statement, hw, if_true]
  constructor
  · rintro ⟨found, u, ⟨rfl, rfl⟩, more, h, rfl⟩
    exact h
  · intro h
    exact ⟨none, w, ⟨rfl, rfl⟩, ns, h, rfl⟩

/-- What the loop over statements yields from `w` is known exactly. -/
abbrev LoopsExactly (config : Config) (stop : Kind → Bool) (w : Window) (m : Nat)
    (ns : List Node) (u : Window) : Prop :=
  HoldsFrom (fun levels => (statementsUntil stop (statement (expression { config } levels))).Leads
    Quiet w) m ns u

section Statements

variable {stop : Kind → Bool} {w x y : Window} {n e : Node} {ns : List Node} {m k : Nat}

theorem loopsExactly_stop (hw : stop w.current.kind = true) :
    LoopsExactly config stop w 0 [] w := by
  apply HoldsFrom.intro
  intro levels more v
  rw [leads_statementsUntil_stop hw]
  simp [and_comm]

/-- A statement, and the statements behind it and behind its semicolon. -/
theorem loopsExactly_next (hstop : stop .eof = true) (hw : stop w.current.kind = false)
    (hn : Exactly (fun levels => statement (expression { config } levels)) w m (some n) x)
    (hns : LoopsExactly config stop x.advance k ns y) :
    LoopsExactly config stop w (max m k) (n :: ns) y := by
  apply HoldsFrom.intro
  intro levels more v
  rw [Nat.max_le, and_assoc, leads_statementsUntil_next hstop
    (StepInvariant.reads.statement (StepInvariant.reads.expression _ _))
    (StepInvariant.loud.statement (StepInvariant.loud.expression _ _)) hw,
    hn.exists_iff, hns.exists_value_iff]
  rfl

theorem exactly_block
    (h : LoopsExactly config (fun k => k == .rbrace || k == .eof) w.advance m ns x)
    (hx : x.current.kind = .rbrace) :
    Exactly (fun levels => block (expression { config } levels)) w m (.block w.current ns) x := by
  apply HoldsFrom.intro
  intro levels n v
  rw [leads_block, h.exists_value_iff]
  constructor
  · rintro ⟨hm, rfl, -, hn⟩
    exact ⟨hm, rfl, hn⟩
  · rintro ⟨hm, rfl, hn⟩
    exact ⟨hm, rfl, hx, hn⟩

theorem exactly_letStatement (hw : w.current.kind = .letWord) (hname : w.peek.kind = .ident)
    (hassign : w.advance.peek.kind = .assign)
    (he : Exactly (whole config) w.advance.advance.advance m e x) :
    Exactly (fun levels => statement (expression { config } levels)) w m
      (some (.letStatement w.current (.identifier w.peek w.peek.literal) e)) x.pastSemicolon := by
  apply HoldsFrom.intro
  intro levels found v
  simp only [leads_statement, hw, leads_letStatement, hname, hassign, true_and, if_true,
    reduceCtorEq, if_false, he.exists_iff]
  constructor
  · rintro ⟨_, rfl, hm, rfl, rfl⟩
    exact ⟨hm, rfl, rfl⟩
  · rintro ⟨hm, rfl, rfl⟩
    exact ⟨_, rfl, hm, rfl, rfl⟩

theorem exactly_returnStatement (hw : w.current.kind = .returnWord)
    (he : Exactly (whole config) w.advance m e x) :
    Exactly (fun levels => statement (expression { config } levels)) w m
      (some (.returnStatement w.current e)) x.pastSemicolon := by
  apply HoldsFrom.intro
  intro levels found v
  simp only [leads_statement, hw, leads_returnStatement, if_true, reduceCtorEq, if_false,
    he.exists_iff]
  constructor
  · rintro ⟨_, rfl, hm, rfl, rfl⟩
    exact ⟨hm, rfl, rfl⟩
  · rintro ⟨hm, rfl, rfl⟩
    exact ⟨_, rfl, hm, rfl, rfl⟩

theorem exactly_expressionStatement (hsemi : w.current.kind ≠ .semicolon)
    (hlet : w.current.kind ≠ .letWord) (hreturn : w.current.kind ≠ .returnWord)
    (he : Exactly (whole config) w m e x) :
    Exactly (fun levels => statement (expression { config } levels)) w m
      (some (.expressionStatement w.current e)) x.pastSemicolon := by
  apply HoldsFrom.intro
  intro levels found v
  simp only [leads_statement, hsemi, hlet, hreturn, leads_expressionStatement, if_false,
    he.exists_iff]
  constructor
  · rintro ⟨_, rfl, hm, rfl, rfl⟩
    exact ⟨hm, rfl, rfl⟩
  · rintro ⟨hm, rfl, rfl⟩
    exact ⟨_, rfl, hm, rfl, rfl⟩

end Statements

end Grammar

end MonkeyLang
