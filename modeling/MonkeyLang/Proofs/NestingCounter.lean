import MonkeyLang.Parsing.Program

/-!
# Levels of nesting as a counter

The grammar hands each operand the levels that are left for it, so no level has to be given back.
Here is the same grammar with one counter that is raised where a level is taken and set back where
an expression ends, however it ends. Beyond that a form does nothing about the counter. Main
statements: `expression_chain_countsAs`, by which from every count, also from one past the limit, an
expression goes as in the grammar and leaves the counter as it was, and the same for every form.
-/

namespace MonkeyLang

variable {α β : Type}

/-! ### Runs with a counter -/

/-- The diagnostic of a parse that begins so many levels in. -/
def Diagnostic.raised (k : Nat) (d : Diagnostic) : Diagnostic := { d with depth := d.depth + k }

namespace Event

/-- The event of a parse that begins so many levels in. -/
def raised (k : Nat) : Event → Event
  | noted d => noted (d.raised k)
  | e => e

theorem raised_nested (k : Nat) (e : Event) : e.nested.raised k = e.raised (k + 1) := by
  cases e with
  | noted d => simp [nested, raised, Diagnostic.nested, Diagnostic.raised, Nat.add_right_comm,
      Nat.add_assoc]
  | took t => rfl
  | dropped t => rfl

theorem map_raised_nested (k : Nat) (trace : List Event) :
    (trace.map nested).map (raised k) = trace.map (raised (k + 1)) := by
  rw [List.map_map]
  exact List.map_congr_left fun e _ => raised_nested k e

end Event

/-- A run that may read and change a counter. -/
abbrev CountedRun (α : Type) : Type := StateT Nat Run α

/-- A parse that may read and change a counter. -/
abbrev CountedParse (α : Type) : Type := OptionT (StateT Nat Run) α

/-- The outcome with a count at its end, if the count was `k` when it began. -/
def Outcome.counted (k l : Nat) (o : Outcome α) : Outcome (α × Nat) :=
  ⟨(o.value, l), o.window, o.trace.map (Event.raised k)⟩

/-- A run that has nothing to do with the counter. -/
def Run.counted (x : Run α) : CountedRun α := fun k w => (x w).counted k k

/-- A parse that has nothing to do with the counter. -/
def Parse.counted (p : Parse α) : CountedParse α := OptionT.mk (Run.counted p.run)

namespace Counting

/-- Takes one more level, and fails past the limit. -/
def enter (spot : Spot) : CountedParse Unit := do
  let k ← get
  set (k + 1)
  if maxNesting < k + 1 then
    (Parse.reject spot .nestedTooDeep).counted

/-- A parse at whose end the counter is set back to where it was. -/
def restoring (q : CountedParse α) : CountedParse α :=
  OptionT.mk do
    let k ← get
    let a ← q.run
    set k
    pure a

def cons (a : α) (q : CountedParse (List α)) : CountedParse (List α) :=
  OptionT.mk (Option.map (a :: ·) <$> q.run)

def terminated (q : CountedParse α) : CountedParse α :=
  OptionT.mk do
    let a ← q.run
    let _ ← (Run.take .semicolon).counted
    pure a

def recover (q : CountedParse α) : CountedRun (Option α) := do
  let first ← Run.current.counted
  match ← q.run with
  | some a => pure (some a)
  | none => Run.counted fun w => ⟨none, w, [.dropped first]⟩

theorem run_bind_apply (x : CountedRun α) (f : α → CountedRun β) (k : Nat) (w : Window) :
    (x >>= f) k w =
      ⟨(f (x k w).value.1 (x k w).value.2 (x k w).window).value,
        (f (x k w).value.1 (x k w).value.2 (x k w).window).window,
        (x k w).trace ++ (f (x k w).value.1 (x k w).value.2 (x k w).window).trace⟩ := rfl

theorem bind_apply (q : CountedParse α) (f : α → CountedParse β) (k : Nat) (w : Window) :
    (q >>= f).run k w =
      match (q.run k w).value.1 with
      | some a =>
        ⟨((f a).run (q.run k w).value.2 (q.run k w).window).value,
          ((f a).run (q.run k w).value.2 (q.run k w).window).window,
          (q.run k w).trace ++ ((f a).run (q.run k w).value.2 (q.run k w).window).trace⟩
      | none => ⟨(none, (q.run k w).value.2), (q.run k w).window, (q.run k w).trace⟩ := by
  rw [OptionT.run_bind]
  change (q.run >>= fun a? => a?.elim (pure none) fun a => (f a).run) k w = _
  rw [run_bind_apply]
  cases (q.run k w).value.1 with
  | none =>
    change (⟨(none, (q.run k w).value.2), (q.run k w).window, (q.run k w).trace ++ []⟩ :
      Outcome (Option β × Nat)) = _
    rw [List.append_nil]
  | some a => rfl

theorem enter_apply (spot : Spot) (k : Nat) (w : Window) :
    (enter spot).run k w =
      if maxNesting < k + 1 then
        ⟨(none, k + 1), w, [.noted ((w.blame spot .nestedTooDeep).raised (k + 1))]⟩
      else ⟨(some (), k + 1), w, []⟩ := by
  have hget : (get : CountedParse Nat).run k w = ⟨(some k, k), w, []⟩ := rfl
  have hset : (set (k + 1) : CountedParse Unit).run k w = ⟨(some (), k + 1), w, []⟩ := rfl
  rw [enter, bind_apply, hget]
  simp only [bind_apply, hset, List.nil_append]
  split <;> rfl

theorem restoring_apply (q : CountedParse α) (k : Nat) (w : Window) :
    (restoring q).run k w = ⟨((q.run k w).value.1, k), (q.run k w).window, (q.run k w).trace⟩ := by
  change (⟨((q.run k w).value.1, k), (q.run k w).window, [] ++ ((q.run k w).trace ++ ([] ++ []))⟩ :
    Outcome (Option α × Nat)) = _
  simp

end Counting

/-! ### Runs that leave the counter as it was -/

/-- From count `k` the second run goes like the first one and leaves the counter as it was. -/
def Run.CountsAs (k : Nat) (x : Run α) (y : CountedRun α) : Prop :=
  ∀ w, y k w = (x w).counted k k

/-- From count `k` the second parse goes like the first one and leaves the counter as it was. -/
def Parse.CountsAs (k : Nat) (p : Parse α) (q : CountedParse α) : Prop :=
  Run.CountsAs k p.run q.run

/-- From count `k` the second parse goes like the first one, and leaves the counter anywhere. -/
def Parse.CountsFrom (k : Nat) (p : Parse α) (q : CountedParse α) : Prop :=
  ∀ w, ∃ l, q.run k w = (p.run w).counted k l

namespace Run.CountsAs

variable {k : Nat} {x : Run α} {y : CountedRun α}

theorem counted (x : Run α) : CountsAs k x x.counted := fun _ => rfl

theorem pure (a : α) : CountsAs k (pure a) (Pure.pure a : CountedRun α) := fun _ => rfl

theorem bind {f : α → Run β} {g : α → CountedRun β} (h : CountsAs k x y)
    (hfg : ∀ a, CountsAs k (f a) (g a)) : CountsAs k (x >>= f) (y >>= g) := by
  intro w
  rw [Counting.run_bind_apply, h w, Run.bind_apply]
  simp only [Outcome.counted, hfg _ _, List.map_append]

/-- Behind a run that has nothing to do with the counter, what follows it decides. -/
theorem after (x : Run α) {f : α → Run β} {g : α → CountedRun β}
    (hfg : ∀ a, CountsAs k (f a) (g a)) : CountsAs k (x >>= f) (x.counted >>= g) :=
  (counted x).bind hfg

theorem map (f : α → β) (h : CountsAs k x y) : CountsAs k (f <$> x) (f <$> y) := by
  rw [map_eq_pure_bind, map_eq_pure_bind]
  exact h.bind fun a => .pure _

end Run.CountsAs

namespace Parse.CountsAs

variable {k : Nat} {p : Parse α} {q : CountedParse α}

theorem counted (p : Parse α) : CountsAs k p p.counted := Run.CountsAs.counted _

theorem pure (a : α) : CountsAs k (pure a) (Pure.pure a : CountedParse α) := fun _ => rfl

theorem bind {f : α → Parse β} {g : α → CountedParse β} (h : CountsAs k p q)
    (hfg : ∀ a, CountsAs k (f a) (g a)) : CountsAs k (p >>= f) (q >>= g) := by
  intro w
  rw [Counting.bind_apply, h w, Parse.bind_apply]
  simp only [Outcome.counted]
  cases (p.run w).value with
  | none => rfl
  | some a =>
    dsimp only
    rw [hfg a _, List.map_append]
    rfl

/-- Behind a parse that has nothing to do with the counter, what follows it decides. -/
theorem after (p : Parse α) {f : α → Parse β} {g : α → CountedParse β}
    (hfg : ∀ a, CountsAs k (f a) (g a)) : CountsAs k (p >>= f) (p.counted >>= g) :=
  (counted p).bind hfg

theorem map (f : α → β) (h : CountsAs k p q) : CountsAs k (f <$> p) (f <$> q) := by
  rw [map_eq_pure_bind, map_eq_pure_bind]
  exact h.bind fun a => .pure _

theorem cons (a : α) {p : Parse (List α)} {q : CountedParse (List α)} (h : CountsAs k p q) :
    CountsAs k (Parse.cons a p) (Counting.cons a q) :=
  Run.CountsAs.map _ h

theorem lift {x : Run α} {y : CountedRun α} (h : Run.CountsAs k x y) :
    CountsAs k (liftM x) (liftM y : CountedParse α) :=
  Run.CountsAs.bind h fun _ => .pure _

theorem terminated (h : CountsAs k p q) :
    CountsAs k (Parse.terminated p) (Counting.terminated q) := by
  apply Run.CountsAs.bind h
  intro a?
  apply Run.CountsAs.after (Run.take .semicolon)
  intro taken
  exact .pure a?

theorem recover (h : CountsAs k p q) :
    Run.CountsAs k (Parse.recover p) (Counting.recover q) := by
  apply Run.CountsAs.after Run.current
  intro first
  apply Run.CountsAs.bind h
  intro a?
  cases a? with
  | none => exact .counted _
  | some a => exact .pure _

theorem countsFrom (h : CountsAs k p q) : CountsFrom k p q := fun w => ⟨k, h w⟩

end Parse.CountsAs

namespace Parse.CountsFrom

variable {k : Nat} {p : Parse α} {q : CountedParse α}

theorem bind {p : Parse β} {q : CountedParse β} {f : β → Parse α} {g : β → CountedParse α}
    (h : CountsAs k p q) (hfg : ∀ b, CountsFrom k (f b) (g b)) :
    CountsFrom k (p >>= f) (q >>= g) := by
  intro w
  rw [Counting.bind_apply, h w, Parse.bind_apply]
  simp only [Outcome.counted]
  cases (p.run w).value with
  | none => exact ⟨k, rfl⟩
  | some b =>
    obtain ⟨l, hl⟩ := hfg b (p.run w).window
    refine ⟨l, ?_⟩
    dsimp only
    rw [hl, List.map_append]
    rfl

/-- Behind a parse that has nothing to do with the counter, what follows it decides. -/
theorem after (p : Parse β) {f : β → Parse α} {g : β → CountedParse α}
    (hfg : ∀ b, CountsFrom k (f b) (g b)) : CountsFrom k (p >>= f) (p.counted >>= g) :=
  bind (.counted p) hfg

/-- Up to the limit, taking a level raises the counter. -/
theorem enter {spot : Spot} (hk : k < maxNesting) (h : CountsFrom (k + 1) p q) :
    CountsFrom k (Parse.nested p) (Counting.enter spot >>= fun _ => q) := by
  intro w
  obtain ⟨l, hl⟩ := h w
  refine ⟨l, ?_⟩
  rw [Counting.bind_apply, Counting.enter_apply, if_neg (by omega)]
  dsimp only
  rw [hl, Parse.nested_apply, Outcome.counted, Outcome.counted, Event.map_raised_nested]
  rfl

/-- Past the limit, taking a level fails. -/
theorem enter_of_le {spot : Spot} (hk : maxNesting ≤ k) (q : CountedParse α) :
    CountsFrom k (Parse.nested (Parse.reject spot .nestedTooDeep))
      (Counting.enter spot >>= fun _ => q) := by
  intro w
  refine ⟨k + 1, ?_⟩
  rw [Counting.bind_apply, Counting.enter_apply, if_pos (by omega)]
  simp [Parse.nested_apply, Parse.reject_apply, Outcome.counted, Event.nested, Event.raised,
    Diagnostic.nested, Diagnostic.raised, Nat.add_assoc, Nat.add_comm]

/-- Wherever a parse has left the counter, setting it back is all that is needed. -/
theorem restoring (h : CountsFrom k p q) : CountsAs k p (Counting.restoring q) := by
  intro w
  obtain ⟨l, hl⟩ := h w
  rw [Counting.restoring_apply, hl]
  rfl

end Parse.CountsFrom

/-! ### The grammar with a counter

Form by form as in `Grammar`. The counter is touched in `expression` and `chain` only, and set back
only where an expression ends: a chain leaves it raised, and so does every form that fails. -/

namespace Counting

open Parse (current peek advance expect reject)
open Grammar (name numeral truth parameters continuationAhead)

/-- How a form parses its operands, given the precedence above which operators belong to them. -/
abbrev Operand : Type := Precedence → CountedParse Node

def statementsWithin (stop : Kind → Bool) (statement : CountedParse (Option Node)) :
    Nat → CountedRun (List Node)
  | 0 => pure []
  | n + 1 => do
    if stop (← Run.current.counted).kind then
      pure []
    else
      let found ← recover statement
      Run.advance.counted
      (found.join.toList ++ ·) <$> statementsWithin stop statement n

def statementsUntil (stop : Kind → Bool) (statement : CountedParse (Option Node)) :
    CountedRun (List Node) :=
  fun k w => statementsWithin stop statement w.size k w

def itemsWithin (item : CountedParse Node) : Nat → CountedParse (List Node)
  | 0 => pure []
  | n + 1 => do
    if (← peek.counted).kind = .comma then
      advance.counted
      let first ← item
      cons first (itemsWithin item n)
    else
      pure []

def moreItems (item : CountedParse Node) : CountedParse (List Node) :=
  OptionT.mk fun k w => (itemsWithin item w.size).run k w

def commaList (item : CountedParse Node) (close : Kind) : CountedParse (List Node) := do
  if (← peek.counted).kind = close then
    advance.counted
    pure []
  else
    let first ← item
    let more ← moreItems item
    (expect close).counted
    pure (first :: more)

def letStatement (operand : Operand) : CountedParse Node := do
  let t ← current.counted
  (expect .ident).counted
  let bound ← name.counted
  (expect .assign).counted
  advance.counted
  let value ← terminated (operand .lowest)
  pure (.letStatement t bound value)

def returnStatement (operand : Operand) : CountedParse Node := do
  let t ← current.counted
  advance.counted
  let value ← terminated (operand .lowest)
  pure (.returnStatement t value)

def expressionStatement (operand : Operand) : CountedParse Node := do
  let t ← current.counted
  let expression ← terminated (operand .lowest)
  pure (.expressionStatement t expression)

def statement (operand : Operand) : CountedParse (Option Node) := do
  match (← current.counted).kind with
  | .letWord => some <$> letStatement operand
  | .returnWord => some <$> returnStatement operand
  | .semicolon => pure none
  | _ => some <$> expressionStatement operand

def block (operand : Operand) : CountedParse Node := do
  let t ← current.counted
  advance.counted
  let statements ← statementsUntil (fun k => k == .rbrace || k == .eof) (statement operand)
  if (← current.counted).kind = .rbrace then
    pure (.block t statements)
  else
    (reject .current (.expected .rbrace)).counted

def unary (operand : Operand) : CountedParse Node := do
  let t ← current.counted
  advance.counted
  let right ← operand .unary
  pure (.unary t t.literal right)

def group (operand : Operand) : CountedParse Node := do
  advance.counted
  let inner ← operand .lowest
  (expect .rparen).counted
  pure inner

def conditional (operand : Operand) : CountedParse Node := do
  let t ← current.counted
  (expect .lparen).counted
  advance.counted
  let condition ← operand .lowest
  (expect .rparen).counted
  (expect .lbrace).counted
  let consequence ← block operand
  if ← (Run.take .elseWord).counted then
    (expect .lbrace).counted
    let alternative ← block operand
    pure (.conditional t condition consequence (some alternative))
  else
    pure (.conditional t condition consequence none)

def function (operand : Operand) : CountedParse Node := do
  let t ← current.counted
  (expect .lparen).counted
  let parameters ← parameters.counted
  (expect .lbrace).counted
  let body ← block operand
  pure (.function t parameters body)

def opening (config : Config) (operand : Operand) : Opening → CountedParse Node
  | .name => name.counted
  | .numeral => (numeral config).counted
  | .truth => truth.counted
  | .unary => unary operand
  | .group => group operand
  | .conditional => conditional operand
  | .function => function operand

def binary (operand : Operand) (left : Node) : CountedParse Node := do
  let t ← current.counted
  advance.counted
  let right ← operand t.kind.precedence
  pure (.binary t left t.literal right)

def arguments (operand : Operand) (close : Kind) : CountedParse (List Node) :=
  commaList (do advance.counted; operand .lowest) close

def call (operand : Operand) (callee : Node) : CountedParse Node := do
  let t ← current.counted
  let arguments ← arguments operand .rparen
  pure (.call t callee arguments)

def continuation (operand : Operand) (left : Node) : Continuation → CountedParse Node
  | .binary => binary operand left
  | .call => call operand left

mutual

/-- An expression. The counter bounds how deep it goes; `n` is only there to see that it ends. -/
def expression (setup : Setup) : Nat → Operand
  | 0, _ => failure
  | n + 1, p => restoring do
    enter .current
    match setup.rules.opening? (← current.counted).kind with
    | none => (reject .current .noExpression).counted
    | some rule =>
      let left ← opening setup.config (expression setup n) rule
      chain setup n p left

/-- The operators that follow, each of which takes a level that the expression gives back. -/
def chain (setup : Setup) : Nat → Precedence → Node → CountedParse Node
  | 0, _, _ => failure
  | n + 1, p, left => do
    match ← (continuationAhead setup.rules p).counted with
    | none => pure left
    | some rule =>
      enter .peek
      advance.counted
      let wider ← continuation (expression setup n) left rule
      chain setup n p wider

end

def program (operand : Operand) : CountedRun Node := do
  let statements ← statementsUntil (· == .eof) (statement operand)
  pure (.program statements)

end Counting

/-! ### Forms leave the counter as it was -/

namespace Grammar

open Parse (current peek advance expect)

variable {k : Nat}

theorem statementsUntil_countsAs {p : Parse (Option Node)} {q : CountedParse (Option Node)}
    (h : p.CountsAs k q) (stop : Kind → Bool) :
    Run.CountsAs k (statementsUntil stop p) (Counting.statementsUntil stop q) := by
  have within (n : Nat) :
      Run.CountsAs k (statementsWithin stop p n) (Counting.statementsWithin stop q n) := by
    induction n with
    | zero => exact .pure _
    | succ n ih =>
      apply Run.CountsAs.after Run.current
      intro t
      split
      · exact .pure _
      · apply h.recover.bind
        intro found
        apply Run.CountsAs.after Run.advance
        intro _
        exact ih.map _
  exact fun w => within w.size w

theorem commaList_countsAs {item : Parse Node} {item' : CountedParse Node}
    (h : item.CountsAs k item') (close : Kind) :
    (commaList item close).CountsAs k (Counting.commaList item' close) := by
  have within (n : Nat) : (itemsWithin item n).CountsAs k (Counting.itemsWithin item' n) := by
    induction n with
    | zero => exact .pure _
    | succ n ih =>
      apply Parse.CountsAs.after peek
      intro t
      split
      · apply Parse.CountsAs.after advance
        intro _
        apply h.bind
        intro first
        exact ih.cons first
      · exact .pure _
  have hmore : (moreItems item).CountsAs k (Counting.moreItems item') := fun w => within w.size w
  apply Parse.CountsAs.after peek
  intro t
  split
  · apply Parse.CountsAs.after advance
    intro _
    exact .pure _
  · apply h.bind
    intro first
    apply hmore.bind
    intro more
    apply Parse.CountsAs.after (expect close)
    intro _
    exact .pure _

section Forms

variable {operand : Operand} {operand' : Counting.Operand}
  (hop : ∀ p, (operand p).CountsAs k (operand' p))

include hop

theorem letStatement_countsAs :
    (letStatement operand).CountsAs k (Counting.letStatement operand') := by
  apply Parse.CountsAs.after current
  intro t
  apply Parse.CountsAs.after (expect .ident)
  intro _
  apply Parse.CountsAs.after name
  intro bound
  apply Parse.CountsAs.after (expect .assign)
  intro _
  apply Parse.CountsAs.after advance
  intro _
  apply (hop .lowest).terminated.bind
  intro value
  exact .pure _

theorem returnStatement_countsAs :
    (returnStatement operand).CountsAs k (Counting.returnStatement operand') := by
  apply Parse.CountsAs.after current
  intro t
  apply Parse.CountsAs.after advance
  intro _
  apply (hop .lowest).terminated.bind
  intro value
  exact .pure _

theorem expressionStatement_countsAs :
    (expressionStatement operand).CountsAs k (Counting.expressionStatement operand') := by
  apply Parse.CountsAs.after current
  intro t
  apply (hop .lowest).terminated.bind
  intro e
  exact .pure _

theorem statement_countsAs : (statement operand).CountsAs k (Counting.statement operand') := by
  apply Parse.CountsAs.after current
  intro t
  cases t.kind with
  | letWord => exact (letStatement_countsAs hop).map _
  | returnWord => exact (returnStatement_countsAs hop).map _
  | semicolon => exact .pure _
  | _ => exact (expressionStatement_countsAs hop).map _

theorem block_countsAs : (block operand).CountsAs k (Counting.block operand') := by
  have hstatements := statementsUntil_countsAs (statement_countsAs hop)
    fun kind => kind == .rbrace || kind == .eof
  apply Parse.CountsAs.after current
  intro t
  apply Parse.CountsAs.after advance
  intro _
  apply (Parse.CountsAs.lift hstatements).bind
  intro statements
  apply Parse.CountsAs.after current
  intro last
  split
  · exact .pure _
  · exact .counted _

theorem arguments_countsAs (close : Kind) :
    (arguments operand close).CountsAs k (Counting.arguments operand' close) := by
  apply commaList_countsAs
  apply Parse.CountsAs.after advance
  intro _
  exact hop .lowest

theorem conditional_countsAs :
    (conditional operand).CountsAs k (Counting.conditional operand') := by
  have hblock := block_countsAs hop
  apply Parse.CountsAs.after current
  intro t
  apply Parse.CountsAs.after (expect .lparen)
  intro _
  apply Parse.CountsAs.after advance
  intro _
  apply (hop .lowest).bind
  intro condition
  apply Parse.CountsAs.after (expect .rparen)
  intro _
  apply Parse.CountsAs.after (expect .lbrace)
  intro _
  apply hblock.bind
  intro consequence
  apply (Parse.CountsAs.lift (.counted (Run.take .elseWord))).bind
  intro another
  split
  · apply Parse.CountsAs.after (expect .lbrace)
    intro _
    apply hblock.bind
    intro alternative
    exact .pure _
  · exact .pure _

theorem function_countsAs : (function operand).CountsAs k (Counting.function operand') := by
  apply Parse.CountsAs.after current
  intro t
  apply Parse.CountsAs.after (expect .lparen)
  intro _
  apply Parse.CountsAs.after parameters
  intro ps
  apply Parse.CountsAs.after (expect .lbrace)
  intro _
  apply (block_countsAs hop).bind
  intro body
  exact .pure _

theorem opening_countsAs (config : Config) (form : Opening) :
    (opening config operand form).CountsAs k (Counting.opening config operand' form) := by
  cases form with
  | name | numeral | truth => exact .counted _
  | unary =>
    apply Parse.CountsAs.after current
    intro t
    apply Parse.CountsAs.after advance
    intro _
    apply (hop .unary).bind
    intro right
    exact .pure _
  | group =>
    apply Parse.CountsAs.after advance
    intro _
    apply (hop .lowest).bind
    intro inner
    apply Parse.CountsAs.after (expect .rparen)
    intro _
    exact .pure _
  | conditional => exact conditional_countsAs hop
  | function => exact function_countsAs hop

theorem binary_countsAs (left : Node) :
    (binary operand left).CountsAs k (Counting.binary operand' left) := by
  apply Parse.CountsAs.after current
  intro t
  apply Parse.CountsAs.after advance
  intro _
  apply (hop t.kind.precedence).bind
  intro right
  exact .pure _

theorem call_countsAs (callee : Node) :
    (call operand callee).CountsAs k (Counting.call operand' callee) := by
  apply Parse.CountsAs.after current
  intro t
  apply (arguments_countsAs hop .rparen).bind
  intro ns
  exact .pure _

theorem continuation_countsAs (left : Node) (form : Continuation) :
    (continuation operand left form).CountsAs k (Counting.continuation operand' left form) := by
  cases form with
  | binary => exact binary_countsAs hop left
  | call => exact call_countsAs hop left

end Forms

/-- An expression takes as many levels as are left up to the limit, and leaves the counter as it
was; the operators of a chain leave it to the expression that they belong to. -/
theorem expression_chain_countsAs (setup : Setup) (n : Nat) :
    (∀ k p, 0 < n → maxNesting < n + k →
        (expression setup (maxNesting - k) p).CountsAs k (Counting.expression setup n p)) ∧
      ∀ k p left, k ≤ maxNesting → maxNesting < n + k →
        (chain setup (maxNesting - k) p left).CountsFrom k (Counting.chain setup n p left) := by
  induction n with
  | zero =>
    constructor
    · intro k p hpos
      exact absurd hpos (Nat.lt_irrefl 0)
    · intro k p left hle hlt
      omega
  | succ n ih =>
    obtain ⟨hexpression, hchain⟩ := ih
    constructor
    · intro k p _ hlt
      rw [Counting.expression]
      apply Parse.CountsFrom.restoring
      by_cases hk : k < maxNesting
      · rw [show maxNesting - k = maxNesting - (k + 1) + 1 by omega, expression]
        apply Parse.CountsFrom.enter hk
        apply Parse.CountsFrom.after current
        intro t
        cases setup.rules.opening? t.kind with
        | none => exact (Parse.CountsAs.counted _).countsFrom
        | some rule =>
          have hop p := hexpression (k + 1) p (by omega) (by omega)
          apply Parse.CountsFrom.bind (opening_countsAs hop setup.config rule)
          intro left
          exact hchain (k + 1) p left hk (by omega)
      · rw [show maxNesting - k = 0 by omega, expression]
        exact .enter_of_le (by omega) _
    · intro k p left hle hlt
      rw [Counting.chain]
      by_cases hk : k < maxNesting
      · rw [show maxNesting - k = maxNesting - (k + 1) + 1 by omega, chain]
        apply Parse.CountsFrom.after (continuationAhead setup.rules p)
        intro rule
        cases rule with
        | none => exact (Parse.CountsAs.pure _).countsFrom
        | some rule =>
          apply Parse.CountsFrom.enter hk
          apply Parse.CountsFrom.after advance
          intro _
          have hop p := hexpression (k + 1) p (by omega) (by omega)
          apply Parse.CountsFrom.bind (continuation_countsAs hop left rule)
          intro wider
          exact hchain (k + 1) p wider hk (by omega)
      · rw [show maxNesting - k = 0 by omega, chain]
        apply Parse.CountsFrom.after (continuationAhead setup.rules p)
        intro rule
        cases rule with
        | none => exact (Parse.CountsAs.pure _).countsFrom
        | some rule => exact .enter_of_le (by omega) _

end Grammar

end MonkeyLang
