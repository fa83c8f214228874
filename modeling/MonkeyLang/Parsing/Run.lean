import MonkeyLang.Parsing.Window

/-!
# Steps of a parse

A run moves a window along the tokens, leaves a trace of what happened, and yields a value. A parse
is a run that may fail; it fails only by rejecting a token, which leaves a diagnostic in the trace.
Both are monads: traces of successive steps are joined, and a parse stops at its first failing step,
leaving the window where that step left it.
-/

namespace MonkeyLang

/-- What happens in the course of a parse. -/
inductive Event where
  /-- A token was taken from the source into view. -/
  | took (token : Token)
  /-- A problem was found. -/
  | noted (diagnostic : Diagnostic)
  /-- A statement that began at this token was given up. -/
  | dropped (token : Token)
  deriving DecidableEq, Repr

namespace Event

/-- The diagnostics of a trace, in order. -/
def diagnostics (trace : List Event) : List Diagnostic :=
  trace.filterMap fun
    | noted d => some d
    | _ => none

@[simp] theorem diagnostics_append (a b : List Event) :
    diagnostics (a ++ b) = diagnostics a ++ diagnostics b :=
  List.filterMap_append

@[simp] theorem diagnostics_nil : diagnostics [] = [] := rfl

@[simp] theorem diagnostics_took (t : Token) (trace : List Event) :
    diagnostics (took t :: trace) = diagnostics trace := rfl

@[simp] theorem diagnostics_noted (d : Diagnostic) (trace : List Event) :
    diagnostics (noted d :: trace) = d :: diagnostics trace := rfl

@[simp] theorem diagnostics_dropped (t : Token) (trace : List Event) :
    diagnostics (dropped t :: trace) = diagnostics trace := rfl

/-- The event as it happens one level of nesting further in. -/
def nested : Event → Event
  | noted d => noted d.nested
  | e => e

@[simp] theorem diagnostics_map_nested (trace : List Event) :
    diagnostics (trace.map nested) = (diagnostics trace).map Diagnostic.nested := by
  induction trace with
  | nil => rfl
  | cons e trace ih => cases e <;> simp [nested, ih]

end Event

/-- A value, the window where the run ended, and the trace. -/
structure Outcome (α : Type) where
  value : α
  window : Window
  trace : List Event
  deriving Repr

/-- A step that moves a window and yields a value. -/
def Run (α : Type) : Type := Window → Outcome α

namespace Run

instance : Monad Run where
  pure a := fun w => ⟨a, w, []⟩
  bind x f := fun w =>
    let o := x w
    let p := f o.value o.window
    ⟨p.value, p.window, o.trace ++ p.trace⟩
  map f x := fun w =>
    let o := x w
    ⟨f o.value, o.window, o.trace⟩

theorem map_apply {α β : Type} (f : α → β) (x : Run α) (w : Window) :
    (f <$> x) w = ⟨f (x w).value, (x w).window, (x w).trace⟩ := rfl

theorem pure_apply {α : Type} (a : α) (w : Window) : (pure a : Run α) w = ⟨a, w, []⟩ := rfl

theorem bind_apply {α β : Type} (x : Run α) (f : α → Run β) (w : Window) :
    (x >>= f) w =
      ⟨(f (x w).value (x w).window).value, (f (x w).value (x w).window).window,
        (x w).trace ++ (f (x w).value (x w).window).trace⟩ := rfl

private theorem map_eq_bind_pure {α β : Type} (f : α → β) (x : Run α) :
    (x >>= fun a => pure (f a)) = f <$> x := by
  funext w
  change (⟨f (x w).value, (x w).window, (x w).trace ++ []⟩ : Outcome β) = _
  rw [List.append_nil, map_apply]

instance : LawfulMonad Run := LawfulMonad.mk' Run
  (fun _ => rfl)
  (fun _ _ => rfl)
  (fun x f g => by
    funext w
    simp only [bind_apply, List.append_assoc])
  (fun _ _ => rfl)
  (fun _ _ => rfl)
  (fun _ _ => rfl)
  map_eq_bind_pure
  (fun _ _ => rfl)

/-- The current token. -/
def current : Run Token := fun w => ⟨w.current, w, []⟩

/-- The token after the current one. -/
def peek : Run Token := fun w => ⟨w.peek, w, []⟩

/-- Moves on by one token. -/
def advance : Run Unit := fun w => ⟨(), w.advance, [.took w.advance.peek]⟩

/-- Notes a problem of the token at a spot. -/
def note (spot : Spot) (problem : Problem) : Run Unit := fun w =>
  ⟨(), w, [.noted (w.blame spot problem)]⟩

/-- Moves onto the next token if it has a given kind; whether it had. -/
def take (kind : Kind) : Run Bool := do
  if (← peek).kind = kind then
    advance
    pure true
  else
    pure false

theorem take_apply (kind : Kind) (w : Window) :
    take kind w =
      if w.peek.kind = kind then ⟨true, w.advance, [.took w.advance.peek]⟩
      else ⟨false, w, []⟩ := by
  by_cases h : w.peek.kind = kind <;>
    simp [take, bind_apply, map_apply, pure_apply, peek, advance, h]

end Run

/-- A run that may fail. -/
abbrev Parse (α : Type) : Type := OptionT Run α

namespace Parse

/-- The current token. -/
def current : Parse Token := Run.current

/-- The token after the current one. -/
def peek : Parse Token := Run.peek

/-- Moves on by one token. -/
def advance : Parse Unit := Run.advance

/-- Fails, blaming the token at a spot. -/
def reject {α : Type} (spot : Spot) (problem : Problem) : Parse α :=
  OptionT.mk do
    Run.note spot problem
    pure none

/-- Moves onto the next token if it has a given kind, and otherwise fails and blames it. -/
def expect (kind : Kind) : Parse Unit := do
  if (← peek).kind = kind then
    advance
  else
    reject .peek (.expected kind)

/-- A sequence that a parse yields, with one more value in front. -/
def cons {α : Type} (a : α) (p : Parse (List α)) : Parse (List α) :=
  OptionT.mk (Option.map (a :: ·) <$> p.run)

/-- A parse that takes one level of nesting, and gives it back at its end. -/
def nested {α : Type} (p : Parse α) : Parse α :=
  OptionT.mk fun w =>
    let o := p.run w
    ⟨o.value, o.window, o.trace.map Event.nested⟩

/-- A parse after which a semicolon may follow, whether the parse succeeded or not. -/
def terminated {α : Type} (p : Parse α) : Parse α :=
  OptionT.mk do
    let a ← p.run
    let _ ← Run.take .semicolon
    pure a

/-- A parse whose failure only means that a statement is given up. -/
def recover {α : Type} (p : Parse α) : Run (Option α) := do
  let first ← Run.current
  match ← p.run with
  | some a => pure (some a)
  | none => fun w => ⟨none, w, [.dropped first]⟩

/-! ### How parses run -/

variable {α β : Type}

theorem pure_apply (a : α) (w : Window) : (pure a : Parse α).run w = ⟨some a, w, []⟩ := rfl

/-- A parse goes on where the one before it succeeded, and stops where that one failed. -/
theorem bind_apply (p : Parse α) (f : α → Parse β) (w : Window) :
    (p >>= f).run w =
      match (p.run w).value with
      | some a =>
        ⟨((f a).run (p.run w).window).value, ((f a).run (p.run w).window).window,
          (p.run w).trace ++ ((f a).run (p.run w).window).trace⟩
      | none => ⟨none, (p.run w).window, (p.run w).trace⟩ := by
  rw [OptionT.run_bind]
  change (p.run >>= fun a? => a?.elim (pure none) fun a => (f a).run) w = _
  rw [Run.bind_apply]
  cases (p.run w).value with
  | none => simp [Run.pure_apply]
  | some a => rfl

theorem map_apply (f : α → β) (p : Parse α) (w : Window) :
    (f <$> p).run w = ⟨(p.run w).value.map f, (p.run w).window, (p.run w).trace⟩ := by
  rw [OptionT.run_map]
  rfl

/-- A run within a parse does not fail. -/
theorem lift_apply (x : Run α) (w : Window) :
    (liftM x : Parse α).run w = ⟨some (x w).value, (x w).window, (x w).trace⟩ := by
  change (x >>= fun a => pure (some a)) w = _
  simp [Run.bind_apply, Run.pure_apply]

theorem current_apply (w : Window) : current.run w = ⟨some w.current, w, []⟩ := rfl

theorem peek_apply (w : Window) : peek.run w = ⟨some w.peek, w, []⟩ := rfl

theorem advance_apply (w : Window) :
    advance.run w = ⟨some (), w.advance, [.took w.advance.peek]⟩ := rfl

theorem reject_apply (spot : Spot) (problem : Problem) (w : Window) :
    (reject spot problem : Parse α).run w = ⟨none, w, [.noted (w.blame spot problem)]⟩ := rfl

theorem expect_apply (kind : Kind) (w : Window) :
    (expect kind).run w =
      if w.peek.kind = kind then ⟨some (), w.advance, [.took w.advance.peek]⟩
      else ⟨none, w, [.noted (w.blame .peek (.expected kind))]⟩ := by
  by_cases h : w.peek.kind = kind <;>
    simp [expect, bind_apply, peek_apply, advance_apply, reject_apply, h]

theorem cons_apply (a : α) (p : Parse (List α)) (w : Window) :
    (cons a p).run w =
      ⟨(p.run w).value.map (a :: ·), (p.run w).window, (p.run w).trace⟩ := rfl

theorem nested_apply (p : Parse α) (w : Window) :
    (nested p).run w =
      ⟨(p.run w).value, (p.run w).window, (p.run w).trace.map Event.nested⟩ := rfl

theorem terminated_apply (p : Parse α) (w : Window) :
    (terminated p).run w =
      ⟨(p.run w).value, (Run.take .semicolon (p.run w).window).window,
        (p.run w).trace ++ (Run.take .semicolon (p.run w).window).trace⟩ := by
  change (p.run >>= fun a => Run.take .semicolon >>= fun _ => pure a) w = _
  simp [Run.bind_apply, Run.map_apply]

theorem recover_apply (p : Parse α) (w : Window) :
    recover p w =
      match (p.run w).value with
      | some a => ⟨some a, (p.run w).window, (p.run w).trace⟩
      | none => ⟨none, (p.run w).window, (p.run w).trace ++ [.dropped w.current]⟩ := by
  simp only [recover, Run.bind_apply, Run.current, List.nil_append]
  cases (p.run w).value <;> simp [Run.pure_apply]

theorem recover_window (p : Parse α) (w : Window) : (recover p w).window = (p.run w).window := by
  rw [recover_apply]
  cases (p.run w).value <;> rfl

theorem recover_value (p : Parse α) (w : Window) : (recover p w).value = (p.run w).value := by
  rw [recover_apply]
  cases (p.run w).value <;> rfl

end Parse

end MonkeyLang
