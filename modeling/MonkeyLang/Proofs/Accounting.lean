import MonkeyLang.Proofs.FormResults
import MonkeyLang.Parsing.Program

/-!
# One diagnostic for each statement given up

A failing form leaves one diagnostic, and whatever it is part of fails with it and leaves no other,
up to the statement that is given up. Statements in blocks settle their own accounts. Main
statement: `length_diagnostics_parse`, which holds by any rules.
-/

namespace MonkeyLang

namespace Event

/-- The first tokens of the statements that were given up, in the order in which that happened. -/
def givenUp (trace : List Event) : List Token :=
  trace.filterMap fun
    | dropped t => some t
    | _ => none

@[simp] theorem givenUp_append (a b : List Event) : givenUp (a ++ b) = givenUp a ++ givenUp b :=
  List.filterMap_append

@[simp] theorem givenUp_nil : givenUp [] = [] := rfl

@[simp] theorem givenUp_took (t : Token) (trace : List Event) :
    givenUp (took t :: trace) = givenUp trace := rfl

@[simp] theorem givenUp_noted (d : Diagnostic) (trace : List Event) :
    givenUp (noted d :: trace) = givenUp trace := rfl

@[simp] theorem givenUp_dropped (t : Token) (trace : List Event) :
    givenUp (dropped t :: trace) = t :: givenUp trace := rfl

@[simp] theorem givenUp_map_nested (trace : List Event) :
    givenUp (trace.map nested) = givenUp trace := by
  induction trace with
  | nil => rfl
  | cons e trace ih => cases e <;> simp [nested, ih]

end Event

/-- A statement is given up if it yields no node and does not stand at a semicolon. -/
theorem Grammar.givenUp_recover_statement (operand : Grammar.Operand) (w : Window) :
    Event.givenUp (Parse.recover (Grammar.statement operand) w).trace =
      Event.givenUp ((Grammar.statement operand).run w).trace ++
        if (Parse.recover (Grammar.statement operand) w).value.join = none ∧
          w.current.kind ≠ .semicolon then [w.current] else [] := by
  rw [Parse.recover_value, Parse.recover_apply]
  cases h : ((Grammar.statement operand).run w).value with
  | none => simp [StepInvariant.ne_semicolon_of_statement operand w h]
  | some found =>
    by_cases hw : w.current.kind = .semicolon
    · simp [hw]
    · have hleads : (Grammar.statement operand).Leads Anyhow w found _ := ⟨h, rfl, trivial⟩
      rw [Grammar.leads_statement, if_neg hw] at hleads
      obtain ⟨n, rfl, -⟩ := hleads
      simp

/-- A run leaves one diagnostic for each statement given up, and one more if it fails. -/
theorem StepInvariant.balanced :
    StepInvariant fun _ failed trace _ =>
      (Event.diagnostics trace).length = (Event.givenUp trace).length + failed.toNat where
  stay _ := rfl
  advance _ := rfl
  reject _ _ _ _ := rfl
  andThen ha hb := by
    simp only [Event.diagnostics_append, Event.givenUp_append, List.length_append, ha, hb,
      Bool.toNat_false]
    omega
  nested h := by simpa using h
  finish ha hb := by
    simp only [Event.diagnostics_append, Event.givenUp_append, List.length_append, ha, hb,
      Bool.toNat_false, Bool.toNat_true]
    omega
  drop _ h := by simpa using h

/-- No statement that is given up begins with a semicolon. -/
theorem StepInvariant.keepsSemicolons :
    StepInvariant fun _ _ trace _ => ∀ t ∈ Event.givenUp trace, t.kind ≠ .semicolon :=
  TraceInvariant.stepInvariant
    { stay := fun _ => by simp
      advance := fun _ => by simp
      reject := fun _ _ _ _ => by simp
      append := by
        intro w a u b v ha hb
        simp only [Event.givenUp_append, List.mem_append]
        rintro t (ht | ht)
        · exact ha t ht
        · exact hb t ht
      nested := fun h => by simpa using h
      drop := by
        intro w a v hne h
        simp only [Event.givenUp_append, List.mem_append, Event.givenUp_dropped,
          Event.givenUp_nil, List.mem_singleton]
        rintro t (ht | rfl)
        · exact h t ht
        · exact hne }

/-- What a program's statements respect, a whole program respects. -/
theorem StepInvariant.program {I : Window → Bool → List Event → Window → Prop}
    (hI : StepInvariant I) (setup : Setup) (levels : Nat) :
    Run.Respects I (Grammar.program setup levels) :=
  hI.run_bind (hI.statementsUntil _ (hI.statement (hI.expression setup levels))
    (ne_semicolon_of_statement _)) fun _ => hI.run_pure _

/-- What happens in the course of a whole parse. -/
def parseTrace (setup : Setup) (source : Source) : List Event :=
  (Grammar.program setup maxNesting (.ofSource source)).trace

/-- By any settings and rules a parse records as many diagnostics as there are statements, at any
depth of blocks, that are given up. These are the ones that yield no node, apart from a semicolon on
its own. -/
theorem length_diagnostics_parse (setup : Setup) (source : Source) :
    (parse setup source).diagnostics.length = (Event.givenUp (parseTrace setup source)).length ∧
      (∀ t ∈ Event.givenUp (parseTrace setup source), t.kind ≠ .semicolon) ∧
      ∀ (operand : Grammar.Operand) (w : Window),
        Event.givenUp (Parse.recover (Grammar.statement operand) w).trace =
          Event.givenUp ((Grammar.statement operand).run w).trace ++
            if (Parse.recover (Grammar.statement operand) w).value.join = none ∧
              w.current.kind ≠ .semicolon then [w.current] else [] := by
  have hlength := StepInvariant.balanced.program setup maxNesting (.ofSource source)
  have hkinds := StepInvariant.keepsSemicolons.program setup maxNesting (.ofSource source)
  exact ⟨hlength, hkinds, Grammar.givenUp_recover_statement⟩

end MonkeyLang
