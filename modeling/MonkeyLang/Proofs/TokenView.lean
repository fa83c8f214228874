import MonkeyLang.Proofs.Lookahead
import MonkeyLang.Proofs.Acceptance

/-!
# Runs see tokens only

Two windows follow the same tokens if the current one and all further ones agree, whatever sources
they come from and wherever they stand. Runs from such windows do the same, and their diagnostics
differ by the distance of the windows. Main statement: `statementLookahead_shifts`.
-/

namespace MonkeyLang

/-- The diagnostic of a run that starts so many tokens later. -/
def Diagnostic.later (k : Nat) (d : Diagnostic) : Diagnostic := { d with index := d.index + k }

@[simp] theorem Diagnostic.message_later (k : Nat) (d : Diagnostic) :
    (d.later k).message = d.message := rfl

@[simp] theorem Diagnostic.place_later (k : Nat) (d : Diagnostic) :
    (d.later k).place = d.place := rfl

namespace Event

/-- The event in a run that starts so many tokens later. -/
def later (k : Nat) : Event → Event
  | noted d => noted (d.later k)
  | e => e

@[simp] theorem diagnostics_map_later (k : Nat) (trace : List Event) :
    diagnostics (trace.map (later k)) = (diagnostics trace).map (Diagnostic.later k) := by
  induction trace with
  | nil => rfl
  | cons e trace ih => cases e <;> simp [later, ih]

theorem nested_later (k : Nat) (e : Event) : (e.later k).nested = e.nested.later k := by
  cases e <;> rfl

end Event

namespace Window

/-- The token at so many tokens behind the current one. -/
def ahead (w : Window) : Nat → Token
  | 0 => w.current
  | i + 1 => w.advance.ahead i

@[simp] theorem ahead_zero (w : Window) : w.ahead 0 = w.current := rfl

@[simp] theorem ahead_advance (w : Window) (i : Nat) : w.advance.ahead i = w.ahead (i + 1) := rfl

@[simp] theorem index_advance (w : Window) : w.advance.index = w.index + 1 := rfl

/-- The second window stands `k` tokens later in its sequence than the first, and the tokens from
there on are the same. -/
def Follows (k : Nat) (w w' : Window) : Prop :=
  w'.index = w.index + k ∧ ∀ i, w'.ahead i = w.ahead i

namespace Follows

variable {k : Nat} {w w' : Window} (h : w.Follows k w')

include h

theorem current : w'.current = w.current := h.2 0

theorem peek : w'.peek = w.peek := h.2 1

theorem advance : w.advance.Follows k w'.advance := by
  refine ⟨?_, fun i => h.2 (i + 1)⟩
  rw [index_advance, index_advance, h.1]
  omega

theorem took : Event.took w'.advance.peek = .took w.advance.peek := congrArg Event.took (h.2 2)

theorem blame (spot : Spot) (problem : Problem) :
    w'.blame spot problem = (w.blame spot problem).later k := by
  have hindex := h.1
  cases spot with
  | current => simp [Window.blame, Diagnostic.later, tokenAt, indexAt, h.current, hindex]
  | peek =>
    simp [Window.blame, Diagnostic.later, tokenAt, indexAt, h.peek, hindex]
    omega

end Follows

/-- Two windows on the same tokens of a source follow the same tokens. -/
theorem Shows.follows {s : Source} {w w' : Window} {k : Nat} (h : w.Shows s) (h' : w'.Shows s)
    (hindex : w'.index = w.index + k) : w.Follows k w' := by
  refine ⟨hindex, fun i => ?_⟩
  clear hindex
  induction i generalizing s w w' with
  | zero => exact h'.1.trans h.1.symm
  | succ i ih => exact ih h.advance h'.advance

theorem Reads.index_eq {w v : Window} {us : List Token} (h : w.Reads us v) :
    v.index = w.index + us.length := by
  induction us generalizing w with
  | nil => rw [reads_nil.1 h, List.length_nil, Nat.add_zero]
  | cons t us ih =>
    rw [ih h.2, index_advance, List.length_cons]
    omega

/-- On a list of tokens a window reads any first part of it, and comes to the rest. -/
theorem Shows.reads_append {w : Window} {us vs : List Token} {finish : Place}
    (h : w.Shows (.tokens (us ++ vs) finish)) :
    ∃ v, w.Reads us v ∧ v.Shows (.tokens vs finish) ∧ v.index = w.index + us.length := by
  have hreads : ∃ v, w.Reads us v ∧ v.Shows (.tokens vs finish) := by
    induction us generalizing w with
    | nil => exact ⟨w, rfl, h⟩
    | cons t us ih =>
      obtain ⟨v, hv, hshows⟩ := ih h.advance
      exact ⟨v, ⟨h.1, hv⟩, hshows⟩
  obtain ⟨v, hv, hshows⟩ := hreads
  exact ⟨v, hv, hshows, hv.index_eq⟩

/-- What is read of a list of tokens is its first part. -/
theorem Reads.eq_take {w v : Window} {ts us : List Token} {finish : Place} (h : w.Reads us v)
    (hw : w.Shows (.tokens ts finish)) (hle : us.length ≤ ts.length) :
    us = ts.take us.length := by
  induction us generalizing w ts with
  | nil => rfl
  | cons t us ih =>
    cases ts with
    | nil => cases hle
    | cons s ts =>
      have hhead : w.current = s := hw.1
      rw [List.length_cons, List.take_succ_cons, ← ih h.2 hw.advance (Nat.le_of_succ_le_succ hle),
        ← hhead, h.1]

/-- Ahead are the tokens of the list, and end tokens behind them. -/
theorem Shows.ahead_eq {w : Window} {ts : List Token} {finish : Place}
    (h : w.Shows (.tokens ts finish)) (i : Nat) : w.ahead i = ts.getD i (.endAt finish) := by
  induction i generalizing w ts with
  | zero =>
    rw [ahead_zero, h.1]
    cases ts <;> rfl
  | succ i ih =>
    rw [← ahead_advance]
    cases ts with
    | nil => exact ih h.advance
    | cons t ts => exact ih h.advance

end Window

variable {α : Type}

/-- From windows that follow the same tokens the parse does the same. -/
def Parse.Shifts (k : Nat) (p : Parse α) : Prop :=
  ∀ {w w'}, w.Follows k w' → (p.run w').value = (p.run w).value ∧
    (p.run w').trace = (p.run w).trace.map (Event.later k) ∧
    (p.run w).window.Follows k (p.run w').window

/-- Whatever is in sight, parses see tokens only. -/
theorem statementLookahead_shifts (k : Nat) :
    StatementLookahead fun _ _ p => Parse.Shifts k p where
  stay _ _ _ _ h := ⟨rfl, rfl, h⟩
  andThen {_ _ _ _ _ p f} hp hf := by
    intro w w' h
    obtain ⟨hvalue, htrace, hwindow⟩ := hp h
    rw [Parse.bind_apply, Parse.bind_apply, hvalue]
    cases (p.run w).value with
    | none => exact ⟨rfl, htrace, hwindow⟩
    | some a =>
      obtain ⟨hvalue', htrace', hwindow'⟩ := hf a hwindow
      exact ⟨hvalue', by simp [htrace, htrace'], hwindow'⟩
  look {_ _ f} hf := by
    intro w w' h
    rw [Parse.bind_apply, Parse.bind_apply, Parse.current_apply, Parse.current_apply, h.current]
    exact hf w.current h
  lookAgain {_ _ _ f} hf := by
    intro w w' h
    rw [Parse.bind_apply, Parse.bind_apply, Parse.current_apply, Parse.current_apply, h.current]
    exact hf w.current h
  lookAhead {_ _ f} hf := by
    intro w w' h
    rw [Parse.bind_apply, Parse.bind_apply, Parse.peek_apply, Parse.peek_apply, h.peek]
    exact hf w.peek h
  moveOn h := ⟨rfl, by simp [Parse.advance_apply, Event.later, h.took], h.advance⟩
  moveOnto _ _ _ h := ⟨rfl, by simp [Parse.advance_apply, Event.later, h.took], h.advance⟩
  rejectCurrent _ _ _ _ h := ⟨rfl, by simp [Parse.reject_apply, Event.later, h.blame], h⟩
  rejectPeek _ _ _ _ h := ⟨rfl, by simp [Parse.reject_apply, Event.later, h.blame], h⟩
  nested hp := by
    intro w w' h
    obtain ⟨hvalue, htrace, hwindow⟩ := hp h
    refine ⟨hvalue, ?_, hwindow⟩
    simp [Parse.nested_apply, htrace, Event.nested_later]
  cons a p hp := by
    intro w w' h
    obtain ⟨hvalue, htrace, hwindow⟩ := hp h
    exact ⟨by simp [Parse.cons_apply, hvalue], htrace, hwindow⟩
  refresh hp := hp
  ahead _ hp := hp
  before hp := hp
  seen _ hp := hp
  seenBefore hp := hp
  limit {_ _ _ q p} hq heq := by
    intro w w' h
    have hw := heq w (max w.size w'.size) (Nat.le_max_left _ _)
    have hw' := heq w' (max w.size w'.size) (Nat.le_max_right _ _)
    rw [← hw, ← hw']
    exact hq _ h
  terminated {_ _ p} hp := by
    intro w w' h
    obtain ⟨hvalue, htrace, hwindow⟩ := hp h
    rw [Parse.terminated_apply, Parse.terminated_apply, Run.take_apply, Run.take_apply,
      hwindow.peek]
    split
    · exact ⟨hvalue, by simp [htrace, Event.later, hwindow.took], hwindow.advance⟩
    · exact ⟨hvalue, by simp [htrace], hwindow⟩
  round {_ p} hp := by
    intro w w' h
    obtain ⟨hvalue, htrace, hwindow⟩ := hp h
    rw [Parse.round_apply, Parse.round_apply, Parse.recover_apply, Parse.recover_apply, hvalue]
    refine ⟨rfl, ?_, hwindow.advance⟩
    cases (p.run w).value with
    | none => simp [htrace, Event.later, h.current, hwindow.took]
    | some a => simp [htrace, Event.later, hwindow.took]
  forget hp := hp
  seenAny _ hp := hp

end MonkeyLang
