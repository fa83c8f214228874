import MonkeyLang.Proofs.Lookahead
import MonkeyLang.Proofs.Passage

/-!
# Runs up to a boundary

Two runs over the same tokens up to a boundary, which is a token at which a statement ends, and over
whatever tokens behind it, do the same up to the boundary. No form moves on from there, except that
a statement that fails right at the boundary may still take a semicolon that comes next. Main
statement: the loops over statements of both runs come to the boundary or step over it together
(`Boundary.passes`).
-/

namespace MonkeyLang

open Grammar

/-- The same token in view of two windows, at which a statement ends. Before it stand no tokens of
the barred kinds, which include the opening brace. -/
structure Boundary where
  here : Window
  there : Window
  barred : List Kind
  current_eq : there.current = here.current
  closes : here.current.kind ∈ Kind.closing
  bars : .lbrace ∈ barred

namespace Boundary

variable (b : Boundary)

/-- The same tokens lead from `w` and from `w'` to the boundary, and what has been looked at lies on
this side of it. -/
def Near (s : Sight) (w w' : Window) : Prop :=
  ∃ us, w.Reads us b.here ∧ w'.Reads us b.there ∧ w'.index = w.index ∧
    (∀ t ∈ us, t.kind ∉ b.barred) ∧ s.reach ≤ us.length ∧ s.Agrees w

namespace Near

variable {b} {s : Sight} {w w' : Window}

theorem fresh (h : b.Near s w w') : b.Near .fresh w w' := by
  obtain ⟨us, hus, hus', hindex, hbar, -, -⟩ := h
  exact ⟨us, hus, hus', hindex, hbar, Nat.zero_le _, trivial⟩

theorem index (h : b.Near s w w') : w'.index = w.index := by
  obtain ⟨us, -, -, hindex, -⟩ := h
  exact hindex

theorem current (h : b.Near s w w') : w'.current = w.current := by
  obtain ⟨us, hus, hus', -⟩ := h
  cases us with
  | nil =>
    rw [← Window.reads_nil.1 hus, ← Window.reads_nil.1 hus']
    exact b.current_eq
  | cons t us => rw [hus.1, hus'.1]

/-- Before the boundary both windows can move on. -/
theorem advance (h : b.Near .ahead w w') : b.Near .fresh w.advance w'.advance := by
  obtain ⟨us, hus, hus', hindex, hbar, hlen, -⟩ := h
  cases us with
  | nil => exact absurd hlen (Nat.not_succ_le_zero 0)
  | cons t us =>
    refine ⟨us, hus.2, hus'.2, ?_, fun t ht => hbar t (List.mem_cons_of_mem _ ht),
      Nat.zero_le _, trivial⟩
    exact congrArg (· + 1) hindex

theorem peek (h : b.Near .ahead w w') : w'.peek = w.peek := h.advance.current

theorem ahead {k : Kind} (h : b.Near (.before k) w w') : b.Near .ahead w w' := by
  obtain ⟨us, hus, hus', hindex, hbar, hlen, -⟩ := h
  exact ⟨us, hus, hus', hindex, hbar, hlen, trivial⟩

theorem on (h : b.Near s w w') : b.Near (.on w.current.kind) w w' := by
  obtain ⟨us, hus, hus', hindex, hbar, -, -⟩ := h
  exact ⟨us, hus, hus', hindex, hbar, Nat.zero_le _, rfl⟩

theorem before (h : b.Near .ahead w w') : b.Near (.before w.peek.kind) w w' := by
  obtain ⟨us, hus, hus', hindex, hbar, hlen, -⟩ := h
  exact ⟨us, hus, hus', hindex, hbar, hlen, rfl⟩

/-- The windows are at the boundary or before it. -/
theorem at_or_ahead (h : b.Near s w w') : w = b.here ∧ w' = b.there ∨ b.Near .ahead w w' := by
  obtain ⟨us, hus, hus', hindex, hbar, -, -⟩ := h
  cases us with
  | nil => exact .inl ⟨(Window.reads_nil.1 hus).symm, (Window.reads_nil.1 hus').symm⟩
  | cons t us => exact .inr ⟨_, hus, hus', hindex, hbar, Nat.succ_le_succ (Nat.zero_le _), trivial⟩

/-- On a token at which no statement ends the windows are before the boundary. -/
theorem ahead_of_not_mem {k : Kind} (hk : k ∉ Kind.closing) (h : b.Near (.on k) w w') :
    b.Near .ahead w w' := by
  rcases h.at_or_ahead with ⟨rfl, rfl⟩ | hahead
  · obtain ⟨us, -, -, -, -, -, rfl⟩ := h
    exact absurd b.closes hk
  · exact hahead

/-- Before the boundary stands no barred token. -/
theorem not_mem_barred (h : b.Near .ahead w w') : w.current.kind ∉ b.barred := by
  obtain ⟨us, hus, -, -, hbar, hlen, -⟩ := h
  cases us with
  | nil => exact absurd hlen (Nat.not_succ_le_zero 0)
  | cons t us =>
    rw [hus.1]
    exact hbar t List.mem_cons_self

theorem not_lbrace : ¬ b.Near (.on .lbrace) w w' := by
  intro h
  have hbar := (h.ahead_of_not_mem (by decide)).not_mem_barred
  obtain ⟨_, -, -, -, -, -, hk⟩ := h
  exact hbar (hk ▸ b.bars)

theorem blame_current (h : b.Near s w w') (problem : Problem) :
    w'.blame .current problem = w.blame .current problem := by
  simp [Window.blame, Window.tokenAt, Window.indexAt, h.current, h.index]

theorem blame_peek (h : b.Near .ahead w w') (problem : Problem) :
    w'.blame .peek problem = w.blame .peek problem := by
  simp [Window.blame, Window.tokenAt, Window.indexAt, h.peek, h.index]

end Near

/-- The outcomes of two runs with the same value and diagnostics, which end near the boundary, and
with `t` in sight if they succeed. -/
structure Same {α : Type} (t : Sight) (o o' : Outcome (Option α)) : Prop where
  value : o'.value = o.value
  diagnostics : Event.diagnostics o'.trace = Event.diagnostics o.trace
  near : b.Near .fresh o.window o'.window
  reached : o.value ≠ none → b.Near t o.window o'.window

/-- From windows near the boundary the parse does the same. -/
def Tracks {α : Type} (s t : Sight) (p : Parse α) : Prop :=
  ∀ {w w'}, b.Near s w w' → b.Same t (p.run w) (p.run w')

/-- From windows near the boundary forms do the same. -/
theorem lookahead_tracks : Lookahead fun s t p => b.Tracks s t p where
  stay _ _ _ _ h := ⟨rfl, rfl, h.fresh, fun _ => h⟩
  andThen {_ _ _ _ _ p f} hp hf := by
    intro w w' h
    obtain ⟨hvalue, hdiagnostics, hnear, hreached⟩ := hp h
    rw [Parse.bind_apply, Parse.bind_apply, hvalue]
    cases ho : (p.run w).value with
    | none => exact ⟨rfl, hdiagnostics, hnear, fun h => absurd rfl h⟩
    | some a =>
      obtain ⟨hvalue', hdiagnostics', hnear', hreached'⟩ := hf a (hreached (by simp [ho]))
      exact ⟨hvalue', by simp [hdiagnostics, hdiagnostics'], hnear', hreached'⟩
  look {_ _ f} hf := by
    intro w w' h
    rw [Parse.bind_apply, Parse.bind_apply, Parse.current_apply, Parse.current_apply, h.current]
    exact hf w.current h.on
  lookAgain {_ k _ f} hf := by
    intro w w' h
    rw [Parse.bind_apply, Parse.bind_apply, Parse.current_apply, Parse.current_apply, h.current]
    exact hf w.current h
  lookAhead {_ _ f} hf := by
    intro w w' h
    rw [Parse.bind_apply, Parse.bind_apply, Parse.peek_apply, Parse.peek_apply, h.peek]
    exact hf w.peek h.before
  moveOn h := ⟨rfl, rfl, h.advance, fun _ => h.advance⟩
  moveOnto k := by
    intro w w' h
    have hon := h.ahead.advance.on
    obtain ⟨us, -, -, -, -, -, hk⟩ := h
    have hk : w.advance.current.kind = k := hk
    exact ⟨rfl, rfl, hon.fresh, fun _ => hk ▸ hon⟩
  rejectCurrent _ _ _ _ h :=
    ⟨rfl, by simp [Parse.reject_apply, h.blame_current], h, by simp [Parse.reject_apply]⟩
  rejectPeek _ _ _ _ h :=
    ⟨rfl, by simp [Parse.reject_apply, h.blame_peek], h.fresh, by simp [Parse.reject_apply]⟩
  nested hp := by
    intro w w' h
    obtain ⟨hvalue, hdiagnostics, hnear, hreached⟩ := hp h
    exact ⟨hvalue, by simp [Parse.nested_apply, hdiagnostics], hnear, hreached⟩
  cons a p hp := by
    intro w w' h
    obtain ⟨hvalue, hdiagnostics, hnear, hreached⟩ := hp h
    refine ⟨by simp [Parse.cons_apply, hvalue], hdiagnostics, hnear, fun hsome => hreached ?_⟩
    simpa [Parse.cons_apply] using hsome
  refresh hp := by
    intro w w' h
    exact hp h.fresh
  ahead hk hp := by
    intro w w' h
    exact hp (h.ahead_of_not_mem hk)
  before hp := by
    intro w w' h
    exact hp h.ahead
  seen hk hp := by
    intro w w' h
    obtain ⟨hvalue, hdiagnostics, hnear, hreached⟩ := hp h
    exact ⟨hvalue, hdiagnostics, hnear, fun hsome => (hreached hsome).ahead_of_not_mem hk⟩
  seenBefore hp := by
    intro w w' h
    obtain ⟨hvalue, hdiagnostics, hnear, hreached⟩ := hp h
    exact ⟨hvalue, hdiagnostics, hnear, fun hsome => (hreached hsome).ahead⟩
  limit {_ _ _ q p} hq heq := by
    intro w w' h
    have hw := heq w (max w.size w'.size) (Nat.le_max_left _ _)
    have hw' := heq w' (max w.size w'.size) (Nat.le_max_right _ _)
    rw [← hw, ← hw']
    exact hq _ h

/-- From windows near the boundary expressions do the same, and stop before the boundary. -/
theorem tracks_expression (config : Config) (levels : Nat) (p : Precedence) :
    b.Tracks .fresh .ahead (expression { config } levels p) := by
  refine b.lookahead_tracks.expression config (fun levels _ => ?_) levels p
  intro w w' h
  exact absurd h Near.not_lbrace

/-! ### Statements -/

/-- The windows where two statements end: near the boundary, or behind a semicolon next to it. -/
def Ends (w w' : Window) : Prop :=
  b.Near .fresh w w' ∨ w = b.here.pastSemicolon ∧ w' = b.there.pastSemicolon

/-- From windows near the boundary the parse does the same, up to a semicolon next to it. -/
def Settles {α : Type} (s : Sight) (p : Parse α) : Prop :=
  ∀ w w', b.Near s w w' → (p.run w').value = (p.run w).value ∧
    Event.diagnostics (p.run w').trace = Event.diagnostics (p.run w).trace ∧
    b.Ends (p.run w).window (p.run w').window

variable {α β : Type}

theorem settles_bind {s t : Sight} {p : Parse α} {f : α → Parse β} (hp : b.Tracks s t p)
    (hf : ∀ a, b.Settles t (f a)) : b.Settles s (p >>= f) := by
  intro w w' h
  obtain ⟨hvalue, hdiagnostics, hnear, hreached⟩ := hp h
  rw [Parse.bind_apply, Parse.bind_apply, hvalue]
  cases ho : (p.run w).value with
  | none => exact ⟨rfl, hdiagnostics, .inl hnear⟩
  | some a =>
    obtain ⟨hvalue', hdiagnostics', hends⟩ := hf a _ _ (hreached (by simp [ho]))
    exact ⟨hvalue', by simp [hdiagnostics, hdiagnostics'], hends⟩

theorem settles_map {s : Sight} {p : Parse α} (f : α → β) (hp : b.Settles s p) :
    b.Settles s (f <$> p) := by
  intro w w' h
  obtain ⟨hvalue, hdiagnostics, hends⟩ := hp w w' h
  rw [Parse.map_apply, Parse.map_apply, hvalue]
  exact ⟨rfl, hdiagnostics, hends⟩

theorem ends_pastSemicolon {w w' : Window} (h : b.Near .fresh w w') :
    b.Ends w.pastSemicolon w'.pastSemicolon := by
  rcases h.at_or_ahead with ⟨rfl, rfl⟩ | hahead
  · exact .inr ⟨rfl, rfl⟩
  · left
    rw [Window.pastSemicolon, Window.pastSemicolon, hahead.peek]
    split
    · exact hahead.advance
    · exact h

theorem settles_terminated {s t : Sight} {p : Parse α} (hp : b.Tracks s t p) :
    b.Settles s (Parse.terminated p) := by
  intro w w' h
  obtain ⟨hvalue, hdiagnostics, hnear, -⟩ := hp h
  rw [Parse.terminated_apply, Parse.terminated_apply]
  refine ⟨hvalue, ?_, ?_⟩
  · simp [hdiagnostics, Run.diagnostics_take]
  · rw [Run.take_semicolon_window, Run.take_semicolon_window]
    exact b.ends_pastSemicolon hnear

theorem settles_current_bind {f : Token → Parse β} (hf : ∀ t, b.Settles (.on t.kind) (f t)) :
    b.Settles .fresh (Parse.current >>= f) := by
  intro w w' h
  rw [Parse.bind_apply, Parse.bind_apply, Parse.current_apply, Parse.current_apply, h.current]
  exact hf w.current w w' h.on

theorem settles_of_tracks {s t : Sight} {p : Parse α} (hp : b.Tracks s t p) : b.Settles s p := by
  intro w w' h
  obtain ⟨hvalue, hdiagnostics, hnear, -⟩ := hp h
  exact ⟨hvalue, hdiagnostics, .inl hnear⟩

theorem settles_statement (config : Config) (levels : Nat) :
    b.Settles .fresh (statement (expression { config } levels)) := by
  have hP := b.lookahead_tracks
  have hvalue : b.Settles .fresh (Parse.terminated (expression { config } levels .lowest)) :=
    b.settles_terminated (b.tracks_expression config levels .lowest)
  have hmoved {k : Kind} (hk : k ∉ Kind.closing) : b.Tracks (.on k) .fresh Parse.advance :=
    hP.ahead hk hP.moveOn
  refine b.settles_current_bind fun t => ?_
  split
  · next hlet =>
    rw [hlet]
    refine b.settles_map _ (b.settles_bind hP.current fun t => ?_)
    refine b.settles_bind (hP.ahead (by decide) (hP.expect .ident)) fun _ => ?_
    refine b.settles_bind hP.name fun _ => b.settles_bind (hP.expect .assign) fun _ => ?_
    refine b.settles_bind (hmoved (by decide)) fun _ => ?_
    rw [bind_pure_comp]
    exact b.settles_map _ hvalue
  · next hreturn =>
    rw [hreturn]
    refine b.settles_map _ (b.settles_bind hP.current fun t => ?_)
    refine b.settles_bind (hmoved (by decide)) fun _ => ?_
    rw [bind_pure_comp]
    exact b.settles_map _ hvalue
  · exact b.settles_of_tracks (hP.stay _ _)
  · refine b.settles_map _ (b.settles_bind hP.current fun t => ?_)
    rw [bind_pure_comp]
    refine b.settles_map _ ?_
    intro w w' h
    exact hvalue w w' h.fresh

/-- From windows near the boundary the loops over statements yield the same and leave the same
diagnostics, until they come to the boundary or step over it. -/
theorem passes (config : Config) (levels : Nat) (stop : Kind → Bool) (hstop : stop .eof = true)
    (hs : stop .semicolon = false) (hbar : ∀ k, stop k = true → k ∈ b.barred) {w w' : Window}
    (h : b.Near .fresh w w') :
    ∃ ns ds, ∃ x x', (x = b.here ∧ x' = b.there ∨ x = b.here.advance ∧ x' = b.there.advance) ∧
      Passes stop (statement (expression { config } levels)) w ns ds x ∧
      Passes stop (statement (expression { config } levels)) w' ns ds x' := by
  have hreads := StepInvariant.reads.statement (StepInvariant.reads.expression { config } levels)
  -- on the tokens left: every statement before the boundary takes one at least
  induction hk : w.size using Nat.strongRecOn generalizing w w' with
  | ind k ih =>
    subst hk
    rcases h.at_or_ahead with ⟨rfl, rfl⟩ | hahead
    · exact ⟨[], [], _, _, .inl ⟨rfl, rfl⟩, .refl _, .refl _⟩
    · have hw : stop w.current.kind = false := by
        rw [Bool.eq_false_iff]
        exact fun hstopped => hahead.not_mem_barred (hbar _ hstopped)
      have hw' : stop w'.current.kind = false := by rwa [h.current]
      have hstep := Passes.step hstop hreads hw
      have hstep' := Passes.step hstop hreads hw'
      obtain ⟨hvalue, hdiagnostics, hends⟩ := b.settles_statement config levels w w' h
      rw [hvalue, hdiagnostics] at hstep'
      rcases hends with hnear | ⟨hu, hu'⟩
      · rcases hnear.at_or_ahead with ⟨hu, hu'⟩ | hmore
        · rw [hu] at hstep
          rw [hu'] at hstep'
          exact ⟨_, _, _, _, .inr ⟨rfl, rfl⟩, hstep, hstep'⟩
        · obtain ⟨us, hus⟩ := hreads w
          have hne := ne_eof_of_goesOn hstop hw
          obtain ⟨ns, ds, x, x', hx, hpass, hpass'⟩ :=
            ih _ (hus.size_advance_lt hne) hmore.advance rfl
          exact ⟨_, _, x, x', hx, hstep.trans hpass, hstep'.trans hpass'⟩
      · rw [hu] at hstep
        rw [hu'] at hstep'
        have hback := hstep.trans (passes_pastSemicolon hstop hs)
        have hback' := hstep'.trans (passes_pastSemicolon hstop hs)
        exact ⟨_, _, _, _, .inr ⟨rfl, rfl⟩, hback, hback'⟩

end Boundary

end MonkeyLang
