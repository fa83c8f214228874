import MonkeyLang.Proofs.DerivedRuns

/-!
# Passing over statements

The loop over statements passes from one window to a later one if it goes on from there as if it had
begun there, after it yielded some nodes and left some diagnostics. Main statements: every round of
the loop passes on (`Passes.step`), and the loop passes without a diagnostic over all tokens that
have a derivation and are followed by a semicolon (`Derivation.Statements.passes`).
-/

namespace MonkeyLang

namespace Grammar

variable {stop : Kind → Bool} {p : Parse (Option Node)}

/-- The loop over statements comes from `w` to `x`, and on the way it yields `ns` and leaves `ds`.
-/
structure Passes (stop : Kind → Bool) (p : Parse (Option Node)) (w : Window) (ns : List Node)
    (ds : List Diagnostic) (x : Window) : Prop where
  value : (statementsUntil stop p w).value = ns ++ (statementsUntil stop p x).value
  diagnostics : Event.diagnostics (statementsUntil stop p w).trace =
    ds ++ Event.diagnostics (statementsUntil stop p x).trace
  window : (statementsUntil stop p w).window = (statementsUntil stop p x).window

namespace Passes

variable {w x y : Window} {ns ns' : List Node} {ds ds' : List Diagnostic}

theorem refl (w : Window) : Passes stop p w [] [] w := ⟨rfl, rfl, rfl⟩

theorem trans (h : Passes stop p w ns ds x) (h' : Passes stop p x ns' ds' y) :
    Passes stop p w (ns ++ ns') (ds ++ ds') y where
  value := by rw [h.value, h'.value, List.append_assoc]
  diagnostics := by rw [h.diagnostics, h'.diagnostics, List.append_assoc]
  window := h.window.trans h'.window

/-- What the loop passes in silence may also be left out. -/
theorem symm (h : Passes stop p w [] [] x) : Passes stop p x [] [] w :=
  ⟨h.value.symm, h.diagnostics.symm, h.window.symm⟩

/-- A round of the loop passes to the window one step behind the statement. -/
theorem step (hstop : stop .eof = true)
    (hp : Parse.Respects (fun w _ _ v => ∃ us, w.Reads us v) p) (h : stop w.current.kind = false) :
    Passes stop p w (p.run w).value.join.toList (Event.diagnostics (p.run w).trace)
      (p.run w).window.advance := by
  have hrecover : Event.diagnostics (Parse.recover p w).trace =
      Event.diagnostics (p.run w).trace := by
    rw [Parse.recover_apply]
    cases (p.run w).value <;> simp
  constructor
  · rw [statementsUntil_next hstop hp h, followedBy, Parse.recover_value, Parse.recover_window]
  · rw [statementsUntil_next hstop hp h, followedBy, Parse.recover_window,
      Event.diagnostics_append, Event.diagnostics_took, hrecover]
  · rw [statementsUntil_next hstop hp h, followedBy, Parse.recover_window]

end Passes

section Statements

variable {config : Config} {levels : Nat} {w x : Window}

private theorem reads_statement (config : Config) (levels : Nat) :
    Parse.Respects (fun w _ _ v => ∃ us, w.Reads us v)
      (statement (expression { config } levels)) :=
  StepInvariant.reads.statement (StepInvariant.reads.expression _ _)

/-- A semicolon where a statement could begin is passed in silence. -/
theorem passes_semicolon (hstop : stop .eof = true) (hs : stop .semicolon = false)
    (hw : w.current.kind = .semicolon) :
    Passes stop (statement (expression { config } levels)) w [] [] w.advance := by
  have hrun : (statement (expression { config } levels)).run w = ⟨some none, w, []⟩ := by
    rw [statement, Parse.bind_apply, Parse.current_apply]
    simp [hw, Parse.pure_apply]
  have h := Passes.step hstop (reads_statement config levels) (w := w) (by rw [hw, hs])
  rwa [hrun] at h

/-- A semicolon behind a statement may be passed or not. -/
theorem passes_pastSemicolon (hstop : stop .eof = true) (hs : stop .semicolon = false) :
    Passes stop (statement (expression { config } levels)) w.pastSemicolon.advance [] []
      w.advance := by
  rw [Window.pastSemicolon]
  split
  · next hsemi => exact (passes_semicolon hstop hs hsemi).symm
  · exact .refl _

/-- A statement without a diagnostic is passed to the window one step behind it. -/
theorem passes_statement {n : Node} (hstop : stop .eof = true) (hw : stop w.current.kind = false)
    (h : (statement (expression { config } levels)).Leads Quiet w (some n) x) :
    Passes stop (statement (expression { config } levels)) w [n] [] x.advance := by
  obtain ⟨hvalue, hwindow, hquiet⟩ := h
  have hstep := Passes.step hstop (reads_statement config levels) hw
  rwa [hvalue, hwindow, hquiet] at hstep

end Statements

end Grammar

/-- The loop passes over derived statements, and over the semicolon behind them. -/
theorem Derivation.Statements.passes {config : Config} {stop : Kind → Bool} {levels : Nat}
    {us : List Token} {ns : List Node} {m : Nat} {w u : Window}
    (h : Derivation.Statements config us ns m) (hm : m ≤ levels) (hu : w.Reads us u)
    (hstop : stop .eof = true) (hkinds : ∀ k, stop k = true → k = .rbrace ∨ k = .eof)
    (hc : u.current.kind = .semicolon) :
    Grammar.Passes stop (Grammar.statement (Grammar.expression { config } levels)) w ns []
      u.advance := by
  have hs : stop .semicolon = false := by
    rw [Bool.eq_false_iff]
    intro hsemi
    simpa using hkinds _ hsemi
  cases h with
  | nil =>
    obtain rfl := hu
    exact Grammar.passes_semicolon hstop hs hc
  | empty ht hns =>
    obtain ⟨rfl, hus⟩ := hu
    exact (Grammar.passes_semicolon hstop hs ht).trans (hns.passes hm hus hstop hkinds hc)
  | terminated hn ht hns =>
    obtain ⟨hmn, hmns⟩ := Nat.max_le.1 hm
    obtain ⟨_, hus, ⟨rfl, hvs⟩⟩ := Window.reads_append.1 hu
    obtain ⟨x, hx, rfl⟩ := hus.spans hn.ne_nil
    have hpeek : x.peek.kind = .semicolon := ht
    have hpast : x.pastSemicolon = x.advance := if_pos hpeek
    have hrun := (hn.leads_iff hx (by rw [hpeek]; decide) (by rw [hpeek]; decide)).iff.2
      ⟨hmn, rfl, rfl⟩
    rw [hpast] at hrun
    exact (Grammar.passes_statement hstop (hn.goes_on hx hkinds) hrun).trans
      (hns.passes hmns hvs hstop hkinds hc)
  | unterminated hn hvs hns =>
    obtain ⟨hmn, hmns⟩ := Nat.max_le.1 hm
    obtain ⟨_, hus, hrest⟩ := Window.reads_append.1 hu
    obtain ⟨x, hx, rfl⟩ := hus.spans hn.ne_nil
    obtain ⟨hpeek, helse⟩ := hns.ends hrest hvs (by simp [hc, Kind.closing])
    have hrun := (hn.leads_iff hx hpeek helse).iff.2 ⟨hmn, rfl, rfl⟩
    have hmore := hns.passes hmns hrest hstop hkinds hc
    -- the statement's parse takes a semicolon that the derivation leaves to an empty statement
    exact (Grammar.passes_statement hstop (hn.goes_on hx hkinds) hrun).trans
      ((Grammar.passes_pastSemicolon hstop hs).trans hmore)

end MonkeyLang
