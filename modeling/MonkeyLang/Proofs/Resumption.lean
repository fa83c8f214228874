import MonkeyLang.Proofs.Boundary
import MonkeyLang.Proofs.TokenView

/-!
# Where parsing resumes

What a parse yields behind a semicolon does not depend on what stands before it, however malformed
that is, unless a brace was opened there. Main statement: `parse_append_semicolon`.
-/

namespace MonkeyLang

open Grammar

variable {config : Config}

theorem statements_parse (config : Config) (s : Source) :
    (parse { config } s).program.statements =
      (statementsUntil (· == .eof) (statement (expression { config } maxNesting))
        (.ofSource s)).value := rfl

theorem diagnostics_parse (config : Config) (s : Source) :
    (parse { config } s).diagnostics =
      Event.diagnostics (statementsUntil (· == .eof)
        (statement (expression { config } maxNesting)) (.ofSource s)).trace := by
  change Event.diagnostics (program { config } maxNesting (.ofSource s)).trace = _
  simp [program, Run.map_apply]

/-- What follows the window to which the loop over statements passes is parsed as if it stood alone.
-/
theorem parse_of_passes {s s' : Source} {ns : List Node} {ds : List Diagnostic} {x : Window}
    (h : Passes (· == .eof) (statement (expression { config } maxNesting)) (.ofSource s) ns ds x)
    (hx : x.Shows s') :
    (parse { config } s).program.statements = ns ++ (parse { config } s').program.statements ∧
      (parse { config } s).diagnostics =
        ds ++ (parse { config } s').diagnostics.map (Diagnostic.later x.index) := by
  have hfollows : (Window.ofSource s').Follows x.index x :=
    (Window.shows_ofSource s').follows hx (Nat.zero_add _).symm
  obtain ⟨hvalue, htrace, -⟩ := (statementLookahead_shifts x.index).statements config maxNesting
    hfollows
  rw [Parse.lift_apply, Parse.lift_apply] at hvalue htrace
  constructor
  · rw [statements_parse, statements_parse, h.value, Option.some.inj hvalue]
  · rw [diagnostics_parse, diagnostics_parse, h.diagnostics, htrace, Event.diagnostics_map_later]

/-! ### Behind a semicolon -/

section Semicolon

variable {us vs ws : List Token} {t : Token} {finish : Place}

/-- Without an opening brace before a semicolon, the loop over statements comes behind it in the
same way whatever stands there. -/
theorem passes_of_braceless (ht : t.kind = .semicolon)
    (hus : ∀ x ∈ us, x.kind ∉ [Kind.lbrace, .eof]) {v v' : Window} {w w' : Window}
    (hw : w.Reads us v) (hw' : w'.Reads us v') (hindex : w'.index = w.index)
    (hv : v.current = t) (hv' : v'.current = t) :
    ∃ ns ds,
      Passes (· == .eof) (statement (expression { config } maxNesting)) w ns ds v.advance ∧
      Passes (· == .eof) (statement (expression { config } maxNesting)) w' ns ds v'.advance := by
  have hcloses : v.current.kind ∈ Kind.closing := by simp [hv, ht, Kind.closing]
  let b : Boundary := ⟨v, v', [.lbrace, .eof], hv'.trans hv.symm, hcloses, by simp⟩
  have hnear : b.Near .fresh w w' := ⟨us, hw, hw', hindex, hus, Nat.zero_le _, trivial⟩
  obtain ⟨ns, ds, x, x', hx, hpass, hpass'⟩ :=
    b.passes config maxNesting (· == .eof) rfl rfl (by simp [b]) hnear
  refine ⟨ns, ds, ?_⟩
  rcases hx with ⟨rfl, rfl⟩ | ⟨rfl, rfl⟩
  · have hover := hpass.trans (passes_semicolon rfl rfl (by rw [hv, ht]))
    have hover' := hpass'.trans (passes_semicolon rfl rfl (by rw [hv', ht]))
    rw [List.append_nil, List.append_nil] at hover hover'
    exact ⟨hover, hover'⟩
  · exact ⟨hpass, hpass'⟩

end Semicolon

/-- What stands before a semicolon and what stands behind it are parsed as if each stood alone, if
the former has no opening brace or is well formed: the statements of the whole are those of the two
parts, and so are the diagnostics, of which those of the latter part only stand later. -/
theorem parse_append_semicolon (config : Config) (finish : Place) (us vs : List Token) (t : Token)
    (ht : t.kind = .semicolon) (hus : ∀ x ∈ us, x.kind ≠ .eof)
    (h : (∀ x ∈ us, x.kind ≠ .lbrace) ∨
      (parse { config } (.tokens us finish)).diagnostics = []) :
    (parse { config } (.tokens (us ++ t :: vs) finish)).program.statements =
        (parse { config } (.tokens (us ++ [t]) finish)).program.statements ++
          (parse { config } (.tokens vs finish)).program.statements ∧
      (parse { config } (.tokens (us ++ t :: vs) finish)).diagnostics =
        (parse { config } (.tokens (us ++ [t]) finish)).diagnostics ++
          (parse { config } (.tokens vs finish)).diagnostics.map
            (Diagnostic.later (us.length + 1)) := by
  obtain ⟨v, hv, hshows, hindex⟩ :=
    (Window.shows_ofSource (.tokens (us ++ t :: vs) finish)).reads_append
  obtain ⟨v', hv', hshows', -⟩ := (Window.shows_ofSource (.tokens (us ++ [t]) finish)).reads_append
  have hcurrent : v.current = t := hshows.1
  have hcurrent' : v'.current = t := hshows'.1
  obtain ⟨ns, ds, hpass, hpass'⟩ : ∃ ns ds,
      Passes (· == .eof) (statement (expression { config } maxNesting)) (.ofSource _) ns ds
        v.advance ∧
      Passes (· == .eof) (statement (expression { config } maxNesting)) (.ofSource _) ns ds
        v'.advance := by
    rcases h with hbrace | hclean
    · exact passes_of_braceless ht (by simp_all) hv hv' rfl hcurrent hcurrent'
    · obtain ⟨ns, m, -, hns, hm⟩ := (parse_clean_iff config (.tokens us finish) _).1 ⟨hclean, rfl⟩
      rw [Source.upcoming_tokens hus] at hns
      exact ⟨ns, [], hns.passes hm hv rfl (by simp) (by rw [hcurrent, ht]),
        hns.passes hm hv' rfl (by simp) (by rw [hcurrent', ht])⟩
  obtain ⟨hns, hds⟩ := parse_of_passes hpass hshows.advance
  obtain ⟨hns', hds'⟩ := parse_of_passes hpass' hshows'.advance
  have hns' : _ = ns := hns'.trans (List.append_nil ns)
  have hds' : _ = ds := hds'.trans (List.append_nil ds)
  have hlater : v.advance.index = us.length + 1 := by
    rw [Window.index_advance, hindex]
    exact congrArg (· + 1) (Nat.zero_add _)
  rw [hlater] at hds
  rw [hns', hds']
  exact ⟨hns, hds⟩

/-- After a `return` without a value the parse takes the semicolon with which the latter part
begins, which is a statement without a node when the latter part stands alone. -/
theorem parse_append_semicolon_return :
    (∀ x ∈ [(⟨.returnWord, "return", ⟨1, 1⟩⟩ : Token)], x.kind ≠ .eof) ∧
      (∀ x ∈ [(⟨.returnWord, "return", ⟨1, 1⟩⟩ : Token)], x.kind ≠ .lbrace) ∧
      (parse {} (.tokens [⟨.returnWord, "return", ⟨1, 1⟩⟩, ⟨.semicolon, ";", ⟨1, 7⟩⟩,
        ⟨.semicolon, ";", ⟨1, 8⟩⟩, ⟨.ident, "a", ⟨1, 9⟩⟩] ⟨1, 10⟩)).program.statements =
        (parse {} (.tokens [⟨.returnWord, "return", ⟨1, 1⟩⟩, ⟨.semicolon, ";", ⟨1, 7⟩⟩]
          ⟨1, 10⟩)).program.statements ++
        (parse {} (.tokens [⟨.semicolon, ";", ⟨1, 8⟩⟩, ⟨.ident, "a", ⟨1, 9⟩⟩]
          ⟨1, 10⟩)).program.statements := by
  have hend : ∀ x ∈ [(⟨.returnWord, "return", ⟨1, 1⟩⟩ : Token)], x.kind ≠ .eof := by decide
  have hbrace : ∀ x ∈ [(⟨.returnWord, "return", ⟨1, 1⟩⟩ : Token)], x.kind ≠ .lbrace := by decide
  exact ⟨hend, hbrace, (parse_append_semicolon {} _ _ _ _ rfl hend (.inl hbrace)).1⟩

end MonkeyLang
