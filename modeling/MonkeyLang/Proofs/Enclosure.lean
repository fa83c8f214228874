import MonkeyLang.Proofs.Resumption

/-!
# Malformed statements in braces

The body of a function ends at its closing brace, unless the last statement of the body fails right
there: then the loop over the statements of the body steps over the brace, and what stands behind
the function is read as if it stood inside. Main statement: `parse_enclosed_suffix_iff`.
-/

namespace MonkeyLang

open Grammar

/-- The tokens around the body of a function without parameters. -/
structure Enclosure where
  word : Token
  lparen : Token
  rparen : Token
  lbrace : Token
  rbrace : Token
  word_kind : word.kind = .function
  lparen_kind : lparen.kind = .lparen
  rparen_kind : rparen.kind = .rparen
  lbrace_kind : lbrace.kind = .lbrace
  rbrace_kind : rbrace.kind = .rbrace

/-- A function without parameters whose body has the given tokens. -/
def Enclosure.around (k : Enclosure) (us : List Token) : List Token :=
  k.word :: k.lparen :: k.rparen :: k.lbrace :: us ++ [k.rbrace]

/-- The loop over the statements in a block at a number of levels. -/
def bodyLoop (config : Config) (levels : Nat) : Run (List Node) :=
  statementsUntil (fun k => k == .rbrace || k == .eof) (statement (expression { config } levels))

variable {config : Config} {levels : Nat}

theorem block_window (w : Window) :
    ((block (expression { config } levels)).run w).window =
      (bodyLoop config levels w.advance).window := by
  rw [block, Parse.bind_apply, Parse.current_apply]
  simp only [Parse.bind_apply, Parse.advance_apply, Parse.lift_apply, Parse.current_apply]
  split <;> rfl

/-- A block is rejected exactly if the loop over its statements ends before another token than a
closing brace. -/
theorem block_value_eq_none {w : Window}
    (h : (bodyLoop config levels w.advance).window.current.kind ≠ .rbrace) :
    ((block (expression { config } levels)).run w).value = none := by
  rw [Option.eq_none_iff_forall_ne_some]
  intro b hb
  have hleads : (block (expression { config } levels)).Leads Anyhow w b _ := ⟨hb, rfl, trivial⟩
  obtain ⟨ns, ⟨-, hwindow, -⟩, hbrace, -⟩ := leads_block.1 hleads
  rw [← hwindow] at hbrace
  exact h hbrace

/-! ### A function without parameters -/

namespace Window

/-- The window stands at the beginning of a function without parameters. -/
structure Enters (w : Window) : Prop where
  word : w.current.kind = .function
  lparen : w.peek.kind = .lparen
  rparen : w.advance.peek.kind = .rparen
  lbrace : w.advance.advance.peek.kind = .lbrace

/-- The window behind the opening brace of such a function. -/
def body (w : Window) : Window := w.advance.advance.advance.advance

namespace Enters

variable {w v : Window} (h : w.Enters)

include h

theorem leads_parameters : parameters.Leads Anyhow w.advance [] w.advance.advance :=
  leads_commaList.2 (by simp [h.rparen])

/-- A function whose body is a block is a statement. -/
theorem leads_statement {b : Node}
    (hb : (block (expression { config } levels)).Leads Anyhow w.advance.advance.advance b v)
    (hv : ¬ Precedence.lowest < v.peek.kind.precedence) :
    (statement (expression { config } (levels + 1))).Leads Anyhow w
      (some (.expressionStatement w.current (.function w.current [] b))) v.pastSemicolon := by
  have hfunction := leads_function.2 ⟨h.lparen, [], _, h.leads_parameters, h.lbrace, b, hb, rfl⟩
  have hexpression := leads_expression_succ.2
    ⟨.function, by rw [h.word]; rfl, _, _, hfunction, (leads_chain_end hv).2 ⟨rfl, rfl⟩⟩
  rw [Grammar.leads_statement]
  simp only [h.word, reduceCtorEq, if_false]
  exact ⟨_, rfl, leads_expressionStatement.2 ⟨_, _, hexpression, rfl, rfl⟩⟩

/-- If the body of a function is not a block, the statement fails where the body failed. -/
theorem statement_fails
    (hb : ((block (expression { config } levels)).run w.advance.advance.advance).value = none) :
    ((statement (expression { config } (levels + 1))).run w).value = none ∧
      ((statement (expression { config } (levels + 1))).run w).window =
        ((block (expression { config } levels)).run
          w.advance.advance.advance).window.pastSemicolon := by
  obtain ⟨hvalue, hwindow, -⟩ := h.leads_parameters
  have hfunction : ((function (expression { config } levels)).run w).value = none ∧
      ((function (expression { config } levels)).run w).window =
        ((block (expression { config } levels)).run w.advance.advance.advance).window := by
    simp [function, Parse.bind_apply, Parse.current_apply, Parse.expect_apply, h.lparen,
      hvalue, hwindow, h.lbrace, Run.map_apply, hb]
  have hexpression (p : Precedence) : ((expression { config } (levels + 1) p).run w).value = none ∧
      ((expression { config } (levels + 1) p).run w).window =
        ((function (expression { config } levels)).run w).window := by
    have hopening : ({} : Rules).opening? w.current.kind = some .function := by
      rw [h.word]
      rfl
    simp [expression, Parse.nested_apply, Parse.bind_apply, Parse.current_apply, hopening, opening,
      hfunction]
  rw [statement, Parse.bind_apply, Parse.current_apply]
  simp only [h.word]
  simp [Parse.map_apply, expressionStatement, Parse.bind_apply, Parse.current_apply,
    Parse.terminated_apply, Run.take_semicolon_window, hexpression, hfunction]

/-- A body that ends at its closing brace makes the function a statement. -/
theorem passes_closed (hbody : (bodyLoop config levels w.body).window = v)
    (hbrace : v.current.kind = .rbrace) (hpeek : ¬ Precedence.lowest < v.peek.kind.precedence) :
    ∃ n ds, Passes (· == .eof) (statement (expression { config } (levels + 1))) w [n] ds
      v.pastSemicolon.advance := by
  have hreads := StepInvariant.reads.statement
    (StepInvariant.reads.expression { config } (levels + 1))
  have hblock : (block (expression { config } levels)).Leads Anyhow w.advance.advance.advance _ v :=
    leads_block.2 ⟨_, ⟨rfl, hbody, trivial⟩, hbrace, rfl⟩
  obtain ⟨hvalue, hwindow, -⟩ := h.leads_statement hblock hpeek
  have hstep : Passes (· == .eof) _ w _ _ _ := Passes.step rfl hreads (by rw [h.word]; rfl)
  rw [hvalue, hwindow] at hstep
  exact ⟨_, _, hstep⟩

/-- A body that runs on to the end leaves no statement. -/
theorem value_eq_nil_of_unclosed {finish : Place}
    (hbody : (bodyLoop config levels w.body).window.Shows (.tokens [] finish)) :
    (statementsUntil (· == .eof) (statement (expression { config } (levels + 1))) w).value =
      [] := by
  have hreads := StepInvariant.reads.statement
    (StepInvariant.reads.expression { config } (levels + 1))
  have heof : (bodyLoop config levels w.body).window.current.kind = .eof := by
    rw [hbody.1]
    rfl
  have hne : (bodyLoop config levels w.body).window.current.kind ≠ .rbrace := by
    rw [heof]
    decide
  obtain ⟨hvalue, hwindow⟩ := h.statement_fails (block_value_eq_none hne)
  have hstep : Passes (· == .eof) _ w _ _ _ := Passes.step rfl hreads (by rw [h.word]; rfl)
  have hend : (bodyLoop config levels w.body).window.advance.current.kind = .eof := by
    rw [hbody.advance.1]
    rfl
  have hpast : (bodyLoop config levels w.body).window.pastSemicolon =
      (bodyLoop config levels w.body).window := by
    rw [Window.pastSemicolon, ← Window.current_advance, hend]
    rfl
  rw [hvalue, hwindow, block_window] at hstep
  change Passes _ _ _ _ _ (bodyLoop config levels w.body).window.pastSemicolon.advance at hstep
  rw [hpast] at hstep
  rw [hstep.value, statementsUntil_stop (by rw [hend]; rfl)]
  rfl

end Enters

end Window

/-! ### Lists of tokens -/

section

variable {finish : Place} {us vs ws : List Token} (k : Enclosure)

/-- On a list of tokens that begins with a function without parameters a window reads its body and
comes to the closing brace. -/
theorem Enclosure.enters {w : Window} (h : w.Shows (.tokens (k.around us ++ vs) finish)) :
    w.Enters ∧ ∃ v, w.body.Reads us v ∧ v.Shows (.tokens (k.rbrace :: vs) finish) ∧
      v.index = w.index + us.length + 4 := by
  have hlist : k.around us ++ vs =
      k.word :: k.lparen :: k.rparen :: k.lbrace :: (us ++ k.rbrace :: vs) := by
    simp [around]
  rw [hlist] at h
  have hlparen : w.peek = k.lparen := h.advance.1
  have hrparen : w.advance.peek = k.rparen := h.advance.advance.1
  have hlbrace : w.advance.advance.peek = k.lbrace := h.advance.advance.advance.1
  constructor
  · exact ⟨by rw [h.1]; exact k.word_kind, by rw [hlparen, k.lparen_kind],
      by rw [hrparen, k.rparen_kind], by rw [hlbrace, k.lbrace_kind]⟩
  · have hbody : w.body.Shows (.tokens (us ++ k.rbrace :: vs) finish) :=
      h.advance.advance.advance.advance
    obtain ⟨v, hv, hshows, hindex⟩ := hbody.reads_append
    refine ⟨v, hv, hshows, ?_⟩
    rw [hindex]
    simp only [Window.body, Window.index_advance]
    omega

/-- Whatever stands behind a closing brace, the loop over the statements before it ends at the brace
or steps over it. -/
theorem bodyLoop_ends (config : Config) (levels : Nat) {v v' w w' : Window}
    (hus : ∀ x ∈ us, x.kind ∉ [Kind.lbrace, .rbrace, .eof]) (hw : w.Reads us v)
    (hw' : w'.Reads us v') (hindex : w'.index = w.index) (hbrace : v.current.kind = .rbrace)
    (hcurrent : v'.current = v.current) :
    ((bodyLoop config levels w).window = v ∧ (bodyLoop config levels w').window = v') ∨
      ((bodyLoop config levels w).window = (bodyLoop config levels v.advance).window ∧
        (bodyLoop config levels w').window = (bodyLoop config levels v'.advance).window) := by
  let b : Boundary := ⟨v, v', [.lbrace, .rbrace, .eof], hcurrent, by simp [hbrace, Kind.closing],
    by simp⟩
  have hnear : b.Near .fresh w w' := ⟨us, hw, hw', hindex, hus, Nat.zero_le _, trivial⟩
  obtain ⟨ns, ds, x, x', hx, hpass, hpass'⟩ :=
    b.passes config levels (fun k => k == .rbrace || k == .eof) rfl rfl (by simp [b]) hnear
  rcases hx with ⟨hx, hx'⟩ | ⟨hx, hx'⟩
  · have hv : bodyLoop config levels v = ⟨[], v, []⟩ := statementsUntil_stop (by simp [hbrace])
    have hv' : bodyLoop config levels v' = ⟨[], v', []⟩ :=
      statementsUntil_stop (by simp [hcurrent, hbrace])
    rw [hx] at hpass
    rw [hx'] at hpass'
    exact .inl ⟨hpass.window.trans (congrArg _ hv), hpass'.window.trans (congrArg _ hv')⟩
  · rw [hx] at hpass
    rw [hx'] at hpass'
    exact .inr ⟨hpass.window, hpass'.window⟩

/-- At the end the loop stops. -/
theorem bodyLoop_end {e : Window} (he : e.Shows (.tokens [] finish)) :
    (bodyLoop config levels e).window = e := by
  have hend : e.current.kind = .eof := by
    rw [he.1]
    rfl
  have hloop : bodyLoop config levels e = ⟨[], e, []⟩ := statementsUntil_stop (by simp [hend])
  rw [hloop]

/-- A semicolon and a name do not end the loop. -/
theorem bodyLoop_name {w : Window} {s a : Token} (hs : s.kind = .semicolon) (ha : a.kind = .ident)
    (hw : w.Shows (.tokens [s, a] finish)) :
    (bodyLoop config (levels + 1) w).window.Shows (.tokens [] finish) := by
  obtain ⟨e, he, hshows, -⟩ := @Window.Shows.reads_append w [s, a] [] finish hw
  have hname : Derivation.Expression config .equality [a] (.identifier a a.literal) 1 1 :=
    (Derivation.Expression.name ha).loosen .equality (by decide) (by decide)
  have hns : Derivation.Statements config [s, a] _ _ :=
    .empty hs (.unterminated (.expression hname) (by simp) .nil)
  have hend : e.current.kind = .eof := by
    rw [hshows.1]
    rfl
  have hrun : (bodyLoop config (levels + 1)).Leads Quiet w _ e :=
    (hns.leads_iff he rfl (by simp) (by simp [hend])).iff.2
      ⟨Nat.succ_le_succ (Nat.zero_le levels), rfl, rfl⟩
  have hwindow : (bodyLoop config (levels + 1) w).window = e := hrun.2.1
  rwa [hwindow]

end

/-! ### Behind the function -/

section

variable {finish : Place} {us vs : List Token} {k : Enclosure} {s : Token} {v : Window}

theorem statements_ne_nil_of_closed {src : Source} (hw : (Window.ofSource src).Enters)
    (hv : v.Shows (.tokens [k.rbrace] finish))
    (hbody : (bodyLoop config 99 (Window.ofSource src).body).window = v) :
    (parse { config } src).program.statements ≠ [] := by
  have hbrace : v.current.kind = .rbrace := by rw [hv.1]; exact k.rbrace_kind
  have hpeek : v.peek.kind = .eof := by rw [hv.2.1]; rfl
  obtain ⟨n, ds, hpass⟩ := hw.passes_closed hbody hbrace (by rw [hpeek]; decide)
  intro hnil
  have hvalue : (parse { config } src).program.statements = [n] ++ _ := hpass.value
  rw [hnil] at hvalue
  cases hvalue

theorem suffix_of_closed {src : Source} (hs : s.kind = .semicolon)
    (hw : (Window.ofSource src).Enters) (hv : v.Shows (.tokens (k.rbrace :: s :: vs) finish))
    (hbody : (bodyLoop config 99 (Window.ofSource src).body).window = v) :
    (parse { config } (.tokens vs finish)).program.statements <:+
        (parse { config } src).program.statements ∧
      (parse { config } (.tokens vs finish)).diagnostics.map (Diagnostic.later (v.index + 2)) <:+
        (parse { config } src).diagnostics := by
  have hbrace : v.current.kind = .rbrace := by rw [hv.1]; exact k.rbrace_kind
  have hpeek : v.peek.kind = .semicolon := by rw [hv.2.1]; exact hs
  obtain ⟨n, ds, hpass⟩ := hw.passes_closed hbody hbrace (by rw [hpeek]; decide)
  have hpast : v.pastSemicolon = v.advance := if_pos hpeek
  rw [hpast] at hpass
  obtain ⟨hns, hds⟩ := parse_of_passes hpass hv.advance.advance
  exact ⟨⟨_, hns.symm⟩, ⟨_, hds.symm⟩⟩

end

/-- What stands behind a function and a semicolon is parsed as if it stood alone, whatever tokens
but braces the body of the function has, exactly if the function without what stands behind it is a
statement. -/
theorem parse_enclosed_suffix_iff (config : Config) (finish : Place) (k : Enclosure)
    (us : List Token) (s : Token) (hus : ∀ x ∈ us, x.kind ∉ [Kind.lbrace, .rbrace, .eof])
    (hs : s.kind = .semicolon) :
    (∀ vs : List Token, (∀ x ∈ vs, x.kind ≠ .eof) →
        (parse { config } (.tokens vs finish)).program.statements <:+
          (parse { config } (.tokens (k.around us ++ s :: vs) finish)).program.statements ∧
        (parse { config } (.tokens vs finish)).diagnostics.map
            (Diagnostic.later (us.length + 6)) <:+
          (parse { config } (.tokens (k.around us ++ s :: vs) finish)).diagnostics) ↔
      (parse { config } (.tokens (k.around us) finish)).program.statements ≠ [] := by
  have hshows : (Window.ofSource (.tokens (k.around us) finish)).Shows
      (.tokens (k.around us ++ []) finish) := by
    rw [List.append_nil]
    exact Window.shows_ofSource _
  obtain ⟨hw, v, hv, hvshows, -⟩ := k.enters hshows
  have hbrace : v.current.kind = .rbrace := by rw [hvshows.1]; exact k.rbrace_kind
  constructor
  · intro hsuffix
    -- a name behind the function would be lost with it
    let a : Token := ⟨.ident, "a", finish⟩
    obtain ⟨hw', v', hv', hvshows', -⟩ :=
      k.enters (Window.shows_ofSource (.tokens (k.around us ++ s :: [a]) finish))
    have hcurrent : v'.current = v.current := hvshows'.1.trans hvshows.1.symm
    rcases bodyLoop_ends config 99 hus hv hv' rfl hbrace hcurrent with ⟨hbody, -⟩ | ⟨-, hbody⟩
    · exact statements_ne_nil_of_closed hw hvshows hbody
    · have hend : (bodyLoop config 99 v'.advance).window.Shows (.tokens [] finish) :=
        bodyLoop_name hs rfl hvshows'.advance
      rw [← hbody] at hend
      have hnil := hw'.value_eq_nil_of_unclosed hend
      have hlost := (hsuffix [a] (by simp [a])).1
      have hname : (parse { config } (.tokens [a] finish)).program.statements =
        [.expressionStatement a (.identifier a "a")] := rfl
      have hwhole : (parse { config } (.tokens (k.around us ++ s :: [a]) finish)).program.statements
        = [] := hnil
      rw [hname, hwhole, List.suffix_nil] at hlost
      cases hlost
  · intro hne vs _
    obtain ⟨hw', v', hv', hvshows', hindex⟩ :=
      k.enters (Window.shows_ofSource (.tokens (k.around us ++ s :: vs) finish))
    have hcurrent : v'.current = v.current := hvshows'.1.trans hvshows.1.symm
    rcases bodyLoop_ends config 99 hus hv hv' rfl hbrace hcurrent with ⟨-, hbody⟩ | ⟨hbody, -⟩
    · have hlater : v'.index + 2 = us.length + 6 := by
        rw [hindex]
        exact congrArg (· + 6) (Nat.zero_add _)
      rw [← hlater]
      exact suffix_of_closed hs hw' hvshows' hbody
    · have hend : (bodyLoop config 99 v.advance).window.Shows (.tokens [] finish) := by
        rw [bodyLoop_end hvshows.advance]
        exact hvshows.advance
      rw [← hbody] at hend
      exact absurd (hw.value_eq_nil_of_unclosed hend) hne

/-- The tokens `fn()`, an opening and a closing brace. -/
def Enclosure.plain : Enclosure where
  word := ⟨.function, "fn", ⟨1, 1⟩⟩
  lparen := ⟨.lparen, "(", ⟨1, 3⟩⟩
  rparen := ⟨.rparen, ")", ⟨1, 4⟩⟩
  lbrace := ⟨.lbrace, "\x7b", ⟨1, 6⟩⟩
  rbrace := ⟨.rbrace, "\x7d", ⟨1, 15⟩⟩
  word_kind := rfl
  lparen_kind := rfl
  rparen_kind := rfl
  lbrace_kind := rfl
  rbrace_kind := rfl

/-- A parenthesis that is out of place does not take the closing brace with it. -/
theorem parse_enclosed_suffix_iff_parenthesis :
    (∀ x ∈ [(⟨.rparen, ")", ⟨1, 8⟩⟩ : Token)], x.kind ∉ [Kind.lbrace, .rbrace, .eof]) ∧
      ∀ vs : List Token, (∀ x ∈ vs, x.kind ≠ .eof) →
        (parse {} (.tokens vs ⟨2, 1⟩)).program.statements <:+
          (parse {} (.tokens (Enclosure.plain.around [⟨.rparen, ")", ⟨1, 8⟩⟩] ++
            ⟨.semicolon, ";", ⟨1, 16⟩⟩ :: vs) ⟨2, 1⟩)).program.statements ∧
        (parse {} (.tokens vs ⟨2, 1⟩)).diagnostics.map (Diagnostic.later 7) <:+
          (parse {} (.tokens (Enclosure.plain.around [⟨.rparen, ")", ⟨1, 8⟩⟩] ++
            ⟨.semicolon, ";", ⟨1, 16⟩⟩ :: vs) ⟨2, 1⟩)).diagnostics := by
  have hbody : ∀ x ∈ [(⟨.rparen, ")", ⟨1, 8⟩⟩ : Token)],
      x.kind ∉ [Kind.lbrace, .rbrace, .eof] := by
    decide
  have hcloses : (parse {} (.tokens (Enclosure.plain.around [⟨.rparen, ")", ⟨1, 8⟩⟩])
      ⟨2, 1⟩)).program.statements.length ≠ 0 := by
    decide +kernel
  refine ⟨hbody, fun vs hvs => ?_⟩
  exact (parse_enclosed_suffix_iff {} ⟨2, 1⟩ .plain _ ⟨.semicolon, ";", ⟨1, 16⟩⟩ hbody rfl).2
    (fun hnil => hcloses (congrArg List.length hnil)) vs hvs

/-- A `return` without a value right before the closing brace takes what stands behind the function
with it. -/
theorem not_parse_enclosed_suffix :
    ¬ ∀ (config : Config) (finish : Place) (k : Enclosure) (us : List Token) (s : Token),
      (∀ x ∈ us, x.kind ∉ [Kind.lbrace, .rbrace, .eof]) → s.kind = .semicolon →
        ∀ vs : List Token, (∀ x ∈ vs, x.kind ≠ .eof) →
          (parse { config } (.tokens vs finish)).program.statements <:+
            (parse { config } (.tokens (k.around us ++ s :: vs) finish)).program.statements ∧
          (parse { config } (.tokens vs finish)).diagnostics.map
              (Diagnostic.later (us.length + 6)) <:+
            (parse { config } (.tokens (k.around us ++ s :: vs) finish)).diagnostics := by
  intro h
  let a : Token := ⟨.ident, "a", ⟨1, 18⟩⟩
  have hlost := (h {} ⟨1, 19⟩ .plain [⟨.returnWord, "return", ⟨1, 8⟩⟩] ⟨.semicolon, ";", ⟨1, 16⟩⟩
    (by decide) rfl [a] (by decide)).1
  have hname : (parse {} (.tokens [a] ⟨1, 19⟩)).program.statements =
    [.expressionStatement a (.identifier a "a")] := rfl
  have hwhole : (parse {} (.tokens (Enclosure.plain.around [⟨.returnWord, "return", ⟨1, 8⟩⟩] ++
      ⟨.semicolon, ";", ⟨1, 16⟩⟩ :: [a]) ⟨1, 19⟩)).program.statements.length = 0 := by
    decide +kernel
  have hlength := hlost.length_le
  rw [hname, hwhole] at hlength
  exact absurd hlength (by decide)

end MonkeyLang
