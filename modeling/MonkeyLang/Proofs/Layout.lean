import MonkeyLang.Proofs.DiagnosticPlaces
import MonkeyLang.Proofs.SideBySide

/-!
# Layout and names

A parse does not tell alike tokens apart: it never looks at a place, and the text of a name only
goes into the tree. So along two sequences whose tokens are alike one by one it does the same thing,
and the trees and the diagnostics that it yields differ in nothing but the tokens themselves. Main
statements: `expression_chain_agrees`, by induction on the levels, and `parse_alike`.
-/

namespace MonkeyLang

open Grammar

variable {α β : Type} {ts us : Nat → Token} (hts : ∀ i, (ts i).Alike (us i)) {w w' : Window}

theorem Parse.diagnostics_recover (p : Parse α) (w : Window) :
    Event.diagnostics (recover p w).trace = Event.diagnostics (p.run w).trace := by
  rw [recover_apply]
  cases (p.run w).value <;> simp

/-! ### Sequences -/

namespace Grammar

include hts

section Items

variable {item : Parse Node} (hitem : ∀ {w w'}, Window.Beside ts us w w' →
  Parse.Agrees ts us (Node.Beside ts us) item item w w')

include hitem

theorem itemsWithin_agrees (n : Nat) (h : Window.Beside ts us w w') :
    Parse.Agrees ts us (Node.BesideList ts us) (itemsWithin item n) (itemsWithin item n) w w' := by
  induction n generalizing w w' with
  | zero => exact .pure h .nil
  | succ n ih =>
    refine .peek_bind ?_
    rw [h.peek_kind hts]
    split
    · refine .advance_bind ((hitem h.advance).bind fun hu hfirst => ?_)
      exact (ih hu).cons fun hmore => .cons hfirst hmore
    · exact .pure h .nil

theorem commaList_agrees (hcomma : TakesComma item) (close : Kind) (h : Window.Beside ts us w w') :
    Parse.Agrees ts us (Node.BesideList ts us) (commaList item close) (commaList item close)
      w w' := by
  refine .peek_bind ?_
  rw [h.peek_kind hts]
  split
  · exact .advance_bind (.pure h.advance .nil)
  · refine (hitem h).bind fun {u u' _ _} hu hfirst => ?_
    have hmore : Parse.Agrees ts us (Node.BesideList ts us)
        (moreItems item) (moreItems item) u u' :=
      (itemsWithin_agrees hts hitem (max u.size u'.size) hu).congr
        (itemsWithin_eq hcomma (Nat.le_max_left _ _)).symm
        (itemsWithin_eq hcomma (Nat.le_max_right _ _)).symm
    refine hmore.bind fun hv hmore => .expect_bind hts hv fun _ => ?_
    exact .pure hv.advance (.cons hfirst hmore)

end Items

section Statements

variable {stop : Kind → Bool} {p : Parse (Option Node)} (hstop : stop .eof = true)
  (hp : ∀ {w w'}, Window.Beside ts us w w' → w.current.kind ≠ .eof →
    Parse.Agrees ts us (Option.Rel (Node.Beside ts us)) p p w w')

include hstop hp

theorem statementsWithin_agrees (n : Nat) (h : Window.Beside ts us w w') :
    Outcome.Beside ts us (Node.BesideList ts us) (statementsWithin stop p n w)
      (statementsWithin stop p n w') := by
  induction n generalizing w w' with
  | zero => exact ⟨.nil, h, .nil⟩
  | succ n ih =>
    cases hw : stop w.current.kind with
    | true =>
      have hw' : stop w'.current.kind = true := by rw [h.current_kind hts, hw]
      rw [statementsWithin_stop hw, statementsWithin_stop hw']
      exact ⟨.nil, h, .nil⟩
    | false =>
      have hw' : stop w'.current.kind = false := by rw [h.current_kind hts, hw]
      have hne := ne_eof_of_goesOn hstop hw
      obtain ⟨hvalue, hwindow, hdiagnostics⟩ := hp h hne
      obtain ⟨hvalue', hwindow', hdiagnostics'⟩ := ih hwindow.advance
      rw [statementsWithin_next hw, statementsWithin_next hw']
      simp only [followedBy, Parse.recover_value, Parse.recover_window]
      refine ⟨?_, hwindow', ?_⟩
      · refine Node.MatchesList.append ?_ hvalue'
        generalize (p.run w).value = found at hvalue
        generalize (p.run w').value = found' at hvalue
        cases hvalue with
        | none => exact .nil
        | some hfound =>
          cases hfound with
          | none => exact .nil
          | some hn => exact .cons hn .nil
      · simp only [Event.diagnostics_append, Event.diagnostics_took,
          Parse.diagnostics_recover]
        exact List.rel_append hdiagnostics hdiagnostics'

theorem statementsUntil_agrees (hreads : Parse.Respects (fun w _ _ v => ∃ us, w.Reads us v) p)
    (h : Window.Beside ts us w w') :
    Outcome.Beside ts us (Node.BesideList ts us) (statementsUntil stop p w)
      (statementsUntil stop p w') := by
  have hwithin := statementsWithin_agrees hts hstop hp (max w.size w'.size) h
  rwa [statementsWithin_eq hstop hreads (Nat.le_max_left _ _),
    statementsWithin_eq hstop hreads (Nat.le_max_right _ _)] at hwithin

end Statements

/-! ### Forms -/

omit hts in
theorem name_agrees (h : Window.Beside ts us w w') (hne : w.current.kind ≠ .eof) :
    Parse.Agrees ts us (Node.Beside ts us) name name w w' :=
  .current_bind (.pure h (.identifier (h.current hne)))

theorem parameters_agrees (h : Window.Beside ts us w w') :
    Parse.Agrees ts us (Node.BesideList ts us) parameters parameters w w' := by
  refine commaList_agrees hts (fun {w w'} h => ?_) takesComma_parameter _ h
  exact .expect_bind hts h fun hk => name_agrees h.advance (by simp [hk])

section Operand

variable {config : Config} {levels : Nat} (hop : ∀ {p w w'}, Window.Beside ts us w w' →
  Parse.Agrees ts us (Node.Beside ts us) (expression { config } levels p)
    (expression { config } levels p) w w')

include hop

theorem arguments_agrees (close : Kind) (h : Window.Beside ts us w w') :
    Parse.Agrees ts us (Node.BesideList ts us) (arguments (expression { config } levels) close)
      (arguments (expression { config } levels) close) w w' :=
  commaList_agrees hts (fun h => .advance_bind (hop h.advance)) (takesComma_argument config levels)
    close h

theorem statement_agrees (h : Window.Beside ts us w w') (hne : w.current.kind ≠ .eof) :
    Parse.Agrees ts us (Option.Rel (Node.Beside ts us)) (statement (expression { config } levels))
      (statement (expression { config } levels)) w w' := by
  have hcurrent := h.current hne
  refine .current_bind ?_
  rw [h.current_kind hts]
  split
  · refine Parse.Agrees.map (V := Node.Beside ts us) (.current_bind ?_) .some
    refine .expect_bind hts h fun hk => ?_
    refine (name_agrees h.advance (by simp [hk])).bind fun hu hname => ?_
    refine .expect_bind hts hu fun _ => .advance_bind ?_
    refine ((hop hu.advance.advance).terminated hts).bind fun hv hvalue => ?_
    exact .pure hv (.binding hcurrent hname hvalue)
  · refine Parse.Agrees.map (V := Node.Beside ts us) (.current_bind (.advance_bind ?_)) .some
    refine ((hop h.advance).terminated hts).bind fun hv hvalue => ?_
    exact .pure hv (.result hcurrent hvalue)
  · exact .pure h .none
  · refine Parse.Agrees.map (V := Node.Beside ts us) (.current_bind ?_) .some
    refine ((hop h).terminated hts).bind fun hv hvalue => ?_
    exact .pure hv (.expression hcurrent hvalue)

theorem block_agrees (h : Window.Beside ts us w w') (hne : w.current.kind ≠ .eof) :
    Parse.Agrees ts us (Node.Beside ts us) (block (expression { config } levels))
      (block (expression { config } levels)) w w' := by
  have hreads := StepInvariant.reads.statement (StepInvariant.reads.expression { config } levels)
  refine .current_bind (.advance_bind ?_)
  refine (Parse.Agrees.lift (statementsUntil_agrees hts (by decide) (statement_agrees hts hop)
    hreads h.advance)).bind fun hv hns => .current_bind ?_
  rw [hv.current_kind hts]
  split
  · exact .pure hv (.block (h.current hne) hns)
  · refine .reject hv ?_
    simp [Diagnostic.message, Window.blame, Window.tokenAt, hv.current_kind hts]

theorem opening_agrees {form : Opening} (h : Window.Beside ts us w w')
    (hform : ({} : Rules).opening? w.current.kind = some form) :
    Parse.Agrees ts us (Node.Beside ts us) (opening config (expression { config } levels) form)
      (opening config (expression { config } levels) form) w w' := by
  have hkind := opening?_eq_some.1 hform
  have hcurrent := h.current (ne_eof_of_opening hform)
  cases form with
  | name => exact name_agrees h (ne_eof_of_opening hform)
  | numeral =>
    have hliteral := h.current_literal hts (by rw [hkind]; decide)
    have hmessage : (w.blame .current .notAnInteger).message =
        (w'.blame .current .notAnInteger).message := by
      simp [Diagnostic.message, Window.blame, Window.tokenAt, hliteral]
    refine .current_bind ?_
    rw [hliteral]
    split
    · split
      · exact .pure h (.integer hcurrent)
      · exact .reject h hmessage
    · exact .reject h hmessage
  | truth =>
    refine .current_bind ?_
    rw [h.current_kind hts]
    exact .pure h (.boolean hcurrent)
  | unary =>
    have hliteral := h.current_literal hts (by rcases hkind with hk | hk <;> rw [hk] <;> decide)
    refine .current_bind (.advance_bind ((hop h.advance).bind fun hu hright => ?_))
    rw [hliteral]
    exact .pure hu (.unary hcurrent hright)
  | group =>
    refine .advance_bind ((hop h.advance).bind fun hu hinner => ?_)
    exact .expect_bind hts hu fun _ => .pure hu.advance hinner
  | conditional =>
    refine .current_bind (.expect_bind hts h fun _ => .advance_bind ?_)
    refine (hop h.advance.advance).bind fun hu hcondition => .expect_bind hts hu fun _ => ?_
    refine .expect_bind hts hu.advance fun hk => ?_
    refine (block_agrees hts hop hu.advance.advance (by simp [hk])).bind fun hv hblock => ?_
    refine .take_bind hts hv (fun _ => ?_) ?_
    · refine .expect_bind hts hv.advance fun hk => ?_
      refine (block_agrees hts hop hv.advance.advance (by simp [hk])).bind fun hx hlast => ?_
      exact .pure hx (.alternative hcurrent hcondition hblock hlast)
    · exact .pure hv (.choice hcurrent hcondition hblock)
  | function =>
    refine .current_bind (.expect_bind hts h fun _ => ?_)
    refine (parameters_agrees hts h.advance).bind fun hu hparameters => ?_
    refine .expect_bind hts hu fun hk => ?_
    refine (block_agrees hts hop hu.advance (by simp [hk])).bind fun hv hbody => ?_
    exact .pure hv (.function hcurrent hparameters hbody)

theorem continuation_agrees {form : Continuation} {left left' : Node} {p : Precedence}
    (hleft : Node.Beside ts us left left') (h : Window.Beside ts us w w')
    (hlt : p < w.current.kind.precedence) :
    Parse.Agrees ts us (Node.Beside ts us)
      (continuation (expression { config } levels) left form)
      (continuation (expression { config } levels) left' form) w w' := by
  have hcurrent := h.current (ne_eof_of_lt hlt)
  cases form with
  | binary =>
    have hliteral := h.current_literal hts fun hk => by
      rw [hk] at hlt
      revert hlt
      cases p <;> decide
    refine .current_bind (.advance_bind ?_)
    rw [h.current_kind hts, hliteral]
    exact (hop h.advance).bind fun hu hright => .pure hu (.binary hcurrent hleft hright)
  | call =>
    refine .current_bind ((arguments_agrees hts hop _ h).bind fun hu hns => ?_)
    exact .pure hu (.call hcurrent hleft hns)

end Operand

/-! ### Expressions -/

/-- Induction on the levels, for expressions together with chains. -/
theorem expression_chain_agrees (config : Config) (levels : Nat) :
    (∀ {p w w'}, Window.Beside ts us w w' →
      Parse.Agrees ts us (Node.Beside ts us) (expression { config } levels p)
        (expression { config } levels p) w w') ∧
    ∀ {p w w' left left'}, Window.Beside ts us w w' → Node.Beside ts us left left' →
      Parse.Agrees ts us (Node.Beside ts us) (chain { config } levels p left)
        (chain { config } levels p left') w w' := by
  induction levels with
  | zero =>
    constructor
    · intro p w w' h
      rw [expression]
      exact (Parse.Agrees.reject_nestedTooDeep h _).nested
    · intro p w w' left left' h hleft
      rw [chain, chain, continuationAhead_bind, continuationAhead_bind]
      refine .peek_bind ?_
      rw [h.peek_kind hts]
      split
      · exact (Parse.Agrees.reject_nestedTooDeep h _).nested
      · exact .pure h hleft
  | succ levels ih =>
    obtain ⟨hexpression, hchain⟩ := ih
    constructor
    · intro p w w' h
      rw [expression]
      refine Parse.Agrees.nested (.current_bind ?_)
      rw [h.current_kind hts]
      split
      · next hnone =>
        -- names start expressions, so a token that starts none is shown by a text that is no name's
        have hliteral := h.current_literal hts fun hk => by
          have hident : ({} : Rules).opening? .ident ≠ none := by decide
          exact hident (hk ▸ hnone)
        have hshown : Diagnostic.shown w.current = Diagnostic.shown w'.current := by
          rw [Diagnostic.shown, Diagnostic.shown, hliteral, h.current_kind hts]
        exact .reject h (by simp [Diagnostic.message, Window.blame, Window.tokenAt, hshown])
      · next form hform =>
        exact (opening_agrees hts hexpression h hform).bind fun hu hleft => hchain hu hleft
    · intro p w w' left left' h hleft
      rw [chain, chain, continuationAhead_bind, continuationAhead_bind]
      refine .peek_bind ?_
      rw [h.peek_kind hts]
      split
      · next hlt =>
        refine Parse.Agrees.nested (.advance_bind ?_)
        exact (continuation_agrees hts hexpression hleft h.advance hlt).bind
          fun hu hwider => hchain hu hwider
      · exact .pure h hleft

theorem program_agrees (config : Config) (h : Window.Beside ts us w w') (levels : Nat) :
    Outcome.Beside ts us (Node.Beside ts us) (program { config } levels w)
      (program { config } levels w') := by
  have hreads := StepInvariant.reads.statement (StepInvariant.reads.expression { config } levels)
  have hns : Outcome.Beside ts us (Node.BesideList ts us)
      (statementsUntil (· == .eof) (statement (expression { config } levels)) w)
      (statementsUntil (· == .eof) (statement (expression { config } levels)) w') :=
    statementsUntil_agrees hts rfl
      (statement_agrees hts (expression_chain_agrees hts config levels).1) hreads h
  refine ⟨.program hns.value, hns.window, ?_⟩
  simpa [program, Run.map_apply] using hns.diagnostics

end Grammar

/-! ### Whole parses -/

include hts in
/-- What whole parses along two sequences of tokens yield, if the tokens are alike one by one. -/
theorem parse_agrees (config : Config) {source source' : Source}
    (h : Window.Beside ts us (.ofSource source) (.ofSource source')) :
    Node.Beside ts us (parse { config } source).program (parse { config } source').program ∧
      List.Forall₂ (Diagnostic.Beside ts us) (parse { config } source).diagnostics
        (parse { config } source').diagnostics :=
  ⟨(program_agrees hts config h maxNesting).value,
    (program_agrees hts config h maxNesting).diagnostics⟩

theorem map_message_eq {ds ds' : List Diagnostic}
    (h : List.Forall₂ (Diagnostic.Beside ts us) ds ds') :
    ds.map Diagnostic.message = ds'.map Diagnostic.message := by
  induction h with
  | nil => rfl
  | cons hd _ ih => rw [List.map_cons, List.map_cons, hd.message, ih]

/-- Lists of tokens that are alike go on alike behind their ends. -/
theorem alike_getD {ts us : List Token} (h : List.Forall₂ Token.Alike ts us)
    (finish finish' : Place) (i : Nat) :
    (ts.getD i (.endAt finish)).Alike (us.getD i (.endAt finish')) := by
  induction h generalizing i with
  | nil => exact ⟨rfl, fun _ => rfl⟩
  | cons ht _ ih =>
    cases i with
    | zero => exact ht
    | succ i => exact ih i

/-- Texts with the same kinds and texts of tokens have them at all positions. -/
theorem Scan.kind_literal_after_eq {s u : Scan}
    (h : s.tokens.map (fun t => (t.kind, t.literal)) =
      u.tokens.map (fun t => (t.kind, t.literal))) (i : Nat) :
    (s.after i).token.kind = (u.after i).token.kind ∧
      (s.after i).token.literal = (u.after i).token.literal := by
  have hhead {s u : Scan} (h : s.tokens.map (fun t => (t.kind, t.literal)) =
      u.tokens.map (fun t => (t.kind, t.literal))) :
      s.token.kind = u.token.kind ∧ s.token.literal = u.token.literal := by
    rw [s.tokens_eq, u.tokens_eq] at h
    split at h <;> split at h <;> simp_all
  obtain ⟨hkind, hliteral⟩ := hhead h
  by_cases hs : s.token.kind = .eof
  · have hu : u.token.kind = .eof := by rw [← hkind, hs]
    rw [token_after_of_eof (Nat.zero_le _) hs, token_after_of_eof (Nat.zero_le _) hu]
    exact ⟨hkind, hliteral⟩
  · have hu : u.token.kind ≠ .eof := by rwa [← hkind]
    cases i with
    | zero => exact ⟨hkind, hliteral⟩
    | succ i =>
      rw [s.tokens_eq, u.tokens_eq, if_neg hs, if_neg hu, List.map_cons, List.map_cons] at h
      exact kind_literal_after_eq (List.cons.inj h).2 i

/-- Lists of tokens that are alike one by one are parsed to trees with tokens of the same positions
throughout, and to diagnostics that blame tokens of the same positions in the same words. So texts
with tokens of the same kinds and texts are parsed to trees that differ in places only, which are
rendered to the same text, and to the same messages. -/
theorem parse_alike (config : Config) :
    (∀ (ts us : List Token) (finish finish' : Place), List.Forall₂ Token.Alike ts us →
      (parse { config } (.tokens ts finish)).program.Matches
          (fun t u => ∃ i : Nat, ts[i]? = some t ∧ us[i]? = some u)
          (parse { config } (.tokens us finish')).program ∧
        List.Forall₂
          (fun d d' => d.message = d'.message ∧ d.index = d'.index ∧
            d.token = ts.getD d.index (.endAt finish) ∧
            d'.token = us.getD d'.index (.endAt finish'))
          (parse { config } (.tokens ts finish)).diagnostics
          (parse { config } (.tokens us finish')).diagnostics) ∧
    ∀ text text' : String,
      (tokenize text).map (fun t => (t.kind, t.literal)) =
          (tokenize text').map (fun t => (t.kind, t.literal)) →
        (parseText config text).program.Matches
            (fun t u => t.kind = u.kind ∧ t.literal = u.literal)
            (parseText config text').program ∧
          (parseText config text).program.render = (parseText config text').program.render ∧
          (parseText config text).messages = (parseText config text').messages := by
  constructor
  · intro ts us finish finish' h
    obtain ⟨hprogram, hdiagnostics⟩ := parse_agrees (alike_getD h finish finish') config
      ⟨Window.on_ofSource ts finish, Window.on_ofSource us finish', rfl⟩
    refine ⟨hprogram.mono fun {t u} htu => ?_, hdiagnostics.imp fun d d' hd =>
      ⟨hd.message, hd.index, hd.left, hd.right⟩⟩
    obtain ⟨i, hne, rfl, rfl⟩ := htu
    -- no end token is in the tree, so the position is one of the list
    have hi : i < ts.length := by
      refine Nat.lt_of_not_le fun hle => hne ?_
      simp [hle]
    have hi' : i < us.length := h.length_eq ▸ hi
    exact ⟨i, by simp [hi], by simp [hi']⟩
  · intro text text' h
    have hsame := Scan.kind_literal_after_eq (s := .ofText text) (u := .ofText text') h
    obtain ⟨hprogram, hdiagnostics⟩ := parse_agrees
      (fun i => ⟨(hsame i).1, fun _ => (hsame i).2⟩) config
      ⟨(Window.shows_ofSource (.ofText text)).on rfl,
        (Window.shows_ofSource (.ofText text')).on rfl, rfl⟩
    have hmatches := hprogram.mono (S := fun t u => t.kind = u.kind ∧ t.literal = u.literal) (by
      rintro t u ⟨i, -, rfl, rfl⟩
      exact hsame i)
    exact ⟨hmatches, hmatches.render_eq fun htu => htu.2, map_message_eq hdiagnostics⟩

/-- A choice whose names are replaced by others and whose condition is written on two lines, and one
that keeps its names, with a closing parenthesis too many in both. -/
theorem parse_alike_layout :
    let ts := (tokenize "if (a < f(1)) \x7b -b; ) \x7d").dropLast
    let us := (tokenize "if (n\n < size(1)) \x7b -n; ) \x7d").dropLast
    let text := "if (a < f(1)) \x7b -b; ) \x7d"
    let text' := "if (a\n < f( 1)) \x7b -b;\n) \x7d"
    List.Forall₂ Token.Alike ts us ∧
      (parse {} (.tokens ts ⟨1, 25⟩)).program.Matches
        (fun t u => ∃ i : Nat, ts[i]? = some t ∧ us[i]? = some u)
        (parse {} (.tokens us ⟨2, 24⟩)).program ∧
      (tokenize text).map (fun t => (t.kind, t.literal)) =
        (tokenize text').map (fun t => (t.kind, t.literal)) ∧
      (parseText {} text).messages = ["no prefix parse function for ) found"] ∧
      (parseText {} text).program.render = (parseText {} text').program.render ∧
      (parseText {} text).messages = (parseText {} text').messages := by
  intro ts us text text'
  have hzip : ∀ p ∈ ts.zip us, p.1.Alike p.2 := by decide +kernel
  have halike : List.Forall₂ Token.Alike ts us :=
    List.forall₂_iff_zip.2 ⟨by decide +kernel, fun hmem => hzip _ hmem⟩
  have htokens : (tokenize text).map (fun t => (t.kind, t.literal)) =
      (tokenize text').map (fun t => (t.kind, t.literal)) := by
    decide +kernel
  have hmessages : (parseText {} text).messages = ["no prefix parse function for ) found"] := by
    decide +kernel
  obtain ⟨hlists, htexts⟩ := parse_alike {}
  obtain ⟨hprogram, -⟩ := hlists ts us ⟨1, 25⟩ ⟨2, 24⟩ halike
  obtain ⟨-, hrender, hsame⟩ := htexts text text' htokens
  exact ⟨halike, hprogram, htokens, hmessages, hrender, hsame⟩

end MonkeyLang
