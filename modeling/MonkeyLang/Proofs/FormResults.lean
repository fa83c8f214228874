import MonkeyLang.Proofs.Results

/-!
# Results of the forms

What each form of the grammar yields and where it leads, in terms of what its parts yield. The loops
need to know more of what they repeat: that it leaves a diagnostic when it fails and only moves on
along the tokens.
-/

namespace MonkeyLang

/-- The kinds of tokens at which a statement ends. -/
def Kind.closing : List Kind := [semicolon, rbrace, eof]

theorem Kind.ne_eof_of_not_mem_closing {k : Kind} (h : k ∉ closing) : k ≠ .eof := by
  rintro rfl
  exact h (by decide)

namespace Grammar

open Parse

variable {ok : List Event → Prop} [Benign ok] {operand : Operand} {w v : Window} {n : Node}

/-! ### Sequences -/

section Sequences

variable {stop : Kind → Bool} {p : Parse (Option Node)} {ns : List Node}

theorem leads_statementsUntil_stop (h : stop w.current.kind = true) :
    (statementsUntil stop p).Leads ok w ns v ↔ ns = [] ∧ v = w := by
  simp [Run.Leads, statementsUntil_stop h, eq_comm, Benign.nil]

omit [Benign ok] in
/-- In a quiet run over statements, each of them is parsed. -/
theorem leads_statementsUntil_next (hstop : stop .eof = true)
    (hreads : Parse.Respects (fun w _ _ v => ∃ us, w.Reads us v) p)
    (hloud : Parse.Respects
      (fun _ failed trace _ => failed = true → Event.diagnostics trace ≠ []) p)
    (h : stop w.current.kind = false) :
    (statementsUntil stop p).Leads Quiet w ns v ↔
      ∃ found u, p.Leads Quiet w found u ∧
        ∃ more, (statementsUntil stop p).Leads Quiet u.advance more v ∧
          ns = found.toList ++ more := by
  have hw := hloud w
  simp only [Parse.Leads, Run.Leads, Quiet, statementsUntil_next hstop hreads h, followedBy,
    Parse.recover_apply]
  cases ho : (p.run w).value with
  | none =>
    rw [ho] at hw
    simp [hw rfl]
  | some found =>
    simp only [Event.diagnostics_append, Event.diagnostics_took, List.append_eq_nil_iff]
    constructor
    · rintro ⟨rfl, hv, hd, hmore⟩
      exact ⟨found, _, ⟨rfl, rfl, hd⟩, _, ⟨rfl, hv, hmore⟩, rfl⟩
    · rintro ⟨_, _, ⟨hf, rfl, hd⟩, _, ⟨rfl, hv, hmore⟩, rfl⟩
      obtain rfl := Option.some.inj hf
      exact ⟨rfl, hv, hd, hmore⟩

section Members

variable {I : Window → Prop} (hadvance : ∀ w, I w → I w.advance)
  (hp : Parse.Respects (fun w _ _ v => I w → I v) p)

include hadvance hp

omit [Benign ok] in
private theorem leads_of_mem_statementsWithin {k : Nat} (hw : I w)
    (hn : n ∈ (statementsWithin stop p k w).value) :
    ∃ x y, I x ∧ p.Leads Anyhow x (some n) y := by
  induction k generalizing w with
  | zero => simp [statementsWithin, Run.pure_apply] at hn
  | succ k ih =>
    cases hgo : stop w.current.kind with
    | true => simp [statementsWithin_stop hgo] at hn
    | false =>
      rw [statementsWithin_next hgo, followedBy, List.mem_append, Parse.recover_window] at hn
      rcases hn with hn | hn
      · rw [Option.mem_toList, Parse.recover_value, Option.join_eq_some_iff] at hn
        exact ⟨w, _, hw, hn, rfl, trivial⟩
      · exact ih (hadvance _ (hp w hw)) hn

omit [Benign ok] in
/-- Any run over statements yields only what some statement yields, from a window that has what
steps and statements keep. -/
theorem leads_of_mem_statementsUntil_from (hw : I w) (h : (statementsUntil stop p).Leads ok w ns v)
    (hn : n ∈ ns) : ∃ x y, I x ∧ p.Leads Anyhow x (some n) y := by
  rw [← h.1] at hn
  exact leads_of_mem_statementsWithin hadvance hp hw hn

end Members

omit [Benign ok] in
theorem leads_of_mem_statementsUntil (h : (statementsUntil stop p).Leads ok w ns v) (hn : n ∈ ns) :
    ∃ x y, p.Leads Anyhow x (some n) y := by
  obtain ⟨x, y, -, hleads⟩ := leads_of_mem_statementsUntil_from (I := fun _ => True)
    (fun _ _ => trivial) (fun _ _ => trivial) trivial h hn
  exact ⟨x, y, hleads⟩

end Sequences

section Items

variable {item : Parse Node} {close : Kind} {ns : List Node}

theorem leads_moreItems_end (h : w.peek.kind ≠ .comma) :
    (moreItems item).Leads ok w ns v ↔ v = w ∧ ns = [] := by
  rw [Parse.Leads, Run.Leads, moreItems_end h]
  simp [eq_comm, and_comm, Benign.nil]

theorem leads_moreItems_comma (hitem : TakesComma item) (h : w.peek.kind = .comma) :
    (moreItems item).Leads ok w ns v ↔
      ∃ first u, item.Leads ok w.advance first u ∧
        ∃ more, (moreItems item).Leads ok u more v ∧ ns = first :: more := by
  rw [leads_congr (moreItems_next hitem h)]
  simp

/-- A run over further items, each after a comma, and the closing token behind them. -/
def LeadsRest (ok : List Event → Prop) (item : Parse Node) (close : Kind) (w : Window)
    (ns : List Node) (v : Window) : Prop :=
  ∃ u, (moreItems item).Leads ok w ns u ∧ u.peek.kind = close ∧ v = u.advance

theorem leadsRest_end (h : w.peek.kind ≠ .comma) :
    LeadsRest ok item close w ns v ↔ w.peek.kind = close ∧ v = w.advance ∧ ns = [] := by
  simp only [LeadsRest]
  constructor
  · rintro ⟨u, hu, hclose, rfl⟩
    obtain ⟨rfl, rfl⟩ := (leads_moreItems_end h).1 hu
    exact ⟨hclose, rfl, rfl⟩
  · rintro ⟨hclose, rfl, rfl⟩
    exact ⟨w, (leads_moreItems_end h).2 ⟨rfl, rfl⟩, hclose, rfl⟩

/-- A comma announces one more item. -/
theorem leadsRest_comma (hitem : TakesComma item) (h : w.peek.kind = .comma) :
    LeadsRest ok item close w ns v ↔
      ∃ first u, item.Leads ok w.advance first u ∧
        ∃ more, LeadsRest ok item close u more v ∧ ns = first :: more := by
  simp only [LeadsRest]
  constructor
  · rintro ⟨x, hx, hclose, rfl⟩
    obtain ⟨first, u, hfirst, more, hmore, rfl⟩ := (leads_moreItems_comma hitem h).1 hx
    exact ⟨first, u, hfirst, more, ⟨x, hmore, hclose, rfl⟩, rfl⟩
  · rintro ⟨first, u, hfirst, more, ⟨x, hmore, hclose, rfl⟩, rfl⟩
    exact ⟨x, (leads_moreItems_comma hitem h).2 ⟨first, u, hfirst, more, hmore, rfl⟩, hclose, rfl⟩

/-! How many further items a run yields says whether a comma came next. -/

theorem LeadsRest.of_nil (hitem : TakesComma item) (h : LeadsRest ok item close w [] v) :
    w.peek.kind = close ∧ v = w.advance := by
  by_cases hw : w.peek.kind = .comma
  · obtain ⟨_, _, _, _, _, hnil⟩ := (leadsRest_comma hitem hw).1 h
    cases hnil
  · obtain ⟨hclose, hv, -⟩ := (leadsRest_end hw).1 h
    exact ⟨hclose, hv⟩

theorem LeadsRest.of_cons (hitem : TakesComma item)
    (h : LeadsRest ok item close w (n :: ns) v) :
    w.peek.kind = .comma ∧
      ∃ u, item.Leads ok w.advance n u ∧ LeadsRest ok item close u ns v := by
  by_cases hw : w.peek.kind = .comma
  · obtain ⟨_, u, hfirst, _, hmore, hcons⟩ := (leadsRest_comma hitem hw).1 h
    obtain ⟨rfl, rfl⟩ := List.cons.inj hcons
    exact ⟨hw, u, hfirst, hmore⟩
  · obtain ⟨-, -, hcons⟩ := (leadsRest_end hw).1 h
    cases hcons

theorem leads_commaList :
    (commaList item close).Leads ok w ns v ↔
      if w.peek.kind = close then v = w.advance ∧ ns = []
      else ∃ first u, item.Leads ok w first u ∧
        ∃ more, LeadsRest ok item close u more v ∧ ns = first :: more := by
  simp only [commaList, leads_peek_bind]
  split
  · simp
  · rw [leads_bind]
    refine exists_congr fun first => exists_congr fun u => and_congr_right fun _ => ?_
    rw [leads_bind]
    simp only [leads_expect_bind, leads_pure, LeadsRest]
    constructor
    · rintro ⟨more, x, hx, hclose, rfl, rfl⟩
      exact ⟨more, ⟨x, hx, hclose, rfl⟩, rfl⟩
    · rintro ⟨more, ⟨x, hx, hclose, rfl⟩, rfl⟩
      exact ⟨more, x, hx, hclose, rfl, rfl⟩

section Members

variable {I : Window → Prop} (hadvance : ∀ w, I w → I w.advance)
  (hitem : Parse.Respects (fun w _ _ v => I w → I v) item)

include hadvance hitem

private theorem leads_of_mem_itemsWithin {k : Nat} (hw : I w)
    (h : (itemsWithin item k).Leads ok w ns v) (hn : n ∈ ns) :
    ∃ x y, I x ∧ item.Leads ok x n y := by
  induction k generalizing w ns with
  | zero =>
    simp only [itemsWithin, leads_pure] at h
    simp [h.1] at hn
  | succ k ih =>
    rw [itemsWithin, leads_peek_bind] at h
    split at h
    · rw [leads_advance_bind, leads_bind] at h
      simp only [leads_cons] at h
      obtain ⟨first, u, hfirst, more, hmore, rfl⟩ := h
      have hw := hadvance _ hw
      rcases List.mem_cons.1 hn with rfl | hn
      · exact ⟨_, u, hw, hfirst⟩
      · exact ih (hfirst.keeps hitem hw) hmore hn
    · simp only [leads_pure] at h
      simp [h.1] at hn

/-- A list yields only what some item yields, from a window that has what steps and items keep. -/
theorem leads_of_mem_commaList_from (hw : I w) (h : (commaList item close).Leads ok w ns v)
    (hn : n ∈ ns) : ∃ x y, I x ∧ item.Leads ok x n y := by
  rw [leads_commaList] at h
  split at h
  · simp [h.2] at hn
  · obtain ⟨first, u, hfirst, more, ⟨_, hmore, -⟩, rfl⟩ := h
    rcases List.mem_cons.1 hn with rfl | hn
    · exact ⟨w, u, hw, hfirst⟩
    · exact leads_of_mem_itemsWithin hadvance hitem (hfirst.keeps hitem hw) hmore hn

end Members

theorem leads_of_mem_commaList (h : (commaList item close).Leads ok w ns v) (hn : n ∈ ns) :
    ∃ x y, item.Leads ok x n y := by
  obtain ⟨x, y, -, hleads⟩ := leads_of_mem_commaList_from (I := fun _ => True)
    (fun _ _ => trivial) (fun _ _ => trivial) trivial h hn
  exact ⟨x, y, hleads⟩

end Items

/-! ### Statements and blocks -/

@[simp] theorem leads_name :
    name.Leads ok w n v ↔ v = w ∧ n = .identifier w.current w.current.literal := by
  simp [name, and_assoc]

@[simp high] theorem leads_name_bind {β : Type} {f : Node → Parse β} {b : β} :
    Parse.Leads ok (name >>= f) w b v ↔
      (f (.identifier w.current w.current.literal)).Leads ok w b v := by
  simp [name]

theorem leads_letStatement :
    (letStatement operand).Leads ok w n v ↔
      w.peek.kind = .ident ∧ w.advance.peek.kind = .assign ∧
        ∃ value u, (operand .lowest).Leads ok w.advance.advance.advance value u ∧
          v = u.pastSemicolon ∧
          n = .letStatement w.current (.identifier w.peek w.peek.literal) value := by
  simp [letStatement]

theorem leads_returnStatement :
    (returnStatement operand).Leads ok w n v ↔
      ∃ value u, (operand .lowest).Leads ok w.advance value u ∧
        v = u.pastSemicolon ∧ n = .returnStatement w.current value := by
  simp [returnStatement]

theorem leads_expressionStatement :
    (expressionStatement operand).Leads ok w n v ↔
      ∃ value u, (operand .lowest).Leads ok w value u ∧
        v = u.pastSemicolon ∧ n = .expressionStatement w.current value := by
  simp [expressionStatement]

theorem leads_statement {found : Option Node} :
    (statement operand).Leads ok w found v ↔
      if w.current.kind = .semicolon then v = w ∧ found = none
      else ∃ n, found = some n ∧
        if w.current.kind = .letWord then (letStatement operand).Leads ok w n v
        else if w.current.kind = .returnWord then (returnStatement operand).Leads ok w n v
        else (expressionStatement operand).Leads ok w n v := by
  simp only [statement, leads_current_bind]
  split <;> simp_all [and_comm]

theorem leads_block :
    (block operand).Leads ok w n v ↔
      ∃ ns, (statementsUntil (fun k => k == .rbrace || k == .eof) (statement operand)).Leads ok
        w.advance ns v ∧ v.current.kind = .rbrace ∧ n = .block w.current ns := by
  rw [block, leads_current_bind, leads_advance_bind, leads_bind]
  simp only [leads_lift, leads_current_bind]
  constructor
  · rintro ⟨ns, u, hns, h⟩
    split at h
    · next hk =>
      obtain ⟨rfl, rfl⟩ := leads_pure.1 h
      exact ⟨ns, hns, hk, rfl⟩
    · exact absurd h leads_reject
  · rintro ⟨ns, hns, hk, rfl⟩
    exact ⟨ns, v, hns, by simp [hk]⟩

/-! ### Forms that start an expression -/

theorem leads_numeral {config : Config} :
    (numeral config).Leads ok w n v ↔
      ∃ k, Text.integer? w.current.literal = some k ∧ k ≤ config.maxInt ∧
        v = w ∧ n = .integer w.current k := by
  simp only [numeral, leads_current_bind]
  cases Text.integer? w.current.literal with
  | none => simp
  | some k =>
    by_cases hk : k ≤ config.maxInt
    · simp [(config.admits_iff k).2 hk, hk, and_comm]
    · have hf : config.admits k = false := by
        rw [Bool.eq_false_iff]
        exact fun h => hk ((config.admits_iff k).1 h)
      simp [hf, hk]

theorem leads_truth :
    truth.Leads ok w n v ↔ v = w ∧ n = .boolean w.current (w.current.kind == .trueWord) := by
  simp [truth, and_assoc]

theorem leads_unary :
    (unary operand).Leads ok w n v ↔
      ∃ right, (operand .unary).Leads ok w.advance right v ∧
        n = .unary w.current w.current.literal right := by
  simp [unary]

theorem leads_group :
    (group operand).Leads ok w n v ↔
      ∃ u, (operand .lowest).Leads ok w.advance n u ∧ u.peek.kind = .rparen ∧ v = u.advance := by
  rw [group, leads_advance_bind, leads_bind]
  simp only [leads_expect_bind, leads_pure]
  constructor
  · rintro ⟨_, u, h, hk, rfl, rfl⟩
    exact ⟨u, h, hk, rfl⟩
  · rintro ⟨u, h, hk, rfl⟩
    exact ⟨n, u, h, hk, rfl, rfl⟩

theorem leads_conditional :
    (conditional operand).Leads ok w n v ↔
      w.peek.kind = .lparen ∧
        ∃ condition u, (operand .lowest).Leads ok w.advance.advance condition u ∧
        u.peek.kind = .rparen ∧ u.advance.peek.kind = .lbrace ∧
          ∃ consequence u', (block operand).Leads ok u.advance.advance consequence u' ∧
            if u'.peek.kind = .elseWord then
              u'.advance.peek.kind = .lbrace ∧
                ∃ alternative, (block operand).Leads ok u'.advance.advance alternative v ∧
                  n = .conditional w.current condition consequence (some alternative)
            else v = u' ∧ n = .conditional w.current condition consequence none := by
  simp [conditional, and_comm]

theorem leads_function :
    (function operand).Leads ok w n v ↔
      w.peek.kind = .lparen ∧ ∃ ps u, parameters.Leads ok w.advance ps u ∧
        u.peek.kind = .lbrace ∧ ∃ body, (block operand).Leads ok u.advance body v ∧
          n = .function w.current ps body := by
  simp [function]

/-! ### Forms that continue an expression -/

theorem leads_binary {left : Node} :
    (binary operand left).Leads ok w n v ↔
      ∃ right, (operand w.current.kind.precedence).Leads ok w.advance right v ∧
        n = .binary w.current left w.current.literal right := by
  simp [binary]

theorem leads_call {callee : Node} :
    (call operand callee).Leads ok w n v ↔
      ∃ ns, (arguments operand .rparen).Leads ok w ns v ∧ n = .call w.current callee ns := by
  simp [call]

/-! ### Expressions -/

theorem lowest_lt_of_lt {p q : Precedence} (h : p < q) : Precedence.lowest < q := by
  rw [Precedence.lt_def] at h ⊢
  cases p <;> simp_all [Precedence.level] <;> omega

/-- Under the rules of the language a token that binds at all has a rule. -/
theorem continuation?_of_lt {k : Kind} {p : Precedence} (h : p < k.precedence) :
    ({} : Rules).continuation? k = some (if k = .lparen then .call else .binary) := by
  have hk := lowest_lt_of_lt h
  revert hk
  cases k <;> decide

theorem ne_semicolon_of_lt {k : Kind} {p : Precedence} (h : p < k.precedence) :
    k ≠ .semicolon := by
  rintro rfl
  revert h
  cases p <;> decide

/-- No expression goes on with a token at which a statement ends. -/
theorem not_mem_closing_of_lt {k : Kind} {p : Precedence} (h : p < k.precedence) :
    k ∉ Kind.closing := by
  have hk := lowest_lt_of_lt h
  revert hk
  cases k <;> decide

/-- No expression begins with a token at which a statement ends. -/
theorem not_mem_closing_of_opening {k : Kind} {form : Opening}
    (h : ({} : Rules).opening? k = some form) : k ∉ Kind.closing := by
  revert h
  cases k <;> cases form <;> decide

theorem ne_eof_of_opening {k : Kind} {form : Opening}
    (h : ({} : Rules).opening? k = some form) : k ≠ .eof :=
  Kind.ne_eof_of_not_mem_closing (not_mem_closing_of_opening h)

theorem ne_eof_of_lt {k : Kind} {p : Precedence} (h : p < k.precedence) : k ≠ .eof :=
  Kind.ne_eof_of_not_mem_closing (not_mem_closing_of_lt h)

/-- Looking for a rule is looking at the next token. -/
theorem continuationAhead_rules_bind {β : Type} {rules : Rules} {p : Precedence}
    {f : Option Continuation → Parse β} :
    continuationAhead rules p >>= f = peek >>= fun t =>
      if p < t.kind.precedence then f (rules.continuation? t.kind) else f none := by
  rw [continuationAhead, bind_assoc]
  congr 1
  funext t
  dsimp only
  by_cases h : p < t.kind.precedence
  · rw [if_pos ⟨ne_semicolon_of_lt h, h⟩, if_pos h, pure_bind]
  · rw [if_neg (fun hs => h hs.2), if_neg h, pure_bind]

theorem continuationAhead_bind {β : Type} {p : Precedence} {f : Option Continuation → Parse β} :
    continuationAhead {} p >>= f = peek >>= fun t =>
      if p < t.kind.precedence then f (some (if t.kind = .lparen then .call else .binary))
      else f none := by
  rw [continuationAhead_rules_bind]
  congr 1
  funext t
  by_cases h : p < t.kind.precedence
  · rw [if_pos h, if_pos h, continuation?_of_lt h]
  · rw [if_neg h, if_neg h]

theorem leads_continuationAhead_bind {β : Type} {p : Precedence}
    {f : Option Continuation → Parse β} {b : β} :
    (continuationAhead {} p >>= f).Leads ok w b v ↔
      if p < w.peek.kind.precedence then
        (f (some (if w.peek.kind = .lparen then .call else .binary))).Leads ok w b v
      else (f none).Leads ok w b v := by
  rw [continuationAhead_bind, leads_peek_bind]
  split <;> rfl

section Expressions

variable {config : Config} {p : Precedence} {left : Node} {levels : Nat}

theorem leads_chain_end (h : ¬ p < w.peek.kind.precedence) :
    (chain { config } levels p left).Leads ok w n v ↔ v = w ∧ n = left := by
  cases levels with
  | zero => rw [chain, leads_continuationAhead_bind, if_neg h, leads_pure, and_comm]
  | succ levels => rw [chain, leads_continuationAhead_bind, if_neg h, leads_pure, and_comm]

theorem leads_chain_zero (h : p < w.peek.kind.precedence) :
    ¬ (chain { config } 0 p left).Leads ok w n v := by
  rw [chain, leads_continuationAhead_bind, if_pos h, leads_nested]
  exact leads_reject

theorem leads_chain_succ (h : p < w.peek.kind.precedence) :
    (chain { config } (levels + 1) p left).Leads ok w n v ↔
      ∃ wider u, (continuation (expression { config } levels) left
          (if w.peek.kind = .lparen then .call else .binary)).Leads ok w.advance wider u ∧
        (chain { config } levels p wider).Leads ok u n v := by
  rw [chain, leads_continuationAhead_bind, if_pos h, leads_nested, leads_advance_bind, leads_bind]

theorem leads_expression_zero : ¬ (expression { config } 0 p).Leads ok w n v := by
  simp [expression]

theorem leads_expression_succ :
    (expression { config } (levels + 1) p).Leads ok w n v ↔
      ∃ form, ({} : Rules).opening? w.current.kind = some form ∧
        ∃ left u, (opening config (expression { config } levels) form).Leads ok w left u ∧
          (chain { config } levels p left).Leads ok u n v := by
  simp only [expression, leads_nested, leads_current_bind]
  cases ({} : Rules).opening? w.current.kind with
  | none => simp
  | some form => simp

end Expressions

end Grammar

end MonkeyLang
