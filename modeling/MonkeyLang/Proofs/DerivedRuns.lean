import MonkeyLang.Proofs.ExactForms
import MonkeyLang.Proofs.Derivation

/-!
# Runs over derived tokens

Where the tokens ahead have a derivation, the quiet runs of the corresponding form are known
exactly: there is one if the derivation nests no deeper than the levels allow, it yields the tree of
the derivation and stops on its last token, and there is none otherwise. For an expression the
operators that follow still have to be taken, so a run on it amounts to a run of the chain of
operators behind it, at as many levels fewer as the derivation's first number says.
-/

namespace MonkeyLang

open Grammar

namespace Stratum

/-- How tightly the operators of a stratum bind. -/
def precedence : Stratum → Precedence
  | equality => .equals
  | comparison => .lessGreater
  | sum => .sum
  | product => .product
  | unary => .unary
  | application | primary => .call

/-- All tokens that continue an expression of this stratum bind tighter than `p`. -/
def Above (s : Stratum) (p : Precedence) : Prop :=
  ∀ k : Kind, ¬ k.precedence < s.precedence → p < k.precedence

/-- A token that does not belong to the last operand of an expression of this stratum. -/
def EndsAt (s : Stratum) (k : Kind) : Prop := ¬ s.precedence < k.precedence ∧ k ≠ .elseWord

theorem level_le_tighter (s : Stratum) : s.precedence.level ≤ s.tighter.precedence.level := by
  cases s <;> decide

theorem Above.tighter {s : Stratum} {p : Precedence} (h : s.Above p) : s.tighter.Above p := by
  intro k hk
  have hs := s.level_le_tighter
  refine h k fun hlt => hk ?_
  rw [Precedence.lt_def] at hlt ⊢
  omega

theorem EndsAt.tighter {s : Stratum} {k : Kind} (h : s.EndsAt k) : s.tighter.EndsAt k := by
  refine ⟨fun hk => h.1 ?_, h.2⟩
  have hs := s.level_le_tighter
  rw [Precedence.lt_def] at hk ⊢
  omega

/-- A token that does not bind ends every expression, unless it announces an alternative. -/
theorem endsAt_of_not_lt {s : Stratum} {k : Kind} (h : ¬ Precedence.lowest < k.precedence)
    (hk : k ≠ .elseWord) : s.EndsAt k := by
  refine ⟨fun hlt => h ?_, hk⟩
  exact lowest_lt_of_lt hlt

theorem precedence_of_mem_operators {s : Stratum} {k : Kind} (h : k ∈ s.operators) :
    k.precedence = s.precedence ∧ k ≠ .lparen := by
  revert h
  cases s <;> cases k <;> decide

theorem endsAt_of_mem_operators {s : Stratum} {k : Kind} (h : k ∈ s.operators) : s.EndsAt k := by
  refine ⟨?_, ?_⟩
  · rw [(precedence_of_mem_operators h).1, Precedence.lt_def]
    exact Nat.lt_irrefl _
  · rintro rfl
    revert h
    cases s <;> decide

theorem above_of_mem_operators {s : Stratum} {k : Kind} (h : k ∈ s.operators) :
    s.tighter.Above s.precedence := by
  intro l
  cases s with
  | equality | comparison | sum | product => cases l <;> decide
  | unary | application | primary => simp [operators] at h

theorem equality_above : equality.Above .lowest := by
  intro k
  cases k <;> decide

theorem unary_above : unary.Above .unary := by
  intro k
  cases k <;> decide

end Stratum

/-- Exactly the tokens that bind can go on with an expression. -/
theorem Kind.mem_continuing_iff (k : Kind) :
    k ∈ Kind.continuing ↔ Precedence.lowest < k.precedence := by
  cases k <;> decide

namespace Derivation

variable {config : Config}

/-- The kinds of tokens with which an expression can begin. -/
def startKinds : List Kind :=
  [.ident, .int, .trueWord, .falseWord, .lparen, .ifWord, .function, .bang, .minus]

theorem Expression.head {s : Stratum} {us : List Token} {e : Node} {f m : Nat}
    (h : Expression config s us e f m) : ∃ t vs, us = t :: vs ∧ t.kind ∈ startKinds := by
  match h with
  | .name ht | .numeral ht _ _ | .yes ht | .no ht => exact ⟨_, _, rfl, by simp [ht, startKinds]⟩
  | .group ho _ _ => exact ⟨_, _, rfl, by simp [ho, startKinds]⟩
  | .choice ht _ _ _ _ => exact ⟨_, _, rfl, by simp [ht, startKinds]⟩
  | .alternative ht _ _ _ _ _ _ => exact ⟨_, _, rfl, by simp [ht, startKinds]⟩
  | .function ht _ _ _ _ => exact ⟨_, _, rfl, by simp [ht, startKinds]⟩
  | .unary (.inl ht) _ => exact ⟨_, _, rfl, by simp [ht, startKinds]⟩
  | .unary (.inr ht) _ => exact ⟨_, _, rfl, by simp [ht, startKinds]⟩
  | .call h _ _ _ =>
    obtain ⟨t, vs, rfl, ht⟩ := h.head
    exact ⟨t, _, rfl, ht⟩
  | .binary h _ _ =>
    obtain ⟨t, vs, rfl, ht⟩ := h.head
    exact ⟨t, _, rfl, ht⟩
  | .tighter h => exact h.head

theorem Expression.ne_nil {s : Stratum} {us : List Token} {e : Node} {f m : Nat}
    (h : Expression config s us e f m) : us ≠ [] := by
  obtain ⟨t, vs, rfl, -⟩ := h.head
  simp

theorem Statement.head {us : List Token} {n : Node} {m : Nat} (h : Statement config us n m) :
    ∃ t vs, us = t :: vs ∧ t.kind ∈ .letWord :: .returnWord :: startKinds := by
  cases h with
  | binding ht _ _ _ => exact ⟨_, _, rfl, by simp [ht]⟩
  | result ht _ => exact ⟨_, _, rfl, by simp [ht]⟩
  | expression he =>
    obtain ⟨t, vs, hus, ht⟩ := he.head
    obtain ⟨rfl, rfl⟩ := List.cons.inj hus
    exact ⟨_, _, rfl, List.mem_cons_of_mem _ (List.mem_cons_of_mem _ ht)⟩

/-- What follows an argument does not go on with it. -/
theorem MoreArguments.ends {us : List Token} {ns : List Node} {m : Nat} {w u : Window}
    (h : MoreArguments config us ns m) (hu : w.advance.Reads us u) (hc : u.current.kind = .rparen) :
    ¬ Precedence.lowest < w.peek.kind.precedence ∧ w.peek.kind ≠ .elseWord := by
  cases h with
  | nil =>
    obtain rfl := hu
    rw [← Window.current_advance, hc]
    decide
  | cons ht _ _ =>
    obtain ⟨rfl, -⟩ := hu
    rw [← Window.current_advance, ht]
    decide

theorem MoreNames.leads_iff {us : List Token} {ps ns : List Node} {w u v : Window}
    (h : MoreNames us ps) (hu : w.advance.Reads us u) (hc : u.current.kind = .rparen) :
    LeadsRest Quiet parameter .rparen w ns v ↔ v = u ∧ ns = ps := by
  induction h generalizing w ns with
  | nil =>
    obtain rfl := hu
    have hw : w.peek.kind = .rparen := hc
    rw [leadsRest_end (by simp [hw])]
    simp [hw]
  | @cons comma t us ps hcomma ht _ ih =>
    obtain ⟨rfl, rfl, hrest⟩ := hu
    rw [leadsRest_comma takesComma_parameter hcomma]
    constructor
    · rintro ⟨first, x, hfirst, more, hmore, rfl⟩
      obtain ⟨-, rfl, rfl⟩ := leads_parameter.1 hfirst
      obtain ⟨rfl, rfl⟩ := (ih hrest).1 hmore
      exact ⟨rfl, rfl⟩
    · rintro ⟨rfl, rfl⟩
      exact ⟨_, _, leads_parameter.2 ⟨ht, rfl, rfl⟩, ps, (ih hrest).2 ⟨rfl, rfl⟩, rfl⟩

theorem Names.leads_iff {us : List Token} {ps ns : List Node} {w u v : Window}
    (h : Names us ps) (hu : w.advance.Reads us u) (hc : u.current.kind = .rparen) :
    parameters.Leads Quiet w ns v ↔ v = u ∧ ns = ps := by
  change (commaList parameter .rparen).Leads Quiet w ns v ↔ _
  rw [leads_commaList]
  cases h with
  | nil =>
    obtain rfl := hu
    exact iff_of_eq (if_pos hc)
  | cons ht hmore =>
    obtain ⟨rfl, hrest⟩ := hu
    rw [if_neg (by simp [← Window.current_advance, ht])]
    constructor
    · rintro ⟨first, x, hfirst, more, hm, rfl⟩
      obtain ⟨-, rfl, rfl⟩ := leads_parameter.1 hfirst
      obtain ⟨rfl, rfl⟩ := (hmore.leads_iff hrest hc).1 hm
      exact ⟨rfl, rfl⟩
    · rintro ⟨rfl, rfl⟩
      have hm := (hmore.leads_iff hrest hc).2 ⟨rfl, rfl⟩
      exact ⟨_, _, leads_parameter.2 ⟨ht, rfl, rfl⟩, _, hm, rfl⟩

theorem Statement.ne_nil {us : List Token} {n : Node} {m : Nat} (h : Statement config us n m) :
    us ≠ [] := by
  obtain ⟨t, vs, rfl, -⟩ := h.head
  simp

theorem Block.ne_nil {us : List Token} {b : Node} {m : Nat} (h : Block config us b m) :
    us ≠ [] := by
  cases h
  simp

theorem Block.head {us : List Token} {b : Node} {m : Nat} {w u : Window}
    (h : Block config us b m) (hu : w.Spans us u) : w.current.kind = .lbrace := by
  cases h with
  | braces ho _ _ =>
    obtain ⟨⟨rfl, -⟩, -⟩ := Window.spans_concat.1 hu
    exact ho

/-- The first token of an expression is of a kind with which one can begin. -/
theorem Expression.current_ne {s : Stratum} {us : List Token} {e : Node} {f m : Nat} {w u : Window}
    (h : Expression config s us e f m) (hu : w.Spans us u) {k : Kind} (hk : k ∉ startKinds) :
    w.current.kind ≠ k := by
  obtain ⟨t, vs, rfl, ht⟩ := h.head
  obtain rfl := hu.current
  rintro rfl
  exact hk ht

/-- No statement begins where a loop over statements stops. -/
theorem Statement.goes_on {stop : Kind → Bool} {us : List Token} {n : Node} {m : Nat} {w u : Window}
    (h : Statement config us n m) (hu : w.Spans us u)
    (hkinds : ∀ k, stop k = true → k = .rbrace ∨ k = .eof) : stop w.current.kind = false := by
  obtain ⟨t, vs, rfl, ht⟩ := h.head
  obtain rfl := hu.current
  rw [Bool.eq_false_iff]
  intro hstop
  rcases hkinds _ hstop with hk | hk
  · simp [hk, startKinds] at ht
  · simp [hk, startKinds] at ht

/-- Behind a statement without a semicolon stands a token that does not go on with it. -/
theorem Statements.ends {us : List Token} {ns : List Node} {m : Nat} {w u : Window}
    (h : Statements config us ns m) (hu : w.Reads us u)
    (hus : ∀ t ∈ us.head?, t.kind ∉ Kind.continuing) (hc : u.current.kind ∈ Kind.closing) :
    ¬ Precedence.lowest < w.current.kind.precedence ∧ w.current.kind ≠ .elseWord := by
  have hstatement {t : Token} (ht : t.kind ∈ .letWord :: .returnWord :: startKinds)
      (hcont : t.kind ∉ Kind.continuing) :
      ¬ Precedence.lowest < t.kind.precedence ∧ t.kind ≠ .elseWord := by
    refine ⟨fun hlt => hcont ((Kind.mem_continuing_iff _).2 hlt), fun he => ?_⟩
    simp [he, startKinds] at ht
  cases h with
  | nil =>
    obtain rfl := hu
    refine ⟨fun hlt => not_mem_closing_of_lt hlt hc, fun he => ?_⟩
    simp [he, Kind.closing] at hc
  | empty ht _ =>
    obtain ⟨rfl, -⟩ := hu
    rw [ht]
    decide
  | terminated hn _ _ =>
    obtain ⟨t, vs, rfl, ht⟩ := hn.head
    obtain ⟨rfl, -⟩ := hu
    exact hstatement ht (hus _ rfl)
  | unterminated hn _ _ =>
    obtain ⟨t, vs, rfl, ht⟩ := hn.head
    obtain ⟨rfl, -⟩ := hu
    exact hstatement ht (hus _ rfl)

/-! ### Runs -/

section

variable {w x u : Window} {e : Node} {f m : Nat} {us : List Token}

/-- A complete expression: what follows it does not go on with it. -/
private theorem exactly_whole
    (h : Stratum.equality.EndsAt u.peek.kind → Stratum.equality.Above .lowest →
      ∀ {levels n v}, (whole config levels).Leads Quiet w n v ↔
        m ≤ levels ∧ (chain { config } (levels - f) .lowest e).Leads Quiet u n v)
    (hu : ¬ Precedence.lowest < u.peek.kind.precedence) (helse : u.peek.kind ≠ .elseWord) :
    Exactly (whole config) w m e u :=
  exactly_expression hu (h (Stratum.endsAt_of_not_lt hu helse) Stratum.equality_above)

end

mutual

theorem Expression.leads_iff {s : Stratum} {us : List Token} {e : Node} {f m : Nat} {w u : Window}
    {p : Precedence} {levels : Nat} {n : Node} {v : Window} :
    Expression config s us e f m → w.Spans us u → s.EndsAt u.peek.kind → s.Above p →
    ((expression { config } levels p).Leads Quiet w n v ↔
      m ≤ levels ∧ (chain { config } (levels - f) p e).Leads Quiet u n v)
  | .name ht, hu, _, _ => by
    obtain ⟨rfl, rfl⟩ := Window.spans_singleton.1 hu
    refine leads_expression_of_opening .name (m := 0) (by rw [ht]; rfl)
      (.intro fun levels n v => ?_)
    simp [opening]
  | .numeral ht hn hmax, hu, _, _ => by
    obtain ⟨rfl, rfl⟩ := Window.spans_singleton.1 hu
    refine leads_expression_of_opening .numeral (m := 0) (by rw [ht]; rfl)
      (.intro fun levels n v => ?_)
    simp [opening, leads_numeral, hn, hmax]
  | .yes ht, hu, _, _ => by
    obtain ⟨rfl, rfl⟩ := Window.spans_singleton.1 hu
    refine leads_expression_of_opening .truth (m := 0) (by rw [ht]; rfl)
      (.intro fun levels n v => ?_)
    change truth.Leads Quiet _ n v ↔ _
    rw [leads_truth, ht]
    simp
  | .no ht, hu, _, _ => by
    obtain ⟨rfl, rfl⟩ := Window.spans_singleton.1 hu
    refine leads_expression_of_opening .truth (m := 0) (by rw [ht]; rfl)
      (.intro fun levels n v => ?_)
    have hf : (Kind.falseWord == Kind.trueWord) = false := rfl
    change truth.Leads Quiet _ n v ↔ _
    rw [leads_truth, ht, hf]
    simp
  | .group ho he hc, hu, _, _ => by
    obtain ⟨⟨rfl, hus⟩, rfl⟩ := Window.spans_concat.1 hu
    obtain ⟨x, hx, rfl⟩ := hus.spans he.ne_nil
    have hpeek : x.peek.kind = .rparen := hc
    refine leads_expression_of_opening .group (by rw [ho]; rfl) (exactly_group ?_ hpeek)
    exact exactly_whole (fun hend habove => he.leads_iff hx hend habove) (by rw [hpeek]; decide)
      (by rw [hpeek]; decide)
  | .choice ht ho he hc hb, hu, hend, _ => by
    obtain ⟨y, ⟨rfl, rfl, hus⟩, hcbs⟩ := (Window.spans_append (List.cons_ne_nil _ _)).1 hu
    obtain ⟨rfl, hbs⟩ := (Window.spans_cons hb.ne_nil).1 hcbs
    obtain ⟨x, hx, rfl⟩ := hus.spans he.ne_nil
    have hpeek : x.peek.kind = .rparen := hc
    refine leads_expression_of_opening .conditional (by rw [ht]; rfl)
      (exactly_conditional ho ?_ hpeek (hb.head hbs) (hb.leads_iff hbs) hend.2)
    exact exactly_whole (fun hend habove => he.leads_iff hx hend habove) (by rw [hpeek]; decide)
      (by rw [hpeek]; decide)
  | .alternative ht ho he hc hb hl ha, hu, _, _ => by
    obtain ⟨_, hcond, hlas⟩ := (Window.spans_append (List.cons_ne_nil _ _)).1 hu
    obtain ⟨rfl, has⟩ := (Window.spans_cons ha.ne_nil).1 hlas
    obtain ⟨y, hy, rfl⟩ := hcond.spans (by simp)
    obtain ⟨_, ⟨rfl, rfl, hus⟩, hcbs⟩ := (Window.spans_append (List.cons_ne_nil _ _)).1 hy
    obtain ⟨rfl, hbs⟩ := (Window.spans_cons hb.ne_nil).1 hcbs
    obtain ⟨x, hx, rfl⟩ := hus.spans he.ne_nil
    have hpeek : x.peek.kind = .rparen := hc
    refine leads_expression_of_opening .conditional (by rw [ht]; rfl)
      (exactly_alternative ho ?_ hpeek (hb.head hbs) (hb.leads_iff hbs) hl (ha.head has)
        (ha.leads_iff has))
    exact exactly_whole (fun hend habove => he.leads_iff hx hend habove) (by rw [hpeek]; decide)
      (by rw [hpeek]; decide)
  | .function ht ho hps hc hb, hu, _, _ => by
    obtain ⟨x, ⟨rfl, rfl, hus⟩, hcbs⟩ := (Window.spans_append (List.cons_ne_nil _ _)).1 hu
    obtain ⟨rfl, hbs⟩ := (Window.spans_cons hb.ne_nil).1 hcbs
    refine leads_expression_of_opening .function (by rw [ht]; rfl)
      (exactly_function ho (hps.leads_iff hus hc) (hb.head hbs) (hb.leads_iff hbs))
  | .call hf ho has hc, hu, _, hp => by
    obtain ⟨hreads, rfl⟩ := Window.spans_concat.1 hu
    obtain ⟨_, hus, rfl, hargs⟩ := Window.reads_append.1 hreads
    obtain ⟨x, hx, rfl⟩ := hus.spans hf.ne_nil
    have hpeek : x.peek.kind = .lparen := ho
    refine leads_expression_of_continuation
      (hf.leads_iff hx ⟨by rw [hpeek]; decide, by rw [hpeek]; decide⟩ hp)
      (by rw [hpeek]; exact hp _ (by decide)) ?_
    rw [if_pos hpeek]
    exact exactly_call (has.leads_iff hargs hc)
  | .unary ht he, hu, hend, _ => by
    obtain ⟨rfl, hus⟩ := (Window.spans_cons he.ne_nil).1 hu
    refine leads_expression_of_opening .unary ?_ (exactly_unary ?_)
    · rcases ht with ht | ht
      · rw [ht]
        rfl
      · rw [ht]
        rfl
    · exact exactly_expression hend.1 (he.leads_iff hus hend Stratum.unary_above)
  | .binary (s := s) hl ht hr, hu, hend, hp => by
    obtain ⟨x, hx, htail⟩ := hu.split hl.ne_nil (List.cons_ne_nil _ _)
    obtain ⟨rfl, hvs⟩ := (Window.spans_cons hr.ne_nil).1 htail
    obtain ⟨hprec, hne⟩ := Stratum.precedence_of_mem_operators ht
    have hends : s.EndsAt x.peek.kind := Stratum.endsAt_of_mem_operators ht
    have hlt : p < x.peek.kind.precedence := by
      apply hp
      rw [Window.current_advance] at hprec
      rw [hprec]
      exact Nat.lt_irrefl _
    apply leads_expression_of_continuation (hl.leads_iff hx hends hp) hlt
    rw [if_neg (show x.peek.kind ≠ .lparen from hne)]
    apply exactly_binary
    rw [hprec]
    exact exactly_expression hend.1
      (hr.leads_iff hvs hend.tighter (Stratum.above_of_mem_operators ht))
  | .tighter he, hu, hend, hp => he.leads_iff hu hend.tighter hp.tighter

theorem Block.leads_iff {us : List Token} {b : Node} {m : Nat} {w u : Window} :
    Block config us b m → w.Spans us u →
      Exactly (fun levels => block (expression { config } levels)) w m b u
  | .braces ho hns hc, hu => by
    obtain ⟨⟨rfl, hus⟩, rfl⟩ := Window.spans_concat.1 hu
    exact exactly_block (hns.leads_iff hus rfl (by simp) (by rw [hc]; rfl)) hc

theorem Arguments.leads_iff {us : List Token} {ns : List Node} {m : Nat} {w u : Window} :
    Arguments config us ns m → w.advance.Reads us u → u.current.kind = .rparen →
      Exactly (fun levels => arguments (expression { config } levels) .rparen) w m ns u
  | .nil, hu, hc => by
    obtain rfl := hu
    exact exactly_noArguments hc
  | .cons he hmore, hu, hc => by
    obtain ⟨_, hus, hvs⟩ := Window.reads_append.1 hu
    obtain ⟨x, hx, rfl⟩ := hus.spans he.ne_nil
    obtain ⟨hpeek, helse⟩ := hmore.ends hvs hc
    refine exactly_arguments (fun hw => ?_)
      (exactly_whole (fun hend habove => he.leads_iff hx hend habove) hpeek helse)
      (hmore.leads_iff hvs hc)
    exact he.current_ne hx (by decide) hw

theorem MoreArguments.leads_iff {us : List Token} {ns : List Node} {m : Nat} {w u : Window} :
    MoreArguments config us ns m → w.advance.Reads us u → u.current.kind = .rparen →
      RestExactly config w m ns u
  | .nil, hu, hc => by
    obtain rfl := hu
    exact restExactly_end hc
  | .cons hcomma he hmore, hu, hc => by
    obtain ⟨_, ⟨rfl, hus⟩, hvs⟩ := Window.reads_append.1 hu
    obtain ⟨x, hx, rfl⟩ := hus.spans he.ne_nil
    obtain ⟨hpeek, helse⟩ := hmore.ends hvs hc
    exact restExactly_comma hcomma
      (exactly_whole (fun hend habove => he.leads_iff hx hend habove) hpeek helse)
      (hmore.leads_iff hvs hc)

theorem Statement.leads_iff {us : List Token} {n : Node} {m : Nat} {w u : Window} :
    Statement config us n m → w.Spans us u → ¬ Precedence.lowest < u.peek.kind.precedence →
      u.peek.kind ≠ .elseWord →
      Exactly (fun levels => statement (expression { config } levels)) w m (some n) u.pastSemicolon
  | .binding ht hname hassign he, hu, hpeek, helse => by
    obtain ⟨_, ⟨rfl, rfl, rfl, rfl⟩, hus⟩ := (@Window.spans_append _ _ [_, _, _] _ he.ne_nil).1 hu
    exact exactly_letStatement ht hname hassign
      (exactly_whole (fun hend habove => he.leads_iff hus hend habove) hpeek helse)
  | .result ht he, hu, hpeek, helse => by
    obtain ⟨rfl, hus⟩ := (Window.spans_cons he.ne_nil).1 hu
    exact exactly_returnStatement ht
      (exactly_whole (fun hend habove => he.leads_iff hus hend habove) hpeek helse)
  | .expression he, hu, hpeek, helse => by
    have hne {k : Kind} (hk : k ∉ startKinds) : w.current.kind ≠ k := he.current_ne hu hk
    rw [← hu.current]
    exact exactly_expressionStatement (hne (by decide)) (hne (by decide)) (hne (by decide))
      (exactly_whole (fun hend habove => he.leads_iff hu hend habove) hpeek helse)

theorem Statements.leads_iff {stop : Kind → Bool} {us : List Token} {ns : List Node} {m : Nat}
    {w u : Window} :
    Statements config us ns m → w.Reads us u → stop .eof = true →
      (∀ k, stop k = true → k = .rbrace ∨ k = .eof) → stop u.current.kind = true →
      LoopsExactly config stop w m ns u
  | .nil, hu, _, _, hc => by
    obtain rfl := hu
    exact loopsExactly_stop hc
  | .empty ht hns, hu, hstop, hkinds, hc => by
    obtain ⟨rfl, hus⟩ := hu
    have hs : stop .semicolon = false := by
      rw [Bool.eq_false_iff]
      intro hsemi
      simpa using hkinds _ hsemi
    apply HoldsFrom.intro
    intro levels more v
    rw [leads_statementsUntil_semicolon hstop hs ht]
    exact (hns.leads_iff hus hstop hkinds hc).iff
  | .terminated hn ht hns, hu, hstop, hkinds, hc => by
    obtain ⟨_, hus, ⟨rfl, hvs⟩⟩ := Window.reads_append.1 hu
    obtain ⟨x, hx, rfl⟩ := hus.spans hn.ne_nil
    have hpeek : x.peek.kind = .semicolon := ht
    have hpast : x.pastSemicolon = x.advance := if_pos hpeek
    refine loopsExactly_next hstop (hn.goes_on hx hkinds)
      (hn.leads_iff hx (by rw [hpeek]; decide) (by rw [hpeek]; decide)) ?_
    rw [hpast]
    exact hns.leads_iff hvs hstop hkinds hc
  | .unterminated hn hvs hns, hu, hstop, hkinds, hc => by
    obtain ⟨_, hus, hrest⟩ := Window.reads_append.1 hu
    obtain ⟨x, hx, rfl⟩ := hus.spans hn.ne_nil
    have hclosing : u.current.kind ∈ Kind.closing :=
      List.mem_cons_of_mem _ (by simpa using hkinds _ hc)
    obtain ⟨hpeek, helse⟩ := hns.ends hrest hvs hclosing
    apply loopsExactly_next hstop (hn.goes_on hx hkinds) (hn.leads_iff hx hpeek helse)
    rw [Window.pastSemicolon]
    split
    · next hsemi =>
      -- the statement's parse takes the semicolon that the derivation leaves to an empty statement
      have hs : stop .semicolon = false := by
        rw [Bool.eq_false_iff]
        intro hstopped
        simpa using hkinds _ hstopped
      apply HoldsFrom.intro
      intro levels more v
      rw [← leads_statementsUntil_semicolon hstop hs hsemi]
      exact (hns.leads_iff hrest hstop hkinds hc).iff
    · exact hns.leads_iff hrest hstop hkinds hc

end

end Derivation

end MonkeyLang
