import MonkeyLang.Proofs.RenderedText

/-!
# Rendered trees parse back

Tokens with the lexemes of a well-formed tree have a derivation, whose tree is the given one up to
places and which nests exactly as deep as the tree's measure says. So the rendering of a tree parses
back to it if it does not nest too deep, and otherwise leaves a diagnostic. Main statement:
`parse_render`.
-/

namespace MonkeyLang

open Node MonkeyLang.Derivation

theorem Token.kind_eq_of_lexeme_eq {t u : Token} (h : t.lexeme = u.lexeme) : t.kind = u.kind :=
  congrArg Lexeme.kind h

theorem Token.kind_of_lexeme_eq {t : Token} {k : Kind} (h : t.lexeme = k.lexeme) : t.kind = k :=
  congrArg Lexeme.kind h

theorem Token.literal_eq_of_lexeme_eq {t u : Token} (h : t.lexeme = u.lexeme) :
    t.literal = u.literal :=
  String.toList_inj.1 (congrArg Lexeme.text h)

/-- The stratum of a rendered expression: all but calls stand alone or in parentheses. -/
def Node.stratum : Node → Stratum
  | call _ _ _ => .application
  | _ => .primary

/-- Tokens with the lexemes of the expression have a derivation of its tree and measures. -/
def Node.Derives (config : Config) (n : Node) : Prop :=
  ∀ us : List Token, us.map Token.lexeme = n.lexemes →
    ∃ e, Expression config n.stratum us e n.reach n.nesting ∧ e.unplaced = n.unplaced

/-- Tokens with the lexemes of the block have a derivation of its tree and measure. -/
def Node.DerivesBlock (config : Config) (n : Node) : Prop :=
  ∀ us : List Token, us.map Token.lexeme = n.lexemes →
    ∃ b, Block config us b n.nesting ∧ b.unplaced = n.unplaced

/-- Tokens with the lexemes of the statement have a derivation of its tree and measure. Only an
expression statement is rendered without a semicolon. -/
def Node.DerivesStatement (config : Config) (n : Node) : Prop :=
  ∀ us : List Token, us.map Token.lexeme = n.lexemes →
    ∃ vs s, Statement config vs s n.nesting ∧ s.unplaced = n.unplaced ∧
      if n.isExpressionStatement then us = vs
      else ∃ t : Token, t.kind = .semicolon ∧ us = vs ++ [t]

variable {config : Config}

/-- A rendered expression may stand wherever an expression of a looser stratum may. -/
theorem Node.Derives.loosen {n : Node} (h : n.Derives config) {us : List Token}
    (hus : us.map Token.lexeme = n.lexemes) (s : Stratum) (hs : s ≠ .primary) :
    ∃ e, Expression config s us e n.reach n.nesting ∧ e.unplaced = n.unplaced := by
  obtain ⟨e, he, hplaces⟩ := h us hus
  refine ⟨e, he.loosen s ?_ hs, hplaces⟩
  have hn : n.stratum.precedence = .call := by cases n <;> rfl
  rw [hn]
  cases s <;> decide

/-! ### Lists -/

theorem lexemesCommas_cons (n : Node) (ns : List Node) :
    lexemesCommas (n :: ns) =
      n.lexemes ++ ns.flatMap fun m => Kind.comma.lexeme :: m.lexemes := by
  induction ns generalizing n with
  | nil => simp [lexemesCommas]
  | cons m ns ih => simp [lexemesCommas, ih]

theorem WellFormed.Name.derives {n : Node} (h : WellFormed.Name n) {us : List Token}
    (hus : us.map Token.lexeme = n.lexemes) :
    ∃ t, us = [t] ∧ t.kind = .ident ∧ (identifier t t.literal).unplaced = n.unplaced := by
  obtain ⟨ht, -⟩ := h
  obtain ⟨t', rfl, ht'⟩ := List.map_eq_singleton_iff.1 hus
  refine ⟨t', rfl, by rw [Token.kind_eq_of_lexeme_eq ht', ht], ?_⟩
  rw [unplaced, unplaced, Token.unplaced_eq_iff.2 ht', Token.literal_eq_of_lexeme_eq ht']

theorem derives_moreNames {ps : List Node} (h : ∀ p ∈ ps, WellFormed.Name p) {us : List Token}
    (hus : us.map Token.lexeme = ps.flatMap fun p => Kind.comma.lexeme :: p.lexemes) :
    ∃ qs, MoreNames us qs ∧ unplacedList qs = unplacedList ps := by
  induction ps generalizing us with
  | nil =>
    obtain rfl := List.map_eq_nil_iff.1 hus
    exact ⟨[], .nil, rfl⟩
  | cons p ps ih =>
    obtain ⟨comma, _, rfl, hcomma, hus⟩ := List.map_eq_cons_iff.1 hus
    obtain ⟨vs, ws, rfl, hvs, hws⟩ := List.map_eq_append_iff.1 hus
    obtain ⟨t, rfl, ht, hplaces⟩ := (h p List.mem_cons_self).derives hvs
    obtain ⟨qs, hqs, hmore⟩ := ih (fun q hq => h q (List.mem_cons_of_mem _ hq)) hws
    refine ⟨_, .cons (Token.kind_of_lexeme_eq hcomma) ht hqs, ?_⟩
    rw [unplacedList, unplacedList, hplaces, hmore]

theorem derives_names {ps : List Node} (h : ∀ p ∈ ps, WellFormed.Name p) {us : List Token}
    (hus : us.map Token.lexeme = lexemesCommas ps) :
    ∃ qs, Names us qs ∧ unplacedList qs = unplacedList ps := by
  cases ps with
  | nil =>
    obtain rfl := List.map_eq_nil_iff.1 hus
    exact ⟨[], .nil, rfl⟩
  | cons p ps =>
    rw [lexemesCommas_cons] at hus
    obtain ⟨vs, ws, rfl, hvs, hws⟩ := List.map_eq_append_iff.1 hus
    obtain ⟨t, rfl, ht, hplaces⟩ := (h p List.mem_cons_self).derives hvs
    obtain ⟨qs, hqs, hmore⟩ := derives_moreNames (fun q hq => h q (List.mem_cons_of_mem _ hq)) hws
    refine ⟨_, .cons ht hqs, ?_⟩
    rw [unplacedList, unplacedList, hplaces, hmore]

theorem derives_moreArguments {ns : List Node} (h : ∀ n ∈ ns, n.Derives config) {us : List Token}
    (hus : us.map Token.lexeme = ns.flatMap fun n => Kind.comma.lexeme :: n.lexemes) :
    ∃ es, MoreArguments config us es (nestingList ns) ∧ unplacedList es = unplacedList ns := by
  induction ns generalizing us with
  | nil =>
    obtain rfl := List.map_eq_nil_iff.1 hus
    exact ⟨[], .nil, rfl⟩
  | cons n ns ih =>
    obtain ⟨comma, _, rfl, hcomma, hus⟩ := List.map_eq_cons_iff.1 hus
    obtain ⟨vs, ws, rfl, hvs, hws⟩ := List.map_eq_append_iff.1 hus
    obtain ⟨e, he, hplaces⟩ := (h n List.mem_cons_self).loosen hvs .equality (by decide)
    obtain ⟨es, hes, hmore⟩ := ih (fun m hm => h m (List.mem_cons_of_mem _ hm)) hws
    refine ⟨_, .cons (Token.kind_of_lexeme_eq hcomma) he hes, ?_⟩
    rw [unplacedList, unplacedList, hplaces, hmore]

theorem derives_arguments {ns : List Node} (h : ∀ n ∈ ns, n.Derives config) {us : List Token}
    (hus : us.map Token.lexeme = lexemesCommas ns) :
    ∃ es, Arguments config us es (nestingList ns) ∧ unplacedList es = unplacedList ns := by
  cases ns with
  | nil =>
    obtain rfl := List.map_eq_nil_iff.1 hus
    exact ⟨[], .nil, rfl⟩
  | cons n ns =>
    rw [lexemesCommas_cons] at hus
    obtain ⟨vs, ws, rfl, hvs, hws⟩ := List.map_eq_append_iff.1 hus
    obtain ⟨e, he, hplaces⟩ := (h n List.mem_cons_self).loosen hvs .equality (by decide)
    obtain ⟨es, hes, hmore⟩ :=
      derives_moreArguments (fun m hm => h m (List.mem_cons_of_mem _ hm)) hws
    refine ⟨_, .cons he hes, ?_⟩
    rw [unplacedList, unplacedList, hplaces, hmore]

theorem lexemesList_cons_cons (n m : Node) (ns : List Node) :
    lexemesList (n :: m :: ns) =
      n.lexemes ++ (if n.isExpressionStatement then [Kind.semicolon.lexeme] else []) ++
        lexemesList (m :: ns) := by
  rw [lexemesList]
  simp

theorem derives_statements {ns : List Node} (h : ∀ n ∈ ns, n.DerivesStatement config)
    {us : List Token} (hus : us.map Token.lexeme = lexemesList ns) :
    ∃ ss, Statements config us ss (nestingList ns) ∧ unplacedList ss = unplacedList ns := by
  induction ns generalizing us with
  | nil =>
    obtain rfl := List.map_eq_nil_iff.1 hus
    exact ⟨[], .nil, rfl⟩
  | cons n ns ih =>
    have hn := h n List.mem_cons_self
    cases ns with
    | nil =>
      obtain ⟨vs, s, hs, hplaces, hend⟩ := hn us hus
      have hunplaced : unplacedList [s] = unplacedList [n] := by
        simp only [unplacedList, hplaces]
      split at hend
      · obtain rfl := hend
        have hlast : Statements config (us ++ []) [s] (max n.nesting 0) :=
          .unterminated hs (by simp) .nil
        rw [List.append_nil] at hlast
        exact ⟨[s], hlast, hunplaced⟩
      · obtain ⟨t, ht, rfl⟩ := hend
        exact ⟨[s], .terminated hs ht .nil, hunplaced⟩
    | cons m ns =>
      rw [lexemesList_cons_cons] at hus
      obtain ⟨us, ws, rfl, hus, hws⟩ := List.map_eq_append_iff.1 hus
      obtain ⟨ss, hss, hmore⟩ := ih (fun x hx => h x (List.mem_cons_of_mem _ hx)) hws
      obtain ⟨us, semis, rfl, hus, hsemis⟩ := List.map_eq_append_iff.1 hus
      obtain ⟨vs, s, hs, hplaces, hend⟩ := hn us hus
      have hunplaced : unplacedList (s :: ss) = unplacedList (n :: m :: ns) := by
        simp only [unplacedList, hplaces, hmore]
      refine ⟨s :: ss, ?_, hunplaced⟩
      split at hend
      · next hn' =>
        obtain rfl := hend
        rw [if_pos hn'] at hsemis
        obtain ⟨t, rfl, ht⟩ := List.map_eq_singleton_iff.1 hsemis
        rw [List.append_assoc]
        exact .terminated hs (Token.kind_of_lexeme_eq ht) hss
      · next hn' =>
        obtain ⟨t, ht, rfl⟩ := hend
        rw [if_neg hn'] at hsemis
        obtain rfl := List.map_eq_nil_iff.1 hsemis
        rw [List.append_nil, List.append_assoc]
        exact .terminated hs ht hss

theorem Stratum.ne_primary_of_mem_operators {s : Stratum} {k : Kind} (h : k ∈ s.operators) :
    s ≠ .primary ∧ s.tighter ≠ .primary := by
  revert h
  cases s <;> simp [operators, tighter]

namespace WellFormed

theorem Name.derives_expression {n : Node} (h : Name n) : n.Derives config := by
  intro us hus
  obtain ⟨t, rfl, ht, hplaces⟩ := h.derives hus
  cases h
  exact ⟨_, .name ht, hplaces⟩

mutual

theorem Expression.derives {n : Node} : Expression config n → n.Derives config
  | .name hn => hn.derives_expression
  | .numeral ht hn hmax => by
    intro us hus
    obtain ⟨t', rfl, ht'⟩ := List.map_eq_singleton_iff.1 hus
    have hliteral := Token.literal_eq_of_lexeme_eq ht'
    have hkind := (Token.kind_eq_of_lexeme_eq ht').trans ht
    refine ⟨_, .numeral hkind (by rw [hliteral]; exact hn.integer?) (by omega), ?_⟩
    rw [unplaced, unplaced, Token.unplaced_eq_iff.2 ht']
  | .yes ht => by
    intro us hus
    obtain ⟨t', rfl, ht'⟩ := List.map_eq_singleton_iff.1 hus
    refine ⟨_, .yes ((Token.kind_eq_of_lexeme_eq ht').trans ht.1), ?_⟩
    rw [unplaced, unplaced, Token.unplaced_eq_iff.2 ht']
  | .no ht => by
    intro us hus
    obtain ⟨t', rfl, ht'⟩ := List.map_eq_singleton_iff.1 hus
    refine ⟨_, .no ((Token.kind_eq_of_lexeme_eq ht').trans ht.1), ?_⟩
    rw [unplaced, unplaced, Token.unplaced_eq_iff.2 ht']
  | .unary hk ht he => by
    intro us hus
    obtain ⟨_, _, rfl, hus, hcs⟩ := List.map_eq_append_iff.1 hus
    obtain ⟨o, _, rfl, ho, hus⟩ := List.map_eq_cons_iff.1 hus
    obtain ⟨t', vs, rfl, ht', hvs⟩ := List.map_eq_cons_iff.1 hus
    obtain ⟨c, rfl, hc⟩ := List.map_eq_singleton_iff.1 hcs
    obtain ⟨e, hright, hplaces⟩ := he.derives.loosen hvs .unary (by decide)
    have hkind : t'.kind = .bang ∨ t'.kind = .minus := by
      rwa [Token.kind_eq_of_lexeme_eq ht', ht.1]
    have hunary := (Derivation.Expression.unary hkind hright).loosen .equality (by decide)
      (by decide)
    have hgroup := Derivation.Expression.group (Token.kind_of_lexeme_eq ho) hunary
      (Token.kind_of_lexeme_eq hc)
    rw [← Nat.add_assoc] at hgroup
    refine ⟨_, hgroup, ?_⟩
    rw [unplaced, unplaced, Token.unplaced_eq_iff.2 ht', Token.literal_eq_of_lexeme_eq ht', hplaces]
  | .binary (s := s) (l := l) (r := r) hk ht hl hr => by
    intro us hus
    obtain ⟨_, _, rfl, hus, hcs⟩ := List.map_eq_append_iff.1 hus
    obtain ⟨o, _, rfl, ho, hus⟩ := List.map_eq_cons_iff.1 hus
    obtain ⟨vs, _, rfl, hvs, hus⟩ := List.map_eq_append_iff.1 hus
    obtain ⟨t', ws, rfl, ht', hws⟩ := List.map_eq_cons_iff.1 hus
    obtain ⟨c, rfl, hc⟩ := List.map_eq_singleton_iff.1 hcs
    obtain ⟨hs, htighter⟩ := Stratum.ne_primary_of_mem_operators hk
    obtain ⟨a, hleft, hplacesl⟩ := hl.derives.loosen hvs s hs
    obtain ⟨b, hright, hplacesr⟩ := hr.derives.loosen hws s.tighter htighter
    have hkind : t'.kind ∈ s.operators := by
      rwa [Token.kind_eq_of_lexeme_eq ht', ht.1]
    have hbinary := (Derivation.Expression.binary hleft hkind hright).loosen .equality
      (by cases s <;> decide) (by decide)
    have hgroup := Derivation.Expression.group (Token.kind_of_lexeme_eq ho) hbinary
      (Token.kind_of_lexeme_eq hc)
    have hnesting : 1 + max l.nesting (l.reach + 1 + r.nesting) =
        max (1 + l.nesting) (2 + l.reach + r.nesting) := by omega
    rw [hnesting] at hgroup
    refine ⟨_, hgroup, ?_⟩
    rw [unplaced, unplaced, Token.unplaced_eq_iff.2 ht', Token.literal_eq_of_lexeme_eq ht',
      hplacesl, hplacesr]
  | .choice (t := t) (e := e) (b := b) ht he hb => by
    intro us hus
    rw [lexemes, lexemesElse, List.append_nil] at hus
    obtain ⟨_, _, rfl, hus, hbs⟩ := List.map_eq_append_iff.1 hus
    obtain ⟨t', _, rfl, ht', hus⟩ := List.map_eq_cons_iff.1 hus
    obtain ⟨o, vs, rfl, ho, hvs⟩ := List.map_eq_cons_iff.1 hus
    obtain ⟨c, bs, rfl, hc, hbs⟩ := List.map_eq_cons_iff.1 hbs
    obtain ⟨e', hcondition, hplaces⟩ := he.derives.loosen hvs .equality (by decide)
    obtain ⟨b', hblock, hplacesb⟩ := hb.derives bs hbs
    have hkind := (Token.kind_eq_of_lexeme_eq ht').trans ht.1
    have hchoice := Derivation.Expression.choice hkind (Token.kind_of_lexeme_eq ho) hcondition
      (Token.kind_of_lexeme_eq hc) hblock
    have hnesting : (conditional t e b none).nesting = 1 + max e.nesting b.nesting := by
      simp [nesting, nestingOption]
    rw [← hnesting] at hchoice
    refine ⟨_, hchoice, ?_⟩
    rw [unplaced, unplaced, Token.unplaced_eq_iff.2 ht', hplaces, hplacesb]
  | .alternative ht he hb ha => by
    intro us hus
    obtain ⟨_, _, rfl, hus, has⟩ := List.map_eq_append_iff.1 hus
    obtain ⟨_, _, rfl, hus, hbs⟩ := List.map_eq_append_iff.1 hus
    obtain ⟨t', _, rfl, ht', hus⟩ := List.map_eq_cons_iff.1 hus
    obtain ⟨o, vs, rfl, ho, hvs⟩ := List.map_eq_cons_iff.1 hus
    obtain ⟨c, bs, rfl, hc, hbs⟩ := List.map_eq_cons_iff.1 hbs
    obtain ⟨l, as, rfl, hl, has⟩ := List.map_eq_cons_iff.1 has
    obtain ⟨e', hcondition, hplaces⟩ := he.derives.loosen hvs .equality (by decide)
    obtain ⟨b', hblock, hplacesb⟩ := hb.derives bs hbs
    obtain ⟨a', hlast, hplacesa⟩ := ha.derives as has
    have hkind := (Token.kind_eq_of_lexeme_eq ht').trans ht.1
    refine ⟨_, .alternative hkind (Token.kind_of_lexeme_eq ho) hcondition
      (Token.kind_of_lexeme_eq hc) hblock (Token.kind_of_lexeme_eq hl) hlast, ?_⟩
    simp only [unplaced, unplacedOption, Token.unplaced_eq_iff.2 ht', hplaces, hplacesb, hplacesa]
  | .function ht hps hb => by
    intro us hus
    obtain ⟨_, _, rfl, hus, hbs⟩ := List.map_eq_append_iff.1 hus
    obtain ⟨t', _, rfl, ht', hus⟩ := List.map_eq_cons_iff.1 hus
    obtain ⟨o, vs, rfl, ho, hvs⟩ := List.map_eq_cons_iff.1 hus
    obtain ⟨c, bs, rfl, hc, hbs⟩ := List.map_eq_cons_iff.1 hbs
    obtain ⟨qs, hqs, hplaces⟩ := derives_names hps hvs
    obtain ⟨b, hbody, hplacesb⟩ := hb.derives bs hbs
    have hkind := (Token.kind_eq_of_lexeme_eq ht').trans ht.1
    have hparen := Token.kind_of_lexeme_eq ho
    refine ⟨_, .function hkind hparen hqs (Token.kind_of_lexeme_eq hc) hbody, ?_⟩
    rw [unplaced, unplaced, Token.unplaced_eq_iff.2 ht', hplaces, hplacesb]
  | .call ht he hns => by
    intro us hus
    obtain ⟨_, _, rfl, hus, hcs⟩ := List.map_eq_append_iff.1 hus
    obtain ⟨vs, _, rfl, hvs, hus⟩ := List.map_eq_append_iff.1 hus
    obtain ⟨o, ws, rfl, ho, hws⟩ := List.map_eq_cons_iff.1 hus
    obtain ⟨c, rfl, hc⟩ := List.map_eq_singleton_iff.1 hcs
    obtain ⟨e, hcallee, hplaces⟩ := he.derives.loosen hvs .application (by decide)
    obtain ⟨es, hes, hplacess⟩ := derives_arguments (fun n hn => (hns n hn).derives) hws
    have hkind := (Token.kind_eq_of_lexeme_eq ho).trans ht.1
    refine ⟨_, .call hcallee hkind hes (Token.kind_of_lexeme_eq hc), ?_⟩
    rw [unplaced, unplaced, Token.unplaced_eq_iff.2 ho, hplaces, hplacess]

theorem Block.derives {n : Node} : Block config n → n.DerivesBlock config
  | .braces ht hns => by
    intro us hus
    obtain ⟨_, _, rfl, hus, hcs⟩ := List.map_eq_append_iff.1 hus
    obtain ⟨o, vs, rfl, ho, hvs⟩ := List.map_eq_cons_iff.1 hus
    obtain ⟨c, rfl, hc⟩ := List.map_eq_singleton_iff.1 hcs
    obtain ⟨ss, hss, hplaces⟩ := derives_statements (fun n hn => (hns n hn).derives) hvs
    have hkind := (Token.kind_eq_of_lexeme_eq ho).trans ht.1
    refine ⟨_, .braces hkind hss (Token.kind_of_lexeme_eq hc), ?_⟩
    rw [unplaced, unplaced, Token.unplaced_eq_iff.2 ho, hplaces]

theorem Statement.derives {n : Node} : Statement config n → n.DerivesStatement config
  | .binding ht hn he => by
    intro us hus
    obtain ⟨_, _, rfl, hus, hsemis⟩ := List.map_eq_append_iff.1 hus
    obtain ⟨_, _, rfl, hus, hvs⟩ := List.map_eq_append_iff.1 hus
    obtain ⟨t', _, rfl, ht', hx⟩ := List.map_eq_cons_iff.1 hus
    obtain ⟨a, vs, rfl, ha, hvs⟩ := List.map_eq_cons_iff.1 hvs
    obtain ⟨semi, rfl, hsemi⟩ := List.map_eq_singleton_iff.1 hsemis
    obtain ⟨x, rfl, hkindx, hplacesx⟩ := hn.derives hx
    obtain ⟨e, hvalue, hplaces⟩ := he.derives.loosen hvs .equality (by decide)
    have hkind := (Token.kind_eq_of_lexeme_eq ht').trans ht.1
    refine ⟨_, _, .binding hkind hkindx (Token.kind_of_lexeme_eq ha) hvalue, ?_,
      semi, Token.kind_of_lexeme_eq hsemi, rfl⟩
    simp only [unplaced, ← hplacesx, Token.unplaced_eq_iff.2 ht', hplaces]
  | .result ht he => by
    intro us hus
    obtain ⟨_, _, rfl, hus, hsemis⟩ := List.map_eq_append_iff.1 hus
    obtain ⟨t', vs, rfl, ht', hvs⟩ := List.map_eq_cons_iff.1 hus
    obtain ⟨semi, rfl, hsemi⟩ := List.map_eq_singleton_iff.1 hsemis
    obtain ⟨e, hvalue, hplaces⟩ := he.derives.loosen hvs .equality (by decide)
    have hkind := (Token.kind_eq_of_lexeme_eq ht').trans ht.1
    refine ⟨_, _, .result hkind hvalue, ?_, semi, Token.kind_of_lexeme_eq hsemi, rfl⟩
    rw [unplaced, unplaced, Token.unplaced_eq_iff.2 ht', hplaces]
  | .expression he => by
    intro us hus
    obtain ⟨e, hvalue, hplaces⟩ := he.derives.loosen hus .equality (by decide)
    obtain ⟨t, vs, rfl, -⟩ := hvalue.head
    refine ⟨_, _, .expression hvalue, ?_, rfl⟩
    rw [unplaced, unplaced, hplaces]

end

/-- The tokens of a rendered program have a derivation of the program. -/
theorem Program.derives {n : Node} (h : Program config n) :
    ∃ ss, Statements config (Source.ofText n.render).upcoming ss n.nesting ∧
      (program ss).unplaced = n.unplaced := by
  have hus := h.lexes.upcoming .start
  obtain ⟨hns⟩ := h
  obtain ⟨ss, hss, hplaces⟩ := derives_statements (fun s hs => (hns s hs).derives) hus
  refine ⟨ss, hss, ?_⟩
  rw [unplaced, unplaced, hplaces]

/-- The rendering of a program parses without a diagnostic exactly if it does not nest too deep. -/
theorem Program.diagnostics_eq_nil_iff {n : Node} (h : Program config n) :
    (parseText config n.render).diagnostics = [] ↔ n.nesting ≤ maxNesting := by
  obtain ⟨ss, hss, -⟩ := h.derives
  constructor
  · intro hclean
    obtain ⟨ns, m, -, hns, hm⟩ := (parse_clean_iff config _ _).1 ⟨hclean, rfl⟩
    rwa [(hss.unique hns).2]
  · intro hm
    exact ((parse_clean_iff config _ _).2 ⟨ss, _, rfl, hss, hm⟩).1

/-- If the rendering of a program parses, it parses to that program up to places. -/
theorem Program.unplaced_program {n : Node} (h : Program config n)
    (hclean : (parseText config n.render).diagnostics = []) :
    (parseText config n.render).program.unplaced = n.unplaced := by
  obtain ⟨ss, hss, hplaces⟩ := h.derives
  obtain ⟨ns, m, hprogram, hns, -⟩ := (parse_clean_iff config _ _).1 ⟨hclean, rfl⟩
  obtain ⟨rfl, -⟩ := hss.unique hns
  rw [← hplaces]
  exact congrArg unplaced hprogram

end WellFormed

/-- Parsing undoes rendering: the rendering of a program parses without a diagnostic exactly if no
statement of it nests too deep, and then to that program up to places. -/
theorem parse_render {n : Node} (h : WellFormed.Program config n) :
    ((parseText config n.render).diagnostics = [] ↔ ∀ s ∈ n.statements, s.nesting ≤ maxNesting) ∧
      ((parseText config n.render).diagnostics = [] →
        (parseText config n.render).program.unplaced = n.unplaced) := by
  refine ⟨?_, h.unplaced_program⟩
  rw [h.diagnostics_eq_nil_iff]
  obtain ⟨hns⟩ := h
  exact nestingList_le_iff

/-- The binding of a negated name is parsed back. -/
theorem parse_render_binding :
    WellFormed.Program {} (.program [.letStatement ⟨.letWord, "let", ⟨1, 1⟩⟩
        (.identifier ⟨.ident, "a", ⟨1, 5⟩⟩ "a")
        (.unary ⟨.minus, "-", ⟨1, 9⟩⟩ "-" (.identifier ⟨.ident, "b", ⟨1, 10⟩⟩ "b"))]) ∧
      (parseText {} "let a = (-b);").diagnostics = [] := by
  have hname (s : String) (p : Place) (hs : IsName s) :
      WellFormed.Name (.identifier ⟨.ident, s, p⟩ s) := .intro (t := ⟨.ident, s, p⟩) rfl hs
  have ha : IsName "a" := ⟨by decide, List.all_eq_true.1 (by decide), by decide⟩
  have hb : IsName "b" := ⟨by decide, List.all_eq_true.1 (by decide), by decide⟩
  have hminus : (⟨.minus, "-", ⟨1, 9⟩⟩ : Token).Spells .minus := ⟨rfl, rfl⟩
  have hprogram : WellFormed.Program {} (.program [.letStatement ⟨.letWord, "let", ⟨1, 1⟩⟩
      (.identifier ⟨.ident, "a", ⟨1, 5⟩⟩ "a")
      (.unary ⟨.minus, "-", ⟨1, 9⟩⟩ "-" (.identifier ⟨.ident, "b", ⟨1, 10⟩⟩ "b"))]) := by
    apply WellFormed.Program.intro
    intro s hs
    obtain rfl := List.mem_singleton.1 hs
    exact .binding ⟨rfl, rfl⟩ (hname _ _ ha) (.unary (.inr rfl) hminus (.name (hname _ _ hb)))
  exact ⟨hprogram, (parse_render hprogram).1.2 (by decide)⟩

end MonkeyLang
