import MonkeyLang.Proofs.Soundness
import MonkeyLang.Parsing.Program
import MonkeyLang.Syntax.Render

/-!
# Which programs are accepted

A parse leaves no diagnostic exactly if the tokens up to the end have a derivation that nests no
deeper than the parser admits, and then it yields the tree of that derivation. Main statements:
`parse_clean_iff`, which covers texts and lists of tokens, and `Derivation.Statements.unique`: no
list of tokens has two derivations that differ in tree or depth.
-/

namespace MonkeyLang

open Grammar

theorem Stratum.ne_eof_of_mem_operators {s : Stratum} {k : Kind} (h : k ∈ s.operators) :
    k ≠ .eof := by
  rintro rfl
  revert h
  cases s <;> decide

namespace Derivation

variable {config : Config}

theorem MoreNames.ne_eof {us : List Token} {ns : List Node} (h : MoreNames us ns) :
    ∀ t ∈ us, t.kind ≠ .eof := by
  induction h with
  | nil => simp
  | cons hcomma ht _ ih => simpa [hcomma, ht] using ih

theorem Names.ne_eof {us : List Token} {ns : List Node} (h : Names us ns) :
    ∀ t ∈ us, t.kind ≠ .eof := by
  cases h with
  | nil => simp
  | cons ht hmore => simpa [ht] using hmore.ne_eof

/-! No token of a derivation is an end token. -/

mutual

theorem Expression.ne_eof {s : Stratum} {us : List Token} {e : Node} {f m : Nat} :
    Expression config s us e f m → ∀ t ∈ us, t.kind ≠ .eof
  | .name ht | .numeral ht _ _ | .yes ht | .no ht => by simp [ht]
  | .group ho he hc => by
    have hus := he.ne_eof
    simpa [ho, hc, or_imp, forall_and] using hus
  | .choice ht ho he hc hb => by
    have hus := he.ne_eof
    have hbs := hb.ne_eof
    simpa [ht, ho, hc, or_imp, forall_and] using ⟨hus, hbs⟩
  | .alternative ht ho he hc hb hl ha => by
    have hus := he.ne_eof
    have hbs := hb.ne_eof
    have has := ha.ne_eof
    simpa [ht, ho, hc, hl, or_imp, forall_and] using ⟨hus, hbs, has⟩
  | .function ht ho hps hc hb => by
    have hus := hps.ne_eof
    have hbs := hb.ne_eof
    simpa [ht, ho, hc, or_imp, forall_and] using ⟨hus, hbs⟩
  | .call hf ho has hc => by
    have hus := hf.ne_eof
    have hvs := has.ne_eof
    simpa [ho, hc, or_imp, forall_and] using ⟨hus, hvs⟩
  | .unary ht he => by
    have hus := he.ne_eof
    rcases ht with ht | ht
    · simpa [ht] using hus
    · simpa [ht] using hus
  | .binary hl ht hr => by
    have hus := hl.ne_eof
    have hvs := hr.ne_eof
    have hne := Stratum.ne_eof_of_mem_operators ht
    simpa [hne, or_imp, forall_and] using ⟨hus, hvs⟩
  | .tighter he => he.ne_eof

theorem Arguments.ne_eof {us : List Token} {ns : List Node} {m : Nat} :
    Arguments config us ns m → ∀ t ∈ us, t.kind ≠ .eof
  | .nil => by simp
  | .cons he hmore => by
    have hus := he.ne_eof
    have hvs := hmore.ne_eof
    simpa [or_imp, forall_and] using ⟨hus, hvs⟩

theorem MoreArguments.ne_eof {us : List Token} {ns : List Node} {m : Nat} :
    MoreArguments config us ns m → ∀ t ∈ us, t.kind ≠ .eof
  | .nil => by simp
  | .cons hcomma he hmore => by
    have hus := he.ne_eof
    have hvs := hmore.ne_eof
    simpa [hcomma, or_imp, forall_and] using ⟨hus, hvs⟩

theorem Block.ne_eof {us : List Token} {b : Node} {m : Nat} :
    Block config us b m → ∀ t ∈ us, t.kind ≠ .eof
  | .braces ho hns hc => by
    have hus := hns.ne_eof
    simpa [ho, hc, or_imp, forall_and] using hus

theorem Statement.ne_eof {us : List Token} {n : Node} {m : Nat} :
    Statement config us n m → ∀ t ∈ us, t.kind ≠ .eof
  | .binding ht hx ha he => by
    have hus := he.ne_eof
    simpa [ht, hx, ha] using hus
  | .result ht he => by
    have hus := he.ne_eof
    simpa [ht] using hus
  | .expression he => he.ne_eof

theorem Statements.ne_eof {us : List Token} {ns : List Node} {m : Nat} :
    Statements config us ns m → ∀ t ∈ us, t.kind ≠ .eof
  | .nil => by simp
  | .empty ht hns => by
    have hus := hns.ne_eof
    simpa [ht] using hus
  | .terminated hn ht hns => by
    have hus := hn.ne_eof
    have hvs := hns.ne_eof
    simpa [ht, or_imp, forall_and] using ⟨hus, hvs⟩
  | .unterminated hn _ hns => by
    have hus := hn.ne_eof
    have hvs := hns.ne_eof
    simpa [or_imp, forall_and] using ⟨hus, hvs⟩

end

end Derivation

/-! ### Tokens up to the end -/

namespace Source

/-- The tokens that a source hands out before its first end token. -/
def upcoming : Source → List Token
  | text scan => scan.tokens.takeWhile fun t => t.kind ≠ .eof
  | tokens pending _ => pending.takeWhile fun t => t.kind ≠ .eof

theorem upcoming_of_head_eof {s : Source} (h : s.head.kind = .eof) : s.upcoming = [] := by
  match s with
  | text scan =>
    have h : scan.token.kind = .eof := h
    rw [upcoming, Scan.tokens_eq, if_pos h]
    exact List.takeWhile_cons_of_neg (by simpa using h)
  | tokens [] _ => rfl
  | tokens (t :: pending) _ =>
    have h : t.kind = .eof := h
    rw [upcoming]
    exact List.takeWhile_cons_of_neg (by simpa using h)

theorem upcoming_of_head_ne_eof {s : Source} (h : s.head.kind ≠ .eof) :
    s.upcoming = s.head :: s.tail.upcoming := by
  match s with
  | text scan =>
    have h : scan.token.kind ≠ .eof := h
    rw [upcoming, Scan.tokens_eq, if_neg h]
    exact List.takeWhile_cons_of_pos (by simpa using h)
  | tokens [] finish => exact absurd rfl h
  | tokens (t :: pending) _ =>
    have h : t.kind ≠ .eof := h
    rw [upcoming]
    exact List.takeWhile_cons_of_pos (by simpa using h)

theorem ne_eof_of_mem_upcoming {s : Source} {t : Token} (h : t ∈ s.upcoming) : t.kind ≠ .eof := by
  cases s with
  | text scan => exact of_decide_eq_true (List.all_eq_true.1 List.all_takeWhile t h)
  | tokens pending _ => exact of_decide_eq_true (List.all_eq_true.1 List.all_takeWhile t h)

/-- Without end tokens among them, all pending tokens are handed out. -/
theorem upcoming_tokens {ts : List Token} (h : ∀ t ∈ ts, t.kind ≠ .eof) (finish : Place) :
    (tokens ts finish).upcoming = ts := by
  have hts : ∀ t ∈ ts, decide (t.kind ≠ .eof) = true := fun t ht => decide_eq_true (h t ht)
  simpa [upcoming] using @List.takeWhile_append_of_pos _ _ _ [] hts

end Source

namespace Window

/-- The window looks at the first two tokens of a source. -/
def Shows (w : Window) (s : Source) : Prop :=
  w.current = s.head ∧ w.peek = s.tail.head ∧ w.source = s.tail.tail

theorem shows_ofSource (s : Source) : (ofSource s).Shows s := ⟨rfl, rfl, rfl⟩

theorem Shows.advance {w : Window} {s : Source} (h : w.Shows s) : w.advance.Shows s.tail := by
  obtain ⟨-, hpeek, hsource⟩ := h
  refine ⟨hpeek, ?_, ?_⟩
  · rw [← hsource]
    rfl
  · rw [← hsource]
    rfl

/-- Reading what a source has before its end leads to an end token. -/
theorem Shows.reads_upcoming {w : Window} {s : Source} (h : w.Shows s) :
    ∃ v, w.Reads s.upcoming v ∧ v.current.kind = .eof := by
  by_cases hs : s.head.kind = .eof
  · rw [Source.upcoming_of_head_eof hs]
    exact ⟨w, rfl, by rw [h.1, hs]⟩
  · have hlt : s.tail.left < s.left := by
      have hle := s.left_tail_add_le
      rw [Token.weight_of_ne_eof hs] at hle
      exact hle
    obtain ⟨v, hv, heof⟩ := h.advance.reads_upcoming
    rw [Source.upcoming_of_head_ne_eof hs]
    exact ⟨v, ⟨h.1, hv⟩, heof⟩
termination_by s.left

/-- Reading up to an end token has one result. -/
theorem Reads.unique {w u v : Window} {us vs : List Token} (hu : w.Reads us u)
    (hv : w.Reads vs v) (hus : ∀ t ∈ us, t.kind ≠ .eof) (hvs : ∀ t ∈ vs, t.kind ≠ .eof)
    (hueof : u.current.kind = .eof) (hveof : v.current.kind = .eof) : us = vs ∧ u = v := by
  induction us generalizing w vs with
  | nil =>
    obtain rfl := hu
    cases vs with
    | nil => exact ⟨rfl, hv.symm⟩
    | cons t vs => exact absurd (hv.1 ▸ hueof) (hvs t List.mem_cons_self)
  | cons t us ih =>
    obtain ⟨ht, hu⟩ := hu
    cases vs with
    | nil =>
      obtain rfl := hv
      exact absurd (ht ▸ hveof) (hus t List.mem_cons_self)
    | cons s vs =>
      obtain ⟨hs, hv⟩ := hv
      obtain ⟨rfl, rfl⟩ := ih hu hv (fun x hx => hus x (List.mem_cons_of_mem _ hx))
        fun x hx => hvs x (List.mem_cons_of_mem _ hx)
      exact ⟨by rw [← ht, ← hs], rfl⟩

end Window

/-! ### Programs -/

section

variable {config : Config}

theorem leads_program {levels : Nat} {w v : Window} {n : Node} :
    Run.Leads Quiet (program { config } levels) w n v ↔
      ∃ ns, Run.Leads Quiet (statementsUntil (· == .eof) (statement (expression { config } levels)))
        w ns v ∧ n = .program ns := by
  simp only [Run.Leads, Quiet, program, bind_pure_comp, Run.map_apply]
  constructor
  · rintro ⟨rfl, rfl, hd⟩
    exact ⟨_, ⟨rfl, rfl, hd⟩, rfl⟩
  · rintro ⟨_, ⟨rfl, rfl, hd⟩, rfl⟩
    exact ⟨rfl, rfl, hd⟩

/-- From a window whose tokens up to the end are known, quiet runs are derivations of these. -/
theorem leads_program_iff {levels : Nat} {w v u : Window} {ts : List Token} {n : Node}
    (hts : w.Reads ts v) (hne : ∀ t ∈ ts, t.kind ≠ .eof) (hv : v.current.kind = .eof) :
    Run.Leads Quiet (program { config } levels) w n u ↔
      u = v ∧ ∃ ns m, n = .program ns ∧ Derivation.Statements config ts ns m ∧ m ≤ levels := by
  have hkinds (k : Kind) (hk : (k == Kind.eof) = true) : k = .rbrace ∨ k = .eof :=
    .inr (eq_of_beq hk)
  rw [leads_program]
  constructor
  · rintro ⟨ns, h, rfl⟩
    obtain ⟨us, m, hus, hns, hm, hu⟩ := statementsUntil_sound expression_sound (by rfl) h
    obtain ⟨rfl, rfl⟩ := hus.unique hts hns.ne_eof hne (eq_of_beq hu) hv
    exact ⟨rfl, ns, m, rfl, hns, hm⟩
  · rintro ⟨rfl, ns, m, rfl, hns, hm⟩
    exact ⟨ns, (hns.leads_iff hts (by rfl) hkinds (by simp [hv])).iff.2 ⟨hm, rfl, rfl⟩, rfl⟩

/-- A source is parsed without a diagnostic exactly if its tokens have a derivation that nests no
deeper than the limit, and the program is the tree of that derivation. -/
theorem parse_clean_iff (config : Config) (s : Source) (p : Node) :
    (parse { config } s).diagnostics = [] ∧ (parse { config } s).program = p ↔
      ∃ ns m, p = .program ns ∧ Derivation.Statements config s.upcoming ns m ∧
        m ≤ maxNesting := by
  obtain ⟨v, hv, heof⟩ := (Window.shows_ofSource s).reads_upcoming
  have hne (t : Token) : t ∈ s.upcoming → t.kind ≠ .eof := Source.ne_eof_of_mem_upcoming
  have hrun : (parse { config } s).diagnostics = [] ∧ (parse { config } s).program = p ↔
      ∃ u, Run.Leads Quiet (program { config } maxNesting) (.ofSource s) p u := by
    constructor
    · rintro ⟨hd, hp⟩
      exact ⟨_, hp, rfl, hd⟩
    · rintro ⟨u, hp, -, hd⟩
      exact ⟨hd, hp⟩
  rw [hrun]
  constructor
  · rintro ⟨u, hu⟩
    exact ((leads_program_iff hv hne heof).1 hu).2
  · intro h
    exact ⟨v, (leads_program_iff hv hne heof).2 ⟨rfl, h⟩⟩

/-- A list of tokens that is no end token is parsed without a diagnostic exactly if it has a
derivation that nests no deeper than the limit, and the program is the tree of that derivation. -/
theorem parse_tokens_clean_iff (config : Config) (ts : List Token) (finish : Place)
    (h : ∀ t ∈ ts, t.kind ≠ .eof) (p : Node) :
    (parse { config } (.tokens ts finish)).diagnostics = [] ∧
        (parse { config } (.tokens ts finish)).program = p ↔
      ∃ ns m, p = .program ns ∧ Derivation.Statements config ts ns m ∧ m ≤ maxNesting := by
  have hiff := parse_clean_iff config (.tokens ts finish) p
  rwa [Source.upcoming_tokens h] at hiff

/-- A binding of a choice whose condition compares a name to a call has a derivation. -/
theorem parse_tokens_clean_iff_choice :
    let ts := (tokenize "let least = if (a < f(1)) \x7b -b; \x7d").dropLast
    (∀ t ∈ ts, t.kind ≠ .eof) ∧
      ∃ ns m, (parse {} (.tokens ts ⟨1, 36⟩)).program = .program ns ∧
        (Node.program ns).render = "let least = if ((a < f(1))) \x7b (-b) \x7d;" ∧
        Derivation.Statements {} ts ns m ∧ m ≤ maxNesting := by
  intro ts
  have hne : ∀ t ∈ ts, t.kind ≠ .eof := by decide +kernel
  have hclean : (parse {} (.tokens ts ⟨1, 36⟩)).diagnostics = [] := by decide +kernel
  have hrender : (parse {} (.tokens ts ⟨1, 36⟩)).program.render =
      "let least = if ((a < f(1))) \x7b (-b) \x7d;" := by decide +kernel
  obtain ⟨ns, m, hp, hderives, hm⟩ :=
    (parse_tokens_clean_iff {} ts ⟨1, 36⟩ hne _).1 ⟨hclean, rfl⟩
  rw [hp] at hrender
  exact ⟨hne, ns, m, hp, hrender, hderives, hm⟩

namespace Derivation

/-- The grammar is unambiguous: a list of tokens has one tree at most, and one depth. -/
theorem Statements.unique {ts : List Token} {ns ns' : List Node} {m m' : Nat}
    (h : Statements config ts ns m) (h' : Statements config ts ns' m') : ns = ns' ∧ m = m' := by
  obtain ⟨v, hv, heof⟩ := (Window.shows_ofSource (.ofTokens ts)).reads_upcoming
  have hts : (Source.ofTokens ts).upcoming = ts := Source.upcoming_tokens h.ne_eof _
  rw [hts] at hv
  have hkinds (k : Kind) (hk : (k == Kind.eof) = true) : k = .rbrace ∨ k = .eof :=
    .inr (eq_of_beq hk)
  -- at the levels that one of them needs there is a quiet run, which the other describes as well
  have hrun := (h.leads_iff hv (by rfl) hkinds (by simp [heof])).iff.2 ⟨Nat.le_refl m, rfl, rfl⟩
  have hrun' := (h'.leads_iff hv (by rfl) hkinds (by simp [heof])).iff.2 ⟨Nat.le_refl m', rfl, rfl⟩
  obtain ⟨hm, -, hns⟩ := (h'.leads_iff hv (by rfl) hkinds (by simp [heof])).iff.1 hrun
  obtain ⟨hm', -, -⟩ := (h.leads_iff hv (by rfl) hkinds (by simp [heof])).iff.1 hrun'
  exact ⟨hns, Nat.le_antisymm hm' hm⟩

end Derivation

end

end MonkeyLang
