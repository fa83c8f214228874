import MonkeyLang.Proofs.Causality
import MonkeyLang.Proofs.Completion
import MonkeyLang.Proofs.Resumption

/-!
# The first diagnostic

The first diagnostic of a parse is the earliest possible one: it depends on the tokens up to the
blamed one only, so no list of tokens that begins like this is well formed, and what comes before
the blamed token is the beginning of a list that is. Main statement: `parse_first_diagnostic`.
-/

namespace MonkeyLang

open Grammar

/-- Lists of tokens that agree so far show the same tokens so far. -/
theorem getD_eq_of_take_eq {ts us : List Token} {n : Nat} (hn : n < ts.length)
    (h : us.take (n + 1) = ts.take (n + 1)) (a b : Token) {i : Nat} (hi : i ≤ n) :
    us.getD i a = ts.getD i b := by
  have hget : us[i]? = ts[i]? := by
    rw [← List.getElem?_take_of_lt (Nat.lt_succ_of_le hi), h,
      List.getElem?_take_of_lt (Nat.lt_succ_of_le hi)]
  rw [List.getD_eq_getElem?_getD, List.getD_eq_getElem?_getD, hget,
    List.getElem?_eq_getElem (Nat.lt_of_le_of_lt hi hn)]
  rfl

variable {config : Config}

/-- The first diagnostic of a parse is the first problem that the loop over statements finds. -/
theorem stumbles_parse {s : Source} {d : Diagnostic} :
    (parse { config } s).diagnostics.head? = some d ↔
      (statementsUntil (· == .eof) (statement (expression { config } maxNesting))).Stumbles
        (.ofSource s) d := by
  rw [diagnostics_parse, Run.Stumbles]

section

variable {ts : List Token} {finish : Place} {d : Diagnostic}
  (hd : (parse { config } (.tokens ts finish)).diagnostics.head? = some d)

include hd

/-- The first diagnostic blames a token of the list, or the end behind it. -/
theorem token_first_diagnostic :
    d.index ≤ ts.length ∧ d.token = ts.getD d.index (.endAt finish) := by
  have hcausal := statementLookahead_causal.statements config maxNesting
  have hstumbles := Parse.stumbles_lift.2 (stumbles_parse.1 hd)
  obtain ⟨htoken, -, hbounded⟩ :=
    hcausal.blames (Window.on_ofSource ts finish) trivial hstumbles
  exact ⟨hbounded ts.length (by simp) (Nat.zero_le _), htoken⟩

/-- The end is blamed exactly if no token of the list is. -/
theorem index_first_diagnostic_iff (hts : ∀ t ∈ ts, t.kind ≠ .eof) :
    d.index = ts.length ↔ d.token.kind = .eof := by
  obtain ⟨hle, htoken⟩ := token_first_diagnostic hd
  constructor
  · intro hindex
    rw [htoken, hindex]
    simp
  · intro heof
    rcases Nat.lt_or_eq_of_le hle with hlt | heq
    · have hmem : d.token ∈ ts := by
        rw [htoken]
        simp [hlt]
      exact absurd heof (hts _ hmem)
    · exact heq

/-- Lists that agree up to the blamed token have the same first diagnostic. -/
theorem head?_diagnostics_of_take_eq (hlt : d.index < ts.length) {us : List Token}
    (hus : us.take (d.index + 1) = ts.take (d.index + 1)) (finish' : Place) :
    (parse { config } (.tokens us finish')).diagnostics.head? = some d := by
  have hcausal := statementLookahead_causal.statements config maxNesting
  have hstumbles := Parse.stumbles_lift.2 (stumbles_parse.1 hd)
  have hstumbles' := hcausal.stumbles (Window.on_ofSource ts finish) trivial hstumbles
    (Window.on_ofSource us finish') rfl fun i hi => getD_eq_of_take_eq hlt hus _ _ hi
  exact stumbles_parse.2 (Parse.stumbles_lift.1 hstumbles')

/-- The tokens before the blamed one are the beginning of a well-formed list, unless the levels of
nesting are used up. -/
theorem exists_completion_first_diagnostic (hproblem : d.problem ≠ .nestedTooDeep)
    (hdepth : d.depth < maxNesting) :
    ∃ us ns m, Derivation.Statements config (ts.take d.index ++ us) ns m ∧ m ≤ maxNesting := by
  obtain ⟨us, u, vs, hus, hu, ns, m, hns, hm⟩ :=
    program_completes hproblem hdepth (stumbles_parse.1 hd)
  have hlength : us.length = d.index := by
    rw [← hu, hus.index_eq]
    exact (Nat.zero_add _).symm
  have htake := hus.eq_take (Window.shows_ofSource _) (hlength ▸ (token_first_diagnostic hd).1)
  rw [hlength] at htake
  exact ⟨vs, ns, m, htake ▸ hns, hm⟩

end

/-- The first diagnostic blames a token of the list, or the end behind it. Every list that agrees up
to a blamed token of the list has the same first diagnostic, so none of them is well formed. If it
is not the limit of nesting that is at fault, and less than the limit was in use, then the tokens
before the blamed one are the beginning of a list that is parsed without a diagnostic. -/
theorem parse_first_diagnostic (config : Config) (ts : List Token) (finish : Place) (d : Diagnostic)
    (hts : ∀ t ∈ ts, t.kind ≠ .eof)
    (hd : (parse { config } (.tokens ts finish)).diagnostics.head? = some d) :
    (d.index ≤ ts.length ∧ d.token = ts.getD d.index (.endAt finish) ∧
        (d.index = ts.length ↔ d.token.kind = .eof)) ∧
      (d.index < ts.length → ∀ us finish', us.take (d.index + 1) = ts.take (d.index + 1) →
        (parse { config } (.tokens us finish')).diagnostics.head? = some d) ∧
      (d.problem ≠ .nestedTooDeep → d.depth < maxNesting → ∃ us, (∀ t ∈ us, t.kind ≠ .eof) ∧
        (parse { config } (.tokens (ts.take d.index ++ us) finish)).diagnostics = []) := by
  obtain ⟨hle, htoken⟩ := token_first_diagnostic hd
  refine ⟨⟨hle, htoken, index_first_diagnostic_iff hd hts⟩, ?_, ?_⟩
  · intro hlt us finish' hus
    exact head?_diagnostics_of_take_eq hd hlt hus finish'
  · intro hproblem hdepth
    obtain ⟨us, ns, m, hns, hm⟩ := exists_completion_first_diagnostic hd hproblem hdepth
    refine ⟨us, fun t ht => hns.ne_eof t (List.mem_append_right _ ht), ?_⟩
    have hclean := parse_clean_iff config (.tokens (ts.take d.index ++ us) finish) (.program ns)
    rw [Source.upcoming_tokens hns.ne_eof] at hclean
    exact (hclean.2 ⟨ns, m, rfl, hns, hm⟩).1

/-- A keyword where the argument of a call in a condition should stand: what comes before it lacks
the ends of the call, of the condition and of the block. -/
theorem parse_first_diagnostic_call :
    (∀ t ∈ [(⟨.ifWord, "if", ⟨1, 1⟩⟩ : Token), ⟨.lparen, "(", ⟨1, 4⟩⟩, ⟨.ident, "f", ⟨1, 5⟩⟩,
        ⟨.lparen, "(", ⟨1, 6⟩⟩, ⟨.letWord, "let", ⟨1, 7⟩⟩], t.kind ≠ .eof) ∧
      (parse {} (.tokens [⟨.ifWord, "if", ⟨1, 1⟩⟩, ⟨.lparen, "(", ⟨1, 4⟩⟩, ⟨.ident, "f", ⟨1, 5⟩⟩,
        ⟨.lparen, "(", ⟨1, 6⟩⟩, ⟨.letWord, "let", ⟨1, 7⟩⟩] ⟨1, 10⟩)).diagnostics.head? =
          some ⟨.noExpression, ⟨.letWord, "let", ⟨1, 7⟩⟩, .current, 4, 4⟩ ∧
      (∀ us, (parse {} (.tokens (⟨.ifWord, "if", ⟨1, 1⟩⟩ :: ⟨.lparen, "(", ⟨1, 4⟩⟩ ::
        ⟨.ident, "f", ⟨1, 5⟩⟩ :: ⟨.lparen, "(", ⟨1, 6⟩⟩ :: ⟨.letWord, "let", ⟨1, 7⟩⟩ :: us)
        ⟨1, 10⟩)).diagnostics.head? =
          some ⟨.noExpression, ⟨.letWord, "let", ⟨1, 7⟩⟩, .current, 4, 4⟩) ∧
      ∃ us, (parse {} (.tokens (⟨.ifWord, "if", ⟨1, 1⟩⟩ :: ⟨.lparen, "(", ⟨1, 4⟩⟩ ::
        ⟨.ident, "f", ⟨1, 5⟩⟩ :: ⟨.lparen, "(", ⟨1, 6⟩⟩ :: us) ⟨1, 10⟩)).diagnostics = [] := by
  have hts : ∀ t ∈ [(⟨.ifWord, "if", ⟨1, 1⟩⟩ : Token), ⟨.lparen, "(", ⟨1, 4⟩⟩,
      ⟨.ident, "f", ⟨1, 5⟩⟩, ⟨.lparen, "(", ⟨1, 6⟩⟩, ⟨.letWord, "let", ⟨1, 7⟩⟩],
      t.kind ≠ .eof := by
    decide
  have hd : (parse {} (.tokens [⟨.ifWord, "if", ⟨1, 1⟩⟩, ⟨.lparen, "(", ⟨1, 4⟩⟩,
      ⟨.ident, "f", ⟨1, 5⟩⟩, ⟨.lparen, "(", ⟨1, 6⟩⟩, ⟨.letWord, "let", ⟨1, 7⟩⟩]
      ⟨1, 10⟩)).diagnostics.head? =
        some ⟨.noExpression, ⟨.letWord, "let", ⟨1, 7⟩⟩, .current, 4, 4⟩ := by
    decide +kernel
  obtain ⟨-, hsame, hcomplete⟩ := parse_first_diagnostic {} _ _ _ hts hd
  obtain ⟨us, -, hus⟩ := hcomplete (by decide) (by decide)
  exact ⟨hts, hd, fun us => hsame (by decide) _ _ rfl, us, hus⟩

end MonkeyLang
