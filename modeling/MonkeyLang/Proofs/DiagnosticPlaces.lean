import MonkeyLang.Proofs.BlameOrder
import MonkeyLang.Proofs.Coordinates

/-!
# Places of diagnostics

Positions in the sequence of tokens become places in the text. Later positions are later places up
to the end, whose place all further end tokens share, so what holds of the positions that a parse
blames holds of the places of its diagnostics. Main statement: `diagnostics_parseText`.
-/

namespace MonkeyLang

/-! ### Along a text -/

namespace Scan

/-- The scan after so many tokens. -/
def after (s : Scan) : Nat → Scan
  | 0 => s
  | i + 1 => s.next.after i

theorem after_add (s : Scan) (i j : Nat) : s.after (i + j) = (s.after i).after j := by
  induction i generalizing s with
  | zero => rw [Nat.zero_add]; rfl
  | succ i ih => rw [Nat.succ_add]; exact ih s.next

theorem token_after_mem (s : Scan) (i : Nat) : (s.after i).token ∈ s.tokens := by
  induction i generalizing s with
  | zero => exact s.token_mem_tokens
  | succ i ih => exact s.tokens_next_sublist.mem (ih s.next)

theorem exists_after_of_mem {s : Scan} {t : Token} (h : t ∈ s.tokens) :
    ∃ i, (s.after i).token = t := by
  rw [tokens_eq] at h
  split at h
  · exact ⟨0, (List.mem_singleton.1 h).symm⟩
  · next hne =>
    rcases List.mem_cons.1 h with rfl | h
    · exact ⟨0, rfl⟩
    · have hlt := length_next_lt hne
      obtain ⟨i, hi⟩ := exists_after_of_mem h
      exact ⟨i + 1, hi⟩
termination_by s.rest.length

section

variable {s : Scan} {i j : Nat}

/-- Behind the end token comes nothing else. -/
theorem token_after_of_eof (hij : i ≤ j) (h : (s.after i).token.kind = .eof) :
    (s.after j).token = (s.after i).token := by
  obtain ⟨k, rfl⟩ := Nat.exists_eq_add_of_le hij
  clear hij
  rw [after_add]
  generalize s.after i = s at h
  induction k generalizing s with
  | zero => rfl
  | succ k ih =>
    have hnext := token_next_of_eof h
    rw [after, ih s.next (hnext ▸ h), hnext]

/-- Tokens at later positions stand at later places, up to the end. -/
theorem place_after_lt (hij : i < j) (h : (s.after i).token.kind ≠ .eof) :
    (s.after i).token.place < (s.after j).token.place := by
  obtain ⟨k, rfl⟩ := Nat.exists_eq_add_of_lt hij
  rw [Nat.add_assoc, Nat.add_comm k, ← Nat.add_assoc, after_add, after_add]
  exact (precedes_of_mem_tokens_next h _ (token_after_mem _ k)).place_lt

theorem place_after_le (hij : i ≤ j) : (s.after i).token.place ≤ (s.after j).token.place := by
  by_cases h : (s.after i).token.kind = .eof
  · rw [token_after_of_eof hij h]
    exact Place.le_refl _
  · rcases Nat.eq_or_lt_of_le hij with rfl | hlt
    · exact Place.le_refl _
    · exact Place.le_of_lt (place_after_lt hlt h)

/-- Different tokens stand at different places. -/
theorem token_after_eq (h : (s.after i).token.place = (s.after j).token.place) :
    (s.after i).token = (s.after j).token := by
  have hlater {i j : Nat} (hij : i ≤ j)
      (h : (s.after i).token.place = (s.after j).token.place) :
      (s.after i).token = (s.after j).token := by
    by_cases heof : (s.after i).token.kind = .eof
    · exact (token_after_of_eof hij heof).symm
    · rcases Nat.eq_or_lt_of_le hij with rfl | hlt
      · rfl
      · exact absurd (h ▸ place_after_lt hlt heof) (Place.lt_irrefl _)
  rcases Nat.le_total i j with hij | hij
  · exact hlater hij h
  · exact (hlater hij h.symm).symm

/-- Only the end is found at more than one position. -/
theorem eq_of_token_after_eq (h : (s.after i).token = (s.after j).token)
    (hne : (s.after i).token.kind ≠ .eof) : i = j := by
  rcases Nat.lt_trichotomy i j with hlt | heq | hlt
  · exact absurd (h ▸ place_after_lt hlt hne) (Place.lt_irrefl _)
  · exact heq
  · rw [h] at hne
    exact absurd (h ▸ place_after_lt hlt hne) (Place.lt_irrefl _)

end

end Scan

/-- A window on a text shows its tokens, and behind them the end token again and again. -/
theorem Window.Shows.on {w : Window} {s : Scan} (h : w.Shows (.text s)) (hw : w.index = 0) :
    w.On fun i => (s.after i).token := by
  have hahead (i : Nat) : ∀ {w : Window} {s : Scan}, w.Shows (.text s) →
      w.ahead i = (s.after i).token := by
    induction i with
    | zero => exact fun h => h.1
    | succ i ih =>
      intro w s h
      rw [← ahead_advance]
      exact ih h.advance
  intro i
  rw [hw, Nat.zero_add]
  exact hahead i h

/-! ### Messages -/

theorem Kind.not_mem_text (k : Kind) : ' ' ∉ k.text.toList := by
  cases k <;> decide

/-- Texts without a space can be read off a message that joins them. -/
theorem eq_of_joined_eq {k v l u : String} (hl : ' ' ∉ l.toList) (hu : ' ' ∉ u.toList)
    (h : "expected next token to be " ++ l ++ ", got " ++ u =
      "expected next token to be " ++ k ++ ", got " ++ v) : l = k ∧ u = v := by
  have h : (l.toList ++ [',']) ++ ' ' :: ("got ".toList ++ u.toList) =
      (k.toList ++ [',']) ++ ' ' :: ("got ".toList ++ v.toList) := by
    simpa [String.ext_iff] using h
  -- the two spaces of the joint leave none for the other texts
  have hspaces := congrArg (List.count ' ') h
  have hk : ' ' ∉ k.toList := by
    rw [← List.count_eq_zero]
    simp [List.count_append, List.count_eq_zero.2 hl, List.count_eq_zero.2 hu] at hspaces
    omega
  have hword {x rest : List Char} (hx : ' ' ∉ x) :
      ((x ++ [',']) ++ ' ' :: rest).takeWhile (· ≠ ' ') = x ++ [','] := by
    refine takeWhile_append_delimited (fun c hc => ?_) (by simp)
    rcases List.mem_append.1 hc with hc | hc
    · exact decide_eq_true fun heq => hx (heq ▸ hc)
    · rw [List.mem_singleton.1 hc]
      rfl
  have hlk := congrArg (List.takeWhile (· ≠ ' ')) h
  rw [hword hl, hword hk] at hlk
  obtain rfl : l = k := String.toList_inj.1 (List.append_cancel_right hlk)
  have hrest := (List.cons.inj (List.append_cancel_left h)).2
  exact ⟨rfl, String.toList_inj.1 (List.append_cancel_left hrest)⟩

/-- A message that names the kind expected and the kind found is right about the blamed token. -/
theorem Diagnostic.kind_of_message_eq {d : Diagnostic} {k v : String} (h : d.problem.Fits d.token)
    (hmessage : d.message = "expected next token to be " ++ k ++ ", got " ++ v) :
    d.token.kind.text = v ∧ d.token.kind.text ≠ k := by
  obtain ⟨problem, token, spot, index, depth⟩ := d
  cases problem with
  | expected kind =>
    obtain ⟨rfl, rfl⟩ := eq_of_joined_eq kind.not_mem_text token.kind.not_mem_text hmessage
    exact ⟨rfl, fun heq => h (Kind.text_injective heq)⟩
  -- the other wordings begin differently
  | noExpression => simp [message, String.ext_iff] at hmessage
  | notAnInteger => simp [message, String.ext_iff] at hmessage
  | nestedTooDeep => simp [message, String.ext_iff] at hmessage
  | remark text => cases h

/-! ### Strict parses -/

namespace Grammar

/-- Nothing in an expression depends on whether problems make the whole parse fail. -/
theorem expression_chain_strict (config : Config) (strict : Bool) (levels : Nat) :
    expression { config := { config with strict } } levels = expression { config } levels ∧
      chain { config := { config with strict } } levels = chain { config } levels := by
  have hopening (operand : Operand) (form : Opening) :
      opening { config with strict } operand form = opening config operand form := by
    cases form <;> rfl
  induction levels with
  | zero =>
    constructor
    · funext p
      rw [expression, expression]
    · funext p left
      rw [chain, chain]
  | succ levels ih =>
    obtain ⟨hexpression, hchain⟩ := ih
    constructor
    · funext p
      simp only [expression, hopening, hexpression, hchain]
    · funext p left
      simp only [chain, hexpression, hchain]

end Grammar

/-- A whole parse is the same by strict settings as by others; only its judgement differs. -/
theorem parse_strict (config : Config) (strict : Bool) (source : Source) :
    parse { config := { config with strict } } source = parse { config } source := by
  have hprogram : Grammar.program { config := { config with strict } } maxNesting =
      Grammar.program { config } maxNesting := by
    rw [Grammar.program, Grammar.program, (Grammar.expression_chain_strict _ _ _).1]
  simp only [parse, Session.parse, Session.perform, Session.record, Session.start, Nat.sub_zero,
    hprogram]

theorem parseOrFail_strict (config : Config) (strict : Bool) (text : String) :
    parseOrFail { config with strict } text = (parseText config text).judged strict := by
  rw [parseOrFail, parseText, parse_strict, ← parseText]

theorem Parsed.judged_false (p : Parsed) : p.judged false = .ok (p.program, p.messages) := by
  unfold judged messages
  cases p.diagnostics <;> rfl

theorem Parsed.exists_judged_eq_error_iff (p : Parsed) :
    (∃ e, p.judged true = .error e) ↔ p.messages ≠ [] := by
  unfold judged messages
  cases p.diagnostics <;> simp

/-! ### Parses of a text -/

/-- Each diagnostic of a whole parse of a text is about a token of that text. -/
theorem fits_parseText (config : Config) (text : String) :
    ∀ d ∈ (parseText config text).diagnostics,
      d.token = ((Scan.ofText text).after d.index).token ∧ d.problem.Fits d.token := by
  have hfits := StepInvariant.fits fun i => ((Scan.ofText text).after i).token
  have hstatements := hfits.statementsUntil (· == .eof)
    (hfits.statement (hfits.expression { config } maxNesting))
    (StepInvariant.ne_semicolon_of_statement _)
  rw [parseText, diagnostics_parse]
  exact (hstatements (.ofSource (.ofText text)) ((Window.shows_ofSource _).on rfl)).2

theorem pairwise_place_parseText (config : Config) (text : String) :
    (parseText config text).diagnostics.Pairwise fun (d e : Diagnostic) => d.place ≤ e.place := by
  obtain ⟨hi, hascends⟩ := ascends_parse config (.ofText text)
  have hfits := fits_parseText config text
  refine (List.pairwise_map.1 hascends.sorted).imp_of_mem fun {d e} hd he hle => ?_
  rw [Diagnostic.place, Diagnostic.place, (hfits d hd).1, (hfits e he).1]
  exact Scan.place_after_le hle

/-- No token but the end token is blamed more than twice. -/
theorem count_place_parseText_le (config : Config) (text : String) {t : Token}
    (ht : t ∈ tokenize text) (hne : t.kind ≠ .eof) :
    ((parseText config text).diagnostics.map Diagnostic.place).count t.place ≤ 2 := by
  obtain ⟨hi, hascends⟩ := ascends_parse config (.ofText text)
  have hfits := fits_parseText config text
  obtain ⟨i, rfl⟩ := Scan.exists_after_of_mem ht
  refine Nat.le_trans ?_ (hascends.twice i)
  rw [List.count_eq_countP, List.count_eq_countP, List.countP_map, List.countP_map]
  refine List.countP_mono_left fun d hd hplace => ?_
  have hplace : d.token.place = ((Scan.ofText text).after i).token.place := by
    simpa [Diagnostic.place] using hplace
  rw [(hfits d hd).1] at hplace
  have hindex := Scan.eq_of_token_after_eq (Scan.token_after_eq hplace).symm hne
  simpa using hindex.symm

/-- The diagnostics of a text are in the order of their places. Each of them is at a token of the
text, no token but the end token has more than two of them, and a message that says what token was
found instead of what was expected is right about both. A parse that is not strict gives the program
and the messages of these diagnostics. A strict one fails exactly if there are messages, with the
same messages, and the place that it names first is the least of all. -/
theorem diagnostics_parseText (config : Config) (text : String) :
    (parseText config text).diagnostics.Pairwise
        (fun (d e : Diagnostic) => d.place ≤ e.place) ∧
      (∀ d ∈ (parseText config text).diagnostics, ∃ t ∈ tokenize text, t.place = d.place) ∧
      (∀ t ∈ tokenize text, t.kind ≠ .eof →
        ((parseText config text).diagnostics.map Diagnostic.place).count t.place ≤ 2) ∧
      (∀ d ∈ (parseText config text).diagnostics, ∀ k v : String,
        d.message = "expected next token to be " ++ k ++ ", got " ++ v →
          ∀ t ∈ tokenize text, t.place = d.place → t.kind.text = v ∧ t.kind.text ≠ k) ∧
      parseOrFail { config with strict := false } text =
        .ok ((parseText config text).program, (parseText config text).messages) ∧
      ((∃ e, parseOrFail { config with strict := true } text = .error e) ↔
        (parseText config text).messages ≠ []) ∧
      ∀ e, parseOrFail { config with strict := true } text = .error e →
        e.diagnostics = (parseText config text).diagnostics ∧
          e.diagnostics.map Diagnostic.message = (parseText config text).messages ∧
          e.message = toString (parseText config text).messages.length ++
            " parse error(s), first at line " ++ toString e.first.place.line ++ ", col " ++
            toString e.first.place.col ++ ": " ++ e.first.message ∧
          ∀ d ∈ e.diagnostics, e.first.place ≤ d.place := by
  have hpairwise := pairwise_place_parseText config text
  have hfits := fits_parseText config text
  refine ⟨hpairwise, fun d hd => ?_, fun t => count_place_parseText_le config text,
    fun d hd k v hmessage t ht hplace => ?_, ?_, ?_, fun e he => ?_⟩
  · exact ⟨d.token, (hfits d hd).1 ▸ Scan.token_after_mem _ _, rfl⟩
  · obtain ⟨htoken, hproblem⟩ := hfits d hd
    obtain ⟨i, rfl⟩ := Scan.exists_after_of_mem ht
    rw [Diagnostic.place, htoken] at hplace
    rw [Scan.token_after_eq hplace, ← htoken]
    exact Diagnostic.kind_of_message_eq hproblem hmessage
  · rw [parseOrFail_strict, Parsed.judged_false]
  · simp only [parseOrFail_strict, Parsed.exists_judged_eq_error_iff]
  · rw [parseOrFail_strict, Parsed.judged_eq_error_iff] at he
    have hlength : e.diagnostics.length = (parseText config text).messages.length := by
      rw [Parsed.messages, List.length_map, he.2]
    rw [he.2] at hpairwise
    refine ⟨he.2.symm, by rw [Parsed.messages, he.2], by rw [← hlength]; rfl, fun d hd => ?_⟩
    rcases List.mem_cons.1 hd with rfl | hd
    · exact Place.le_refl _
    · exact List.rel_of_pairwise_cons hpairwise hd

end MonkeyLang
