import MonkeyLang.Proofs.DiagnosticPlaces
import MonkeyLang.Proofs.ScannedTrees
import MonkeyLang.Proofs.TokensTaken

/-!
# The log of a parse

The log of a whole parse tells when each token was taken. A token leaves a record as it is taken if
it is an illegal character, and a problem is found when the two tokens in view have been taken and
no later one, so the position of the token that is blamed says which tokens the records before it
are about. Main statements: `Logged.at_parserRecord`, by induction along the log, and
`log_parseText`.
-/

namespace MonkeyLang

open Grammar

/-! ### Tokens and records -/

/-- How many tokens had been taken when the problem was found: those up to the one after the current
token. -/
def Diagnostic.seen (d : Diagnostic) : Nat :=
  match d.spot with
  | .current => d.index + 2
  | .peek => d.index + 1

theorem Window.seen_blame (w : Window) (spot : Spot) (problem : Problem) :
    (w.blame spot problem).seen = w.index + 2 := by
  cases spot <;> rfl

namespace Record

/-- The record of a problem one level of nesting further in. -/
def nested : Record → Record
  | diagnosed d => diagnosed d.nested
  | r => r

@[simp] theorem channel_nested (r : Record) : r.nested.channel = r.channel := by
  cases r <;> rfl

/-- How many tokens have been taken where the record stands, if the record tells. -/
def seen? : Record → Option Nat
  | parseStarted => some 2
  | diagnosed d => some d.seen
  | _ => none

@[simp] theorem seen?_nested (r : Record) : r.nested.seen? = r.seen? := by
  cases r <;> rfl

theorem ofEvent_nested (source : Source) (e : Event) :
    ofEvent source e.nested = (ofEvent source e).map nested := by
  cases e with
  | took t =>
    cases source with
    | text scan =>
      change ofToken t = (ofToken t).map nested
      unfold ofToken
      split <;> rfl
    | tokens pending finish => rfl
  | noted d => rfl
  | dropped t => rfl

theorem mem_ofToken_iff {t u : Token} :
    illegalCharacter t ∈ ofToken u ↔ u.kind = .illegal ∧ t = u := by
  unfold ofToken
  split <;> simp [*]

theorem ofToken_of_eof {t : Token} (h : t.kind = .eof) : ofToken t = [] := by
  simp [ofToken, h]

/-- What the tokens of a sequence leave is one record for each illegal character. -/
theorem flatMap_ofToken (ts : List Token) :
    ts.flatMap ofToken = (ts.filter fun t => t.kind = .illegal).map illegalCharacter := by
  induction ts with
  | nil => rfl
  | cons t ts ih =>
    rw [List.flatMap_cons, ih, ofToken]
    by_cases h : t.kind = .illegal <;> simp [h]

end Record

/-! ### Logs along a sequence of tokens -/

/-- A log that is written while the tokens of a sequence from position `n` up to position `m` are
taken. -/
inductive Logged (ts : Nat → Token) : Nat → List Record → Nat → Prop
  | nil (n) : Logged ts n [] n
  | quiet {n rs m} : (ts n).kind ≠ .illegal → Logged ts (n + 1) rs m → Logged ts n rs m
  | illegal {n rs m} : (ts n).kind = .illegal → Logged ts (n + 1) rs m →
    Logged ts n (.illegalCharacter (ts n) :: rs) m
  | wrote {n r rs m} : r.channel = .parser → (∀ k ∈ r.seen?, k = n) → Logged ts n rs m →
    Logged ts n (r :: rs) m

namespace Logged

variable {ts : Nat → Token} {n k m : Nat} {rs qs : List Record}

theorem append (h : Logged ts n rs k) (h' : Logged ts k qs m) : Logged ts n (rs ++ qs) m := by
  induction h with
  | nil => exact h'
  | quiet hkind _ ih => exact .quiet hkind (ih h')
  | illegal hkind _ ih => exact .illegal hkind (ih h')
  | wrote hchannel hseen _ ih => exact .wrote hchannel hseen (ih h')

theorem token (n : Nat) : Logged ts n (Record.ofToken (ts n)) (n + 1) := by
  unfold Record.ofToken
  split
  · next hkind => exact .illegal hkind (.nil _)
  · next hkind => exact .quiet hkind (.nil _)

theorem record {r : Record} (hchannel : r.channel = .parser) (hseen : ∀ k ∈ r.seen?, k = n) :
    Logged ts n [r] n :=
  .wrote hchannel hseen (.nil n)

theorem map_nested (h : Logged ts n rs m) : Logged ts n (rs.map Record.nested) m := by
  induction h with
  | nil n => exact .nil n
  | quiet hkind _ ih => exact .quiet hkind ih
  | illegal hkind _ ih => exact .illegal hkind ih
  | wrote hchannel hseen _ ih =>
    exact .wrote (by rwa [Record.channel_nested]) (by rwa [Record.seen?_nested]) ih

theorem le (h : Logged ts n rs m) : n ≤ m := by
  induction h with
  | nil => exact Nat.le_refl _
  | quiet _ _ ih | illegal _ _ ih => exact Nat.le_of_succ_le ih
  | wrote _ _ _ ih => exact ih

theorem channel (h : Logged ts n rs m) : ∀ r ∈ rs, r.channel = .lexer ∨ r.channel = .parser := by
  induction h with
  | nil => simp
  | quiet _ _ ih => exact ih
  | illegal _ _ ih => exact List.forall_mem_cons.2 ⟨.inl rfl, ih⟩
  | wrote hchannel _ _ ih => exact List.forall_mem_cons.2 ⟨.inr hchannel, ih⟩

/-- The records of the lexer are those of the tokens taken. -/
theorem lexerRecords (h : Logged ts n rs m) :
    rs.filter (fun r => r.channel = .lexer) =
      ((List.range' n (m - n)).map ts).flatMap Record.ofToken := by
  have hfirst {n m : Nat} (hle : n + 1 ≤ m) : (List.range' n (m - n)).map ts =
      ts n :: (List.range' (n + 1) (m - (n + 1))).map ts := by
    rw [show m - n = m - (n + 1) + 1 by omega, List.range'_succ, List.map_cons]
  induction h with
  | nil n => simp
  | quiet hkind hmore ih =>
    rw [hfirst hmore.le, List.flatMap_cons, Record.ofToken, if_neg hkind, ih, List.nil_append]
  | illegal hkind hmore ih =>
    rw [hfirst hmore.le, List.flatMap_cons, Record.ofToken, if_pos hkind,
      List.filter_cons_of_pos (by rfl), ih, List.singleton_append]
  | wrote hchannel _ _ ih => rw [List.filter_cons_of_neg (by simp [hchannel]), ih]

/-- A record of the parser that tells how many tokens have been taken is right: what stands before
it was written while these were taken. -/
theorem at_parserRecord {before after : List Record} {r : Record}
    (h : Logged ts n (before ++ r :: after) m) (hr : r.seen? = some k) : Logged ts n before k := by
  generalize hrs : before ++ r :: after = rs at h
  induction h generalizing before with
  | nil n => simp at hrs
  | quiet hkind _ ih => exact .quiet hkind (ih hrs)
  | illegal hkind _ ih =>
    cases before with
    | nil =>
      obtain ⟨rfl, -⟩ := List.cons.inj hrs
      cases hr
    | cons b before =>
      obtain ⟨rfl, hmore⟩ := List.cons.inj hrs
      exact .illegal hkind (ih hmore)
  | wrote hchannel hseen _ ih =>
    cases before with
    | nil =>
      obtain ⟨rfl, -⟩ := List.cons.inj hrs
      obtain rfl := hseen k hr
      exact .nil _
    | cons b before =>
      obtain ⟨rfl, hmore⟩ := List.cons.inj hrs
      exact .wrote hchannel hseen (ih hmore)

/-- Of the tokens up to a position, exactly the illegal characters have left their records. -/
theorem illegalCharacter_mem_iff (h : Logged ts n rs m) {t : Token} :
    .illegalCharacter t ∈ rs ↔ t.kind = .illegal ∧ ∃ i, n ≤ i ∧ i < m ∧ ts i = t := by
  have hlexer : .illegalCharacter t ∈ rs ↔
      .illegalCharacter t ∈ rs.filter fun r => r.channel = .lexer := by
    simp [Record.channel]
  rw [hlexer, h.lexerRecords]
  simp only [List.mem_flatMap, List.mem_map, List.mem_range'_1, Record.mem_ofToken_iff]
  have hle := h.le
  constructor
  · rintro ⟨_, ⟨i, ⟨hlo, hhi⟩, rfl⟩, hkind, rfl⟩
    exact ⟨hkind, i, hlo, by omega, rfl⟩
  · rintro ⟨hkind, i, hlo, hhi, rfl⟩
    exact ⟨ts i, ⟨i, ⟨hlo, by omega⟩, rfl⟩, hkind, rfl⟩

end Logged

/-- Along a sequence of tokens a run writes its records while it takes the tokens. -/
theorem StepInvariant.logged (ts : Nat → Token) (s : Scan) : StepInvariant fun w _ trace v =>
    w.On ts → v.On ts ∧
      Logged ts (w.index + 2) (trace.flatMap (Record.ofEvent (.text s))) (v.index + 2) :=
  TraceInvariant.stepInvariant
    { stay := fun w hw => ⟨hw, .nil _⟩
      advance := by
        intro w hw
        have htoken : w.advance.peek = ts (w.index + 2) := hw 2
        refine ⟨hw.advance, ?_⟩
        rw [htoken, List.flatMap_singleton]
        exact Logged.token _
      reject := by
        intro w spot problem _ hw
        refine ⟨hw, Logged.record rfl ?_⟩
        simp [Record.seen?, Window.seen_blame]
      append := by
        intro w a u b v ha hb hw
        obtain ⟨hu, ha⟩ := ha hw
        obtain ⟨hv, hb⟩ := hb hu
        refine ⟨hv, ?_⟩
        rw [List.flatMap_append]
        exact ha.append hb
      nested := by
        intro w a v h hw
        obtain ⟨hv, h⟩ := h hw
        refine ⟨hv, ?_⟩
        rw [List.flatMap_map]
        simp only [Record.ofEvent_nested]
        rw [← List.map_flatMap]
        exact h.map_nested
      drop := by
        intro w a v _ h hw
        obtain ⟨hv, h⟩ := h hw
        refine ⟨hv, ?_⟩
        rw [List.flatMap_append]
        simpa [Record.ofEvent] using h }

/-! ### Whole texts -/

namespace Scan

variable {s : Scan}

theorem flatMap_ofToken_of_eof (h : s.token.kind = .eof) (m : Nat) :
    ((List.range m).map fun i => (s.after i).token).flatMap Record.ofToken =
      s.tokens.flatMap Record.ofToken := by
  rw [tokens_eq, if_pos h, List.flatMap_singleton, Record.ofToken_of_eof h,
    List.flatMap_eq_nil_iff]
  intro t ht
  obtain ⟨i, -, rfl⟩ := List.mem_map.1 ht
  rw [token_after_of_eof (Nat.zero_le i) h]
  exact Record.ofToken_of_eof h

/-- What all tokens leave is left by any number of tokens that reaches to the end. -/
theorem flatMap_ofToken_after {k m : Nat} (h : (s.after k).token.kind = .eof) (hk : k < m) :
    ((List.range m).map fun i => (s.after i).token).flatMap Record.ofToken =
      s.tokens.flatMap Record.ofToken := by
  induction k generalizing s m with
  | zero => exact flatMap_ofToken_of_eof h m
  | succ k ih =>
    by_cases heof : s.token.kind = .eof
    · exact flatMap_ofToken_of_eof heof m
    · obtain ⟨m, rfl⟩ := Nat.exists_eq_add_one_of_ne_zero (Nat.ne_zero_of_lt hk)
      have hmore := ih h (Nat.lt_of_succ_lt_succ hk)
      rw [tokens_eq, if_neg heof, List.flatMap_cons, ← hmore, List.range_succ_eq_map,
        List.map_cons, List.map_map, List.flatMap_cons]
      rfl

theorem token_after_of_getElem? {i : Nat} {t : Token} (h : s.tokens[i]? = some t) :
    (s.after i).token = t := by
  induction i generalizing s with
  | zero =>
    rw [tokens_eq] at h
    split at h <;> exact Option.some.inj h
  | succ i ih =>
    rw [tokens_eq] at h
    split at h
    · simp at h
    · exact ih h

end Scan

theorem Record.parserRecords_ofToken (t : Token) :
    (ofToken t).filter (fun r => r.channel = .parser) = [] := by
  unfold ofToken
  split <;> rfl

/-- The records of the parser are the diagnostics. -/
theorem Record.parserRecords (source : Source) (trace : List Event) :
    (trace.flatMap (ofEvent source)).filter (fun r => r.channel = .parser) =
      (Event.diagnostics trace).map diagnosed := by
  induction trace with
  | nil => rfl
  | cons e trace ih =>
    rw [List.flatMap_cons, List.filter_append, ih]
    cases e with
    | took t =>
      have htoken : (ofEvent source (.took t)).filter (fun r => r.channel = .parser) = [] := by
        cases source with
        | text scan => exact parserRecords_ofToken t
        | tokens pending finish => rfl
      rw [htoken]
      rfl
    | noted d => rfl
    | dropped t => rfl

/-- The log of a whole parse: the two tokens taken at the start, the start, what happens in its
course, and the end. -/
theorem log_parseText_eq (config : Config) (text : String) :
    (parseText config text).log =
      Record.ofToken (Scan.ofText text).token ++ Record.ofToken (Scan.ofText text).next.token ++
        [.parseStarted] ++
        (parseTrace { config } (.ofText text)).flatMap
          (Record.ofEvent (.text (Scan.ofText text))) ++
        [.parseFinished (parseText config text).program.statements.length
          (parseText config text).diagnostics.length] := by
  let w := Window.ofSource (.ofText text)
  obtain ⟨s, -, -, hs⟩ := StepInvariant.keepsText.program { config } maxNesting w
    ⟨_, Window.shows_ofSource _⟩
  have hlog : (parseText config text).log =
      [w.current, w.peek].flatMap (fun t => Record.ofEvent (.ofText text) (.took t)) ++
        [.parseStarted] ++
        (parseTrace { config } (.ofText text)).flatMap
          (Record.ofEvent (program { config } maxNesting w).window.source) ++
        [.parseFinished (parseText config text).program.statements.length
          (parseText config text).diagnostics.length] := rfl
  rw [hlog, hs, List.flatMap_cons, List.flatMap_singleton]
  rfl

theorem parserRecords_parseText (config : Config) (text : String) :
    (parseText config text).log.filter (fun r => r.channel = .parser) =
      .parseStarted :: (parseText config text).diagnostics.map .diagnosed ++
        [.parseFinished (parseText config text).program.statements.length
          (parseText config text).diagnostics.length] := by
  have hdiagnostics : (parseText config text).diagnostics =
      Event.diagnostics (parseTrace { config } (.ofText text)) := rfl
  rw [log_parseText_eq]
  simp only [List.filter_append, Record.parserRecords_ofToken, Record.parserRecords,
    ← hdiagnostics]
  rfl

/-- The log of a whole parse is written while the tokens of its text are taken, up to the end. -/
theorem logged_parseText (config : Config) (text : String) :
    ∃ k m, ((Scan.ofText text).after k).token.kind = .eof ∧ k < m ∧
      Logged (fun i => ((Scan.ofText text).after i).token) 0 (parseText config text).log m := by
  let tokens (i : Nat) : Token := ((Scan.ofText text).after i).token
  let w := Window.ofSource (.ofText text)
  have hw : w.On tokens := (Window.shows_ofSource _).on rfl
  obtain ⟨hv, hlogged⟩ :=
    (StepInvariant.logged tokens (.ofText text)).program { config } maxNesting w hw
  have heof := eof_program { config } maxNesting w
  rw [hv.current] at heof
  refine ⟨_, _, heof, Nat.lt_add_of_pos_right Nat.two_pos, ?_⟩
  rw [log_parseText_eq]
  have htokens : Logged tokens 0 (Record.ofToken (tokens 0) ++ Record.ofToken (tokens 1)) 2 :=
    (Logged.token 0).append (Logged.token 1)
  have hstarts := htokens.append (Logged.record (r := .parseStarted) rfl (by simp [Record.seen?]))
  refine (hstarts.append hlogged).append (Logged.record rfl ?_)
  simp [Record.seen?]

/-- Every illegal character of a text is recorded once, in the order of the text. -/
theorem lexerRecords_parseText (config : Config) (text : String) :
    (parseText config text).log.filter (fun r => r.channel = .lexer) =
      ((tokenize text).filter fun t => t.kind = .illegal).map .illegalCharacter := by
  obtain ⟨k, m, heof, hk, hlogged⟩ := logged_parseText config text
  calc (parseText config text).log.filter (fun r => r.channel = .lexer)
    _ = ((List.range m).map fun i => ((Scan.ofText text).after i).token).flatMap
          Record.ofToken := by
        rw [hlogged.lexerRecords, Nat.sub_zero, List.range_eq_range']
    _ = (tokenize text).flatMap Record.ofToken := Scan.flatMap_ofToken_after heof hk
    _ = ((tokenize text).filter fun t => t.kind = .illegal).map .illegalCharacter :=
        Record.flatMap_ofToken _

/-- Before a record that tells how many tokens have been taken, exactly the illegal characters among
these are recorded. -/
theorem illegalCharacter_mem_before_iff {config : Config} {text : String} {i n : Nat} {t : Token}
    (ht : (tokenize text)[i]? = some t) (hkind : t.kind = .illegal) {before after : List Record}
    {r : Record} (hlog : (parseText config text).log = before ++ r :: after)
    (hr : r.seen? = some n) : .illegalCharacter t ∈ before ↔ i < n := by
  obtain ⟨k, m, -, -, hlogged⟩ := logged_parseText config text
  have htoken := Scan.token_after_of_getElem? ht
  rw [hlog] at hlogged
  rw [(hlogged.at_parserRecord hr).illegalCharacter_mem_iff]
  constructor
  · rintro ⟨-, j, -, hlt, hj⟩
    rwa [Scan.eq_of_token_after_eq (htoken.trans hj.symm) (by simp [htoken, hkind])]
  · intro hlt
    exact ⟨hkind, i, Nat.zero_le i, hlt, htoken⟩

/-- The log of a whole parse. The records of the lexer are those of the illegal characters, in
order; those of the parser are the start, the diagnostics in order, and the end. An illegal
character at position `i` is recorded before the start exactly if `i` is at most 1, and before a
diagnostic exactly if no token beyond the next one had to be taken for it: if `i` is at most the
position of a next token that is blamed, or at most one more than that of a current one. -/
theorem log_parseText (config : Config) (text : String) :
    let p := parseText config text
    let tokens := tokenize text
    let illegal := tokens.filter fun t => t.kind = .illegal
    p.log.filter (fun r => r.channel = .lexer) = illegal.map .illegalCharacter ∧
      (p.log.filter fun r => r.channel = .lexer).map Record.text = illegal.map (fun t =>
        "illegal character " ++ Text.quoted t.literal ++ " at line " ++ toString t.place.line ++
          ", col " ++ toString t.place.col) ∧
      p.log.filter (fun r => r.channel = .parser) =
        .parseStarted :: p.diagnostics.map .diagnosed ++
          [.parseFinished p.program.statements.length p.diagnostics.length] ∧
      (p.log.filter fun r => r.channel = .parser).map Record.text =
        "parse started" :: p.diagnostics.map (fun d =>
          "line " ++ toString d.place.line ++ ", col " ++ toString d.place.col ++ ": " ++
            d.message) ++
          ["parse finished: " ++ toString p.program.statements.length ++ " statement(s), " ++
            toString p.diagnostics.length ++ " diagnostic(s)"] ∧
      (∀ r ∈ p.log, r.channel = .lexer ∨ r.channel = .parser) ∧
      (∀ d ∈ p.diagnostics, d.token = ((Scan.ofText text).after d.index).token) ∧
      ∀ i t, tokens[i]? = some t → t.kind = .illegal → ∀ before r after,
        p.log = before ++ r :: after →
          (r = .parseStarted → (.illegalCharacter t ∈ before ↔ i ≤ 1)) ∧
          ∀ d, r = .diagnosed d →
            (d.spot = .current → (.illegalCharacter t ∈ before ↔ i ≤ d.index + 1)) ∧
            (d.spot = .peek → (.illegalCharacter t ∈ before ↔ i ≤ d.index)) := by
  obtain ⟨k, m, -, -, hlogged⟩ := logged_parseText config text
  refine ⟨lexerRecords_parseText config text, ?_, parserRecords_parseText config text, ?_,
    hlogged.channel, fun d hd => (fits_parseText config text d hd).1,
    fun i t ht hkind before r after hlog => ⟨?_, ?_⟩⟩
  · rw [lexerRecords_parseText, List.map_map]
    rfl
  · rw [parserRecords_parseText, List.map_append, List.map_cons, List.map_map]
    rfl
  · rintro rfl
    rw [illegalCharacter_mem_before_iff ht hkind hlog rfl]
    exact Nat.lt_succ_iff
  · rintro d rfl
    rw [illegalCharacter_mem_before_iff ht hkind hlog rfl, Diagnostic.seen]
    constructor
    · intro hspot
      rw [hspot]
      exact Nat.lt_succ_iff
    · intro hspot
      rw [hspot]
      exact Nat.lt_succ_iff

/-- The second illegal character is recorded behind the diagnostic that blames the first one as the
next token, and before the one that blames it as the current token. -/
theorem log_parseText_binding :
    let first : Token := ⟨.illegal, "@", ⟨1, 5⟩⟩
    let second : Token := ⟨.illegal, "#", ⟨1, 7⟩⟩
    let early : Diagnostic := ⟨.expected .ident, first, .peek, 1, 0⟩
    let late : Diagnostic := ⟨.noExpression, first, .current, 1, 1⟩
    (tokenize "let @ #")[2]? = some second ∧ ∃ before between after,
      (parseText {} "let @ #").log =
          before ++ .diagnosed early :: between ++ .diagnosed late :: after ∧
        .illegalCharacter second ∉ before ∧
        .illegalCharacter second ∈ before ++ .diagnosed early :: between := by
  intro first second early late
  have htokens : (tokenize "let @ #")[2]? = some second := by decide +kernel
  let before : List Record := [.illegalCharacter first, .parseStarted]
  let between : List Record := [.illegalCharacter second]
  let after : List Record :=
    [.diagnosed ⟨.noExpression, second, .current, 2, 1⟩, .parseFinished 0 3]
  have hlate : (parseText {} "let @ #").log =
      before ++ .diagnosed early :: between ++ .diagnosed late :: after := by
    decide +kernel
  have hearly : (parseText {} "let @ #").log =
      before ++ .diagnosed early :: (between ++ .diagnosed late :: after) := hlate
  obtain ⟨-, -, -, -, -, -, hbefore⟩ := log_parseText {} "let @ #"
  have hpeek := ((hbefore 2 second htokens rfl _ _ _ hearly).2 early rfl).2 rfl
  have hcurrent := ((hbefore 2 second htokens rfl _ _ _ hlate).2 late rfl).1 rfl
  refine ⟨htokens, before, between, after, hlate, fun hmem => ?_, hcurrent.2 (by decide)⟩
  exact absurd (hpeek.1 hmem) (by decide)

end MonkeyLang
