import MonkeyLang.Proofs.Accounting
import MonkeyLang.Proofs.Causality

/-!
# The tokens that a parse takes

A parse ends on an end token, and it takes few tokens behind the last one that is no end token: a
form moves on from no end token, and the loop over statements moves on from one only behind a
statement that it gives up, which can be said once of each block that is open. A block needs a level
for the expression that it is part of. Main statements: `endsWithin_expression`, by induction on the
levels, and `tokensTaken_parse`.
-/

namespace MonkeyLang

open Grammar

/-! ### Tokens taken -/

namespace Event

/-- The tokens that were taken from the source, in order. -/
def taken (trace : List Event) : List Token :=
  trace.filterMap fun
    | took t => some t
    | _ => none

@[simp] theorem taken_append (a b : List Event) : taken (a ++ b) = taken a ++ taken b :=
  List.filterMap_append

@[simp] theorem taken_nil : taken [] = [] := rfl

@[simp] theorem taken_took (t : Token) (trace : List Event) :
    taken (took t :: trace) = t :: taken trace := rfl

@[simp] theorem taken_noted (d : Diagnostic) (trace : List Event) :
    taken (noted d :: trace) = taken trace := rfl

@[simp] theorem taken_dropped (t : Token) (trace : List Event) :
    taken (dropped t :: trace) = taken trace := rfl

@[simp] theorem taken_map_nested (trace : List Event) : taken (trace.map nested) = taken trace := by
  induction trace with
  | nil => rfl
  | cons e trace ih => cases e <;> simp [nested, ih]

end Event

/-- A run takes the tokens of a sequence one after the other, and moves on by one with each. -/
theorem StepInvariant.takes (ts : Nat → Token) : StepInvariant fun w _ trace v =>
    w.On ts → v.On ts ∧
      ∃ n, v.index = w.index + n ∧ Event.taken trace = (List.range' (w.index + 2) n).map ts :=
  TraceInvariant.stepInvariant
    { stay := fun _ hw => ⟨hw, 0, rfl, rfl⟩
      advance := fun _ hw => ⟨hw.advance, 1, rfl, congrArg (fun t => [t]) (hw 2)⟩
      reject := fun _ _ _ _ hw => ⟨hw, 0, rfl, rfl⟩
      append := by
        intro w a u b v ha hb hw
        obtain ⟨hu, n, hn, ha⟩ := ha hw
        obtain ⟨hv, m, hm, hb⟩ := hb hu
        refine ⟨hv, n + m, by omega, ?_⟩
        rw [Event.taken_append, ha, hb, hn, ← List.map_append, Nat.add_right_comm,
          List.range'_append_1]
      nested := fun h hw => by simpa using h hw
      drop := fun _ h hw => by simpa using h hw }

/-! ### Behind the end -/

/-- What has been looked at is no end token, unless it is a token yet to be moved to. -/
def Sight.Inside (w : Window) : Sight → Prop
  | fresh => True
  | on k => w.current.kind = k
  | ahead => w.current.kind ≠ .eof
  | before k => w.current.kind ≠ .eof ∧ w.peek.kind = k

theorem Sight.Inside.ne_eof {w : Window} {k : Kind} (h : (on k).Inside w) (hk : k ≠ .eof) :
    w.current.kind ≠ .eof :=
  fun he => hk (h.symm.trans he)

/-- From position `n` on a sequence has only end tokens. -/
def EndsFrom (ts : Nat → Token) (n : Nat) : Prop := ∀ i, n ≤ i → (ts i).kind = .eof

variable {α β : Type} {ts : Nat → Token} {n k : Nat} {s t r : Sight} {w : Window}

theorem Window.On.lt_of_ne_end (hw : w.On ts) (h : EndsFrom ts n) (hne : w.current.kind ≠ .eof) :
    w.index < n := by
  rw [hw.current] at hne
  exact Nat.lt_of_not_le fun hle => hne (h _ hle)

/-- Along a sequence of tokens the parse comes no more than `k` positions behind position `n`,
unless it starts there, and where it succeeds the last token that it has looked at is no end token
unless it is a token yet to be moved to. -/
def Parse.EndsWithin (ts : Nat → Token) (n k : Nat) (s t : Sight) (p : Parse α) : Prop :=
  ∀ ⦃w⦄, w.On ts → s.Inside w → (p.run w).window.On ts ∧
    (p.run w).window.index ≤ max w.index (n + k) ∧
    ((p.run w).value.isSome → t.Inside (p.run w).window)

namespace Parse.EndsWithin

theorem mono {p : Parse α} (h : EndsWithin ts n k s t p) : EndsWithin ts n (k + 1) s t p := by
  intro w hw hs
  obtain ⟨hon, hindex, hinside⟩ := h hw hs
  exact ⟨hon, by omega, hinside⟩

theorem bind {p : Parse α} {f : α → Parse β} (hp : EndsWithin ts n k s t p)
    (hf : ∀ a, EndsWithin ts n k t r (f a)) : EndsWithin ts n k s r (p >>= f) := by
  intro w hw hs
  obtain ⟨hon, hindex, hinside⟩ := hp hw hs
  rw [bind_apply]
  cases ho : (p.run w).value with
  | none => exact ⟨hon, hindex, by simp⟩
  | some a =>
    obtain ⟨hon', hindex', hinside'⟩ := hf a hon (hinside (by simp [ho]))
    exact ⟨hon', by dsimp only; omega, hinside'⟩

/-- A parse that does not move, and fails or keeps in sight what was in sight. -/
theorem of_window_eq {p : Parse α} (h : ∀ w, (p.run w).window = w)
    (ht : ∀ w, s.Inside w → (p.run w).value.isSome → t.Inside w) : EndsWithin ts n k s t p := by
  intro w hw hs
  rw [h w]
  exact ⟨hw, Nat.le_max_left _ _, ht w hs⟩

/-- From a token that is no end token a parse may move on. -/
theorem advance (hn : EndsFrom ts n) (hs : ∀ w, s.Inside w → w.current.kind ≠ .eof)
    (ht : ∀ w, s.Inside w → t.Inside w.advance) : EndsWithin ts n k s t Parse.advance := by
  intro w hw hinside
  have hlt := hw.lt_of_ne_end hn (hs w hinside)
  refine ⟨hw.advance, ?_, fun _ => ht w hinside⟩
  rw [advance_apply, Window.index_advance]
  omega

theorem terminated {p : Parse α} (hn : EndsFrom ts n) (hp : EndsWithin ts n k s .ahead p) :
    EndsWithin ts n k s .ahead (Parse.terminated p) := by
  intro w hw hs
  obtain ⟨hon, hindex, hinside⟩ := hp hw hs
  rw [terminated_apply, Run.take_apply]
  split
  · next hpeek =>
    have hne : (p.run w).window.advance.current.kind ≠ .eof := by simp [hpeek]
    have hlt := hon.advance.lt_of_ne_end hn hne
    exact ⟨hon.advance, by dsimp only; omega, fun _ => hne⟩
  · exact ⟨hon, hindex, hinside⟩

/-- Behind a statement the parse moves on by one token, which may be an end token. -/
theorem round {p : Parse α} (hn : EndsFrom ts n) (hp : EndsWithin ts n k .fresh .ahead p)
    {kind : Kind} (hkind : kind ≠ .eof) :
    EndsWithin ts n (k + 1) (.on kind) .fresh (Parse.round p) := by
  intro w hw hs
  have hlt := hw.lt_of_ne_end hn (hs.ne_eof hkind)
  obtain ⟨hon, hindex, -⟩ := hp hw trivial
  rw [round_apply]
  refine ⟨hon.advance, ?_, fun _ => trivial⟩
  rw [Window.index_advance]
  omega

end Parse.EndsWithin

theorem terminatedLookahead_endsWithin (hn : EndsFrom ts n) (k : Nat) :
    TerminatedLookahead fun s t p => Parse.EndsWithin ts n k s t p where
  stay s a := Parse.EndsWithin.of_window_eq (fun _ => rfl) fun _ hs _ => hs
  andThen hp hf := hp.bind hf
  look {_ _ f} hf := by
    intro w hw hs
    exact hf w.current hw rfl
  lookAgain {_ _ _ f} hf := by
    intro w hw hs
    exact hf w.current hw hs
  lookAhead {_ _ f} hf := by
    intro w hw hs
    exact hf w.peek hw ⟨hs, rfl⟩
  moveOn := by
    apply Parse.EndsWithin.advance (s := .ahead) (t := .fresh) hn
    · intro w hs
      exact hs
    · intro w hs
      trivial
  moveOnto kind := by
    apply Parse.EndsWithin.advance (s := .before kind) (t := .on kind) hn
    · intro w hs
      exact hs.1
    · intro w hs
      exact hs.2
  rejectCurrent _ _ := Parse.EndsWithin.of_window_eq (fun _ => rfl) (by simp [Parse.reject_apply])
  rejectPeek _ _ := Parse.EndsWithin.of_window_eq (fun _ => rfl) (by simp [Parse.reject_apply])
  nested hp := hp
  cons a p hp := by
    intro w hw hs
    obtain ⟨hon, hindex, hinside⟩ := hp hw hs
    exact ⟨hon, hindex, fun h => hinside (by simpa [Parse.cons_apply] using h)⟩
  refresh hp := fun _ hw _ => hp hw trivial
  ahead hk hp := fun _ hw hs => hp hw (hs.ne_eof (Kind.ne_eof_of_not_mem_closing hk))
  before hp := fun _ hw hs => hp hw hs.1
  seen hk hp := by
    intro w hw hs
    obtain ⟨hon, hindex, hinside⟩ := hp hw hs
    exact ⟨hon, hindex, fun h => (hinside h).ne_eof (Kind.ne_eof_of_not_mem_closing hk)⟩
  seenBefore hp := by
    intro w hw hs
    obtain ⟨hon, hindex, hinside⟩ := hp hw hs
    exact ⟨hon, hindex, fun h => (hinside h).1⟩
  limit {_ _ _ q p} hq heq := by
    intro w hw hs
    rw [← heq w _ (Nat.le_refl _)]
    exact hq _ hw hs
  terminated hp := hp.terminated hn
  forget hp := by
    intro w hw hs
    obtain ⟨hon, hindex, -⟩ := hp hw hs
    exact ⟨hon, hindex, fun _ => trivial⟩
  seenAny hk hp := by
    intro w hw hs
    obtain ⟨hon, hindex, hinside⟩ := hp hw hs
    exact ⟨hon, hindex, fun h => (hinside h).ne_eof hk⟩

/-! ### Whole parses -/

section Setup

variable (hn : EndsFrom ts n) (setup : Setup)
  (hrules : ∀ k form, setup.rules.opening? k = some form → k ∉ Kind.closing)

include hn hrules

theorem endsWithin_expression (levels : Nat) (p : Precedence) :
    Parse.EndsWithin ts n levels .fresh .ahead (expression setup levels p) := by
  refine (Lookahead.expression_chain_of_levels
    (Q := fun levels => fun s t p => Parse.EndsWithin ts n levels s t p)
    (fun levels => (terminatedLookahead_endsWithin hn levels).toLookahead)
    (fun h => h.mono) setup hrules ?_ levels).1 p
  intro levels hexp
  -- a block may be left one position further on than the statements in it
  have hstatement := (terminatedLookahead_endsWithin hn levels).statement hexp
  exact (terminatedLookahead_endsWithin hn (levels + 1)).block
    (fun _ hk => hstatement.round hn hk) (StepInvariant.reads.expression setup levels)

/-- The statements of a whole program come as much further on as those of one more block. -/
theorem endsWithin_statements (levels : Nat) :
    Parse.EndsWithin ts n (levels + 1) .fresh .fresh
      (liftM (statementsUntil (· == .eof) (statement (expression setup levels))) :
        Parse (List Node)) := by
  have hexp := endsWithin_expression hn setup hrules levels
  have hstatement := (terminatedLookahead_endsWithin hn levels).statement hexp
  exact (terminatedLookahead_endsWithin hn (levels + 1)).statementsUntil
    (fun _ hk => hstatement.round hn hk) (StepInvariant.reads.expression setup levels) rfl

end Setup

/-- The loop over statements ends where it stops. -/
theorem Grammar.stop_statementsUntil {stop : Kind → Bool} {p : Parse (Option Node)}
    (hstop : stop .eof = true) (hreads : Parse.Respects (fun w _ _ v => ∃ us, w.Reads us v) p)
    (w : Window) : stop (statementsUntil stop p w).window.current.kind = true := by
  induction w using statements_induction hstop hreads with
  | stops w hw => rwa [statementsUntil_stop hw]
  | goesOn w hw ih =>
    rw [statementsUntil_next hstop hreads hw, followedBy, Parse.recover_window]
    exact ih

/-- A whole parse ends on an end token. -/
theorem Grammar.eof_program (setup : Setup) (levels : Nat) (w : Window) :
    (program setup levels w).window.current.kind = .eof := by
  have hreads := StepInvariant.reads.statement (StepInvariant.reads.expression setup levels)
  have hstop := @stop_statementsUntil (· == .eof) _ rfl hreads w
  exact beq_iff_eq.1 hstop

/-! ### Rules that are dropped -/

namespace Rules

theorem opening?_dropOpening (r : Rules) (k j : Kind) :
    (r.dropOpening j).opening? k = if k = j then none else r.opening? k := by
  obtain ⟨openings, continuations⟩ := r
  simp only [opening?, dropOpening]
  induction openings with
  | nil => simp
  | cons e openings ih =>
    rw [List.filter_cons]
    split <;> grind

/-- The rules without those by which some kinds start an expression and some continue one. -/
def without (r : Rules) (openings continuations : List Kind) : Rules :=
  continuations.foldl dropContinuation (openings.foldl dropOpening r)

theorem opening?_of_without {r : Rules} {openings continuations : List Kind} {k : Kind}
    {form : Opening} (h : (r.without openings continuations).opening? k = some form) :
    r.opening? k = some form := by
  induction openings generalizing r with
  | nil =>
    induction continuations generalizing r with
    | nil => exact h
    | cons j continuations ih => exact ih (r := r.dropContinuation j) h
  | cons j openings ih =>
    have hdrop := ih h
    rw [opening?_dropOpening] at hdrop
    split at hdrop
    · cases hdrop
    · exact hdrop

end Rules

namespace Session

/-- The session from which the rules are dropped by which some kinds start an expression and some
continue one. -/
def dropping (s : Session) (openings continuations : List Kind) : Session :=
  continuations.foldl (fun s k => (s.answer (.dropContinuation k)).2)
    (openings.foldl (fun s k => (s.answer (.dropOpening k)).2) s)

theorem dropping_start (setup : Setup) (source : Source) (openings continuations : List Kind) :
    (start setup source).dropping openings continuations =
      start { setup with rules := setup.rules.without openings continuations } source := by
  induction openings generalizing setup with
  | nil =>
    induction continuations generalizing setup with
    | nil => rfl
    | cons k continuations ih =>
      exact ih { setup with rules := setup.rules.dropContinuation k }
  | cons k openings ih => exact ih { setup with rules := setup.rules.dropOpening k }

/-- All tokens that a session takes from its source until it has parsed it: two at the start, and
one more with each move. -/
def tokensTaken (s : Session) : List Token :=
  s.window.current :: s.window.peek ::
    Event.taken (Grammar.program s.setup (maxNesting - s.depth) s.window).trace

end Session

/-- By any settings and whatever rules are dropped, parsing a list of tokens yields a program and
ends on an end token. The tokens taken are those of the list and then end tokens, and there are at
most 103 more of them than the list has. If none of the list is an end token, all of it is taken and
two more. -/
theorem tokensTaken_parse (config : Config) (openings continuations : List Kind) (ts : List Token)
    (finish : Place) :
    let s := (Session.start { config } (.tokens ts finish)).dropping openings continuations
    (∃ ns, s.parse.1 = .program ns) ∧ s.parse.2.window.current.kind = .eof ∧
      ∃ n, s.tokensTaken = (List.range n).map (fun i => ts.getD i (.endAt finish)) ∧
        n ≤ ts.length + 103 ∧ ((∀ t ∈ ts, t.kind ≠ .eof) → ts.length + 2 ≤ n) := by
  dsimp only
  rw [Session.dropping_start]
  let setup : Setup := { config, rules := ({} : Rules).without openings continuations }
  have hrules (k : Kind) (form : Opening) (h : setup.rules.opening? k = some form) :
      k ∉ Kind.closing :=
    not_mem_closing_of_opening (Rules.opening?_of_without h)
  let tokens (i : Nat) : Token := ts.getD i (.endAt finish)
  have hends : EndsFrom tokens ts.length := by
    intro i hi
    simp [tokens, List.getElem?_eq_none hi, Token.endAt]
  let w := Window.ofSource (.tokens ts finish)
  have hw : w.On tokens := Window.on_ofSource ts finish
  obtain ⟨hv, n, hindex, htaken⟩ := (StepInvariant.takes tokens).program setup maxNesting w hw
  have heof : (program setup maxNesting w).window.current.kind = .eof := by
    have hreads := StepInvariant.reads.statement (StepInvariant.reads.expression setup maxNesting)
    have hstop := @stop_statementsUntil (· == .eof) _ rfl hreads w
    exact beq_iff_eq.1 hstop
  have hstart : w.index = 0 := rfl
  rw [hstart] at hindex htaken
  refine ⟨⟨_, rfl⟩, heof, n + 2, ?_, ?_, fun hne => ?_⟩
  · have hcurrent : w.current = tokens 0 := hw.current
    have hpeek : w.peek = tokens 1 := hw.peek
    have htokens : w.current :: w.peek :: Event.taken (program setup maxNesting w).trace =
        (List.range (n + 2)).map tokens := by
      rw [htaken, hcurrent, hpeek, List.range_eq_range', List.range'_succ, List.range'_succ]
      rfl
    exact htokens
  · obtain ⟨-, hle, -⟩ := endsWithin_statements hends setup hrules maxNesting hw trivial
    have hle : (program setup maxNesting w).window.index ≤ max 0 (ts.length + (100 + 1)) := hle
    omega
  · refine Nat.add_le_add_right (Nat.le_of_not_lt fun hlt => ?_) 2
    rw [hv.current, hindex, Nat.zero_add] at heof
    refine hne ts[n] (List.getElem_mem hlt) ?_
    simpa [tokens, hlt] using heof

/-- A choice with a comparison, a call and a block, by rules that have none for numerals and for the
comparison. -/
theorem tokensTaken_parse_choice :
    let ts := (tokenize "if (a < f(1)) \x7b -b; \x7d").dropLast
    let s := (Session.start {} (.tokens ts ⟨1, 24⟩)).dropping [.int] [.lt]
    (∀ t ∈ ts, t.kind ≠ .eof) ∧ ts.length = 14 ∧ (∃ ns, s.parse.1 = .program ns) ∧
      s.parse.2.window.current.kind = .eof ∧ 16 ≤ s.tokensTaken.length ∧
      s.tokensTaken.length ≤ 117 := by
  intro ts s
  have hne : ∀ t ∈ ts, t.kind ≠ .eof := by decide +kernel
  have hlength : ts.length = 14 := by decide +kernel
  -- from here on only these two facts about the tokens matter
  clear_value ts
  obtain ⟨hprogram, heof, n, htaken, hle, hge⟩ := tokensTaken_parse {} [.int] [.lt] ts ⟨1, 24⟩
  have hn : s.tokensTaken.length = n := by rw [htaken, List.length_map, List.length_range]
  rw [hlength] at hle hge
  rw [hn]
  exact ⟨hne, hlength, hprogram, heof, hge hne, hle⟩

end MonkeyLang
