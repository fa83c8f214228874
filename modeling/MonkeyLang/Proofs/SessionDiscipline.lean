import MonkeyLang.Proofs.NestingCounter
import MonkeyLang.Proofs.TokensTaken

/-!
# What a session keeps

However a session is used, its counter of levels holds what was taken from outside, problems are
only added, and the window moves forward along the tokens. Here the counter is one that the forms
themselves raise and set back; by `Session.answerCounted_eq` the answers are those of the session
that hands its levels down. Main statement: `session_keeps_discipline`, from what one use keeps
(`Session.keeps_use`) by induction on the uses before.
-/

namespace MonkeyLang

open Grammar

/-- What can be done with a session: a call, or saying something of a token that need not be in
view. -/
inductive Use where
  | call (c : Call)
  | remark (text : String) (token : Token)
  | noteNoExpression (token : Token)
  | enterNesting (token : Token)

namespace Use

/-- Whether a level is taken for good. -/
def entersNesting : Use → Bool
  | call .enterNesting | enterNesting _ => true
  | _ => false

end Use

/-- The diagnostic with its depth counted from a count of levels. -/
def Diagnostic.lowered (k : Nat) (d : Diagnostic) : Diagnostic := { d with depth := d.depth - k }

/-- The event with its depth counted from a count of levels. -/
def Event.lowered (k : Nat) : Event → Event
  | noted d => noted (d.lowered k)
  | e => e

theorem Event.lowered_raised (k : Nat) (e : Event) : (e.raised k).lowered k = e := by
  cases e <;> simp [raised, lowered, Diagnostic.raised, Diagnostic.lowered]

namespace Session

/-! ### Sessions with a counter -/

/-- Performs a run that begins with the session's count, and keeps the count that it ends with. -/
def performCounted {α : Type} (s : Session) (x : CountedRun α) : α × Session :=
  let o := x s.depth s.window
  let (a, t) := s.perform fun _ => ⟨o.value.1, o.window, o.trace.map (Event.lowered s.depth)⟩
  (a, { t with depth := o.value.2 })

/-- The operands that forms may use. The counter alone says how deep they may go. -/
def countedOperand (s : Session) : Counting.Operand :=
  Counting.expression s.setup (maxNesting + 1)

def useForm (s : Session) (q : CountedParse Node) : Reply × Session :=
  let (n, t) := s.performCounted q.run
  (.node n, t)

def useForms (s : Session) (q : CountedParse (List Node)) : Reply × Session :=
  let (ns, t) := s.performCounted q.run
  (.nodes ns, t)

/-- Performs one call. The calls that are left to the last case parse no expression. -/
def answerCounted (s : Session) : Call → Reply × Session
  | .program =>
    let (program, t) :=
      (s.record .parseStarted).performCounted (Counting.program s.countedOperand)
    (.node (some program),
      t.record (.parseFinished program.statements.length t.diagnostics.length))
  | .statement =>
    let (found, t) := s.performCounted (Counting.statement s.countedOperand).run
    (.node found.join, t)
  | .letStatement => s.useForm (Counting.letStatement s.countedOperand)
  | .returnStatement => s.useForm (Counting.returnStatement s.countedOperand)
  | .expressionStatement => s.useForm (Counting.expressionStatement s.countedOperand)
  | .block => s.useForm (Counting.block s.countedOperand)
  | .expression p => s.useForm (s.countedOperand p)
  | .opening form => s.useForm (Counting.opening s.setup.config s.countedOperand form)
  | .binary left => s.useForm (Counting.binary s.countedOperand left)
  | .call callee => s.useForm (Counting.call s.countedOperand callee)
  | .arguments close => s.useForms (Counting.arguments s.countedOperand close)
  | c => s.answer c

/-- Notes a problem of any token. -/
def noteOn (s : Session) (token : Token) (problem : Problem) : Session :=
  (s.perform fun w => ⟨(), w, [.noted ⟨problem, token, .current, w.index, 0⟩]⟩).2

/-- Puts a session to a use. -/
def use (s : Session) : Use → Reply × Session
  | .call c => s.answerCounted c
  | .remark text token => (.done, s.noteOn token (.remark text))
  | .noteNoExpression token => (.done, s.noteOn token .noExpression)
  | .enterNesting token =>
    let t := { s with depth := s.depth + 1 }
    if t.depth ≤ maxNesting then
      (.truth true, t)
    else
      (.truth false, t.noteOn token .nestedTooDeep)

/-- The session after some uses. -/
def useAll (s : Session) (us : List Use) : Session :=
  us.foldl (fun s u => (s.use u).2) s

/-! ### The counter and the levels that are handed down -/

section Counter

variable {α : Type} {s : Session}

theorem performCounted_eq {x : Run α} {y : CountedRun α} (h : x.CountsAs s.depth y) :
    s.performCounted y = s.perform x := by
  have hlowered (trace : List Event) :
      (trace.map (Event.raised s.depth)).map (Event.lowered s.depth) = trace := by
    simp [Event.lowered_raised, Function.comp_def]
  simp only [performCounted, h s.window, Outcome.counted, hlowered, perform]

theorem operand_countsAs (s : Session) (p : Precedence) :
    (s.operand p).CountsAs s.depth (s.countedOperand p) :=
  (expression_chain_countsAs s.setup (maxNesting + 1)).1 s.depth p (by omega) (by omega)

/-- A session with a real counter answers as the session does. -/
theorem answerCounted_eq (s : Session) (c : Call) : s.answerCounted c = s.answer c := by
  have hop := s.operand_countsAs
  have hform {p : Parse Node} {q : CountedParse Node} (h : p.CountsAs s.depth q) :
      s.useForm q = s.parseForm p := by
    rw [useForm, parseForm, performCounted_eq h]
  cases c with
  | program =>
    have hprogram : (Grammar.program s.setup (maxNesting - s.depth)).CountsAs s.depth
        (Counting.program s.countedOperand) :=
      .bind (statementsUntil_countsAs (statement_countsAs hop) _) fun _ => .pure _
    rw [answerCounted, performCounted_eq (s := s.record .parseStarted) hprogram]
    rfl
  | statement =>
    rw [answerCounted, performCounted_eq (statement_countsAs hop)]
    rfl
  | letStatement => exact hform (letStatement_countsAs hop)
  | returnStatement => exact hform (returnStatement_countsAs hop)
  | expressionStatement => exact hform (expressionStatement_countsAs hop)
  | block => exact hform (block_countsAs hop)
  | expression p => exact hform (hop p)
  | opening form => exact hform (opening_countsAs hop _ form)
  | binary left => exact hform (binary_countsAs hop left)
  | call callee => exact hform (call_countsAs hop callee)
  | arguments close =>
    rw [answerCounted, useForms, performCounted_eq (arguments_countsAs hop close)]
    rfl
  | _ => rfl

end Counter

/-! ### What one use keeps -/

/-- Problems are only added, and the window moves forward along a sequence of tokens. -/
structure Continues (ts : Nat → Token) (s t : Session) : Prop where
  diagnostics : s.diagnostics <+: t.diagnostics
  index : s.window.index ≤ t.window.index
  on : t.window.On ts

section Continues

variable {ts : Nat → Token} {s : Session} {α : Type}

theorem continues_of_window_eq {t : Session} (hw : s.window.On ts) (h : t.window = s.window)
    (hdiagnostics : s.diagnostics <+: t.diagnostics) : Continues ts s t :=
  ⟨hdiagnostics, Nat.le_of_eq (congrArg Window.index h.symm), h ▸ hw⟩

theorem continues_run {x : Run α} (hx : ∀ {I}, StepInvariant I → Run.Respects I x)
    (hw : s.window.On ts) : Continues ts s (s.perform x).2 := by
  obtain ⟨hon, n, hindex, -⟩ := hx (StepInvariant.takes ts) s.window hw
  exact ⟨List.prefix_append _ _, Nat.le.intro hindex.symm, hon⟩

theorem continues_parse {p : Parse α} (hp : ∀ {I}, StepInvariant I → Parse.Respects I p)
    (hw : s.window.On ts) : Continues ts s (s.perform p.run).2 := by
  obtain ⟨hon, n, hindex, -⟩ := hp (StepInvariant.takes ts) s.window hw
  exact ⟨List.prefix_append _ _, Nat.le.intro hindex.symm, hon⟩

/-- A parse that is put together from single steps and fails adds a problem. -/
theorem length_lt_of_perform {p : Parse α}
    (hp : ∀ {I}, StepInvariant I → Parse.Respects I p) (h : (s.perform p.run).1 = none) :
    s.diagnostics.length < (s.perform p.run).2.diagnostics.length := by
  have hvalue : (p.run s.window).value = none := h
  have hloud := hp StepInvariant.loud s.window (Option.isNone_iff_eq_none.2 hvalue)
  have hpos := List.length_pos_iff.2 hloud
  simp only [perform, List.length_append]
  omega

end Continues

end Session

/-- Only a semicolon is a statement without a node. -/
theorem Grammar.value_statement_eq_none {operand : Operand} {w : Window}
    (hw : w.current.kind ≠ .semicolon)
    (h : ((statement operand).run w).value.join = none) :
    ((statement operand).run w).value = none := by
  cases hvalue : ((statement operand).run w).value with
  | none => rfl
  | some found =>
    have hleads : (statement operand).Leads Anyhow w found _ := ⟨hvalue, rfl, trivial⟩
    rw [leads_statement, if_neg hw] at hleads
    obtain ⟨n, rfl, -⟩ := hleads
    simp [hvalue] at h

/-- A reply that holds no node where one was asked for. -/
def Reply.Fails : Reply → Prop
  | .node none | .nodes none => True
  | _ => False

instance : DecidablePred Reply.Fails
  | .node none | .nodes none => .isTrue trivial
  | .node (some _) | .nodes (some _) | .done | .truth _ | .precedence _ | .messages _
  | .diagnostics _ => .isFalse id

theorem Reply.fails_node (n : Option Node) : (node n).Fails ↔ n = none := by
  cases n <;> simp [Fails]

theorem Reply.fails_nodes (ns : Option (List Node)) : (nodes ns).Fails ↔ ns = none := by
  cases ns <;> simp [Fails]

/-- What a use of a session keeps along a sequence of tokens, and what it does if it yields no node.
A semicolon is a statement without a node. -/
structure Use.Keeps (ts : Nat → Token) (s : Session) (u : Use) (r : Reply × Session) : Prop where
  depth : r.2.depth = s.depth + u.entersNesting.toNat
  continues : s.Continues ts r.2
  loud : r.1.Fails → (u ≠ .call .statement ∨ s.window.current.kind ≠ .semicolon) →
    s.diagnostics.length < r.2.diagnostics.length

namespace Session

section Keeps

variable {ts : Nat → Token} {s : Session} (hw : s.window.On ts)

include hw

theorem keeps_parseForm {p : Parse Node} (hp : ∀ {I}, StepInvariant I → Parse.Respects I p)
    {u : Use} (hu : u.entersNesting = false) : u.Keeps ts s (s.parseForm p) where
  depth := by simp [hu, parseForm, perform]
  continues := continues_parse hp hw
  loud h _ := length_lt_of_perform hp ((Reply.fails_node _).1 h)

theorem keeps_parseForms {p : Parse (List Node)}
    (hp : ∀ {I}, StepInvariant I → Parse.Respects I p) {u : Use} (hu : u.entersNesting = false) :
    u.Keeps ts s (s.parseForms p) where
  depth := by simp [hu, parseForms, perform]
  continues := continues_parse hp hw
  loud h _ := length_lt_of_perform hp ((Reply.fails_nodes _).1 h)

omit hw in
/-- A reply of another sort is no failure. -/
theorem keeps_of_continues {u : Use} {r : Reply × Session}
    (hdepth : r.2.depth = s.depth + u.entersNesting.toNat) (h : s.Continues ts r.2)
    (hr : ¬ r.1.Fails) : u.Keeps ts s r :=
  ⟨hdepth, h, fun hfails => absurd hfails hr⟩

theorem keeps_answer (c : Call) : (Use.call c).Keeps ts s (s.answer c) := by
  have hop (p : Precedence) {I} (hI : StepInvariant I) : Parse.Respects I (s.operand p) :=
    hI.expression s.setup _ p
  cases c with
  | letStatement => exact keeps_parseForm hw (fun hI => hI.letStatement (hop · hI)) rfl
  | returnStatement => exact keeps_parseForm hw (fun hI => hI.returnStatement (hop · hI)) rfl
  | expressionStatement =>
    exact keeps_parseForm hw (fun hI => hI.expressionStatement (hop · hI)) rfl
  | block => exact keeps_parseForm hw (fun hI => hI.block (hop · hI)) rfl
  | expression p => exact keeps_parseForm hw (hop p) rfl
  | opening form => exact keeps_parseForm hw (fun hI => hI.opening (hop · hI) _ form) rfl
  | binary left => exact keeps_parseForm hw (fun hI => hI.continuation (hop · hI) left .binary) rfl
  | call callee => exact keeps_parseForm hw (fun hI => hI.continuation (hop · hI) callee .call) rfl
  | parameters => exact keeps_parseForms hw (fun hI => hI.parameters) rfl
  | arguments close =>
    refine keeps_parseForms hw (fun {I} hI => ?_) rfl
    exact hI.commaList (hI.parse_bind hI.parse_advance fun _ => hop .lowest hI) close
  | statement =>
    have hp {I} (hI : StepInvariant I) : Parse.Respects I (Grammar.statement s.operand) :=
      hI.statement (hop · hI)
    refine ⟨rfl, continues_parse hp hw, fun hfails hne => ?_⟩
    have hjoin : ((Grammar.statement s.operand).run s.window).value.join = none :=
      (Reply.fails_node _).1 hfails
    have hsemicolon := hne.resolve_left (absurd rfl)
    exact length_lt_of_perform hp (value_statement_eq_none hsemicolon hjoin)
  | program =>
    have hprogram {I} (hI : StepInvariant I) :
        Run.Respects I (Grammar.program s.setup (maxNesting - s.depth)) :=
      hI.program _ _
    obtain ⟨hdiagnostics, hindex, hon⟩ := continues_run (s := s.record .parseStarted) hprogram hw
    exact keeps_of_continues rfl ⟨hdiagnostics, hindex, hon⟩ id
  | enterNesting =>
    simp only [answer]
    split
    · exact keeps_of_continues rfl (continues_of_window_eq hw rfl List.prefix_rfl) id
    · exact keeps_of_continues rfl (continues_of_window_eq hw rfl (List.prefix_append _ _)) id
  | advance => exact keeps_of_continues rfl (continues_run (fun hI => hI.run_advance) hw) id
  | expect kind => exact keeps_of_continues rfl (continues_parse (fun hI => hI.expect kind) hw) id
  | notePeek _ | noteNoExpression | remark _ =>
    exact keeps_of_continues rfl (continues_of_window_eq hw rfl (List.prefix_append _ _)) id
  | currentIs _ | peekIs _ | currentPrecedence | peekPrecedence | messages | diagnostics
  | dropOpening _ | dropContinuation _ =>
    exact keeps_of_continues rfl (continues_of_window_eq hw rfl List.prefix_rfl) id

/-- Every use keeps what it should, whatever the session. -/
theorem keeps_use (u : Use) : u.Keeps ts s (s.use u) := by
  cases u with
  | call c =>
    rw [use, answerCounted_eq]
    exact keeps_answer hw c
  | remark _ _ | noteNoExpression _ =>
    exact keeps_of_continues rfl (continues_of_window_eq hw rfl (List.prefix_append _ _)) id
  | enterNesting token =>
    simp only [use]
    split
    · exact keeps_of_continues rfl (continues_of_window_eq hw rfl List.prefix_rfl) id
    · exact keeps_of_continues rfl (continues_of_window_eq hw rfl (List.prefix_append _ _)) id

end Keeps

/-! ### What any number of uses keeps -/

theorem useAll_keeps {ts : Nat → Token} {s : Session} (hw : s.window.On ts) (us : List Use) :
    (s.useAll us).window.On ts ∧
      (s.useAll us).depth = s.depth + us.countP Use.entersNesting := by
  induction us generalizing s with
  | nil => exact ⟨hw, rfl⟩
  | cons u us ih =>
    have hkeeps := keeps_use hw u
    obtain ⟨hon, hdepth⟩ := ih hkeeps.continues.on
    refine ⟨hon, ?_⟩
    rw [useAll, List.foldl_cons, ← useAll, hdepth, hkeeps.depth, List.countP_cons]
    cases u.entersNesting <;> simp [Nat.add_comm, Nat.add_left_comm]

end Session

/-- Whatever is done with a session on a list of tokens, each use leaves the counter at the number
of levels that were taken for good, adds to the diagnostics and takes none away, and leaves the
window on two tokens next to each other, not before those that it was on. A form that yields no node
adds a diagnostic, unless it is the statement at a semicolon. The counter is really raised and set
back by the forms: the session that hands the levels down answers the same. -/
theorem session_keeps_discipline (setup : Setup) (ts : List Token) (finish : Place)
    (before : List Use) (u : Use) :
    let s := (Session.start setup (.tokens ts finish)).useAll before
    let r := s.use u
    r.2.depth = (before ++ [u]).countP Use.entersNesting ∧
      s.diagnostics <+: r.2.diagnostics ∧
      s.window.index ≤ r.2.window.index ∧
      r.2.window.current = ts.getD r.2.window.index (.endAt finish) ∧
      r.2.window.peek = ts.getD (r.2.window.index + 1) (.endAt finish) ∧
      (r.1.Fails → (u ≠ .call .statement ∨ s.window.current.kind ≠ .semicolon) →
        s.diagnostics.length < r.2.diagnostics.length) ∧
      ∀ (s : Session) (c : Call), s.use (.call c) = s.answer c := by
  intro s r
  have hstart : (Session.start setup (.tokens ts finish)).window.On
      fun i => ts.getD i (.endAt finish) :=
    Window.on_ofSource ts finish
  obtain ⟨hon, hdepth⟩ := Session.useAll_keeps hstart before
  obtain ⟨hr, ⟨hdiagnostics, hindex, hon'⟩, hloud⟩ := Session.keeps_use hon u
  refine ⟨?_, hdiagnostics, hindex, hon'.current, hon'.peek, hloud,
    Session.answerCounted_eq⟩
  have hzero : (Session.start setup (.tokens ts finish)).depth = 0 := rfl
  rw [hr, hdepth, hzero, List.countP_append, List.countP_singleton]
  cases u.entersNesting <;> simp

/-- A group at a parenthesis that nothing follows, with two levels taken for good. -/
theorem session_keeps_discipline_group :
    let before : List Use := [.enterNesting ⟨.int, "1", ⟨7, 7⟩⟩, .call .enterNesting]
    let s := (Session.start {} (.tokens [⟨.lparen, "(", ⟨1, 1⟩⟩] ⟨1, 2⟩)).useAll before
    let r := s.use (.call (.opening .group))
    r.1.Fails ∧ r.2.depth = 2 ∧ s.diagnostics.length < r.2.diagnostics.length ∧
      r.2.window.current = .endAt ⟨1, 2⟩ := by
  intro before s r
  have hfails : r.1.Fails := by decide +kernel
  have hindex : r.2.window.index = 1 := by decide +kernel
  obtain ⟨hdepth, -, -, hcurrent, -, hloud, -⟩ :=
    session_keeps_discipline {} [⟨.lparen, "(", ⟨1, 1⟩⟩] ⟨1, 2⟩ before (.call (.opening .group))
  refine ⟨hfails, hdepth, hloud hfails (.inl nofun), ?_⟩
  rw [hcurrent, hindex]
  rfl

end MonkeyLang
