import MonkeyLang.Proofs.RenderedText
import MonkeyLang.Proofs.Reparse

/-!
# Renderings are read in one way

The lexemes of an expression, in front of lexemes that do not go on with it, are the lexemes of no
other expression. An expression is taken apart into the calls around it and the expression that is
called in the end, which its first lexeme or, behind an opening parenthesis, its second tells apart
from all others. Nothing is parsed, so no tree nests too deep and no numeral is too long. Main
statements: `Spelled.Expression.cancelsCalled` and `render_eq_iff`.
-/

namespace MonkeyLang

open Node Text

/-- The lexemes do not begin with one of some kinds. -/
def Avoids (ks : List Kind) (ls : List Lexeme) : Prop := ∀ l ∈ ls.head?, l.kind ∉ ks

theorem avoids_nil (ks : List Kind) : Avoids ks [] := by simp [Avoids]

@[simp] theorem avoids_cons {ks : List Kind} {l : Lexeme} {ls : List Lexeme} :
    Avoids ks (l :: ls) ↔ l.kind ∉ ks := by simp [Avoids]

theorem Avoids.mono {js ks : List Kind} {ls : List Lexeme} (h : Avoids ks ls) (hsub : js ⊆ ks) :
    Avoids js ls := fun l hl hmem => h l hl (hsub hmem)

namespace Node

/-- Among some trees, and in front of lexemes that may follow, only this tree has its lexemes. -/
def Cancels (among : Node → Prop) (before : Node → List Lexeme → Prop) (n : Node) : Prop :=
  ∀ m ls ls', among m → before n ls → before m ls' → n.lexemes ++ ls = m.lexemes ++ ls' →
    n.unplaced = m.unplaced ∧ ls = ls'

/-- The lexemes of some calls, each of the result of the one before. -/
def lexemesCalls (calls : List (List Node)) : List Lexeme :=
  calls.flatMap fun ns => Kind.lparen.lexeme :: lexemesCommas ns ++ [Kind.rparen.lexeme]

/-- The tree of some calls, each of the result of the one before, without places. -/
def applied (callee : Node) (calls : List (List Node)) : Node :=
  calls.foldl (fun n ns => call ⟨.lparen, "(", ⟨0, 0⟩⟩ n (unplacedList ns)) callee

end Node

theorem Token.Spells.unplaced {t : Token} {k : Kind} (h : t.Spells k) :
    t.unplaced = ⟨k, k.spelling, ⟨0, 0⟩⟩ := by
  rw [Token.unplaced, h.1, h.2]

namespace Spelled

/-- An expression that is no call, and the kind of its first lexeme. -/
inductive Callee (standsFor : String → Int → Prop) : Kind → Node → Prop
  | name {t} : t.kind = .ident → Callee standsFor .ident (.identifier t t.literal)
  | numeral {t v} : t.kind = .int → standsFor t.literal v → Callee standsFor .int (.integer t v)
  | yes {t} : t.Spells .trueWord → Callee standsFor .trueWord (.boolean t true)
  | no {t} : t.Spells .falseWord → Callee standsFor .falseWord (.boolean t false)
  | unary {t e} {k : Kind} : k = .bang ∨ k = .minus → t.Spells k → Expression standsFor e →
    Callee standsFor .lparen (.unary t t.literal e)
  | binary {t l r} {s : Stratum} {k : Kind} : k ∈ s.operators → t.Spells k →
    Expression standsFor l → Expression standsFor r →
    Callee standsFor .lparen (.binary t l t.literal r)
  | conditional {t e b a} : t.Spells .ifWord → Expression standsFor e → Block standsFor b →
    (∀ n ∈ a, Block standsFor n) → Callee standsFor .ifWord (.conditional t e b a)
  | function {t ps b} : t.Spells .function → (∀ p ∈ ps, WellFormed.Name p) → Block standsFor b →
    Callee standsFor .function (.function t ps b)

/-- The lexemes do not go on with an expression. -/
abbrev EndsExpression (ls : List Lexeme) : Prop := Avoids [.lparen, .elseWord] ls

/-- Only the expression has its lexemes, in front of lexemes that do not go on with it. -/
abbrev CancelsExpression : Node → Prop :=
  Cancels (Expression IsDecimal) fun _ => EndsExpression

/-- Only the callee has its lexemes, in front of a call, too, but not of an alternative. -/
abbrev CancelsCallee (k : Kind) : Node → Prop :=
  Cancels (Callee IsDecimal k) fun _ => Avoids [.elseWord]

/-- Only the block has its lexemes, in front of any others: its braces end it. -/
abbrev CancelsBlock : Node → Prop := Cancels (Block IsDecimal) fun _ _ => True

/-- Only the statement has its lexemes. A semicolon ends it, unless it is just an expression. -/
abbrev CancelsStatement : Node → Prop :=
  Cancels (Statement IsDecimal) fun n ls => n.isExpressionStatement = true → EndsExpression ls

/-! ### Callees -/

section

variable {standsFor : String → Int → Prop}

theorem Callee.lexemes_head {k : Kind} {n : Node} (h : Callee standsFor k n) :
    ∃ l ls, n.lexemes = l :: ls ∧ l.kind = k := by
  cases h with
  | name ht | numeral ht _ => exact ⟨_, _, by rw [lexemes], ht⟩
  | yes ht | no ht => exact ⟨_, _, by rw [lexemes], ht.1⟩
  | conditional ht _ _ _ | function ht _ _ => exact ⟨_, _, by rw [lexemes]; rfl, ht.1⟩
  | unary _ _ _ | binary _ _ _ _ => exact ⟨_, _, by rw [lexemes]; rfl, rfl⟩

/-- The expression is made of a callee and some calls, each of the result of the one before. -/
def IsApplied (standsFor : String → Int → Prop) (n : Node) : Prop :=
  ∃ k m calls, Callee standsFor k m ∧ (∀ ns ∈ calls, ∀ n ∈ ns, Expression standsFor n) ∧
    n.lexemes = m.lexemes ++ lexemesCalls calls ∧ n.unplaced = applied m.unplaced calls

theorem Callee.isApplied {k : Kind} {n : Node} (h : Callee standsFor k n) :
    IsApplied standsFor n :=
  ⟨k, n, [], h, by simp, by simp [lexemesCalls], rfl⟩

theorem isApplied_of_name {n : Node} (h : WellFormed.Name n) : IsApplied standsFor n := by
  obtain ⟨ht, -⟩ := h
  exact (Callee.name ht).isApplied

theorem Expression.isApplied {n : Node} (h : Expression standsFor n) :
    IsApplied standsFor n := by
  cases h with
  | name hn => exact isApplied_of_name hn
  | numeral ht _ hv => exact (Callee.numeral ht hv).isApplied
  | yes ht => exact (Callee.yes ht).isApplied
  | no ht => exact (Callee.no ht).isApplied
  | unary hk ht he => exact (Callee.unary hk ht he).isApplied
  | binary hk ht hl hr => exact (Callee.binary hk ht hl hr).isApplied
  | choice ht he hb => exact (Callee.conditional ht he hb (by simp)).isApplied
  | alternative ht he hb ha =>
    exact (Callee.conditional ht he hb (by simpa using ha)).isApplied
  | function ht hps hb => exact (Callee.function ht hps hb).isApplied
  | @call _ _ ns ht he hns =>
    obtain ⟨k, m, calls, hm, hcalls, hlexemes, hunplaced⟩ := he.isApplied
    refine ⟨k, m, calls ++ [ns], hm, ?_, ?_, ?_⟩
    · intro ns' hns'
      rcases List.mem_append.1 hns' with hns' | hns'
      · exact hcalls ns' hns'
      · rwa [List.mem_singleton.1 hns']
    · rw [lexemes, hlexemes, ht.lexeme]
      simp [lexemesCalls]
    · rw [unplaced, hunplaced, ht.unplaced, applied, applied, List.foldl_append]
      rfl

theorem Expression.lexemes_ne {n : Node} (h : Expression standsFor n) {k : Kind}
    (hk : k ∉ startKinds) {ls ls' : List Lexeme} : n.lexemes ++ ls ≠ k.lexeme :: ls' := by
  obtain ⟨l, more, hl, hkind⟩ := h.lexemes_head
  rw [hl]
  intro heq
  rw [(List.cons.inj heq).1] at hkind
  exact hk hkind

end

/-- In front of the same lexeme an expression cancels together with it. -/
theorem CancelsExpression.before {n m : Node} (hn : CancelsExpression n)
    (hm : Expression IsDecimal m) {k : Kind} (hk : k ∉ [Kind.lparen, .elseWord])
    {ls ls' : List Lexeme} (h : n.lexemes ++ k.lexeme :: ls = m.lexemes ++ k.lexeme :: ls') :
    n.unplaced = m.unplaced ∧ ls = ls' := by
  obtain ⟨hunplaced, hls⟩ := hn _ _ _ hm (avoids_cons.2 hk) (avoids_cons.2 hk) h
  exact ⟨hunplaced, (List.cons.inj hls).2⟩

/-! ### Sequences -/

theorem endsExpression_more (ns : List Node) (ls : List Lexeme) :
    EndsExpression
      ((ns.flatMap fun m => Kind.comma.lexeme :: m.lexemes) ++ Kind.rparen.lexeme :: ls) := by
  cases ns with
  | nil => exact avoids_cons.2 (by decide)
  | cons n ns => exact avoids_cons.2 (by decide)

theorem cancel_more {ns ms : List Node}
    (hns : ∀ n ∈ ns, CancelsExpression n) (hms : ∀ m ∈ ms, Expression IsDecimal m)
    {ls ls' : List Lexeme}
    (h : (ns.flatMap fun n => Kind.comma.lexeme :: n.lexemes) ++ Kind.rparen.lexeme :: ls =
      (ms.flatMap fun m => Kind.comma.lexeme :: m.lexemes) ++ Kind.rparen.lexeme :: ls') :
    unplacedList ns = unplacedList ms ∧ ls = ls' := by
  induction ns generalizing ms with
  | nil =>
    cases ms with
    | nil => exact ⟨rfl, (List.cons.inj h).2⟩
    | cons m ms => exact absurd (List.cons.inj h).1 (by decide)
  | cons n ns ih =>
    cases ms with
    | nil => exact absurd (List.cons.inj h).1 (by decide)
    | cons m ms =>
      simp only [List.flatMap_cons, List.cons_append, List.append_assoc, List.cons.injEq,
        true_and] at h
      obtain ⟨hn, hrest⟩ := hns n List.mem_cons_self m _ _ (hms m List.mem_cons_self)
        (endsExpression_more ns ls) (endsExpression_more ms ls') h
      obtain ⟨hmore, hls⟩ := ih (fun x hx => hns x (List.mem_cons_of_mem _ hx))
        (fun x hx => hms x (List.mem_cons_of_mem _ hx)) hrest
      exact ⟨by rw [unplacedList, unplacedList, hn, hmore], hls⟩

theorem cancel_commas {ns ms : List Node}
    (hns : ∀ n ∈ ns, Expression IsDecimal n ∧ CancelsExpression n)
    (hms : ∀ m ∈ ms, Expression IsDecimal m) {ls ls' : List Lexeme}
    (h : lexemesCommas ns ++ Kind.rparen.lexeme :: ls =
      lexemesCommas ms ++ Kind.rparen.lexeme :: ls') :
    unplacedList ns = unplacedList ms ∧ ls = ls' := by
  cases ns with
  | nil =>
    cases ms with
    | nil => exact ⟨rfl, (List.cons.inj h).2⟩
    | cons m ms =>
      rw [lexemesCommas_cons, List.append_assoc] at h
      exact absurd h.symm ((hms m List.mem_cons_self).lexemes_ne (by decide))
  | cons n ns =>
    cases ms with
    | nil =>
      rw [lexemesCommas_cons, List.append_assoc] at h
      exact absurd h ((hns n List.mem_cons_self).1.lexemes_ne (by decide))
    | cons m ms =>
      rw [lexemesCommas_cons, lexemesCommas_cons] at h
      exact cancel_more (fun x hx => (hns x hx).2) hms (congrArg (Kind.comma.lexeme :: ·) h)

theorem cancel_calls {calls calls' : List (List Node)}
    (hcalls : ∀ ns ∈ calls, ∀ n ∈ ns, Expression IsDecimal n ∧ CancelsExpression n)
    (hcalls' : ∀ ms ∈ calls', ∀ m ∈ ms, Expression IsDecimal m) {ls ls' : List Lexeme}
    (hls : EndsExpression ls) (hls' : EndsExpression ls')
    (h : lexemesCalls calls ++ ls = lexemesCalls calls' ++ ls') (callee : Node) :
    applied callee calls = applied callee calls' ∧ ls = ls' := by
  induction calls generalizing calls' callee with
  | nil =>
    cases calls' with
    | nil => exact ⟨rfl, h⟩
    | cons ms calls' =>
      obtain rfl : ls = _ := h
      exact absurd hls (by simp [lexemesCalls, Kind.lexeme])
  | cons ns calls ih =>
    cases calls' with
    | nil =>
      obtain rfl : _ = ls' := h
      exact absurd hls' (by simp [lexemesCalls, Kind.lexeme])
    | cons ms calls' =>
      simp only [lexemesCalls, List.flatMap_cons, List.cons_append, List.append_assoc,
        List.nil_append, List.cons.injEq, true_and] at h
      obtain ⟨hargs, hrest⟩ := cancel_commas (hcalls ns List.mem_cons_self)
        (hcalls' ms List.mem_cons_self) h
      have hmore := ih (fun x hx => hcalls x (List.mem_cons_of_mem _ hx))
        (fun x hx => hcalls' x (List.mem_cons_of_mem _ hx)) hrest
        (call ⟨.lparen, "(", ⟨0, 0⟩⟩ callee (unplacedList ns))
      rw [applied, applied, List.foldl_cons, List.foldl_cons, ← hargs]
      exact hmore

/-- The kinds of the lexemes with which a sequence of statements goes on. -/
def statementKinds : List Kind := .semicolon :: .letWord :: .returnWord :: startKinds

/-- The lexemes end a sequence of statements. -/
abbrev EndsStatements (ls : List Lexeme) : Prop := Avoids (.elseWord :: statementKinds) ls

/-- The lexemes of the statements that follow another one, which was just an expression or not. -/
def lexemesAfter (afterExpression : Bool) : List Node → List Lexeme
  | [] => []
  | n :: ns => (if afterExpression then [Kind.semicolon.lexeme] else []) ++ n.lexemes ++
      lexemesAfter n.isExpressionStatement ns

theorem lexemesList_eq (ns : List Node) : lexemesList ns = lexemesAfter false ns := by
  induction ns with
  | nil => rfl
  | cons n ns ih =>
    cases ns with
    | nil => simp [lexemesList, lexemesAfter]
    | cons m ns => simp [lexemesList, ih, lexemesAfter]

theorem Statement.lexemes_head {n : Node} (h : Statement IsDecimal n) :
    ∃ l ls, n.lexemes = l :: ls ∧ l.kind ∈ statementKinds := by
  cases h with
  | binding ht _ _ | result ht _ =>
    rw [lexemes]
    exact ⟨_, _, rfl, by rw [ht.lexeme]; decide⟩
  | expression he =>
    obtain ⟨l, ls, hls, hl⟩ := he.lexemes_head
    exact ⟨l, ls, by rw [lexemes, hls], by simp [statementKinds, hl]⟩

theorem not_endsStatements_after {b : Bool} {n : Node} (h : Statement IsDecimal n) (ns : List Node)
    (ls : List Lexeme) : ¬ EndsStatements (lexemesAfter b (n :: ns) ++ ls) := by
  obtain ⟨l, more, hl, hkind⟩ := h.lexemes_head
  cases b with
  | true => simp [lexemesAfter, statementKinds, Kind.lexeme]
  | false => simp [lexemesAfter, hl, hkind]

theorem endsExpression_after {ns : List Node} {ls : List Lexeme} (hls : EndsStatements ls) :
    EndsExpression (lexemesAfter true ns ++ ls) := by
  cases ns with
  | nil => exact hls.mono (by decide)
  | cons n ns => exact avoids_cons.2 (by decide)

theorem cancel_after {b : Bool} {ns ms : List Node}
    (hns : ∀ n ∈ ns, Statement IsDecimal n ∧ CancelsStatement n)
    (hms : ∀ m ∈ ms, Statement IsDecimal m) {ls ls' : List Lexeme} (hls : EndsStatements ls)
    (hls' : EndsStatements ls') (h : lexemesAfter b ns ++ ls = lexemesAfter b ms ++ ls') :
    unplacedList ns = unplacedList ms ∧ ls = ls' := by
  induction ns generalizing b ms with
  | nil =>
    cases ms with
    | nil => exact ⟨rfl, h⟩
    | cons m ms =>
      obtain rfl : ls = _ := h
      exact absurd hls (not_endsStatements_after (hms m List.mem_cons_self) ms ls')
  | cons n ns ih =>
    obtain ⟨hn, hcancels⟩ := hns n List.mem_cons_self
    cases ms with
    | nil =>
      obtain rfl : _ = ls' := h
      exact absurd hls' (not_endsStatements_after hn ns ls)
    | cons m ms =>
      simp only [lexemesAfter, List.append_assoc, List.append_cancel_left_eq] at h
      obtain ⟨hunplaced, hrest⟩ := hcancels m _ _ (hms m List.mem_cons_self)
        (fun he => he ▸ endsExpression_after hls) (fun he => he ▸ endsExpression_after hls') h
      have hexpression : n.isExpressionStatement = m.isExpressionStatement := by
        rw [← isExpressionStatement_unplaced, hunplaced, isExpressionStatement_unplaced]
      rw [hexpression] at hrest
      obtain ⟨hmore, hends⟩ := ih (fun x hx => hns x (List.mem_cons_of_mem _ hx))
        (fun x hx => hms x (List.mem_cons_of_mem _ hx)) hrest
      exact ⟨by rw [unplacedList, unplacedList, hunplaced, hmore], hends⟩

/-! ### Forms of expressions -/

theorem cancels_name {t : Token} : CancelsCallee .ident (.identifier t t.literal) := by
  rintro m ls ls' hm - - h
  cases hm with
  | name _ =>
  rw [lexemes, lexemes] at h
  obtain ⟨htoken, hls⟩ := List.cons.inj h
  rw [unplaced, unplaced, Token.unplaced_eq_iff.2 htoken, Token.literal_eq_of_lexeme_eq htoken]
  exact ⟨rfl, hls⟩

/-- A literal has one value. -/
theorem cancels_numeral {t : Token} {v : Int} (hv : IsDecimal t.literal v) :
    CancelsCallee .int (.integer t v) := by
  rintro m ls ls' hm - - h
  cases hm with
  | numeral _ hv' =>
  rw [lexemes, lexemes] at h
  obtain ⟨htoken, hls⟩ := List.cons.inj h
  rw [unplaced, unplaced, Token.unplaced_eq_iff.2 htoken, hv, hv',
    Token.literal_eq_of_lexeme_eq htoken]
  exact ⟨rfl, hls⟩

theorem cancels_boolean {t : Token} (b : Bool) :
    CancelsCallee (bif b then .trueWord else .falseWord) (.boolean t b) := by
  rintro m ls ls' hm - - h
  obtain ⟨u, rfl⟩ : ∃ u, m = .boolean u b := by
    cases b <;> cases hm <;> exact ⟨_, rfl⟩
  rw [lexemes, lexemes] at h
  obtain ⟨htoken, hls⟩ := List.cons.inj h
  rw [unplaced, unplaced, Token.unplaced_eq_iff.2 htoken]
  exact ⟨rfl, hls⟩

theorem cancels_unary {t : Token} {k : Kind} {e : Node} (hk : k = .bang ∨ k = .minus)
    (ht : t.Spells k) (he : CancelsExpression e) :
    CancelsCallee .lparen (.unary t t.literal e) := by
  rintro m ls ls' hm - - h
  cases hm with
  | unary _ _ he' =>
    simp only [lexemes, List.cons_append, List.append_assoc, List.nil_append, List.cons.injEq,
      true_and] at h
    obtain ⟨htoken, h⟩ := h
    obtain ⟨hright, hls⟩ := he.before he' (by decide) h
    rw [unplaced, unplaced, Token.unplaced_eq_iff.2 htoken, hright,
      Token.literal_eq_of_lexeme_eq htoken]
    exact ⟨rfl, hls⟩
  | binary _ _ hl _ =>
    simp only [lexemes, ht.lexeme, List.cons_append, List.append_assoc, List.cons.injEq,
      true_and] at h
    refine absurd h.symm (hl.lexemes_ne ?_)
    rcases hk with rfl | rfl <;> decide

theorem endsExpression_operator {s : Stratum} {k : Kind} (hk : k ∈ s.operators) (ls : List Lexeme) :
    EndsExpression (k.lexeme :: ls) := by
  refine avoids_cons.2 ?_
  rw [Kind.lexeme]
  revert hk
  cases s <;> cases k <;> decide

theorem cancels_binary {t : Token} {s : Stratum} {k : Kind} {l r : Node} (hk : k ∈ s.operators)
    (ht : t.Spells k) (hn : Expression IsDecimal l) (hl : CancelsExpression l)
    (hr : CancelsExpression r) : CancelsCallee .lparen (.binary t l t.literal r) := by
  rintro m ls ls' hm - - h
  cases hm with
  | unary hk' ht' _ =>
    simp only [lexemes, ht'.lexeme, List.cons_append, List.append_assoc, List.cons.injEq,
      true_and] at h
    refine absurd h (hn.lexemes_ne ?_)
    rcases hk' with rfl | rfl <;> decide
  | binary hk' ht' hl' hr' =>
    simp only [lexemes, List.cons_append, List.append_assoc, List.nil_append, List.cons.injEq,
      true_and] at h
    obtain ⟨hleft, h⟩ := hl _ _ _ hl' (ht.lexeme ▸ endsExpression_operator hk _)
      (ht'.lexeme ▸ endsExpression_operator hk' _) h
    obtain ⟨htoken, h⟩ := List.cons.inj h
    obtain ⟨hright, hls⟩ := hr.before hr' (by decide) h
    rw [unplaced, unplaced, Token.unplaced_eq_iff.2 htoken, hleft, hright,
      Token.literal_eq_of_lexeme_eq htoken]
    exact ⟨rfl, hls⟩

theorem cancels_conditional {t : Token} {e b : Node} {a : Option Node} (ht : t.Spells .ifWord)
    (he : CancelsExpression e) (hb : CancelsBlock b) (ha : ∀ n ∈ a, CancelsBlock n) :
    CancelsCallee .ifWord (.conditional t e b a) := by
  rintro m ls ls' hm hls hls' h
  cases hm with
  | @conditional _ _ _ a' ht' he' hb' ha' =>
  simp only [lexemes, ht.lexeme, ht'.lexeme, List.cons_append, List.append_assoc, List.cons.injEq,
    true_and] at h
  obtain ⟨hcondition, h⟩ := he.before he' (by decide) h
  obtain ⟨hconsequence, h⟩ := hb _ _ _ hb' trivial trivial h
  rw [unplaced, unplaced, ht.unplaced, ht'.unplaced, hcondition, hconsequence]
  cases a with
  | none =>
    cases a' with
    | none => exact ⟨rfl, h⟩
    | some n =>
      obtain rfl : ls = _ := h
      exact absurd hls (by simp [lexemesElse, Kind.lexeme])
  | some n =>
    cases a' with
    | none =>
      obtain rfl : _ = ls' := h
      exact absurd hls' (by simp [lexemesElse, Kind.lexeme])
    | some n' =>
      obtain ⟨halternative, hls⟩ :=
        ha n rfl _ _ _ (ha' n' rfl) trivial trivial (List.cons.inj h).2
      exact ⟨by rw [unplacedOption, unplacedOption, halternative], hls⟩

theorem cancels_function {t : Token} {ps : List Node} {b : Node} (ht : t.Spells .function)
    (hps : ∀ p ∈ ps, Expression IsDecimal p ∧ CancelsExpression p) (hb : CancelsBlock b) :
    CancelsCallee .function (.function t ps b) := by
  rintro m ls ls' hm - - h
  cases hm with
  | function ht' hps' hb' =>
  simp only [lexemes, ht.lexeme, ht'.lexeme, List.cons_append, List.append_assoc, List.cons.injEq,
    true_and] at h
  obtain ⟨hparameters, h⟩ := cancel_commas hps (fun p hp => .name (hps' p hp)) h
  obtain ⟨hbody, hls⟩ := hb _ _ _ hb' trivial trivial h
  rw [unplaced, unplaced, ht.unplaced, ht'.unplaced, hparameters, hbody]
  exact ⟨rfl, hls⟩

/-! ### Calls -/

/-- The expression with some calls of it cancels. -/
def CancelsCalled (n : Node) : Prop :=
  ∀ calls, (∀ ns ∈ calls, ∀ x ∈ ns, Expression IsDecimal x ∧ CancelsExpression x) →
    ∀ m ls ls', Expression IsDecimal m → EndsExpression ls → EndsExpression ls' →
      n.lexemes ++ (lexemesCalls calls ++ ls) = m.lexemes ++ ls' →
        applied n.unplaced calls = m.unplaced ∧ ls = ls'

theorem CancelsCalled.cancels {n : Node} (h : CancelsCalled n) : CancelsExpression n :=
  h [] (by simp)

theorem avoids_calls {ls : List Lexeme} (hls : EndsExpression ls)
    (calls : List (List Node)) : Avoids [.elseWord] (lexemesCalls calls ++ ls) := by
  cases calls with
  | nil => exact hls.mono (by decide)
  | cons ns calls => exact avoids_cons.2 (by decide)

theorem Callee.cancelsCalled {k : Kind} {n : Node} (h : Callee IsDecimal k n)
    (hn : CancelsCallee k n) : CancelsCalled n := by
  intro calls hcalls m ls ls' hm hls hls' heq
  obtain ⟨k', m', calls', hm', hcalls', hlexemes, hunplaced⟩ := hm.isApplied
  rw [hlexemes, List.append_assoc] at heq
  have hkind : k' = k := by
    obtain ⟨l, _, hl, hk⟩ := h.lexemes_head
    obtain ⟨l', _, hl', hk'⟩ := hm'.lexemes_head
    rw [hl, hl'] at heq
    rw [← hk, ← hk', (List.cons.inj heq).1]
  rw [hkind] at hm'
  obtain ⟨hcallee, hrest⟩ := hn _ _ _ hm' (avoids_calls hls _) (avoids_calls hls' _) heq
  rw [hunplaced, ← hcallee]
  exact cancel_calls hcalls hcalls' hls hls' hrest _

theorem cancelsCalled_of_name {n : Node} (h : WellFormed.Name n) : CancelsCalled n := by
  obtain ⟨ht, -⟩ := h
  exact (Callee.name ht).cancelsCalled cancels_name

/-! ### Statements and programs -/

theorem cancels_binding {t : Token} {n e : Node} (ht : t.Spells .letWord) (hn : WellFormed.Name n)
    (he : CancelsExpression e) : CancelsStatement (.letStatement t n e) := by
  rintro m ls ls' hm - - h
  cases hm with
  | binding ht' hn' he' =>
    simp only [lexemes, ht.lexeme, ht'.lexeme, List.cons_append, List.append_assoc,
      List.nil_append, List.cons.injEq, true_and] at h
    obtain ⟨hname, h⟩ := (cancelsCalled_of_name hn).cancels.before (.name hn') (by decide) h
    obtain ⟨hvalue, hls⟩ := he.before he' (by decide) h
    rw [unplaced, unplaced, ht.unplaced, ht'.unplaced, hname, hvalue]
    exact ⟨rfl, hls⟩
  | result ht' _ =>
    rw [lexemes, lexemes, ht.lexeme, ht'.lexeme] at h
    exact absurd (List.cons.inj h).1 (by decide)
  | expression he' =>
    rw [lexemes, lexemes, ht.lexeme] at h
    exact absurd h.symm (he'.lexemes_ne (by decide))

theorem cancels_result {t : Token} {e : Node} (ht : t.Spells .returnWord)
    (he : CancelsExpression e) : CancelsStatement (.returnStatement t e) := by
  rintro m ls ls' hm - - h
  cases hm with
  | binding ht' _ _ =>
    rw [lexemes, lexemes, ht.lexeme, ht'.lexeme] at h
    exact absurd (List.cons.inj h).1 (by decide)
  | result ht' he' =>
    simp only [lexemes, ht.lexeme, ht'.lexeme, List.cons_append, List.append_assoc,
      List.nil_append, List.cons.injEq, true_and] at h
    obtain ⟨hvalue, hls⟩ := he.before he' (by decide) h
    rw [unplaced, unplaced, ht.unplaced, ht'.unplaced, hvalue]
    exact ⟨rfl, hls⟩
  | expression he' =>
    rw [lexemes, lexemes, ht.lexeme] at h
    exact absurd h.symm (he'.lexemes_ne (by decide))

theorem cancels_expressionStatement {t : Token} {e : Node} (hn : Expression IsDecimal e)
    (he : CancelsExpression e) : CancelsStatement (.expressionStatement t e) := by
  rintro m ls ls' hm hls hls' h
  cases hm with
  | binding ht' _ _ | result ht' _ =>
    rw [lexemes, lexemes, ht'.lexeme] at h
    exact absurd h (hn.lexemes_ne (by decide))
  | expression he' =>
    rw [lexemes, lexemes] at h
    obtain ⟨hexpression, hends⟩ := he _ _ _ he' (hls rfl) (hls' rfl) h
    rw [unplaced, unplaced, hexpression]
    exact ⟨rfl, hends⟩

theorem cancels_block {t : Token} {ns : List Node} (ht : t.Spells .lbrace)
    (hns : ∀ n ∈ ns, Statement IsDecimal n ∧ CancelsStatement n) : CancelsBlock (.block t ns) := by
  rintro m ls ls' ⟨ht', hms⟩ - - h
  simp only [lexemes, ht.lexeme, ht'.lexeme, lexemesList_eq, List.cons_append, List.append_assoc,
    List.nil_append, List.cons.injEq, true_and] at h
  obtain ⟨hstatements, hls⟩ :=
    cancel_after hns hms (avoids_cons.2 (by decide)) (avoids_cons.2 (by decide)) h
  rw [unplaced, unplaced, hstatements, ht.unplaced, ht'.unplaced]
  exact ⟨rfl, (List.cons.inj hls).2⟩

mutual

theorem Expression.cancelsCalled {n : Node} : Expression IsDecimal n → CancelsCalled n
  | .name hn => cancelsCalled_of_name hn
  | .numeral ht _ hv => (Callee.numeral ht hv).cancelsCalled (cancels_numeral hv)
  | .yes ht => (Callee.yes ht).cancelsCalled (cancels_boolean true)
  | .no ht => (Callee.no ht).cancelsCalled (cancels_boolean false)
  | .unary hk ht he =>
    (Callee.unary hk ht he).cancelsCalled (cancels_unary hk ht he.cancelsCalled.cancels)
  | .binary hk ht hl hr =>
    (Callee.binary hk ht hl hr).cancelsCalled
      (cancels_binary hk ht hl hl.cancelsCalled.cancels hr.cancelsCalled.cancels)
  | .choice ht he hb =>
    (Callee.conditional ht he hb (by simp)).cancelsCalled
      (cancels_conditional ht he.cancelsCalled.cancels hb.cancels (by simp))
  | .alternative ht he hb ha =>
    (Callee.conditional ht he hb (by simpa using ha)).cancelsCalled
      (cancels_conditional ht he.cancelsCalled.cancels hb.cancels (by simpa using ha.cancels))
  | .function ht hps hb => by
    refine (Callee.function ht hps hb).cancelsCalled (cancels_function ht ?_ hb.cancels)
    exact fun p hp => ⟨.name (hps p hp), (cancelsCalled_of_name (hps p hp)).cancels⟩
  | @Expression.call _ t e ns ht he hns => by
    intro calls hcalls m ls ls' hm hls hls' h
    -- the calls of the result are further calls of the callee
    have hmore : ∀ ms ∈ ns :: calls, ∀ x ∈ ms, Expression IsDecimal x ∧ CancelsExpression x := by
      rintro ms (_ | ⟨_, hms⟩) x hx
      · exact ⟨hns x hx, (hns x hx).cancelsCalled.cancels⟩
      · exact hcalls ms hms x hx
    rw [unplaced, ht.unplaced]
    refine he.cancelsCalled (ns :: calls) hmore m ls ls' hm hls hls' ?_
    simpa [lexemes, lexemesCalls, ht.lexeme] using h

theorem Block.cancels {n : Node} : Block IsDecimal n → CancelsBlock n
  | .braces ht hns => cancels_block ht fun n hn => ⟨hns n hn, (hns n hn).cancels⟩

theorem Statement.cancels {n : Node} : Statement IsDecimal n → CancelsStatement n
  | .binding ht hn he => cancels_binding ht hn he.cancelsCalled.cancels
  | .result ht he => cancels_result ht he.cancelsCalled.cancels
  | .expression he => cancels_expressionStatement he he.cancelsCalled.cancels

end

/-- Programs of the same lexemes are the same up to places. -/
theorem Program.unplaced_eq {n m : Node} (hn : Program IsDecimal n) (hm : Program IsDecimal m)
    (h : n.lexemes = m.lexemes) : n.unplaced = m.unplaced := by
  obtain ⟨hns⟩ := hn
  obtain ⟨hms⟩ := hm
  rw [lexemes, lexemes, lexemesList_eq, lexemesList_eq] at h
  have hstatements := cancel_after (fun n hn => ⟨hns n hn, (hns n hn).cancels⟩) hms
    (avoids_nil _) (avoids_nil _) (congrArg (· ++ []) h)
  rw [unplaced, unplaced, hstatements.1]

end Spelled

/-- Two programs are rendered alike exactly if they are the same up to places and the tokens of
their expression statements, however deep they nest and however many digits their numerals have. -/
theorem render_eq_iff {n m : Node} (hn : Spelled.Program IsDecimal n)
    (hm : Spelled.Program IsDecimal m) : n.render = m.render ↔ n.unplaced = m.unplaced := by
  constructor
  · intro h
    apply hn.unplaced_eq hm
    rw [← hn.lexes.upcoming .start, h, hm.lexes.upcoming .start]
  · intro h
    rw [← render_unplaced, h, render_unplaced]

/-- A call that is read from two texts with different layouts is rendered alike. -/
theorem render_eq_iff_call :
    let call (p q : Place) : Node := .program [.expressionStatement ⟨.ident, "f", p⟩
      (.call ⟨.lparen, "(", q⟩ (.identifier ⟨.ident, "f", p⟩ "f") [.integer ⟨.int, "07", q⟩ 7])]
    Spelled.Program IsDecimal (call ⟨1, 1⟩ ⟨1, 2⟩) ∧
      Spelled.Program IsDecimal (call ⟨3, 1⟩ ⟨4, 1⟩) ∧
      (call ⟨1, 1⟩ ⟨1, 2⟩).render = (call ⟨3, 1⟩ ⟨4, 1⟩).render ∧
      (call ⟨1, 1⟩ ⟨1, 2⟩).unplaced = (call ⟨3, 1⟩ ⟨4, 1⟩).unplaced := by
  intro call
  have hf : IsName "f" := ⟨by decide, List.all_eq_true.1 (by decide), by decide⟩
  have hdigits : IsDigits "07" := ⟨by decide, List.all_eq_true.1 (by decide)⟩
  have hvalue : IsDecimal "07" 7 := by
    rw [IsDecimal]
    decide
  have hnumeral (q : Place) : Spelled.Expression IsDecimal (.integer ⟨.int, "07", q⟩ 7) :=
    .numeral rfl hdigits hvalue
  have hcall (p q : Place) : Spelled.Program IsDecimal (call p q) := by
    refine .intro fun n hn => ?_
    rw [List.mem_singleton.1 hn]
    refine .expression (.call ⟨rfl, rfl⟩ (.name (.intro (t := ⟨.ident, "f", p⟩) rfl hf)) ?_)
    exact fun n hn => List.mem_singleton.1 hn ▸ hnumeral q
  have hrender : (call ⟨1, 1⟩ ⟨1, 2⟩).render = (call ⟨3, 1⟩ ⟨4, 1⟩).render := by decide +kernel
  exact ⟨hcall _ _, hcall _ _, hrender, (render_eq_iff (hcall _ _) (hcall _ _)).1 hrender⟩

end MonkeyLang
