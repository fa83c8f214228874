import MonkeyLang.Proofs.LegibleTrees
import MonkeyLang.Proofs.LongestMatch

/-!
# Rendered trees read back as lexemes

The rendering of a legible tree, in front of any text that does not go on with its last lexeme,
reads back as the lexemes that the tree flattens to in front of those of that text. What the
rendering puts next to each other ends a lexeme each time: an operator in front of an operand, a
name or a numeral in front of a parenthesis, a brace in front of anything. Main statements:
`Legible.Program.lexes` and `tokenize_render`.
-/

namespace MonkeyLang

open Node

/-- The rendering of the tree reads back as what it flattens to in front of any text that ends it.
-/
def Node.ReadsBack (n : Node) : Prop :=
  ∀ rest ls, Delimits rest → Lexes rest ls → Lexes (n.render.toList ++ rest) (n.flatten ++ ls)

theorem readsBack_commas {ns : List Node} (h : ∀ n ∈ ns, n.ReadsBack) {rest : List Char}
    {ls : List Lexeme} (hrest : Delimits rest) (hls : Lexes rest ls) :
    Lexes ((renderCommas ns).toList ++ rest) (flattenCommas ns ++ ls) := by
  induction ns with
  | nil => simpa [renderCommas, flattenCommas] using hls
  | cons n ns ih =>
    have hn := h n List.mem_cons_self
    cases ns with
    | nil => simpa [renderCommas, flattenCommas] using hn _ _ hrest hls
    | cons m ns =>
      have hmore := ih fun x hx => h x (List.mem_cons_of_mem _ hx)
      have hcomma := hmore.space.operator .comma [','] (by decide) (by simp)
      simpa [renderCommas, flattenCommas] using hn _ _ (delimits_cons (by decide)) hcomma

/-- Statements in sequence: a semicolon ends an expression statement that another one follows. -/
theorem readsBack_statements {ns : List Node} (h : ∀ n ∈ ns, n.ReadsBack) {rest : List Char}
    {ls : List Lexeme} (hrest : Delimits rest) (hls : Lexes rest ls) :
    Lexes ((renderStatements ns).toList ++ rest) (flattenList ns ++ ls) := by
  induction ns with
  | nil => simpa [renderStatements, flattenList] using hls
  | cons n ns ih =>
    have hn := h n List.mem_cons_self
    cases ns with
    | nil => simpa [renderStatements, renderAfter, flattenList] using hn _ _ hrest hls
    | cons m ns =>
      have hmore := ih fun x hx => h x (List.mem_cons_of_mem _ hx)
      cases hn' : n.isExpressionStatement with
      | true =>
        have hsemi := hmore.space.operator .semicolon [';'] (by decide) (by simp)
        simpa [renderStatements, renderAfter, flattenList, hn'] using
          hn _ _ (delimits_cons (by decide)) hsemi
      | false =>
        simpa [renderStatements, renderAfter, flattenList, hn'] using
          hn _ _ (delimits_cons (by decide)) hmore.space

theorem readsBack_block {t : Token} {ns : List Node} (h : ∀ n ∈ ns, n.ReadsBack) :
    (block t ns).ReadsBack := by
  intro rest ls hrest hls
  have hclose := hls.operator .rbrace ['}'] (by decide) (by simp)
  cases ns with
  | nil =>
    have hopen := hclose.space.operator .lbrace ['{'] (by decide) (by simp)
    simpa [render, flatten, flattenList] using hopen
  | cons first more =>
    have hstatements := readsBack_statements h (delimits_cons (by decide)) hclose.space
    have hopen := hstatements.space.operator .lbrace ['{'] (by decide) (by simp)
    simpa [flatten] using hopen

/-- The kinds of the lexemes with which rendered expressions begin. -/
def Spelled.startKinds : List Kind :=
  [.ident, .int, .trueWord, .falseWord, .lparen, .ifWord, .function]

namespace Legible

theorem Name.readsBack {n : Node} (h : Name n) : n.ReadsBack := by
  intro rest ls hrest hls
  cases h with
  | intro hname => simpa [render, flatten] using hls.name hname hrest

/-- What an expression flattens to begins with a lexeme that can start an expression. -/
theorem Expression.flatten_head {n : Node} (h : Expression n) :
    ∃ l ls, n.flatten = l :: ls ∧ l.kind ∈ Spelled.startKinds := by
  match n with
  | .identifier _ _ | .integer _ _ =>
    rw [flatten]
    exact ⟨_, [], rfl, by simp [Spelled.startKinds]⟩
  | .boolean _ b =>
    rw [flatten]
    exact ⟨_, [], rfl, by cases b <;> decide⟩
  | .unary _ _ _ | .binary _ _ _ _ | .conditional _ _ _ _ | .function _ _ _ =>
    rw [flatten]
    exact ⟨_, _, rfl, by decide⟩
  | .call _ callee _ =>
    cases h with
    | name hn => cases hn
    | call he _ =>
      obtain ⟨l, ls, hls, hl⟩ := he.flatten_head
      rw [flatten, hls]
      exact ⟨l, _, rfl, hl⟩
  | .letStatement _ _ _ | .returnStatement _ _ | .expressionStatement _ _ | .block _ _
  | .program _ =>
    cases h with
    | name hn => cases hn

/-- The text of an expression does not lengthen an operator before it. -/
theorem Expression.head_ne_equals {n : Node} (h : Expression n) {rest : List Char}
    {ls : List Lexeme} (hlexes : Lexes rest (n.flatten ++ ls)) : rest.head? ≠ some '=' := by
  obtain ⟨l, more, hl, hkind⟩ := h.flatten_head
  rw [hl] at hlexes
  apply hlexes.head_ne_equals
  · rintro hassign
    rw [hassign] at hkind
    revert hkind
    decide
  · rintro heq
    rw [heq] at hkind
    revert hkind
    decide

mutual

theorem Expression.readsBack {n : Node} : Expression n → n.ReadsBack
  | .name hn => hn.readsBack
  | .numeral hn => by
    intro rest ls hrest hls
    simpa [render, flatten] using hls.numeral hn hrest
  | .yes ht => by
    intro rest ls hrest hls
    simpa [render, flatten, ht] using hls.keyword .trueWord _ ⟨by decide, rfl⟩ hrest
  | .no ht => by
    intro rest ls hrest hls
    simpa [render, flatten, ht] using hls.keyword .falseWord _ ⟨by decide, rfl⟩ hrest
  | .unary (k := k) hk he => by
    intro rest ls hrest hls
    have hclose := hls.operator .rparen [')'] (by decide) (by simp)
    have hright := he.readsBack _ _ (delimits_cons (by decide)) hclose
    have hop := hright.operator k _ ⟨hk, rfl⟩ fun _ => he.head_ne_equals hright
    have hopen := hop.operator .lparen ['('] (by decide) (by simp)
    simpa [render, flatten, hk] using hopen
  | .binary (k := k) hk hl hr => by
    intro rest ls hrest hls
    have hclose := hls.operator .rparen [')'] (by decide) (by simp)
    have hright := hr.readsBack _ _ (delimits_cons (by decide)) hclose
    have hop := hright.space.operator k _ ⟨hk, rfl⟩ (by simp)
    have hleft := hl.readsBack _ _ (delimits_cons (by decide)) hop.space
    have hopen := hleft.operator .lparen ['('] (by decide) (by simp)
    simpa [render, flatten, hk] using hopen
  | .choice he hb => by
    intro rest ls hrest hls
    have hblock := hb.readsBack _ _ hrest hls
    have hclose := hblock.space.operator .rparen [')'] (by decide) (by simp)
    have hcondition := he.readsBack _ _ (delimits_cons (by decide)) hclose
    have hopen := hcondition.operator .lparen ['('] (by decide) (by simp)
    have hif := hopen.space.keyword .ifWord ['i', 'f'] (by decide) (delimits_cons (by decide))
    simpa [render, renderElse, flatten, flattenElse] using hif
  | .alternative he hb ha => by
    intro rest ls hrest hls
    have hlast := ha.readsBack _ _ hrest hls
    have helse := hlast.space.keyword .elseWord ['e', 'l', 's', 'e'] (by decide)
      (delimits_cons (by decide))
    have hblock := hb.readsBack _ _ (delimits_cons (by decide)) helse.space
    have hclose := hblock.space.operator .rparen [')'] (by decide) (by simp)
    have hcondition := he.readsBack _ _ (delimits_cons (by decide)) hclose
    have hopen := hcondition.operator .lparen ['('] (by decide) (by simp)
    have hif := hopen.space.keyword .ifWord ['i', 'f'] (by decide) (delimits_cons (by decide))
    simpa [render, renderElse, flatten, flattenElse] using hif
  | .function ht hps hb => by
    intro rest ls hrest hls
    have hbody := hb.readsBack _ _ hrest hls
    have hclose := hbody.space.operator .rparen [')'] (by decide) (by simp)
    have hparameters := readsBack_commas (fun p hp => (hps p hp).readsBack)
      (delimits_cons (by decide)) hclose
    have hopen := hparameters.operator .lparen ['('] (by decide) (by simp)
    have hfn := hopen.keyword .function _ ⟨by decide, rfl⟩ (delimits_cons (by decide))
    simpa [render, flatten, ht] using hfn
  | .call he hns => by
    intro rest ls hrest hls
    have hclose := hls.operator .rparen [')'] (by decide) (by simp)
    have harguments := readsBack_commas (fun n hn => (hns n hn).readsBack)
      (delimits_cons (by decide)) hclose
    have hopen := harguments.operator .lparen ['('] (by decide) (by simp)
    have hcallee := he.readsBack _ _ (delimits_cons (by decide)) hopen
    simpa [render, flatten] using hcallee

theorem Block.readsBack {n : Node} : Block n → n.ReadsBack
  | .braces hns => readsBack_block fun n hn => (hns n hn).readsBack

theorem Statement.readsBack {n : Node} : Statement n → n.ReadsBack
  | .binding ht hn he => by
    intro rest ls hrest hls
    have hend := hls.operator .semicolon [';'] (by decide) (by simp)
    have hvalue := he.readsBack _ _ (delimits_cons (by decide)) hend
    have hassign := hvalue.space.operator .assign ['='] (by decide) (by simp)
    have hname := hn.readsBack _ _ (delimits_cons (by decide)) hassign.space
    have hlet := hname.space.keyword .letWord _ ⟨by decide, rfl⟩ (delimits_cons (by decide))
    simpa [render, flatten, ht] using hlet
  | .result ht he => by
    intro rest ls hrest hls
    have hend := hls.operator .semicolon [';'] (by decide) (by simp)
    have hvalue := he.readsBack _ _ (delimits_cons (by decide)) hend
    have hreturn := hvalue.space.keyword .returnWord _ ⟨by decide, rfl⟩ (delimits_cons (by decide))
    simpa [render, flatten, ht] using hreturn
  | .expression he => by
    intro rest ls hrest hls
    simpa [render, flatten] using he.readsBack rest ls hrest hls

end

/-- The rendering of a program reads back as what it flattens to. -/
theorem Program.lexes {n : Node} (h : Program n) : Lexes n.render.toList n.flatten := by
  obtain ⟨hns⟩ := h
  have hlexes := readsBack_statements (fun n hn => (hns n hn).readsBack) delimits_nil .nil
  simpa [flatten] using hlexes

end Legible

/-- The rendering of a program reads back as its lexemes. -/
theorem Spelled.Program.lexes {standsFor : String → Int → Prop} {n : Node}
    (h : Program standsFor n) : Lexes n.render.toList n.lexemes :=
  h.flatten_eq ▸ h.legible.lexes

theorem WellFormed.Program.lexes {config : Config} {n : Node} (h : Program config n) :
    Lexes n.render.toList n.lexemes := h.spelled.lexes

/-- The lexemes of an expression begin with one that can start an expression. -/
theorem Spelled.Expression.lexemes_head {standsFor : String → Int → Prop} {n : Node}
    (h : Expression standsFor n) : ∃ l ls, n.lexemes = l :: ls ∧ l.kind ∈ startKinds :=
  h.flatten_eq ▸ h.legible.flatten_head

/-! ### Tokens -/

/-- The tokens of a text that is cut into lexemes are read from these, and the end token follows. -/
theorem Lexes.map_lexeme_tokenize {text : String} {ls : List Lexeme} (h : Lexes text.toList ls) :
    (tokenize text).map Token.lexeme = ls ++ [⟨.eof, []⟩] := by
  rw [tokenize, Scan.tokens_eq_append, List.map_append, List.map_singleton]
  exact congrArg (· ++ _) (h.upcoming .start)

/-- The tokens of the rendering of a legible program are of the kinds and texts that it flattens to,
however deep it nests, and an end token follows. No two of them are read as one, and none as two. -/
theorem tokenize_render {n : Node} (h : Legible.Program n) :
    (tokenize n.render).map Token.lexeme = n.flatten ++ [⟨.eof, []⟩] :=
  h.lexes.map_lexeme_tokenize

/-- A function that is called where it is written, with operators one after the other in its body.
The tokens that are not shown do not matter. -/
theorem tokenize_render_called_function :
    let t : Token := ⟨.illegal, "", ⟨0, 0⟩⟩
    let negated : Node := .unary t "!" (.unary t "-" (.identifier t "x"))
    let body : Node := .block t [.expressionStatement t negated,
      .returnStatement { t with literal := "return" } (.integer { t with literal := "007" } 0)]
    let f : Node := .function { t with literal := "fn" } [.identifier t "x"] body
    let n : Node := .program [.expressionStatement t (.identifier t "a"),
      .expressionStatement t (.call t f [.boolean { t with literal := "true" } true])]
    Legible.Program n ∧ n.render = "a; fn(x) \x7b (!(-x)); return 007; \x7d(true)" ∧
      (tokenize n.render).map Token.lexeme = n.flatten ++ [⟨.eof, []⟩] ∧
      n.flatten.map Lexeme.kind = [.ident, .semicolon, .function, .lparen, .ident, .rparen, .lbrace,
        .lparen, .bang, .lparen, .minus, .ident, .rparen, .rparen, .semicolon, .returnWord, .int,
        .semicolon, .rbrace, .lparen, .trueWord, .rparen] := by
  intro t negated body f n
  have hname {s : String} (hne : s.toList ≠ []) (hletters : s.toList.all Text.isLetter = true)
      (hkeyword : s ∉ Kind.keywords.map Prod.fst) : Legible.Name (.identifier t s) :=
    .intro ⟨hne, List.all_eq_true.1 hletters, hkeyword⟩
  have ha : Legible.Name (.identifier t "a") := hname (by decide) (by decide) (by decide)
  have hx : Legible.Name (.identifier t "x") := hname (by decide) (by decide) (by decide)
  have hdigits : IsDigits "007" := ⟨by decide, List.all_eq_true.1 (by decide)⟩
  have hnegated : Legible.Expression negated :=
    .unary (k := .bang) (by decide) (.unary (k := .minus) (by decide) (.name hx))
  have hbody : Legible.Block body :=
    .braces (List.forall_mem_cons.2 ⟨.expression hnegated,
      List.forall_mem_singleton.2 (.result rfl (.numeral hdigits))⟩)
  have hf : Legible.Expression f := .function rfl (List.forall_mem_singleton.2 hx) hbody
  have hyes : Legible.Expression (.boolean { t with literal := "true" } true) := .yes rfl
  have hcall : Legible.Expression (.call t f [.boolean { t with literal := "true" } true]) :=
    .call hf (List.forall_mem_singleton.2 hyes)
  have hn : Legible.Program n :=
    .intro (List.forall_mem_cons.2 ⟨.expression (.name ha),
      List.forall_mem_singleton.2 (.expression hcall)⟩)
  exact ⟨hn, by decide +kernel, tokenize_render hn, by decide +kernel⟩

end MonkeyLang
