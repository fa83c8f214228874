import MonkeyLang.Syntax.Render

/-!
# Trees that match

Two trees match by a relation of tokens if they have one shape and the tokens of corresponding nodes
are related. A name's value is the text of its token, so nothing is required of it; operators,
numbers and truth values are the same. Main statement: trees that match by tokens with the same
texts are rendered to the same text (`Node.Matches.render_eq`).
-/

namespace MonkeyLang

namespace Node

mutual

/-- Two trees of one shape, with the same operators, numbers and truth values, in which names are
read from their tokens and the tokens of corresponding nodes are related. -/
inductive Matches (R : Token → Token → Prop) : Node → Node → Prop
  | identifier {t u} : R t u → Matches R (.identifier t t.literal) (.identifier u u.literal)
  | integer {t u v} : R t u → Matches R (.integer t v) (.integer u v)
  | boolean {t u v} : R t u → Matches R (.boolean t v) (.boolean u v)
  | unary {t u o r r'} : R t u → Matches R r r' → Matches R (.unary t o r) (.unary u o r')
  | binary {t u l l' o r r'} : R t u → Matches R l l' → Matches R r r' →
    Matches R (.binary t l o r) (.binary u l' o r')
  | choice {t u c c' b b'} : R t u → Matches R c c' → Matches R b b' →
    Matches R (.conditional t c b none) (.conditional u c' b' none)
  | alternative {t u c c' b b' a a'} : R t u → Matches R c c' → Matches R b b' → Matches R a a' →
    Matches R (.conditional t c b (some a)) (.conditional u c' b' (some a'))
  | function {t u ps ps' b b'} : R t u → MatchesList R ps ps' → Matches R b b' →
    Matches R (.function t ps b) (.function u ps' b')
  | call {t u f f' ns ns'} : R t u → Matches R f f' → MatchesList R ns ns' →
    Matches R (.call t f ns) (.call u f' ns')
  | binding {t u n n' e e'} : R t u → Matches R n n' → Matches R e e' →
    Matches R (.letStatement t n e) (.letStatement u n' e')
  | result {t u e e'} : R t u → Matches R e e' →
    Matches R (.returnStatement t e) (.returnStatement u e')
  | expression {t u e e'} : R t u → Matches R e e' →
    Matches R (.expressionStatement t e) (.expressionStatement u e')
  | block {t u ns ns'} : R t u → MatchesList R ns ns' → Matches R (.block t ns) (.block u ns')
  | program {ns ns'} : MatchesList R ns ns' → Matches R (.program ns) (.program ns')

/-- Two lists of trees that match one by one. -/
inductive MatchesList (R : Token → Token → Prop) : List Node → List Node → Prop
  | nil : MatchesList R [] []
  | cons {n n' ns ns'} : Matches R n n' → MatchesList R ns ns' →
    MatchesList R (n :: ns) (n' :: ns')

end

variable {R S : Token → Token → Prop}

theorem MatchesList.append {ns ns' ms ms' : List Node} (h : MatchesList R ns ns')
    (h' : MatchesList R ms ms') : MatchesList R (ns ++ ms) (ns' ++ ms') := by
  match h with
  | .nil => exact h'
  | .cons hn hns => exact .cons hn (hns.append h')

mutual

theorem Matches.mono (hRS : ∀ {t u}, R t u → S t u) {n m : Node} : Matches R n m → Matches S n m
  | .identifier h => .identifier (hRS h)
  | .integer h => .integer (hRS h)
  | .boolean h => .boolean (hRS h)
  | .unary h hr => .unary (hRS h) (hr.mono hRS)
  | .binary h hl hr => .binary (hRS h) (hl.mono hRS) (hr.mono hRS)
  | .choice h hc hb => .choice (hRS h) (hc.mono hRS) (hb.mono hRS)
  | .alternative h hc hb ha => .alternative (hRS h) (hc.mono hRS) (hb.mono hRS) (ha.mono hRS)
  | .function h hps hb => .function (hRS h) (hps.mono hRS) (hb.mono hRS)
  | .call h hf hns => .call (hRS h) (hf.mono hRS) (hns.mono hRS)
  | .binding h hn he => .binding (hRS h) (hn.mono hRS) (he.mono hRS)
  | .result h he => .result (hRS h) (he.mono hRS)
  | .expression h he => .expression (hRS h) (he.mono hRS)
  | .block h hns => .block (hRS h) (hns.mono hRS)
  | .program hns => .program (hns.mono hRS)

theorem MatchesList.mono (hRS : ∀ {t u}, R t u → S t u) {ns ms : List Node} :
    MatchesList R ns ms → MatchesList S ns ms
  | .nil => .nil
  | .cons hn hns => .cons (hn.mono hRS) (hns.mono hRS)

end

/-! ### Rendering -/

theorem Matches.isExpressionStatement_eq {n m : Node} (h : Matches R n m) :
    n.isExpressionStatement = m.isExpressionStatement := by
  cases h <;> rfl

mutual

theorem Matches.render_eq (hR : ∀ {t u}, R t u → t.literal = u.literal) {n m : Node} :
    Matches R n m → n.render = m.render
  | .identifier h => by rw [render, render, hR h]
  | .integer h | .boolean h => by rw [render, render, hR h]
  | .unary _ hr => by rw [render, render, hr.render_eq hR]
  | .binary _ hl hr => by rw [render, render, hl.render_eq hR, hr.render_eq hR]
  | .choice _ hc hb => by
    rw [render, render, hc.render_eq hR, hb.render_eq hR, renderElse]
  | .alternative _ hc hb ha => by
    rw [render, render, hc.render_eq hR, hb.render_eq hR, renderElse, renderElse, ha.render_eq hR]
  | .function h hps hb => by
    rw [render, render, hR h, hps.renderCommas_eq hR, hb.render_eq hR]
  | .call _ hf hns => by rw [render, render, hf.render_eq hR, hns.renderCommas_eq hR]
  | .binding h hn he => by rw [render, render, hR h, hn.render_eq hR, he.render_eq hR]
  | .result h he => by rw [render, render, hR h, he.render_eq hR]
  | .expression _ he => by rw [render, render, he.render_eq hR]
  | .block _ .nil | .program .nil => rfl
  | .block _ (.cons hn hns) | .program (.cons hn hns) => by
    rw [render, render, hn.render_eq hR, hn.isExpressionStatement_eq, hns.renderAfter_eq hR]

theorem MatchesList.renderCommas_eq (hR : ∀ {t u}, R t u → t.literal = u.literal)
    {ns ms : List Node} : MatchesList R ns ms → renderCommas ns = renderCommas ms
  | .nil => rfl
  | .cons hn .nil => by rw [renderCommas, renderCommas, hn.render_eq hR]
  | .cons hn (.cons hm hns) => by
    have hmore := MatchesList.renderCommas_eq hR (.cons hm hns)
    simp only [renderCommas] at hmore ⊢
    rw [hn.render_eq hR, hmore]

theorem MatchesList.renderAfter_eq (hR : ∀ {t u}, R t u → t.literal = u.literal)
    {ns ms : List Node} (b : Bool) : MatchesList R ns ms → renderAfter b ns = renderAfter b ms
  | .nil => rfl
  | .cons hn hns => by
    rw [renderAfter, renderAfter, hn.render_eq hR, hn.isExpressionStatement_eq,
      hns.renderAfter_eq hR]

end

end Node

end MonkeyLang
