import MonkeyLang.Proofs.RenderedTree
import MonkeyLang.Proofs.ScannedTrees

/-!
# Parsing what a parse renders

What a text parses to is a well-formed tree, so its rendering parses back to the same text exactly
if it does not nest too deep. The rendering puts parentheses around every operator, which count as
levels, so it can nest deeper than the text did. Main statement: `reparse_iff`.
-/

namespace MonkeyLang

open Node

/-! ### Rendering does not depend on places -/

namespace Node

@[simp] theorem isExpressionStatement_unplaced (n : Node) :
    n.unplaced.isExpressionStatement = n.isExpressionStatement := by
  cases n <;> simp [unplaced, isExpressionStatement]

mutual

@[simp] theorem render_unplaced : ∀ n : Node, n.unplaced.render = n.render
  | identifier _ _ => by simp [unplaced, render]
  | integer _ _ => by simp [unplaced, render, Token.unplaced]
  | boolean _ _ => by simp [unplaced, render, Token.unplaced]
  | unary _ _ r => by simp [unplaced, render, render_unplaced r]
  | binary _ l _ r => by simp [unplaced, render, render_unplaced l, render_unplaced r]
  | conditional _ c b a => by
    simp [unplaced, render, render_unplaced c, render_unplaced b, renderElse_unplaced a]
  | function _ ps b => by
    simp [unplaced, render, Token.unplaced, renderCommas_unplaced ps, render_unplaced b]
  | call _ f ns => by simp [unplaced, render, render_unplaced f, renderCommas_unplaced ns]
  | letStatement _ n e => by
    simp [unplaced, render, Token.unplaced, render_unplaced n, render_unplaced e]
  | returnStatement _ e => by simp [unplaced, render, Token.unplaced, render_unplaced e]
  | expressionStatement _ e => by simp [unplaced, render, render_unplaced e]
  | block _ [] => by simp [unplaced, unplacedList, render]
  | block _ (n :: ns) => by
    simp [unplaced, unplacedList, renderStatements, render_unplaced n, renderAfter_unplaced _ ns]
  | program [] => by simp [unplaced, unplacedList]
  | program (n :: ns) => by
    simp [unplaced, unplacedList, renderStatements, render_unplaced n, renderAfter_unplaced _ ns]

theorem renderElse_unplaced : ∀ a : Option Node, renderElse (unplacedOption a) = renderElse a
  | none => by simp [unplacedOption]
  | some n => by simp [unplacedOption, renderElse, render_unplaced n]

theorem renderCommas_unplaced : ∀ ns : List Node, renderCommas (unplacedList ns) = renderCommas ns
  | [] => by simp [unplacedList]
  | [n] => by simp [unplacedList, renderCommas, render_unplaced n]
  | n :: m :: ns => by
    have hmore := renderCommas_unplaced (m :: ns)
    simp only [unplacedList] at hmore ⊢
    simp [renderCommas, render_unplaced n, hmore]

theorem renderAfter_unplaced (b : Bool) :
    ∀ ns : List Node, renderAfter b (unplacedList ns) = renderAfter b ns
  | [] => by simp [unplacedList]
  | n :: ns => by simp [unplacedList, renderAfter, render_unplaced n, renderAfter_unplaced _ ns]

end

end Node

/-- Rendering a parsed program and parsing again gives a program with the same text exactly if no
statement nests too deep with the parentheses that the rendering adds. -/
theorem reparse_iff {config : Config} {text : String}
    (h : (parseText config text).diagnostics = []) :
    ((parseText config (parseText config text).program.render).diagnostics = [] ∧
        (parseText config (parseText config text).program.render).program.render =
          (parseText config text).program.render) ↔
      ∀ s ∈ (parseText config text).program.statements, s.nesting ≤ maxNesting := by
  have hwell := wellFormed_parseText config text
  have hnesting : (parseText config text).program.nesting ≤ maxNesting ↔
      ∀ s ∈ (parseText config text).program.statements, s.nesting ≤ maxNesting := by
    obtain ⟨ns, -, hns, -⟩ := (parse_clean_iff config _ _).1 ⟨h, rfl⟩
    rw [parseText, hns]
    exact nestingList_le_iff
  rw [← hnesting, ← hwell.diagnostics_eq_nil_iff]
  constructor
  · exact fun hclean => hclean.1
  · intro hclean
    refine ⟨hclean, ?_⟩
    rw [← render_unplaced, hwell.unplaced_program hclean, render_unplaced]

/-- The rendering of a negated name parses back to the same text. -/
theorem reparse_iff_negation :
    (parseText {} "-a").diagnostics = [] ∧
      (parseText {} (parseText {} "-a").program.render).diagnostics = [] ∧
        (parseText {} (parseText {} "-a").program.render).program.render =
          (parseText {} "-a").program.render := by
  have hclean : (parseText {} "-a").diagnostics = [] := by decide +kernel
  exact ⟨hclean, (reparse_iff hclean).2 (by decide +kernel)⟩

/-- A name after fifty minus signs nests within the limit, but its rendering does not. -/
theorem not_reparse_minus :
    ¬ ∀ (config : Config) (text : String), (parseText config text).diagnostics = [] →
      (parseText config (parseText config text).program.render).diagnostics = [] ∧
        (parseText config (parseText config text).program.render).program.render =
          (parseText config text).program.render := by
  intro h
  have hclean :
      (parseText {} (String.ofList (List.replicate 50 '-' ++ ['a']))).diagnostics = [] := by
    decide +kernel
  exact absurd (h {} _ hclean).1 (by decide +kernel)

end MonkeyLang
