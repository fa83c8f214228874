import MonkeyLang.Proofs.Height
import MonkeyLang.Proofs.TokenView

/-!
# How high trees are

The bounds on the paths of a tree are attained at any number of levels. A name is as high as one
level allows; a function around what is as high as the levels below allow takes one level more, and
what is then left of the levels goes into calls of it. The tokens of such a tower parse back to it.
Main statements: `path_parse_bounds` and `height_expression`.
-/

namespace MonkeyLang

open Node Grammar

/-! ### Towers -/

namespace Node

/-- So many calls without arguments, one after the other. -/
def calls (callee : Node) : Nat → Node
  | 0 => callee
  | k + 1 => call ⟨.lparen, "(", ⟨0, 0⟩⟩ (calls callee k) []

/-- The function without parameters that yields an expression. -/
def thunk (e : Node) : Node :=
  function ⟨.function, "fn", ⟨0, 0⟩⟩ []
    (block ⟨.lbrace, "\x7b", ⟨0, 0⟩⟩ [expressionStatement default e])

/-- Functions within each other. Each of them is called as often as the levels that it has allow. -/
def tower : Nat → Node
  | 0 => identifier ⟨.ident, "a", ⟨0, 0⟩⟩ "a"
  | k + 1 => (thunk (tower k)).calls (k + 1)

theorem reach_calls (n : Node) (k : Nat) : (n.calls k).reach = n.reach + k := by
  induction k with
  | zero => rfl
  | succ k ih => rw [calls, reach, ih, Nat.add_assoc]

theorem height_calls (n : Node) (k : Nat) : (n.calls k).height = n.height + k := by
  induction k with
  | zero => rfl
  | succ k ih => rw [calls, height, ih, heightList, Nat.max_zero, Nat.add_assoc]

theorem nesting_calls_le {n : Node} {k l : Nat} (hn : n.nesting ≤ l) (hl : n.reach + k ≤ l) :
    (n.calls k).nesting ≤ l := by
  induction k with
  | zero => exact hn
  | succ k ih =>
    rw [calls, nesting, reach_calls, nestingList]
    exact Nat.max_le.2 ⟨ih (by omega), hl⟩

theorem height_tower (k : Nat) : (tower k).height = heightLimit (k + 1) := by
  induction k with
  | zero => rfl
  | succ k ih =>
    rw [tower, height_calls, thunk, height, height, heightList, height, ih, heightList,
      Nat.max_zero, ← heightLimit_succ]

theorem nesting_tower_le (k : Nat) : (tower k).nesting ≤ k + 1 := by
  induction k with
  | zero => exact Nat.le_refl 1
  | succ k ih =>
    have hthunk : (tower k).thunk.nesting ≤ k + 1 + 1 := by
      simp only [thunk, nesting, nestingList, Nat.max_zero]
      omega
    have hreach : (tower k).thunk.reach = 1 := rfl
    exact nesting_calls_le hthunk (by omega)

end Node

namespace WellFormed

variable {config : Config}

theorem Expression.calls {n : Node} (h : Expression config n) (k : Nat) :
    Expression config (n.calls k) := by
  induction k with
  | zero => exact h
  | succ k ih => exact .call ⟨rfl, rfl⟩ ih (by simp)

theorem Expression.thunk {n : Node} (h : Expression config n) : Expression config n.thunk := by
  refine .function ⟨rfl, rfl⟩ (by simp) (.braces ⟨rfl, rfl⟩ ?_)
  intro s hs
  obtain rfl := List.mem_singleton.1 hs
  exact .expression h

theorem Expression.tower (k : Nat) : Expression config (tower k) := by
  induction k with
  | zero =>
    have hname : IsName "a" := ⟨by decide, List.all_eq_true.1 (by decide), by decide⟩
    exact .name (.intro (t := ⟨.ident, "a", ⟨0, 0⟩⟩) rfl hname)
  | succ k ih => exact ih.thunk.calls (k + 1)

end WellFormed

/-! ### Expressions -/

theorem height_eq_of_unplaced_eq {n m : Node} (h : n.unplaced = m.unplaced) :
    n.height = m.height := by
  rw [← height_unplaced, h, height_unplaced]

/-- Some tokens are parsed to an expression as high as the levels allow, by a quiet run. -/
theorem exists_leads_height (levels : Nat) :
    ∃ ts, ∀ (config : Config) (p : Precedence), p < .call → ∃ n v,
      (expression { config } (levels + 1) p).Leads Quiet (.ofSource (.ofTokens ts)) n v ∧
        n.height = heightLimit (levels + 1) := by
  let ts := (tower levels).lexemes.map fun l => (⟨l.kind, String.ofList l.text, ⟨0, 0⟩⟩ : Token)
  have hts : ts.map Token.lexeme = (tower levels).lexemes := by
    simp [ts, Token.lexeme, Function.comp_def]
  refine ⟨ts, fun config p hp => ?_⟩
  have hwell : WellFormed.Expression config (tower levels) := .tower levels
  obtain ⟨e, he, hplaces⟩ := hwell.derives.loosen hts .application (by decide)
  have hshows : (Window.ofSource (.ofTokens ts)).Shows (.tokens (ts ++ []) ⟨0, 0⟩) := by
    rw [List.append_nil]
    exact Window.shows_ofSource _
  obtain ⟨v, hv, hend, -⟩ := hshows.reads_append
  obtain ⟨u, hu, rfl⟩ := hv.spans he.ne_nil
  have hpeek : u.peek = .endAt ⟨0, 0⟩ := hend.1
  -- behind the tower no operator follows, so the expression ends with it
  have hends : ∀ q : Precedence, ¬ q < u.peek.kind.precedence := by
    rw [hpeek]
    intro q
    cases q <;> decide
  have habove : Stratum.application.Above p := by
    intro k hk
    revert hp hk
    cases p <;> cases k <;> decide
  have hrun := (he.leads_iff hu (Stratum.endsAt_of_not_lt (hends _) (by simp [hpeek])) habove).2
    ⟨nesting_tower_le levels, (leads_chain_end (hends p)).2 ⟨rfl, rfl⟩⟩
  exact ⟨e, u, hrun, (height_eq_of_unplaced_eq hplaces).trans (height_tower levels)⟩

/-! ### Whole programs -/

/-- Some text that parses without a diagnostic has a path as long as any may be. -/
theorem exists_path_parse_eq : ∃ text, ∀ config, (parseText config text).diagnostics = [] ∧
    ∃ s w, (parseText config text).program.Path s w ∧
      s + w = maxNesting * (maxNesting + 1) / 2 := by
  let p := program [expressionStatement default (tower (maxNesting - 1))]
  have hp (config : Config) : WellFormed.Program config p := by
    apply WellFormed.Program.intro
    intro s hs
    obtain rfl := List.mem_singleton.1 hs
    exact .expression (.tower _)
  refine ⟨p.render, fun config => ?_⟩
  have hclean : (parseText config p.render).diagnostics = [] := by
    rw [(hp config).diagnostics_eq_nil_iff, nesting, nestingList, nesting, nestingList,
      Nat.max_zero]
    exact nesting_tower_le _
  have hheight : (parseText config p.render).program.height = heightLimit maxNesting := by
    calc
      (parseText config p.render).program.height = p.height :=
        height_eq_of_unplaced_eq ((hp config).unplaced_program hclean)
      _ = (tower (maxNesting - 1)).height := by
        rw [height, heightList, height, heightList, Nat.max_zero]
      _ = heightLimit maxNesting := height_tower _
  rw [← heightLimit_eq, ← hheight]
  exact ⟨hclean, exists_path _⟩

/-- On a path through a program at most as many expressions as the limit says are left otherwise
than through a left operand or a callee. Those left through one are far more: at each number of
levels up to the limit the path may be wrapped once for every level below. Some text that parses
without a diagnostic has a path on which both are as many. -/
theorem path_parse_bounds (config : Config) :
    (∀ source s w, (parse { config } source).program.Path s w →
      s ≤ maxNesting ∧ w ≤ maxNesting * (maxNesting - 1) / 2) ∧
    ∃ text, (parseText config text).diagnostics = [] ∧
      (parseText config text).program.Path maxNesting (maxNesting * (maxNesting - 1) / 2) := by
  rw [← wrapLimit_eq]
  refine ⟨fun source => bounded_parse config source, ?_⟩
  obtain ⟨text, htext⟩ := exists_path_parse_eq
  obtain ⟨hclean, s, w, hpath, hlength⟩ := htext config
  -- a path as long as any may be attains both bounds
  obtain ⟨hspent, hwraps⟩ := bounded_parse config (.ofText text) s w hpath
  rw [← heightLimit_eq, heightLimit] at hlength
  obtain rfl : s = maxNesting := by omega
  obtain rfl : w = wrapLimit maxNesting := by omega
  exact ⟨text, hclean, hpath⟩

/-- The limit does not bound paths: what stands in parentheses is called again outside of them. -/
theorem not_path_parse_le :
    ¬ ∀ config text s w, (parseText config text).program.Path s w → s + w ≤ maxNesting := by
  intro h
  have htext := h {} (String.ofList ('(' :: List.replicate 98 '-' ++ "a)()()".toList))
  exact absurd (height_le_iff.2 htext) (by decide +kernel)

/-- An expression that is parsed with some levels in use has no path through more expressions than
the sum of the numbers up to that of the levels left, and for any number of levels some expression
has. So a program has no path through more than 5050, and some text without a problem has. -/
theorem height_expression (config : Config) :
    (∀ (s : Session) (p : Precedence) (n : Node), s.setup = { config } →
      (s.answer (.expression p)).1 = .node (some n) → ∀ i j, n.Path i j →
        i + j ≤ (maxNesting - s.depth) * (maxNesting - s.depth + 1) / 2) ∧
    (∀ d < maxNesting, ∃ ts, ∀ p : Precedence, p < .call →
      let s := { Session.start { config } (.ofTokens ts) with depth := d }
      (s.answer (.expression p)).2.diagnostics = [] ∧
        ∃ n i j, (s.answer (.expression p)).1 = .node (some n) ∧ n.Path i j ∧
          i + j = (maxNesting - d) * (maxNesting - d + 1) / 2) ∧
    (∀ source i j, (parse { config } source).program.Path i j → i + j ≤ 5050) ∧
    ∃ text, (parseText config text).diagnostics = [] ∧
      ∃ i j, (parseText config text).program.Path i j ∧ i + j = 5050 := by
  refine ⟨?_, ?_, ?_, ?_⟩
  · intro s p n hsetup hanswer i j hpath
    have hvalue : ((s.operand p).run s.window).value = some n := by
      injection hanswer
    rw [Session.operand, hsetup] at hvalue
    have hleads : (expression { config } (maxNesting - s.depth) p).Leads Anyhow s.window n _ :=
      ⟨hvalue, rfl, trivial⟩
    rw [← heightLimit_eq]
    exact Nat.le_trans hpath.le_height (bounded_expression hleads).height_le
  · intro d hd
    obtain ⟨levels, hlevels⟩ : ∃ levels, maxNesting - d = levels + 1 :=
      ⟨maxNesting - d - 1, by omega⟩
    obtain ⟨ts, hts⟩ := exists_leads_height levels
    refine ⟨ts, fun p hp => ?_⟩
    obtain ⟨n, v, ⟨hvalue, -, hquiet⟩, hheight⟩ := hts config p hp
    rw [← hlevels] at hvalue hquiet hheight
    obtain ⟨i, j, hpath, hij⟩ := n.exists_path
    rw [hheight, heightLimit_eq] at hij
    exact ⟨hquiet, n, i, j, congrArg Reply.node hvalue, hpath, hij⟩
  · intro source i j hpath
    have hlimit : maxNesting + wrapLimit maxNesting = 5050 := by decide
    rw [← hlimit]
    exact Nat.le_trans hpath.le_height (bounded_parse config source).height_le
  · obtain ⟨text, htext⟩ := exists_path_parse_eq
    exact ⟨text, htext config⟩

/-- The call of a name, with two levels left. -/
theorem height_expression_call :
    let s := { Session.start {} (.ofTokens [⟨.ident, "f", ⟨1, 1⟩⟩, ⟨.lparen, "(", ⟨1, 2⟩⟩,
      ⟨.rparen, ")", ⟨1, 3⟩⟩]) with depth := 98 }
    let n := Node.call ⟨.lparen, "(", ⟨1, 2⟩⟩ (.identifier ⟨.ident, "f", ⟨1, 1⟩⟩ "f") []
    s.setup = {} ∧ (s.answer (.expression .lowest)).1 = .node (some n) ∧
      ∀ i j, n.Path i j → i + j ≤ 3 := by
  intro s n
  have hanswer : (s.answer (.expression .lowest)).1 = .node (some n) := rfl
  have hlevels : (maxNesting - s.depth) * (maxNesting - s.depth + 1) / 2 = 3 := by
    simp [s, maxNesting]
  rw [← hlevels]
  exact ⟨rfl, hanswer, (height_expression {}).1 s .lowest n rfl hanswer⟩

end MonkeyLang
