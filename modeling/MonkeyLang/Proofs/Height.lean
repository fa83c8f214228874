import MonkeyLang.Proofs.RenderedTree

/-!
# Paths through the tree

The limit on nesting bounds the paths of every tree that a parse yields, but it does not bound the
number of expressions on them: what a left operand or a callee used of the levels is given back
before the operator that takes it is applied. So only the expressions that a path leaves otherwise
fit within the limit, and each level that is left at one of them, or at a pair of parentheses, may
wrap the path once more. Main statement: `bounded_parse`, which bounds both parts of a path.
-/

namespace MonkeyLang

/-! ### Measures -/

namespace Node

/-- Some path from a tree to a leaf passes through `s` expressions that it does not leave through a
left operand or a callee, and through `w` that it does. The names of parameters and of bindings are
on no path, and statements and blocks do not count. -/
inductive Path : Node → Nat → Nat → Prop
  | identifier {t v} : Path (.identifier t v) 1 0
  | integer {t v} : Path (.integer t v) 1 0
  | boolean {t v} : Path (.boolean t v) 1 0
  | unary {t o r s w} : Path r s w → Path (.unary t o r) (s + 1) w
  | left {t l o r s w} : Path l s w → Path (.binary t l o r) s (w + 1)
  | right {t l o r s w} : Path r s w → Path (.binary t l o r) (s + 1) w
  | condition {t c b a s w} : Path c s w → Path (.conditional t c b a) (s + 1) w
  | consequence {t c b a s w} : Path b s w → Path (.conditional t c b a) (s + 1) w
  | alternative {t c b a s w} : Path a s w → Path (.conditional t c b (some a)) (s + 1) w
  | body {t ps b s w} : Path b s w → Path (.function t ps b) (s + 1) w
  | callee {t c ns s w} : Path c s w → Path (.call t c ns) s (w + 1)
  | argument {t c n ns s w} : n ∈ ns → Path n s w → Path (.call t c ns) (s + 1) w
  | binding {t b e s w} : Path e s w → Path (.letStatement t b e) s w
  | result {t e s w} : Path e s w → Path (.returnStatement t e) s w
  | expression {t e s w} : Path e s w → Path (.expressionStatement t e) s w
  | emptyBlock {t} : Path (.block t []) 0 0
  | block {t n ns s w} : n ∈ ns → Path n s w → Path (.block t ns) s w
  | emptyProgram : Path (.program []) 0 0
  | program {n ns s w} : n ∈ ns → Path n s w → Path (.program ns) s w

mutual

/-- The greatest number of expressions on a path from a tree to a leaf. -/
def height : Node → Nat
  | identifier _ _ | integer _ _ | boolean _ _ => 1
  | unary _ _ right => right.height + 1
  | binary _ left _ right => max left.height right.height + 1
  | conditional _ condition consequence alternative =>
    max condition.height (max consequence.height (heightOption alternative)) + 1
  | function _ _ body => body.height + 1
  | call _ callee arguments => max callee.height (heightList arguments) + 1
  | letStatement _ _ value | returnStatement _ value | expressionStatement _ value => value.height
  | block _ statements | program statements => heightList statements

/-- The height of the highest of some trees. -/
def heightList : List Node → Nat
  | [] => 0
  | node :: more => max node.height (heightList more)

/-- The height of an optional tree. -/
def heightOption : Option Node → Nat
  | none => 0
  | some node => node.height

end

/-- No tree of a list is higher than the list. -/
theorem heightList_le_iff {ns : List Node} {k : Nat} :
    heightList ns ≤ k ↔ ∀ n ∈ ns, n.height ≤ k := by
  induction ns with
  | nil => simp [heightList]
  | cons n ns ih => rw [heightList, Nat.max_le, ih, List.forall_mem_cons]

theorem height_le_heightList {n : Node} {ns : List Node} (h : n ∈ ns) :
    n.height ≤ heightList ns :=
  heightList_le_iff.1 (Nat.le_refl _) n h

theorem Path.le_height {n : Node} {s w : Nat} (h : n.Path s w) : s + w ≤ n.height := by
  induction h with
  | identifier | integer | boolean => exact Nat.le_refl 1
  | unary _ ih | body _ ih => simp only [height]; omega
  | left _ ih | right _ ih => simp only [height]; omega
  | condition _ ih | consequence _ ih => simp only [height]; omega
  | alternative _ ih => simp only [height, heightOption]; omega
  | callee _ ih => simp only [height]; omega
  | argument hn _ ih =>
    have hle := height_le_heightList hn
    simp only [height]
    omega
  | binding _ ih | result _ ih | expression _ ih => simpa only [height] using ih
  | emptyBlock | emptyProgram => exact Nat.zero_le _
  | block hn _ ih | program hn _ ih =>
    simp only [height]
    exact Nat.le_trans ih (height_le_heightList hn)

mutual

/-- Some path is as long as a tree is high. -/
theorem exists_path (n : Node) : ∃ s w, n.Path s w ∧ s + w = n.height := by
  match n with
  | identifier _ _ => exact ⟨1, 0, .identifier, rfl⟩
  | integer _ _ => exact ⟨1, 0, .integer, rfl⟩
  | boolean _ _ => exact ⟨1, 0, .boolean, rfl⟩
  | unary _ _ right =>
    obtain ⟨s, w, h, hs⟩ := right.exists_path
    exact ⟨s + 1, w, .unary h, by rw [height]; omega⟩
  | binary _ left _ right =>
    obtain ⟨s, w, h, hs⟩ := left.exists_path
    obtain ⟨s', w', h', hs'⟩ := right.exists_path
    rcases Nat.le_total right.height left.height with hle | hle
    · exact ⟨s, w + 1, .left h, by rw [height]; omega⟩
    · exact ⟨s' + 1, w', .right h', by rw [height]; omega⟩
  | conditional _ condition consequence none =>
    obtain ⟨s, w, h, hs⟩ := condition.exists_path
    obtain ⟨s', w', h', hs'⟩ := consequence.exists_path
    rcases Nat.le_total consequence.height condition.height with hle | hle
    · exact ⟨s + 1, w, .condition h, by rw [height, heightOption]; omega⟩
    · exact ⟨s' + 1, w', .consequence h', by rw [height, heightOption]; omega⟩
  | conditional _ condition consequence (some alternative) =>
    obtain ⟨s, w, h, hs⟩ := condition.exists_path
    obtain ⟨s', w', h', hs'⟩ := consequence.exists_path
    obtain ⟨s'', w'', h'', hs''⟩ := alternative.exists_path
    have hmax : consequence.height ≤ condition.height ∧ alternative.height ≤ condition.height ∨
        condition.height ≤ consequence.height ∧ alternative.height ≤ consequence.height ∨
        condition.height ≤ alternative.height ∧ consequence.height ≤ alternative.height := by
      omega
    rcases hmax with hmax | hmax | hmax
    · exact ⟨s + 1, w, .condition h, by rw [height, heightOption]; omega⟩
    · exact ⟨s' + 1, w', .consequence h', by rw [height, heightOption]; omega⟩
    · exact ⟨s'' + 1, w'', .alternative h'', by rw [height, heightOption]; omega⟩
  | function _ _ body =>
    obtain ⟨s, w, h, hs⟩ := body.exists_path
    exact ⟨s + 1, w, .body h, by rw [height]; omega⟩
  | call _ callee arguments =>
    obtain ⟨s, w, h, hs⟩ := callee.exists_path
    rcases Nat.le_total (heightList arguments) callee.height with hle | hle
    · exact ⟨s, w + 1, .callee h, by rw [height]; omega⟩
    · rcases exists_path_mem arguments with hnil | ⟨n, hn, s', w', h', hs'⟩
      · have hempty : heightList arguments = 0 := by rw [hnil, heightList]
        exact ⟨s, w + 1, .callee h, by rw [height]; omega⟩
      · exact ⟨s' + 1, w', .argument hn h', by rw [height]; omega⟩
  | letStatement _ _ value =>
    obtain ⟨s, w, h, hs⟩ := value.exists_path
    exact ⟨s, w, .binding h, by rwa [height]⟩
  | returnStatement _ value =>
    obtain ⟨s, w, h, hs⟩ := value.exists_path
    exact ⟨s, w, .result h, by rwa [height]⟩
  | expressionStatement _ value =>
    obtain ⟨s, w, h, hs⟩ := value.exists_path
    exact ⟨s, w, .expression h, by rwa [height]⟩
  | block _ statements =>
    rcases exists_path_mem statements with hnil | ⟨n, hn, s, w, h, hs⟩
    · rw [hnil]
      exact ⟨0, 0, .emptyBlock, rfl⟩
    · exact ⟨s, w, .block hn h, by rwa [height]⟩
  | program statements =>
    rcases exists_path_mem statements with hnil | ⟨n, hn, s, w, h, hs⟩
    · rw [hnil]
      exact ⟨0, 0, .emptyProgram, rfl⟩
    · exact ⟨s, w, .program hn h, by rwa [height]⟩

theorem exists_path_mem (ns : List Node) :
    ns = [] ∨ ∃ n ∈ ns, ∃ s w, n.Path s w ∧ s + w = heightList ns := by
  match ns with
  | [] => exact .inl rfl
  | n :: ns =>
    obtain ⟨s, w, h, hs⟩ := n.exists_path
    rcases Nat.le_total (heightList ns) n.height with hle | hle
    · exact .inr ⟨n, List.mem_cons_self, s, w, h, by rw [heightList]; omega⟩
    · rcases exists_path_mem ns with hnil | ⟨m, hm, s', w', h', hs'⟩
      · have hempty : heightList ns = 0 := by rw [hnil, heightList]
        exact .inr ⟨n, List.mem_cons_self, s, w, h, by rw [heightList]; omega⟩
      · exact .inr ⟨m, List.mem_cons_of_mem n hm, s', w', h', by rw [heightList]; omega⟩

end

/-- The height is the least bound on the lengths of paths. -/
theorem height_le_iff {n : Node} {k : Nat} : n.height ≤ k ↔ ∀ s w, n.Path s w → s + w ≤ k := by
  constructor
  · intro hk s w h
    exact Nat.le_trans h.le_height hk
  · intro hk
    obtain ⟨s, w, h, hs⟩ := n.exists_path
    rw [← hs]
    exact hk s w h

mutual

/-- Places do not matter for the height. -/
theorem height_unplaced (n : Node) : n.unplaced.height = n.height := by
  match n with
  | identifier _ _ | integer _ _ | boolean _ _ => rfl
  | unary _ _ right => rw [unplaced, height, height, right.height_unplaced]
  | binary _ left _ right =>
    rw [unplaced, height, height, left.height_unplaced, right.height_unplaced]
  | conditional _ condition consequence alternative =>
    rw [unplaced, height, height, condition.height_unplaced, consequence.height_unplaced,
      height_unplacedOption alternative]
  | function _ _ body => rw [unplaced, height, height, body.height_unplaced]
  | call _ callee arguments =>
    rw [unplaced, height, height, callee.height_unplaced, height_unplacedList arguments]
  | letStatement _ _ value => rw [unplaced, height, height, value.height_unplaced]
  | returnStatement _ value => rw [unplaced, height, height, value.height_unplaced]
  | expressionStatement _ value => rw [unplaced, height, height, value.height_unplaced]
  | block _ statements => rw [unplaced, height, height, height_unplacedList statements]
  | program statements => rw [unplaced, height, height, height_unplacedList statements]

theorem height_unplacedList (ns : List Node) : heightList (unplacedList ns) = heightList ns := by
  match ns with
  | [] => rfl
  | n :: ns =>
    rw [unplacedList, heightList, heightList, n.height_unplaced, height_unplacedList ns]

theorem height_unplacedOption (n : Option Node) :
    heightOption (unplacedOption n) = heightOption n := by
  match n with
  | none => rfl
  | some n => rw [unplacedOption, heightOption, heightOption, n.height_unplaced]

end

end Node

open Node

/-- Through how many left operands and callees a path of an expression at a number of levels may
pass: those on the paths of its first form, and one for each level that is then left. -/
def wrapLimit : Nat → Nat
  | 0 => 0
  | levels + 1 => wrapLimit levels + levels

/-- How high an expression at a number of levels may be. -/
def heightLimit (levels : Nat) : Nat := levels + wrapLimit levels

theorem heightLimit_succ (levels : Nat) :
    heightLimit (levels + 1) = heightLimit levels + 1 + levels := by
  rw [heightLimit, heightLimit, wrapLimit]
  omega

theorem heightLimit_eq (levels : Nat) : heightLimit levels = levels * (levels + 1) / 2 := by
  have h : heightLimit levels * 2 = levels * (levels + 1) := by
    induction levels with
    | zero => rfl
    | succ levels ih =>
      calc
        heightLimit (levels + 1) * 2 = heightLimit levels * 2 + 2 * (levels + 1) := by
          rw [heightLimit_succ]
          omega
        _ = levels * (levels + 1) + 2 * (levels + 1) := by rw [ih]
        _ = (levels + 1) * (levels + 1 + 1) := by rw [← Nat.add_mul, Nat.mul_comm]
  rw [← h, Nat.mul_div_cancel _ (by decide)]

theorem wrapLimit_eq (levels : Nat) : wrapLimit levels = levels * (levels - 1) / 2 := by
  cases levels with
  | zero => rfl
  | succ levels =>
    calc
      wrapLimit (levels + 1) = heightLimit levels := Nat.add_comm _ _
      _ = levels * (levels + 1) / 2 := heightLimit_eq levels
      _ = (levels + 1) * (levels + 1 - 1) / 2 := by rw [Nat.add_sub_cancel, Nat.mul_comm]

/-- On each path through the tree at most `c` expressions are left otherwise than through a left
operand or a callee, and at most `l` through one. -/
def Node.Bounded (c l : Nat) (n : Node) : Prop := ∀ s w, n.Path s w → s ≤ c ∧ w ≤ l

/-! ### Forms -/

namespace Grammar

section Forms

variable {operand : Operand} {c l : Nat} {w v : Window} {n : Node}
  (hop : ∀ {p w n v}, (operand p).Leads Anyhow w n v → n.Bounded c l)

include hop

theorem bounded_statement (h : (statement operand).Leads Anyhow w (some n) v) :
    n.Bounded c l := by
  rw [leads_statement] at h
  split at h
  · exact absurd h.2 (by simp)
  · obtain ⟨_, hfound, h⟩ := h
    obtain rfl := Option.some.inj hfound
    split at h
    · obtain ⟨-, -, value, u, hvalue, -, rfl⟩ := leads_letStatement.1 h
      intro s w hpath
      cases hpath with
      | binding hpath => exact hop hvalue _ _ hpath
    · split at h
      · obtain ⟨value, u, hvalue, -, rfl⟩ := leads_returnStatement.1 h
        intro s w hpath
        cases hpath with
        | result hpath => exact hop hvalue _ _ hpath
      · obtain ⟨value, u, hvalue, -, rfl⟩ := leads_expressionStatement.1 h
        intro s w hpath
        cases hpath with
        | expression hpath => exact hop hvalue _ _ hpath

theorem bounded_statements {stop : Kind → Bool} {ns : List Node}
    (h : (statementsUntil stop (statement operand)).Leads Anyhow w ns v) (hn : n ∈ ns) :
    n.Bounded c l := by
  obtain ⟨x, y, hstatement⟩ := leads_of_mem_statementsUntil h hn
  exact bounded_statement hop hstatement

theorem bounded_block (h : (block operand).Leads Anyhow w n v) : n.Bounded c l := by
  obtain ⟨ns, hns, -, rfl⟩ := leads_block.1 h
  intro s w hpath
  cases hpath with
  | emptyBlock => exact ⟨Nat.zero_le c, Nat.zero_le l⟩
  | block hn hpath => exact bounded_statements hop hns hn _ _ hpath

theorem bounded_arguments {close : Kind} {ns : List Node}
    (h : (arguments operand close).Leads Anyhow w ns v) (hn : n ∈ ns) : n.Bounded c l := by
  obtain ⟨x, y, hargument⟩ := leads_of_mem_commaList h hn
  exact hop (Parse.leads_advance_bind.1 hargument)

/-- The first form of an expression adds at most one to what the paths of its operands spend. -/
theorem bounded_opening {config : Config} {form : Opening}
    (h : (opening config operand form).Leads Anyhow w n v) : n.Bounded (c + 1) l := by
  intro s w hpath
  cases form with
  | name =>
    obtain ⟨-, rfl⟩ := leads_name.1 h
    cases hpath
    exact ⟨Nat.le_add_left 1 c, Nat.zero_le l⟩
  | numeral =>
    obtain ⟨_, -, -, -, rfl⟩ := leads_numeral.1 h
    cases hpath
    exact ⟨Nat.le_add_left 1 c, Nat.zero_le l⟩
  | truth =>
    obtain ⟨-, rfl⟩ := leads_truth.1 h
    cases hpath
    exact ⟨Nat.le_add_left 1 c, Nat.zero_le l⟩
  | unary =>
    obtain ⟨right, hright, rfl⟩ := leads_unary.1 h
    cases hpath with
    | unary hpath =>
      have hbound := hop hright _ _ hpath
      omega
  | group =>
    obtain ⟨u, hinner, -, -⟩ := leads_group.1 h
    have hbound := hop hinner _ _ hpath
    omega
  | conditional =>
    obtain ⟨-, c, u, hc, -, -, b, u', hb, h⟩ := leads_conditional.1 h
    split at h
    · obtain ⟨-, a, ha, rfl⟩ := h
      cases hpath with
      | condition hpath =>
        have hbound := hop hc _ _ hpath
        omega
      | consequence hpath =>
        have hbound := bounded_block hop hb _ _ hpath
        omega
      | alternative hpath =>
        have hbound := bounded_block hop ha _ _ hpath
        omega
    · obtain ⟨-, rfl⟩ := h
      cases hpath with
      | condition hpath =>
        have hbound := hop hc _ _ hpath
        omega
      | consequence hpath =>
        have hbound := bounded_block hop hb _ _ hpath
        omega
  | function =>
    obtain ⟨-, ps, u, -, -, b, hb, rfl⟩ := leads_function.1 h
    cases hpath with
    | body hpath =>
      have hbound := bounded_block hop hb _ _ hpath
      omega

/-- An operator wraps the paths through its left operand once more and adds nothing to what they
spend. -/
theorem bounded_continuation {left : Node} {c' l' : Nat} {form : Continuation}
    (hleft : left.Bounded c' l') (hc : c + 1 ≤ c') (hl : l ≤ l')
    (h : (continuation operand left form).Leads Anyhow w n v) : n.Bounded c' (l' + 1) := by
  intro s w hpath
  cases form with
  | binary =>
    obtain ⟨right, hright, rfl⟩ := leads_binary.1 h
    cases hpath with
    | left hpath =>
      have hbound := hleft _ _ hpath
      omega
    | right hpath =>
      have hbound := hop hright _ _ hpath
      omega
  | call =>
    obtain ⟨ns, hns, rfl⟩ := leads_call.1 h
    cases hpath with
    | callee hpath =>
      have hbound := hleft _ _ hpath
      omega
    | argument hn hpath =>
      have hbound := bounded_arguments hop hns hn _ _ hpath
      omega

end Forms

/-! ### Expressions -/

variable {config : Config} {w v : Window} {n : Node}

/-- Induction on the levels, for expressions together with chains: a chain may wrap what it begins
with once for each level, and the paths of its operands pass through no more wraps than that. -/
theorem bounded_expression_chain (levels : Nat) :
    (∀ {p w n v}, (expression { config } levels p).Leads Anyhow w n v →
      n.Bounded levels (wrapLimit levels)) ∧
    ∀ {p w n v left c l}, left.Bounded c l → levels ≤ c → wrapLimit levels ≤ l →
      (chain { config } levels p left).Leads Anyhow w n v → n.Bounded c (l + levels) := by
  induction levels with
  | zero =>
    refine ⟨fun h => absurd h leads_expression_zero, fun {p w n v left c l} hleft _ _ h => ?_⟩
    by_cases hw : p < w.peek.kind.precedence
    · exact absurd h (leads_chain_zero hw)
    · obtain ⟨-, rfl⟩ := (leads_chain_end hw).1 h
      exact hleft
  | succ levels ih =>
    obtain ⟨hexpression, hchain⟩ := ih
    constructor
    · intro p w n v h
      obtain ⟨form, -, left, u, hleft, h⟩ := leads_expression_succ.1 h
      exact hchain (bounded_opening hexpression hleft) (Nat.le_succ _) (Nat.le_refl _) h
    · intro p w n v left c l hleft hc hl h
      by_cases hw : p < w.peek.kind.precedence
      · obtain ⟨wider, u, hwider, h⟩ := (leads_chain_succ hw).1 h
        have hlimit : wrapLimit levels ≤ l := by
          rw [wrapLimit] at hl
          omega
        have hwider := bounded_continuation hexpression hleft hc hlimit hwider
        have hn := hchain hwider (Nat.le_of_succ_le hc) (Nat.le_succ_of_le hlimit) h
        rwa [Nat.add_assoc, Nat.add_comm 1] at hn
      · obtain ⟨-, rfl⟩ := (leads_chain_end hw).1 h
        intro s w hpath
        have hbound := hleft _ _ hpath
        omega

theorem bounded_expression {levels : Nat} {p : Precedence}
    (h : (expression { config } levels p).Leads Anyhow w n v) :
    n.Bounded levels (wrapLimit levels) :=
  (bounded_expression_chain levels).1 h

/-- Whatever the tokens are, and whether problems are found or not, the paths of a program are
bounded by its levels. -/
theorem bounded_program (config : Config) (levels : Nat) (w : Window) :
    (program { config } levels w).value.Bounded levels (wrapLimit levels) := by
  let x := statementsUntil (· == .eof) (statement (expression { config } levels)) w
  have hns {n : Node} (hn : n ∈ x.value) : n.Bounded levels (wrapLimit levels) :=
    bounded_statements bounded_expression ⟨rfl, rfl, trivial⟩ hn
  change (Node.program x.value).Bounded levels (wrapLimit levels)
  generalize x.value = ns at hns
  intro s w hpath
  cases hpath with
  | emptyProgram => exact ⟨Nat.zero_le _, Nat.zero_le _⟩
  | program hn hpath => exact hns hn _ _ hpath

end Grammar

theorem bounded_parse (config : Config) (source : Source) :
    (parse { config } source).program.Bounded maxNesting (wrapLimit maxNesting) :=
  Grammar.bounded_program config maxNesting _

/-- A tree whose paths are bounded is no higher than both bounds together. -/
theorem Node.Bounded.height_le {n : Node} {c l : Nat} (h : n.Bounded c l) : n.height ≤ c + l := by
  apply height_le_iff.2
  intro s w hpath
  obtain ⟨hspent, hwraps⟩ := h s w hpath
  exact Nat.add_le_add hspent hwraps

end MonkeyLang
