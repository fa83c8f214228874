import MonkeyLang.Proofs.Coordinates
import MonkeyLang.Proofs.ExactForms

/-!
# The tokens of a tree

In the order of the syntax, the tokens that introduced the nodes of a program stand in the order of
the text, none of them twice, whatever was dropped around them. A parse only moves forward, so the
window before a form and the one behind it enclose all that the form's tree lists. Main statements:
`expression_chain_trails`, by induction on the levels, and `introducing_parseText`.
-/

namespace MonkeyLang

open Grammar

/-! ### What a tree lists -/

/-- What a tree says of a token. -/
inductive Mark where
  /-- The token introduced a node. -/
  | listed (token : Token)
  /-- An expression stands as a statement here; with the first token listed for the expression. -/
  | starts (token : Token) (first : Option Token)

namespace Mark

/-- The token that carries a mark. -/
def token : Mark → Token
  | listed t | starts t _ => t

/-- The token of a mark that lists it. -/
def listed? : Mark → Option Token
  | listed t => some t
  | starts _ _ => none

theorem mem_filterMap_listed? {t : Token} {ms : List Mark} :
    t ∈ ms.filterMap listed? ↔ listed t ∈ ms := by
  rw [List.mem_filterMap]
  constructor
  · rintro ⟨m, hm, ht⟩
    cases m with
    | listed u =>
      obtain rfl := Option.some.inj ht
      exact hm
    | starts u first => cases ht
  · exact fun h => ⟨_, h, rfl⟩

end Mark

namespace Node

mutual

/-- The marks of a tree in the order of the syntax. A call and an operator between operands are
marked behind their first subtree, all other nodes before their subtrees. -/
def trail : Node → List Mark
  | identifier t _ | integer t _ | boolean t _ => [.listed t]
  | unary t _ right => .listed t :: right.trail
  | binary t left _ right => left.trail ++ .listed t :: right.trail
  | conditional t condition consequence alternative =>
    .listed t :: (condition.trail ++ (consequence.trail ++ trailOption alternative))
  | function t parameters body => .listed t :: (trailList parameters ++ body.trail)
  | call t callee arguments => callee.trail ++ .listed t :: trailList arguments
  | letStatement t name value => .listed t :: (name.trail ++ value.trail)
  | returnStatement t value => .listed t :: value.trail
  | expressionStatement t expression =>
    .starts t (expression.trail.findSome? Mark.listed?) :: expression.trail
  | block t statements => .listed t :: trailList statements
  | program statements => trailList statements

/-- The marks of some trees, one after the other. -/
def trailList : List Node → List Mark
  | [] => []
  | node :: more => node.trail ++ trailList more

/-- The marks of an optional tree. -/
def trailOption : Option Node → List Mark
  | none => []
  | some node => node.trail

end

theorem trailList_append (ns ms : List Node) :
    trailList (ns ++ ms) = trailList ns ++ trailList ms := by
  induction ns with
  | nil => rfl
  | cons n ns ih => simp [trailList, ih]

/-- The tokens that introduced the nodes of a tree, in the order of the syntax. The token of an
expression that stands as a statement is left out: it introduced no node of its own. -/
def introducing (n : Node) : List Token := n.trail.filterMap Mark.listed?

theorem filterMap_trailList (ns : List Node) :
    (trailList ns).filterMap Mark.listed? = ns.flatMap introducing := by
  induction ns with
  | nil => rfl
  | cons n ns ih => simp [trailList, introducing, ih]

/-- The last tree stands in the first one, and what the first one lists before it are the given
tokens. -/
inductive Contains : Node → List Token → Node → Prop
  | self {n} : Contains n [] n
  | operand {t o r ts m} : Contains r ts m → Contains (.unary t o r) (t :: ts) m
  | left {t l o r ts m} : Contains l ts m → Contains (.binary t l o r) ts m
  | right {t l o r ts m} :
    Contains r ts m → Contains (.binary t l o r) (l.introducing ++ t :: ts) m
  | condition {t c b a ts m} : Contains c ts m → Contains (.conditional t c b a) (t :: ts) m
  | consequence {t c b a ts m} :
    Contains b ts m → Contains (.conditional t c b a) (t :: (c.introducing ++ ts)) m
  | alternative {t c b a ts m} : Contains a ts m →
    Contains (.conditional t c b (some a)) (t :: (c.introducing ++ (b.introducing ++ ts))) m
  | parameter {t ps p qs b ts m} : Contains p ts m →
    Contains (.function t (ps ++ p :: qs) b) (t :: (ps.flatMap introducing ++ ts)) m
  | body {t ps b ts m} :
    Contains b ts m → Contains (.function t ps b) (t :: (ps.flatMap introducing ++ ts)) m
  | callee {t c ns ts m} : Contains c ts m → Contains (.call t c ns) ts m
  | argument {t c ns n more ts m} : Contains n ts m →
    Contains (.call t c (ns ++ n :: more))
      (c.introducing ++ t :: (ns.flatMap introducing ++ ts)) m
  | name {t b e ts m} : Contains b ts m → Contains (.letStatement t b e) (t :: ts) m
  | binding {t b e ts m} :
    Contains e ts m → Contains (.letStatement t b e) (t :: (b.introducing ++ ts)) m
  | result {t e ts m} : Contains e ts m → Contains (.returnStatement t e) (t :: ts) m
  | expression {t e ts m} : Contains e ts m → Contains (.expressionStatement t e) ts m
  | block {t ns n more ts m} : Contains n ts m →
    Contains (.block t (ns ++ n :: more)) (t :: (ns.flatMap introducing ++ ts)) m
  | program {ns n more ts m} : Contains n ts m →
    Contains (.program (ns ++ n :: more)) (ns.flatMap introducing ++ ts) m

/-- The marks of a tree are found among some marks, behind those that list the given tokens. -/
def Among (m : Node) (marks : List Mark) (ts : List Token) : Prop :=
  ∃ before after, marks = before ++ (m.trail ++ after) ∧ before.filterMap Mark.listed? = ts

namespace Among

variable {m : Node} {marks : List Mark} {ts : List Token}

theorem behind (h : m.Among marks ts) (more : List Mark) :
    m.Among (more ++ marks) (more.filterMap Mark.listed? ++ ts) := by
  obtain ⟨before, after, rfl, rfl⟩ := h
  exact ⟨more ++ before, after, by rw [List.append_assoc], List.filterMap_append⟩

theorem append (h : m.Among marks ts) (more : List Mark) : m.Among (marks ++ more) ts := by
  obtain ⟨before, after, rfl, hts⟩ := h
  exact ⟨before, after ++ more, by simp only [List.append_assoc], hts⟩

theorem behindList {n : Node} {more : List Node} (h : m.Among n.trail ts) (ns : List Node) :
    m.Among (trailList (ns ++ n :: more)) (ns.flatMap introducing ++ ts) := by
  rw [trailList_append, trailList, ← filterMap_trailList]
  exact (h.append _).behind _

end Among

/-- What a tree contains is found among its marks. -/
theorem Contains.among {n m : Node} {ts : List Token} (h : n.Contains ts m) :
    m.Among n.trail ts := by
  induction h with
  | self => exact ⟨[], [], (List.append_nil _).symm, rfl⟩
  | operand _ ih | result _ ih => exact ih.behind [.listed _]
  | left _ ih | callee _ ih => exact ih.append _
  | right _ ih => exact (ih.behind [.listed _]).behind _
  | condition _ ih | name _ ih => exact (ih.append _).behind [.listed _]
  | consequence _ ih => exact ((ih.append _).behind _).behind [.listed _]
  | alternative _ ih => exact ((ih.behind _).behind _).behind [.listed _]
  | parameter _ ih => exact ((ih.behindList _).append _).behind [.listed _]
  | body _ ih =>
    rw [← filterMap_trailList]
    exact (ih.behind _).behind [.listed _]
  | argument _ ih => exact ((ih.behindList _).behind [.listed _]).behind _
  | binding _ ih => exact (ih.behind _).behind [.listed _]
  | expression _ ih => exact ih.behind [.starts _ _]
  | block _ ih => exact (ih.behindList _).behind [.listed _]
  | program _ ih => exact ih.behindList _

end Node

/-! ### What a window passes -/

namespace Window

/-- On the way from `w` to `v` the marked tokens are passed in their order. A token is listed once
at most, and an end token never. Where an expression starts as a statement, the first token listed
for it is passed next, and may be the same. -/
inductive Trails : Window → List Mark → Window → Prop
  | done {w} : Trails w [] w
  | skip {w ms v} : Trails w.advance ms v → Trails w ms v
  | listed {w ms v} : w.current.kind ≠ .eof → Trails w.advance ms v →
    Trails w (.listed w.current :: ms) v
  | starts {w t ms v} : Trails w (.listed t :: ms) v →
    Trails w (.starts w.current (some t) :: .listed t :: ms) v

namespace Trails

variable {w u v : Window} {ms ns : List Mark}

theorem append (h : w.Trails ms u) (h' : u.Trails ns v) : w.Trails (ms ++ ns) v := by
  induction h with
  | done => exact h'
  | skip _ ih => exact .skip (ih h')
  | listed hne _ ih => exact .listed hne (ih h')
  | starts _ ih => exact .starts (ih h')

theorem advance (h : w.Trails ms v) : w.Trails ms v.advance := by
  rw [← List.append_nil ms]
  exact h.append (.skip .done)

theorem of_reads {us : List Token} (h : w.Reads us v) : w.Trails [] v := by
  induction us generalizing w with
  | nil =>
    obtain rfl := h
    exact .done
  | cons t us ih => exact .skip (ih h.2)

theorem pastSemicolon (h : w.Trails ms v.advance) : w.Trails ms v.pastSemicolon.advance := by
  rw [Window.pastSemicolon]
  split
  · exact h.advance
  · exact h

end Trails

/-- The tree of an expression lists tokens on the way from `w` to behind `v`, at least one. -/
def Lists (w : Window) (n : Node) (v : Window) : Prop :=
  ∃ t ms, n.trail = .listed t :: ms ∧ w.Trails (.listed t :: ms) v.advance

namespace Lists

variable {w v : Window} {n : Node}

theorem trails (h : w.Lists n v) : w.Trails n.trail v.advance := by
  obtain ⟨t, ms, hn, h⟩ := h
  rw [hn]
  exact h

/-- An expression that stands as a statement starts at or before the first token it lists. -/
theorem starts (h : w.Lists n v) :
    w.Trails (Node.expressionStatement w.current n).trail v.advance := by
  obtain ⟨t, ms, hn, h⟩ := h
  rw [Node.trail, hn]
  exact .starts h

end Lists

end Window

namespace Grammar

open Node Window

variable {w v : Window} {n : Node}

/-! ### Items -/

section Items

variable {item : Parse Node} (hitem : TakesComma item)
  (htrails : ∀ {w n v}, item.Leads Anyhow w n v → w.advance.Trails n.trail v.advance)

include hitem htrails

theorem leadsRest_trails {close : Kind} {ns : List Node}
    (h : LeadsRest Anyhow item close w ns v) : w.advance.Trails (trailList ns) v.advance := by
  induction ns generalizing w with
  | nil =>
    obtain ⟨-, rfl⟩ := h.of_nil hitem
    exact .skip .done
  | cons n ns ih =>
    obtain ⟨-, u, hfirst, hmore⟩ := h.of_cons hitem
    exact .skip ((htrails hfirst).append (ih hmore))

theorem commaList_trails {close : Kind} {ns : List Node}
    (h : (commaList item close).Leads Anyhow w ns v) :
    w.advance.Trails (trailList ns) v.advance := by
  rw [leads_commaList] at h
  split at h
  · obtain ⟨rfl, rfl⟩ := h
    exact .skip .done
  · obtain ⟨first, u, hfirst, more, hmore, rfl⟩ := h
    exact (htrails hfirst).append (leadsRest_trails hitem htrails hmore)

end Items

theorem parameters_trails {ps : List Node} (h : parameters.Leads Anyhow w ps v) :
    w.advance.Trails (trailList ps) v.advance := by
  refine commaList_trails takesComma_parameter (fun {w n v} hname => ?_) h
  obtain ⟨hkind, rfl, rfl⟩ := leads_parameter.1 hname
  exact .listed (by simp [hkind]) .done

/-! ### Statements and blocks -/

section Operand

variable {config : Config} {levels : Nat}
  (hop : ∀ {p w n v}, (expression { config } levels p).Leads Anyhow w n v → w.Lists n v)

include hop

theorem statement_trails {found : Option Node}
    (h : (statement (expression { config } levels)).Leads Anyhow w found v) :
    w.Trails (trailOption found) v.advance := by
  rw [leads_statement] at h
  split at h
  · obtain ⟨rfl, rfl⟩ := h
    exact .skip .done
  · obtain ⟨n, rfl, h⟩ := h
    split at h
    · next hlet =>
      obtain ⟨hname, -, value, u, hvalue, rfl, rfl⟩ := leads_letStatement.1 h
      have hbound : w.advance.Trails [.listed w.peek] w.advance.advance :=
        .listed (by simp [hname]) .done
      have hrest := (hbound.advance.append (hop hvalue).trails).pastSemicolon
      exact .listed (by simp [hlet]) hrest
    · split at h
      · next hreturn =>
        obtain ⟨value, u, hvalue, rfl, rfl⟩ := leads_returnStatement.1 h
        exact .listed (by simp [hreturn]) (hop hvalue).trails.pastSemicolon
      · obtain ⟨value, u, hvalue, rfl, rfl⟩ := leads_expressionStatement.1 h
        exact (hop hvalue).starts.pastSemicolon

/-- The statements that a loop yields, in spite of those that failed between them. -/
theorem statementsUntil_trails {stop : Kind → Bool} (hstop : stop .eof = true) {ns : List Node}
    (h : (statementsUntil stop (statement (expression { config } levels))).Leads Anyhow w ns v) :
    w.Trails (trailList ns) v := by
  obtain ⟨rfl, rfl, -⟩ := h
  have hreads := StepInvariant.reads.statement (StepInvariant.reads.expression { config } levels)
  induction w using statements_induction hstop hreads with
  | stops w hw =>
    rw [statementsUntil_stop hw]
    exact .done
  | goesOn w hw ih =>
    simp only [statementsUntil_next hstop hreads hw, followedBy, Parse.recover_value,
      Parse.recover_window, trailList_append]
    refine Trails.append ?_ ih
    cases ho : ((statement (expression { config } levels)).run w).value with
    | none =>
      obtain ⟨us, hus⟩ := hreads w
      exact (Trails.of_reads hus).advance
    | some found =>
      have hfound := statement_trails hop ⟨ho, rfl, trivial⟩
      cases found with
      | none => exact hfound
      | some n => simpa [trailList, trailOption] using hfound

theorem block_trails (hw : w.current.kind = .lbrace)
    (h : (block (expression { config } levels)).Leads Anyhow w n v) :
    w.Trails n.trail v.advance := by
  obtain ⟨ns, hns, -, rfl⟩ := leads_block.1 h
  exact .listed (by simp [hw]) (statementsUntil_trails hop (by simp) hns).advance

/-! ### Expressions -/

theorem opening_lists {form : Opening}
    (hform : ({} : Rules).opening? w.current.kind = some form)
    (h : (opening config (expression { config } levels) form).Leads Anyhow w n v) :
    w.Lists n v := by
  have hne := ne_eof_of_opening hform
  have hleaf : w.Trails [.listed w.current] w.advance := .listed hne .done
  cases form with
  | name =>
    obtain ⟨rfl, rfl⟩ := leads_name.1 h
    exact ⟨_, _, rfl, hleaf⟩
  | numeral =>
    obtain ⟨_, -, -, rfl, rfl⟩ := leads_numeral.1 h
    exact ⟨_, _, rfl, hleaf⟩
  | truth =>
    obtain ⟨rfl, rfl⟩ := leads_truth.1 h
    exact ⟨_, _, rfl, hleaf⟩
  | unary =>
    obtain ⟨right, hright, rfl⟩ := leads_unary.1 h
    exact ⟨_, _, rfl, .listed hne (hop hright).trails⟩
  | group =>
    obtain ⟨u, hinner, -, rfl⟩ := leads_group.1 h
    obtain ⟨t, ms, hn, hms⟩ := hop hinner
    exact ⟨t, ms, hn, .skip hms.advance⟩
  | conditional =>
    obtain ⟨-, c, u, hc, -, hlbrace, b, u', hb, h⟩ := leads_conditional.1 h
    have hcondition : w.advance.Trails c.trail u.advance.advance := .skip (hop hc).trails.advance
    have hconsequence := block_trails hop hlbrace hb
    split at h
    · obtain ⟨hlbrace', a, ha, rfl⟩ := h
      have halternative := block_trails hop hlbrace' ha
      refine ⟨_, _, rfl, .listed hne ?_⟩
      exact hcondition.append (hconsequence.advance.append halternative)
    · obtain ⟨rfl, rfl⟩ := h
      refine ⟨_, _, rfl, .listed hne (hcondition.append ?_)⟩
      rw [trailOption, List.append_nil]
      exact hconsequence
  | function =>
    obtain ⟨-, ps, u, hps, hlbrace, b, hb, rfl⟩ := leads_function.1 h
    refine ⟨_, _, rfl, .listed hne ?_⟩
    exact (Trails.skip (parameters_trails hps)).append (block_trails hop hlbrace hb)

/-- What continues an expression is listed behind it. -/
theorem continuation_lists {left : Node} {start : Window} {form : Continuation}
    (hleft : start.Lists left w) (hne : w.peek.kind ≠ .eof)
    (h : (continuation (expression { config } levels) left form).Leads Anyhow w.advance n v) :
    start.Lists n v := by
  obtain ⟨t, ms, hn, hms⟩ := hleft
  cases form with
  | binary =>
    obtain ⟨right, hright, rfl⟩ := leads_binary.1 h
    refine ⟨t, ms ++ .listed w.peek :: right.trail, by rw [trail, hn]; rfl, ?_⟩
    exact hms.append (.listed hne (hop hright).trails)
  | call =>
    obtain ⟨ns, hns, rfl⟩ := leads_call.1 h
    refine ⟨t, ms ++ .listed w.peek :: trailList ns, by rw [trail, hn]; rfl, ?_⟩
    refine hms.append (.listed hne ?_)
    refine commaList_trails (takesComma_argument config levels) (fun {w n v} hn => ?_) hns
    exact (hop (Parse.leads_advance_bind.1 hn)).trails

end Operand

/-- Induction on the levels, for expressions together with chains: a chain lists what it begins with
and then what its operators add. -/
theorem expression_chain_trails (config : Config) (levels : Nat) :
    (∀ {p w n v}, (expression { config } levels p).Leads Anyhow w n v → w.Lists n v) ∧
    ∀ {p w n v left} {start : Window}, start.Lists left w →
      (chain { config } levels p left).Leads Anyhow w n v → start.Lists n v := by
  induction levels with
  | zero =>
    refine ⟨fun h => absurd h leads_expression_zero, fun {p w n v left start} hleft h => ?_⟩
    by_cases hw : p < w.peek.kind.precedence
    · exact absurd h (leads_chain_zero hw)
    · obtain ⟨rfl, rfl⟩ := (leads_chain_end hw).1 h
      exact hleft
  | succ levels ih =>
    obtain ⟨hexpression, hchain⟩ := ih
    constructor
    · intro p w n v h
      obtain ⟨form, hform, left, u, hleft, h⟩ := leads_expression_succ.1 h
      exact hchain (opening_lists hexpression hform hleft) h
    · intro p w n v left start hleft h
      by_cases hw : p < w.peek.kind.precedence
      · obtain ⟨wider, u, hwider, h⟩ := (leads_chain_succ hw).1 h
        exact hchain (continuation_lists hexpression hleft (ne_eof_of_lt hw) hwider) h
      · obtain ⟨rfl, rfl⟩ := (leads_chain_end hw).1 h
        exact hleft

end Grammar

/-- Whatever was dropped, the tree of a whole parse lists tokens on the way through the source. -/
theorem parse_trails (config : Config) (source : Source) :
    ∃ v, (Window.ofSource source).Trails (parse { config } source).program.trail v :=
  ⟨_, statementsUntil_trails (expression_chain_trails config maxNesting).1 rfl
    ⟨rfl, rfl, trivial⟩⟩

/-! ### In a text -/

/-- The token of the first mark stands before that of the second one. Where the first mark is that
of a statement, both may be the same token. -/
def Mark.Precedes : Mark → Mark → Prop
  | listed t, m => t.place < m.token.place
  | starts t _, m => t.place ≤ m.token.place

namespace Window.Trails

variable {w v : Window} {ms : List Mark}

theorem first_isSome (h : w.Trails ms v) :
    ∀ own first, .starts own first ∈ ms → first.isSome := by
  induction h with
  | done => simp
  | skip _ ih => exact ih
  | listed _ _ ih => simpa using ih
  | starts _ ih =>
    intro own first hmem
    rcases List.mem_cons.1 hmem with heq | hmem
    · cases heq
      rfl
    · exact ih own first hmem

variable {s : Scan}

theorem sublist_tokens (h : w.Trails ms v) (hw : w.Shows (.text s)) :
    (ms.filterMap Mark.listed?).Sublist s.tokens := by
  induction h generalizing s with
  | done => exact List.nil_sublist _
  | skip _ ih => exact (ih hw.advance).trans s.tokens_next_sublist
  | listed hne _ ih =>
    have hcurrent : _ = s.token := hw.1
    rw [hcurrent] at hne ⊢
    rw [Scan.tokens_eq, if_neg hne]
    exact (ih hw.advance).cons_cons _
  | starts _ ih => exact ih hw

theorem mem_tokens (h : w.Trails ms v) (hw : w.Shows (.text s)) :
    ∀ m ∈ ms, m.token ∈ s.tokens := by
  have hcurrent {w : Window} {s : Scan} (hw : w.Shows (.text s)) : w.current ∈ s.tokens := by
    rw [hw.1]
    exact s.token_mem_tokens
  induction h generalizing s with
  | done => simp
  | skip _ ih => exact fun m hm => s.tokens_next_sublist.mem (ih hw.advance m hm)
  | listed _ _ ih =>
    intro m hm
    rcases List.mem_cons.1 hm with rfl | hm
    · exact hcurrent hw
    · exact s.tokens_next_sublist.mem (ih hw.advance m hm)
  | starts _ ih =>
    intro m hm
    rcases List.mem_cons.1 hm with rfl | hm
    · exact hcurrent hw
    · exact ih hw m hm

/-- Each step of a window leads to a later token, until the end comes. -/
theorem pairwise_precedes (h : w.Trails ms v) (hw : w.Shows (.text s)) :
    ms.Pairwise Mark.Precedes := by
  induction h generalizing s with
  | done => exact .nil
  | skip _ ih => exact ih hw.advance
  | listed hne hrest ih =>
    have hmem := hrest.mem_tokens hw.advance
    rw [hw.1] at hne ⊢
    refine .cons (fun m hm => ?_) (ih hw.advance)
    exact (Scan.precedes_of_mem_tokens_next hne _ (hmem m hm)).place_lt
  | starts hrest ih =>
    have hmem := hrest.mem_tokens hw
    rw [hw.1]
    exact .cons (fun m hm => s.place_token_le _ (hmem m hm)) (ih hw)

end Window.Trails

/-- Whatever diagnostics there are, the tokens that introduced the nodes of a program are tokens of
its text, in the order of the text and none of them twice. Where an expression stands as a
statement, its token is a token of the text too: it stands behind everything that is listed before
the statement, and at or before the first token listed for the expression. -/
theorem introducing_parseText (config : Config) (text : String) :
    (parseText config text).program.introducing.Sublist (tokenize text) ∧
      (parseText config text).program.introducing.Pairwise
        (fun (t u : Token) => t.place < u.place) ∧
      ∀ ts own e, (parseText config text).program.Contains ts (.expressionStatement own e) →
        own ∈ tokenize text ∧ (∃ first ∈ e.introducing.head?, own.place ≤ first.place) ∧
          ∀ t ∈ ts, t.place < own.place := by
  obtain ⟨v, htrails⟩ :
      ∃ v, (Window.ofSource (.ofText text)).Trails (parseText config text).program.trail v :=
    parse_trails config _
  have hshows : (Window.ofSource (.ofText text)).Shows (.text (.ofText text)) :=
    Window.shows_ofSource _
  have hsublist := htrails.sublist_tokens hshows
  refine ⟨hsublist, ?_, fun ts own e hcontains => ?_⟩
  · exact ((Scan.pairwise_tokens _).sublist hsublist).imp Token.Precedes.place_lt
  · obtain ⟨before, after, hmarks, rfl⟩ := hcontains.among
    rw [hmarks, Node.trail, ← List.head?_filterMap, List.cons_append] at htrails
    have hsome := htrails.first_isSome _ _ List.mem_append_cons_self
    obtain ⟨first, hfirst⟩ := Option.isSome_iff_exists.1 hsome
    obtain ⟨-, hown, hbefore⟩ := List.pairwise_append.1 (htrails.pairwise_precedes hshows)
    refine ⟨htrails.mem_tokens hshows _ List.mem_append_cons_self, ⟨first, hfirst, ?_⟩,
      fun t ht => ?_⟩
    · have hlisted := Mark.mem_filterMap_listed?.1 (List.mem_of_head? hfirst)
      exact List.rel_of_pairwise_cons hown (List.mem_append_left _ hlisted)
    · exact hbefore _ (Mark.mem_filterMap_listed?.1 ht) _ List.mem_cons_self

end MonkeyLang
