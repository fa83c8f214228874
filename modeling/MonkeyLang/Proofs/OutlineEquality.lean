import Mathlib.Data.List.Forall2
import MonkeyLang.Syntax.Outline

/-!
# Outlines of trees, compared as data

Plain data is compared by what it holds: numbers by their value, and mappings without regard to the
order of their entries. Two outlines are equal in this sense exactly if the trees have the same
kinds of nodes at the same places with the same fields of their own, so an outline leaves out the
kinds and the texts of tokens and nothing else. Main statements: `equal_ofFields`, by which mappings
of the same names are compared field by field, and `outline_equal_iff`.
-/

namespace MonkeyLang

/-! ### Equality of data -/

namespace Value

mutual

/-- Whether two values hold the same: scalars that are equal, sequences with equal items, or
mappings with as many entries of which each key of the first has an equal value in the second. -/
def equal : Value → Value → Bool
  | scalar a, scalar b => a.sameKey b
  | list as, list bs => equalItems as bs
  | mapping es, mapping fs => es.length == fs.length && foundIn fs es
  | _, _ => false

/-- Whether two sequences are equal in length and item by item. -/
def equalItems : List Value → List Value → Bool
  | [], [] => true
  | a :: as, b :: bs => a.equal b && equalItems as bs
  | _, _ => false

/-- Whether every entry is found among some entries, by its key and with an equal value. -/
def foundIn (fs : List (Scalar × Value)) : List (Scalar × Value) → Bool
  | [] => true
  | (k, v) :: es =>
    ((fs.find? fun f => k.sameKey f.1).any fun f => v.equal f.2) && foundIn fs es

end

/-- The order of entries does not matter, and a truth value counts as a number. -/
example : (mapping [(.text "a", .ofInt 1), (.text "b", .list [])]).equal
    (mapping [(.text "b", .list []), (.text "a", .ofBool true)]) = true := by decide +kernel

@[simp] theorem equal_ofText (a b : String) : (ofText a).equal (ofText b) = (a == b) := by
  rw [ofText, ofText, equal, Scalar.sameKey]

@[simp] theorem equal_ofInt (a b : Int) : (ofInt a).equal (ofInt b) = (a == b) := by
  simp [ofInt, equal, Scalar.sameKey, Scalar.dyadic?]

@[simp] theorem equal_ofBool (a b : Bool) : (ofBool a).equal (ofBool b) = (a == b) := by
  cases a <;> cases b <;> decide

@[simp] theorem equal_list (as bs : List Value) :
    (list as).equal (list bs) = equalItems as bs := by
  rw [equal]

/-- Some fields as a mapping. -/
def ofFields (fields : List (String × Value)) : Value :=
  .mapping (fields.map fun f => (.text f.1, f.2))

theorem foundIn_text (name : String) (v w : Value) (fs es : List (Scalar × Value)) :
    foundIn ((.text name, w) :: fs) ((.text name, v) :: es) =
      (v.equal w && foundIn ((.text name, w) :: fs) es) := by
  simp [foundIn, Scalar.sameKey]

/-- An entry under a name that no field has is passed over. -/
theorem foundIn_of_not_mem {name : String} {v : Value} {fields : List (String × Value)}
    {fs : List (Scalar × Value)} (h : name ∉ fields.map Prod.fst) :
    foundIn ((.text name, v) :: fs) (fields.map fun f => (.text f.1, f.2)) =
      foundIn fs (fields.map fun f => (.text f.1, f.2)) := by
  induction fields with
  | nil => simp [foundIn]
  | cons f fields ih =>
    rw [List.map_cons, List.mem_cons, not_or] at h
    have hkey : (Scalar.text f.1).sameKey (.text name) = false := by
      simpa [Scalar.sameKey] using Ne.symm h.1
    simp only [List.map_cons, foundIn, List.find?_cons, hkey, ih h.2]

/-- Mappings of the same distinct names are equal if their fields are, one by one. -/
theorem equal_ofFields {fields fields' : List (String × Value)} (names : List String)
    (h : fields.map Prod.fst = names := by rfl) (h' : fields'.map Prod.fst = names := by rfl)
    (hnodup : names.Nodup := by decide) :
    (ofFields fields).equal (ofFields fields') = true ↔
      List.Forall₂ (fun v w => v.equal w = true) (fields.map Prod.snd) (fields'.map Prod.snd) := by
  have hlength : fields.length = fields'.length := by
    simpa using congrArg List.length (h.trans h'.symm)
  simp only [ofFields, equal, List.length_map, hlength, beq_self_eq_true, Bool.true_and]
  clear hlength
  induction names generalizing fields fields' with
  | nil =>
    obtain rfl := List.map_eq_nil_iff.1 h
    obtain rfl := List.map_eq_nil_iff.1 h'
    simp [foundIn]
  | cons name names ih =>
    obtain ⟨f, fields, rfl, rfl, hmore⟩ := List.map_eq_cons_iff.1 h
    obtain ⟨f', fields', rfl, hname, hmore'⟩ := List.map_eq_cons_iff.1 h'
    obtain ⟨hfresh, hnodup⟩ := List.nodup_cons.1 hnodup
    simp only [List.map_cons, hname, foundIn_text, foundIn_of_not_mem (hmore ▸ hfresh),
      Bool.and_eq_true, ih hmore hmore' hnodup, List.forall₂_cons]

end Value

namespace Node

/-! ### Trees that correspond -/

mutual

/-- Two trees of one shape: nodes of the same kind that were introduced at the same place and have
the same names, operators, numbers and truth values, as many children, and corresponding ones. -/
inductive Corresponds : Node → Node → Prop
  | identifier {t u v} : t.place = u.place → Corresponds (.identifier t v) (.identifier u v)
  | integer {t u v} : t.place = u.place → Corresponds (.integer t v) (.integer u v)
  | boolean {t u v} : t.place = u.place → Corresponds (.boolean t v) (.boolean u v)
  | unary {t u o r r'} : t.place = u.place → Corresponds r r' →
    Corresponds (.unary t o r) (.unary u o r')
  | binary {t u l l' o r r'} : t.place = u.place → Corresponds l l' → Corresponds r r' →
    Corresponds (.binary t l o r) (.binary u l' o r')
  | choice {t u c c' b b'} : t.place = u.place → Corresponds c c' → Corresponds b b' →
    Corresponds (.conditional t c b none) (.conditional u c' b' none)
  | alternative {t u c c' b b' a a'} : t.place = u.place → Corresponds c c' → Corresponds b b' →
    Corresponds a a' → Corresponds (.conditional t c b (some a)) (.conditional u c' b' (some a'))
  | function {t u ps ps' b b'} : t.place = u.place → CorrespondsList ps ps' →
    Corresponds b b' → Corresponds (.function t ps b) (.function u ps' b')
  | call {t u f f' ns ns'} : t.place = u.place → Corresponds f f' → CorrespondsList ns ns' →
    Corresponds (.call t f ns) (.call u f' ns')
  | binding {t u n n' e e'} : t.place = u.place → Corresponds n n' → Corresponds e e' →
    Corresponds (.letStatement t n e) (.letStatement u n' e')
  | result {t u e e'} : t.place = u.place → Corresponds e e' →
    Corresponds (.returnStatement t e) (.returnStatement u e')
  | expression {t u e e'} : t.place = u.place → Corresponds e e' →
    Corresponds (.expressionStatement t e) (.expressionStatement u e')
  | block {t u ns ns'} : t.place = u.place → CorrespondsList ns ns' →
    Corresponds (.block t ns) (.block u ns')
  | program {ns ns'} : CorrespondsList ns ns' → Corresponds (.program ns) (.program ns')

/-- Two sequences of trees that correspond one by one. -/
inductive CorrespondsList : List Node → List Node → Prop
  | nil : CorrespondsList [] []
  | cons {n n' ns ns'} : Corresponds n n' → CorrespondsList ns ns' →
    CorrespondsList (n :: ns) (n' :: ns')

end

/-! ### Outlines -/

open Value

/-- The name of the kind of a node. -/
def kindName : Node → String
  | identifier _ _ => "Identifier"
  | integer _ _ => "IntegerLiteral"
  | boolean _ _ => "BooleanLiteral"
  | unary _ _ _ => "PrefixExpression"
  | binary _ _ _ _ => "InfixExpression"
  | conditional _ _ _ _ => "IfExpression"
  | function _ _ _ => "FunctionLiteral"
  | call _ _ _ => "CallExpression"
  | letStatement _ _ _ => "LetStatement"
  | returnStatement _ _ => "ReturnStatement"
  | expressionStatement _ _ => "ExpressionStatement"
  | block _ _ => "BlockStatement"
  | program _ => "Program"

theorem exists_outline_eq (n : Node) :
    ∃ more, n.outline = .mapping ((.text "kind", .ofText n.kindName) :: more) := by
  cases n <;> exact ⟨_, by rw [outline]; rfl⟩

/-- Equal outlines are outlines of nodes of one kind. -/
theorem kindName_eq_of_equal {a b : Node} (h : a.outline.equal b.outline = true) :
    a.kindName = b.kindName := by
  obtain ⟨more, ha⟩ := a.exists_outline_eq
  obtain ⟨more', hb⟩ := b.exists_outline_eq
  rw [ha, hb, equal, foundIn_text, equal_ofText] at h
  simp only [Bool.and_eq_true, beq_iff_eq] at h
  exact h.2.1

/-- The outline of an absent tree differs from that of every tree. -/
theorem outline_ne_null (n : Node) :
    (scalar .null).equal n.outline = false ∧ n.outline.equal (scalar .null) = false := by
  obtain ⟨more, hn⟩ := n.exists_outline_eq
  rw [hn]
  constructor <;> rw [equal] <;> simp

/-- Nodes with fields of the same names have equal outlines if they are of one kind and stand at one
place, and their fields are equal. -/
theorem equal_outlineWith {kind kind' : String} {t u : Token}
    {fields fields' : List (String × Value)} (names : List String)
    (h : fields.map Prod.fst = names := by rfl) (h' : fields'.map Prod.fst = names := by rfl)
    (hnodup : ("kind" :: "line" :: "col" :: names).Nodup := by decide) :
    (outlineWith kind t fields).equal (outlineWith kind' u fields') = true ↔
      kind = kind' ∧ t.place = u.place ∧
        List.Forall₂ (fun v w => v.equal w = true) (fields.map Prod.snd)
          (fields'.map Prod.snd) := by
  have heq (kind : String) (t : Token) (fields : List (String × Value)) :
      outlineWith kind t fields = ofFields (("kind", .ofText kind) ::
        ("line", .ofInt t.place.line) :: ("col", .ofInt t.place.col) :: fields) := rfl
  obtain ⟨_, _, line, col⟩ := t
  obtain ⟨_, _, line', col'⟩ := u
  rw [heq, heq, equal_ofFields _ (by simp [h]) (by simp [h']) hnodup]
  simp [and_assoc]

theorem outline_program (ns : List Node) :
    (program ns).outline =
      ofFields [("kind", .ofText "Program"), ("statements", .list (outlineList ns))] := by
  rw [outline]
  rfl

mutual

/-- Trees with equal outlines correspond. -/
theorem corresponds_of_equal : ∀ {a b : Node}, a.outline.equal b.outline = true → Corresponds a b
  | identifier t v, b, h => by
    have hkind := kindName_eq_of_equal h
    cases b with
    | identifier u w =>
      rw [outline, outline, equal_outlineWith ["value"]] at h
      obtain ⟨-, hplace, _ | ⟨hv, -⟩⟩ := h
      obtain rfl : v = w := by simpa using hv
      exact .identifier hplace
    | _ => simp [kindName] at hkind
  | integer t v, b, h => by
    have hkind := kindName_eq_of_equal h
    cases b with
    | integer u w =>
      rw [outline, outline, equal_outlineWith ["value"]] at h
      obtain ⟨-, hplace, _ | ⟨hv, -⟩⟩ := h
      obtain rfl : v = w := by simpa using hv
      exact .integer hplace
    | _ => simp [kindName] at hkind
  | boolean t v, b, h => by
    have hkind := kindName_eq_of_equal h
    cases b with
    | boolean u w =>
      rw [outline, outline, equal_outlineWith ["value"]] at h
      obtain ⟨-, hplace, _ | ⟨hv, -⟩⟩ := h
      obtain rfl : v = w := by simpa using hv
      exact .boolean hplace
    | _ => simp [kindName] at hkind
  | unary t o r, b, h => by
    have hkind := kindName_eq_of_equal h
    cases b with
    | unary u p s =>
      rw [outline, outline, equal_outlineWith ["operator", "right"]] at h
      obtain ⟨-, hplace, _ | ⟨ho, _ | ⟨hr, -⟩⟩⟩ := h
      obtain rfl : o = p := by simpa using ho
      exact .unary hplace (corresponds_of_equal hr)
    | _ => simp [kindName] at hkind
  | binary t l o r, b, h => by
    have hkind := kindName_eq_of_equal h
    cases b with
    | binary u m p s =>
      rw [outline, outline, equal_outlineWith ["left", "operator", "right"]] at h
      obtain ⟨-, hplace, _ | ⟨hl, _ | ⟨ho, _ | ⟨hr, -⟩⟩⟩⟩ := h
      obtain rfl : o = p := by simpa using ho
      exact .binary hplace (corresponds_of_equal hl) (corresponds_of_equal hr)
    | _ => simp [kindName] at hkind
  | conditional t c d e, b, h => by
    have hkind := kindName_eq_of_equal h
    cases b with
    | conditional u c' d' e' =>
      rw [outline, outline, equal_outlineWith ["condition", "consequence", "alternative"]] at h
      obtain ⟨-, hplace, _ | ⟨hc, _ | ⟨hd, _ | ⟨he, -⟩⟩⟩⟩ := h
      have hc := corresponds_of_equal hc
      have hd := corresponds_of_equal hd
      match e, e', he with
      | none, none, _ => exact .choice hplace hc hd
      | some e, some e', he => exact .alternative hplace hc hd (corresponds_of_equal he)
      | none, some e', he => exact absurd he (Bool.eq_false_iff.1 e'.outline_ne_null.1)
      | some e, none, he => exact absurd he (Bool.eq_false_iff.1 e.outline_ne_null.2)
    | _ => simp [kindName] at hkind
  | function t ps d, b, h => by
    have hkind := kindName_eq_of_equal h
    cases b with
    | function u qs e =>
      rw [outline, outline, equal_outlineWith ["parameters", "body"]] at h
      obtain ⟨-, hplace, _ | ⟨hps, _ | ⟨hd, -⟩⟩⟩ := h
      exact .function hplace (correspondsList_of_equal hps) (corresponds_of_equal hd)
    | _ => simp [kindName] at hkind
  | call t f ns, b, h => by
    have hkind := kindName_eq_of_equal h
    cases b with
    | call u g ms =>
      rw [outline, outline, equal_outlineWith ["function", "arguments"]] at h
      obtain ⟨-, hplace, _ | ⟨hf, _ | ⟨hns, -⟩⟩⟩ := h
      exact .call hplace (corresponds_of_equal hf) (correspondsList_of_equal hns)
    | _ => simp [kindName] at hkind
  | letStatement t n e, b, h => by
    have hkind := kindName_eq_of_equal h
    cases b with
    | letStatement u m f =>
      rw [outline, outline, equal_outlineWith ["name", "value"]] at h
      obtain ⟨-, hplace, _ | ⟨hn, _ | ⟨he, -⟩⟩⟩ := h
      exact .binding hplace (corresponds_of_equal hn) (corresponds_of_equal he)
    | _ => simp [kindName] at hkind
  | returnStatement t e, b, h => by
    have hkind := kindName_eq_of_equal h
    cases b with
    | returnStatement u f =>
      rw [outline, outline, equal_outlineWith ["return_value"]] at h
      obtain ⟨-, hplace, _ | ⟨he, -⟩⟩ := h
      exact .result hplace (corresponds_of_equal he)
    | _ => simp [kindName] at hkind
  | expressionStatement t e, b, h => by
    have hkind := kindName_eq_of_equal h
    cases b with
    | expressionStatement u f =>
      rw [outline, outline, equal_outlineWith ["expression"]] at h
      obtain ⟨-, hplace, _ | ⟨he, -⟩⟩ := h
      exact .expression hplace (corresponds_of_equal he)
    | _ => simp [kindName] at hkind
  | block t ns, b, h => by
    have hkind := kindName_eq_of_equal h
    cases b with
    | block u ms =>
      rw [outline, outline, equal_outlineWith ["statements"]] at h
      obtain ⟨-, hplace, _ | ⟨hns, -⟩⟩ := h
      exact .block hplace (correspondsList_of_equal hns)
    | _ => simp [kindName] at hkind
  | program ns, b, h => by
    have hkind := kindName_eq_of_equal h
    cases b with
    | program ms =>
      rw [outline_program, outline_program, equal_ofFields ["kind", "statements"]] at h
      obtain _ | ⟨-, _ | ⟨hns, -⟩⟩ := h
      exact .program (correspondsList_of_equal hns)
    | _ => simp [kindName] at hkind

theorem correspondsList_of_equal : ∀ {as bs : List Node},
    (list (outlineList as)).equal (list (outlineList bs)) = true → CorrespondsList as bs
  | [], [], _ => .nil
  | a :: as, b :: bs, h => by
    rw [outlineList, outlineList, equal_list, equalItems, Bool.and_eq_true, ← equal_list] at h
    exact .cons (corresponds_of_equal h.1) (correspondsList_of_equal h.2)
  | [], _ :: _, h | _ :: _, [], h => by simp [outlineList, equalItems] at h

end

mutual

/-- Trees that correspond have the same outline. -/
theorem Corresponds.outline_eq : ∀ {a b : Node}, Corresponds a b → a.outline = b.outline
  | _, _, .identifier h | _, _, .integer h | _, _, .boolean h => by
    rw [outline, outline, outlineWith, outlineWith, h]
  | _, _, .unary h hr => by rw [outline, outline, outlineWith, outlineWith, h, hr.outline_eq]
  | _, _, .binary h hl hr => by
    rw [outline, outline, outlineWith, outlineWith, h, hl.outline_eq, hr.outline_eq]
  | _, _, .choice h hc hb => by
    rw [outline, outline, outlineWith, outlineWith, h, hc.outline_eq, hb.outline_eq]
  | _, _, .alternative h hc hb ha => by
    rw [outline, outline, outlineWith, outlineWith, h, hc.outline_eq, hb.outline_eq,
      outlineOption, outlineOption, ha.outline_eq]
  | _, _, .function h hps hb => by
    rw [outline, outline, outlineWith, outlineWith, h, hps.outlineList_eq, hb.outline_eq]
  | _, _, .call h hf hns => by
    rw [outline, outline, outlineWith, outlineWith, h, hf.outline_eq, hns.outlineList_eq]
  | _, _, .binding h hn he => by
    rw [outline, outline, outlineWith, outlineWith, h, hn.outline_eq, he.outline_eq]
  | _, _, .result h he | _, _, .expression h he => by
    rw [outline, outline, outlineWith, outlineWith, h, he.outline_eq]
  | _, _, .block h hns => by
    rw [outline, outline, outlineWith, outlineWith, h, hns.outlineList_eq]
  | _, _, .program hns => by rw [outline, outline, hns.outlineList_eq]

theorem CorrespondsList.outlineList_eq : ∀ {as bs : List Node}, CorrespondsList as bs →
    outlineList as = outlineList bs
  | _, _, .nil => rfl
  | _, _, .cons hn hns => by rw [outlineList, outlineList, hn.outline_eq, hns.outlineList_eq]

end

mutual

/-- An outline holds nothing that differs from itself. -/
theorem equal_outline_self : ∀ n : Node, n.outline.equal n.outline = true
  | identifier _ _ | integer _ _ | boolean _ _ => by
    rw [outline, equal_outlineWith ["value"]]
    simp
  | unary _ _ r => by
    rw [outline, equal_outlineWith ["operator", "right"]]
    simp [equal_outline_self r]
  | binary _ l _ r => by
    rw [outline, equal_outlineWith ["left", "operator", "right"]]
    simp [equal_outline_self l, equal_outline_self r]
  | conditional _ c d e => by
    rw [outline, equal_outlineWith ["condition", "consequence", "alternative"]]
    simp [equal_outline_self c, equal_outline_self d, equal_outlineOption_self e]
  | function _ ps d => by
    rw [outline, equal_outlineWith ["parameters", "body"]]
    simp [equal_outlineList_self ps, equal_outline_self d]
  | call _ f ns => by
    rw [outline, equal_outlineWith ["function", "arguments"]]
    simp [equal_outline_self f, equal_outlineList_self ns]
  | letStatement _ n e => by
    rw [outline, equal_outlineWith ["name", "value"]]
    simp [equal_outline_self n, equal_outline_self e]
  | returnStatement _ e => by
    rw [outline, equal_outlineWith ["return_value"]]
    simp [equal_outline_self e]
  | expressionStatement _ e => by
    rw [outline, equal_outlineWith ["expression"]]
    simp [equal_outline_self e]
  | block _ ns => by
    rw [outline, equal_outlineWith ["statements"]]
    simp [equal_outlineList_self ns]
  | program ns => by
    rw [outline_program, equal_ofFields ["kind", "statements"]]
    simp [equal_outlineList_self ns]

theorem equal_outlineList_self : ∀ ns : List Node,
    equalItems (outlineList ns) (outlineList ns) = true
  | [] => rfl
  | n :: ns => by
    rw [outlineList, equalItems, equal_outline_self n, equal_outlineList_self ns, Bool.and_self]

theorem equal_outlineOption_self : ∀ n : Option Node,
    (outlineOption n).equal (outlineOption n) = true
  | none => by rw [outlineOption, equal, Scalar.sameKey]
  | some n => equal_outline_self n

end

end Node

/-- Two trees, of whatever shape they were built, have the same outline exactly if they correspond:
they have the same kinds of nodes, introduced at the same places, with the same fields of their own
and corresponding children, as many and in the same order, and an alternative in one has its
counterpart in the other. Outlines that merely hold the same are the same. -/
theorem outline_equal_iff (a b : Node) :
    (a.outline = b.outline ↔ a.Corresponds b) ∧
      (a.outline.equal b.outline = true ↔ a.Corresponds b) := by
  have hequal : a.outline.equal b.outline = true → a.Corresponds b := Node.corresponds_of_equal
  refine ⟨⟨fun h => hequal ?_, fun h => h.outline_eq⟩, hequal, fun h => ?_⟩
  · rw [← h]
    exact a.equal_outline_self
  · rw [← h.outline_eq]
    exact a.equal_outline_self

end MonkeyLang
