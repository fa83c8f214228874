import MonkeyLang.Proofs.Reading

/-!
# Results of runs

Where a run leads and what it yields, for runs of which something is required of what happens in
them: nothing at all, or that no problem is found. A run of a composite form is made of runs of its
parts, so each form of the grammar has one equation that says what it yields. The statements of a
program or a block are all parsed in a run without a diagnostic, because a failed statement leaves
one.
-/

namespace MonkeyLang

variable {α β : Type}

/-- A requirement on what happens in a run that successive steps meet together, that taking a token
always meets, and that does not depend on the levels of nesting. -/
class Benign (ok : List Event → Prop) : Prop where
  nil : ok []
  append : ∀ {a b}, ok (a ++ b) ↔ ok a ∧ ok b
  took : ∀ t, ok [.took t]
  nested : ∀ {a}, ok (a.map Event.nested) ↔ ok a

/-- No problem was found. -/
def Quiet (trace : List Event) : Prop := Event.diagnostics trace = []

/-- Anything may have happened. -/
def Anyhow (_ : List Event) : Prop := True

instance : Benign Quiet where
  nil := rfl
  append := by simp [Quiet]
  took _ := rfl
  nested := by simp [Quiet]

instance : Benign Anyhow where
  nil := trivial
  append := (and_self_iff).symm
  took _ := trivial
  nested := Iff.rfl

/-- The window on a semicolon that comes next, or else the same window. -/
def Window.pastSemicolon (w : Window) : Window :=
  if w.peek.kind = .semicolon then w.advance else w

theorem Run.take_semicolon_window (w : Window) :
    (Run.take .semicolon w).window = w.pastSemicolon := by
  rw [Run.take_apply, Window.pastSemicolon]
  split <;> rfl

/-- Taking a token finds no problem. -/
theorem Run.diagnostics_take (kind : Kind) (w : Window) :
    Event.diagnostics (Run.take kind w).trace = [] := by
  rw [Run.take_apply]
  split <;> rfl

/-- From `w` the run yields `a` at `v`, and what happens is as required. -/
def Run.Leads (ok : List Event → Prop) (x : Run α) (w : Window) (a : α) (v : Window) : Prop :=
  (x w).value = a ∧ (x w).window = v ∧ ok (x w).trace

/-- From `w` the parse succeeds with `a` at `v`, and what happens is as required. -/
def Parse.Leads (ok : List Event → Prop) (p : Parse α) (w : Window) (a : α) (v : Window) : Prop :=
  Run.Leads ok p.run w (some a) v

variable {ok : List Event → Prop} [Benign ok]

namespace Run

@[simp] theorem leads_take {kind : Kind} {w v : Window} {b : Bool} :
    Leads ok (take kind) w b v ↔
      if w.peek.kind = kind then b = true ∧ v = w.advance else b = false ∧ v = w := by
  simp only [Leads, take_apply]
  split <;> simp [eq_comm, Benign.nil, Benign.took]

end Run

namespace Parse

variable {w v : Window} {a : α} {b : β}

omit [Benign ok] in
theorem leads_congr {p q : Parse α} (h : p.run w = q.run w) :
    p.Leads ok w a v ↔ q.Leads ok w a v := by
  simp only [Leads, Run.Leads, h]

omit [Benign ok] in
/-- A run that leads somewhere leads to a window that has what the parse keeps. -/
theorem Leads.keeps {I : Window → Prop} {p : Parse α} (h : p.Leads ok w a v)
    (hp : Parse.Respects (fun w _ _ v => I w → I v) p) (hw : I w) : I v :=
  h.2.1 ▸ hp w hw

@[simp] theorem leads_pure {a' : α} : Leads ok (pure a') w a v ↔ a = a' ∧ v = w := by
  simp [Leads, Run.Leads, pure_apply, eq_comm, Benign.nil]

@[simp] theorem leads_bind {p : Parse α} {f : α → Parse β} :
    Leads ok (p >>= f) w b v ↔ ∃ a u, p.Leads ok w a u ∧ (f a).Leads ok u b v := by
  simp only [Leads, Run.Leads, bind_apply]
  cases h : (p.run w).value with
  | none => simp
  | some a =>
    simp only [Option.some.injEq, Benign.append]
    constructor
    · rintro ⟨hb, hv, ha, hd⟩
      exact ⟨a, _, ⟨rfl, rfl, ha⟩, hb, hv, hd⟩
    · rintro ⟨_, _, ⟨rfl, rfl, ha⟩, hb, hv, hd⟩
      exact ⟨hb, hv, ha, hd⟩

omit [Benign ok] in
@[simp] theorem leads_map {p : Parse α} {f : α → β} :
    Leads ok (f <$> p) w b v ↔ ∃ a, p.Leads ok w a v ∧ b = f a := by
  simp only [Leads, Run.Leads, map_apply, Option.map_eq_some_iff]
  constructor
  · rintro ⟨⟨a, ha, rfl⟩, hv, hd⟩
    exact ⟨a, ⟨ha, hv, hd⟩, rfl⟩
  · rintro ⟨a, ⟨ha, hv, hd⟩, rfl⟩
    exact ⟨⟨a, ha, rfl⟩, hv, hd⟩

omit [Benign ok] in
@[simp] theorem leads_lift {x : Run α} : Leads ok (liftM x) w a v ↔ x.Leads ok w a v := by
  simp [Leads, Run.Leads, lift_apply]

@[simp] theorem leads_current {t : Token} :
    Leads ok current w t v ↔ t = w.current ∧ v = w := by
  simp [Leads, Run.Leads, current_apply, eq_comm, Benign.nil]

@[simp] theorem leads_peek {t : Token} : Leads ok peek w t v ↔ t = w.peek ∧ v = w := by
  simp [Leads, Run.Leads, peek_apply, eq_comm, Benign.nil]

@[simp] theorem leads_advance {u : Unit} : Leads ok advance w u v ↔ v = w.advance := by
  simp [Leads, Run.Leads, advance_apply, eq_comm, Benign.took]

omit [Benign ok] in
@[simp] theorem leads_reject {spot : Spot} {problem : Problem} :
    ¬ Leads ok (reject spot problem) w a v := by
  simp [Leads, Run.Leads, reject_apply]

@[simp] theorem leads_expect {kind : Kind} {u : Unit} :
    Leads ok (expect kind) w u v ↔ w.peek.kind = kind ∧ v = w.advance := by
  simp only [Leads, Run.Leads, expect_apply]
  split <;> simp_all [eq_comm, Benign.took]

/-! A parse that begins with a single step goes on from the window to which that step leads. -/

@[simp high] theorem leads_current_bind {f : Token → Parse β} :
    Leads ok (current >>= f) w b v ↔ (f w.current).Leads ok w b v := by
  simp [and_assoc]

@[simp high] theorem leads_peek_bind {f : Token → Parse β} :
    Leads ok (peek >>= f) w b v ↔ (f w.peek).Leads ok w b v := by
  simp [and_assoc]

@[simp high] theorem leads_advance_bind {f : Unit → Parse β} :
    Leads ok (advance >>= f) w b v ↔ (f ()).Leads ok w.advance b v := by
  simp only [leads_bind, leads_advance]
  constructor
  · rintro ⟨_, _, rfl, h⟩
    exact h
  · intro h
    exact ⟨_, _, rfl, h⟩

@[simp high] theorem leads_expect_bind {kind : Kind} {f : Unit → Parse β} :
    Leads ok (expect kind >>= f) w b v ↔
      w.peek.kind = kind ∧ (f ()).Leads ok w.advance b v := by
  simp only [leads_bind, leads_expect]
  constructor
  · rintro ⟨_, _, ⟨hk, rfl⟩, h⟩
    exact ⟨hk, h⟩
  · rintro ⟨hk, h⟩
    exact ⟨_, _, ⟨hk, rfl⟩, h⟩

@[simp high] theorem leads_take_bind {kind : Kind} {f : Bool → Parse β} :
    Leads ok (liftM (Run.take kind) >>= f) w b v ↔
      if w.peek.kind = kind then (f true).Leads ok w.advance b v
      else (f false).Leads ok w b v := by
  rw [leads_bind]
  simp only [leads_lift, Run.leads_take]
  split
  · constructor
    · rintro ⟨_, _, ⟨rfl, rfl⟩, h⟩
      exact h
    · exact fun h => ⟨_, _, ⟨rfl, rfl⟩, h⟩
  · constructor
    · rintro ⟨_, _, ⟨rfl, rfl⟩, h⟩
      exact h
    · exact fun h => ⟨_, _, ⟨rfl, rfl⟩, h⟩

omit [Benign ok] in
@[simp] theorem leads_cons {first : α} {p : Parse (List α)} {as : List α} :
    Leads ok (cons first p) w as v ↔ ∃ more, p.Leads ok w more v ∧ as = first :: more := by
  simp only [Leads, Run.Leads, cons_apply, Option.map_eq_some_iff]
  constructor
  · rintro ⟨⟨more, hm, rfl⟩, hv, hd⟩
    exact ⟨more, ⟨hm, hv, hd⟩, rfl⟩
  · rintro ⟨more, ⟨hm, hv, hd⟩, rfl⟩
    exact ⟨⟨more, hm, rfl⟩, hv, hd⟩

@[simp] theorem leads_nested {p : Parse α} : Leads ok (nested p) w a v ↔ p.Leads ok w a v := by
  simp only [Leads, Run.Leads, nested_apply, Benign.nested]

@[simp] theorem leads_terminated {p : Parse α} :
    Leads ok (terminated p) w a v ↔ ∃ u, p.Leads ok w a u ∧ v = u.pastSemicolon := by
  simp only [Leads, Run.Leads, terminated_apply, Run.take_apply, Benign.append]
  constructor
  · rintro ⟨ha, rfl, hd, -⟩
    refine ⟨_, ⟨ha, rfl, hd⟩, ?_⟩
    rw [Window.pastSemicolon]
    split <;> rfl
  · rintro ⟨_, ⟨ha, rfl, hd⟩, rfl⟩
    refine ⟨ha, ?_, hd, ?_⟩
    · rw [Window.pastSemicolon]
      split <;> rfl
    · split <;> simp [Benign.nil, Benign.took]

@[simp high] theorem leads_terminated_map {p : Parse α} {f : α → β} :
    Leads ok (f <$> terminated p) w b v ↔
      ∃ a u, p.Leads ok w a u ∧ v = u.pastSemicolon ∧ b = f a := by
  rw [leads_map]
  simp only [leads_terminated]
  constructor
  · rintro ⟨a, ⟨u, h, hv⟩, hb⟩
    exact ⟨a, u, h, hv, hb⟩
  · rintro ⟨a, u, h, hv, hb⟩
    exact ⟨a, ⟨u, h, hv⟩, hb⟩

end Parse

end MonkeyLang
