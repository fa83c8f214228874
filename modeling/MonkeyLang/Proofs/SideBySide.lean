import Mathlib.Data.List.Forall2
import MonkeyLang.Proofs.Causality
import MonkeyLang.Proofs.MatchingTrees

/-!
# Runs side by side

Tokens are alike if they have the same kind and, unless they are names, the same text. Two runs
along sequences of tokens that are alike one by one stand side by side if they are at the same
position. Here is what single steps and their composition keep of that; the two parses may differ in
the tokens that they have looked at.
-/

namespace MonkeyLang

/-- The tokens have the same kind, and the same text if they are no names. -/
def Token.Alike (t u : Token) : Prop := t.kind = u.kind ∧ (t.kind ≠ .ident → t.literal = u.literal)

instance (t u : Token) : Decidable (t.Alike u) := inferInstanceAs (Decidable (_ ∧ _))

/-! ### What stands side by side -/

section

variable (ts us : Nat → Token)

/-- The tokens stand at the same position of two sequences, and the first one is no end token. -/
def Token.Beside (t u : Token) : Prop := ∃ i, (ts i).kind ≠ .eof ∧ t = ts i ∧ u = us i

/-- The windows stand at the same position of two sequences. -/
structure Window.Beside (w w' : Window) : Prop where
  left : w.On ts
  right : w'.On us
  index : w.index = w'.index

/-- The diagnostics blame the tokens at the same position of two sequences in the same words. -/
structure Diagnostic.Beside (d d' : Diagnostic) : Prop where
  message : d.message = d'.message
  index : d.index = d'.index
  left : d.token = ts d.index
  right : d'.token = us d'.index

/-- Two runs along two sequences end at the same position, with related values and with diagnostics
that agree one by one. -/
structure Outcome.Beside {α : Type} (V : α → α → Prop) (o o' : Outcome α) : Prop where
  value : V o.value o'.value
  window : Window.Beside ts us o.window o'.window
  diagnostics : List.Forall₂ (Diagnostic.Beside ts us) (Event.diagnostics o.trace)
    (Event.diagnostics o'.trace)

/-- Trees that match by the tokens at the same positions of two sequences. -/
abbrev Node.Beside : Node → Node → Prop := Matches (Token.Beside ts us)

/-- Lists of trees that match by the tokens at the same positions of two sequences. -/
abbrev Node.BesideList : List Node → List Node → Prop := MatchesList (Token.Beside ts us)

/-- Two parses along two sequences fail together, and otherwise yield related values. -/
def Parse.Agrees {α : Type} (V : α → α → Prop) (p q : Parse α) (w w' : Window) : Prop :=
  Outcome.Beside ts us (Option.Rel V) (p.run w) (q.run w')

end

variable {α β : Type} {ts us : Nat → Token} (hts : ∀ i, (ts i).Alike (us i)) {w w' : Window}

namespace Window.Beside

variable (h : Beside ts us w w')

include h

theorem advance : Beside ts us w.advance w'.advance :=
  ⟨h.left.advance, h.right.advance, by rw [index_advance, index_advance, h.index]⟩

theorem current (hne : w.current.kind ≠ .eof) : Token.Beside ts us w.current w'.current := by
  rw [h.left.current] at hne
  exact ⟨w.index, hne, h.left.current, by rw [h.right.current, h.index]⟩

theorem indexAt (spot : Spot) : w.indexAt spot = w'.indexAt spot := by
  cases spot <;> simp [Window.indexAt, h.index]

theorem blame {spot : Spot} {problem : Problem}
    (hmessage : (w.blame spot problem).message = (w'.blame spot problem).message) :
    Diagnostic.Beside ts us (w.blame spot problem) (w'.blame spot problem) :=
  ⟨hmessage, h.indexAt spot, h.left.tokenAt spot, h.right.tokenAt spot⟩

include hts

theorem tokenAt (spot : Spot) : (w.tokenAt spot).Alike (w'.tokenAt spot) := by
  rw [h.left.tokenAt, h.right.tokenAt, ← h.indexAt]
  exact hts _

theorem current_kind : w'.current.kind = w.current.kind := (h.tokenAt hts .current).1.symm

theorem peek_kind : w'.peek.kind = w.peek.kind := (h.tokenAt hts .peek).1.symm

theorem current_literal (hne : w.current.kind ≠ .ident) : w'.current.literal = w.current.literal :=
  ((h.tokenAt hts .current).2 hne).symm

end Window.Beside

namespace Parse.Agrees

variable {V : α → α → Prop} {W : β → β → Prop} {p q : Parse α}

theorem pure (h : Window.Beside ts us w w') {a b : α} (hab : V a b) :
    Agrees ts us V (Pure.pure a) (Pure.pure b) w w' :=
  ⟨.some hab, h, .nil⟩

theorem bind {f g : α → Parse β} (h : Agrees ts us V p q w w')
    (hfg : ∀ {v v' a b}, Window.Beside ts us v v' → V a b →
      Agrees ts us W (f a) (g b) v v') : Agrees ts us W (p >>= f) (q >>= g) w w' := by
  obtain ⟨hvalue, hwindow, hdiagnostics⟩ := h
  unfold Agrees
  rw [bind_apply, bind_apply]
  generalize (p.run w).value = a at hvalue
  generalize (q.run w').value = b at hvalue
  cases hvalue with
  | none => exact ⟨.none, hwindow, hdiagnostics⟩
  | some hab =>
    obtain ⟨hvalue', hwindow', hdiagnostics'⟩ := hfg hwindow hab
    refine ⟨hvalue', hwindow', ?_⟩
    rw [Event.diagnostics_append, Event.diagnostics_append]
    exact List.rel_append hdiagnostics hdiagnostics'

theorem congr {p' q' : Parse α} (h : Agrees ts us V p' q' w w') (hp : p.run w = p'.run w)
    (hq : q.run w' = q'.run w') : Agrees ts us V p q w w' := by
  unfold Agrees
  rw [hp, hq]
  exact h

theorem current_bind {f g : Token → Parse β}
    (h : Agrees ts us W (f w.current) (g w'.current) w w') :
    Agrees ts us W (current >>= f) (current >>= g) w w' :=
  h.congr (by rw [bind_apply, current_apply]; rfl) (by rw [bind_apply, current_apply]; rfl)

theorem peek_bind {f g : Token → Parse β} (h : Agrees ts us W (f w.peek) (g w'.peek) w w') :
    Agrees ts us W (peek >>= f) (peek >>= g) w w' :=
  h.congr (by rw [bind_apply, peek_apply]; rfl) (by rw [bind_apply, peek_apply]; rfl)

theorem advance_bind {f g : Unit → Parse β}
    (h : Agrees ts us W (f ()) (g ()) w.advance w'.advance) :
    Agrees ts us W (advance >>= f) (advance >>= g) w w' := by
  unfold Agrees at h ⊢
  rw [bind_apply, bind_apply, advance_apply, advance_apply]
  exact ⟨h.value, h.window, h.diagnostics⟩

/-- Rejecting tokens at the same spot in the same words. -/
theorem reject (h : Window.Beside ts us w w') {spot : Spot} {problem : Problem}
    (hmessage : (w.blame spot problem).message = (w'.blame spot problem).message) :
    Agrees ts us V (Parse.reject spot problem) (Parse.reject spot problem) w w' :=
  ⟨.none, h, .cons (h.blame hmessage) .nil⟩

theorem reject_nestedTooDeep (h : Window.Beside ts us w w') (spot : Spot) :
    Agrees ts us V (Parse.reject spot .nestedTooDeep) (Parse.reject spot .nestedTooDeep) w w' :=
  .reject h (by simp only [Window.blame, Diagnostic.message])

theorem map {p q : Parse α} {f g : α → β} (h : Agrees ts us V p q w w')
    (hfg : ∀ {a b}, V a b → W (f a) (g b)) : Agrees ts us W (f <$> p) (g <$> q) w w' := by
  rw [← bind_pure_comp, ← bind_pure_comp]
  exact h.bind fun hwindow hab => .pure hwindow (hfg hab)

theorem nested (h : Agrees ts us V p q w w') :
    Agrees ts us V (Parse.nested p) (Parse.nested q) w w' := by
  refine ⟨h.value, h.window, ?_⟩
  rw [nested_apply, nested_apply, Event.diagnostics_map_nested, Event.diagnostics_map_nested,
    List.forall₂_map_left_iff, List.forall₂_map_right_iff]
  exact h.diagnostics.imp fun _ _ hd => ⟨hd.message, hd.index, hd.left, hd.right⟩

theorem cons {V' : List α → List α → Prop} {p q : Parse (List α)} {a b : α}
    (h : Agrees ts us V' p q w w') (hcons : ∀ {as bs}, V' as bs → V' (a :: as) (b :: bs)) :
    Agrees ts us V' (Parse.cons a p) (Parse.cons b q) w w' := by
  obtain ⟨hvalue, hwindow, hdiagnostics⟩ := h
  unfold Agrees
  rw [cons_apply, cons_apply]
  generalize (p.run w).value = as at hvalue
  generalize (q.run w').value = bs at hvalue
  cases hvalue with
  | none => exact ⟨.none, hwindow, hdiagnostics⟩
  | some hab => exact ⟨.some (hcons hab), hwindow, hdiagnostics⟩

theorem lift {x y : Run α} (h : Outcome.Beside ts us V (x w) (y w')) :
    Agrees ts us V (liftM x) (liftM y) w w' := by
  unfold Agrees
  rw [lift_apply, lift_apply]
  exact ⟨.some h.value, h.window, h.diagnostics⟩

include hts

/-- A token that is rejected for its kind is rejected in the words for its kind. -/
theorem expect_bind (h : Window.Beside ts us w w') {kind : Kind} {f g : Unit → Parse β}
    (hfg : w.peek.kind = kind → Agrees ts us W (f ()) (g ()) w.advance w'.advance) :
    Agrees ts us W (expect kind >>= f) (expect kind >>= g) w w' := by
  by_cases hk : w.peek.kind = kind
  · have hrun : (expect kind).run w = advance.run w := by
      rw [expect_apply, if_pos hk, advance_apply]
    have hrun' : (expect kind).run w' = advance.run w' := by
      rw [expect_apply, h.peek_kind hts, if_pos hk, advance_apply]
    exact (advance_bind (hfg hk)).congr (by rw [bind_apply, bind_apply, hrun])
      (by rw [bind_apply, bind_apply, hrun'])
  · unfold Agrees
    rw [bind_apply, bind_apply, expect_apply, expect_apply, h.peek_kind hts, if_neg hk, if_neg hk]
    refine ⟨.none, h, .cons (h.blame ?_) .nil⟩
    simp [Diagnostic.message, Window.blame, Window.tokenAt, h.peek_kind hts]

/-- Taking the next token if it is of a kind. -/
theorem take_bind (h : Window.Beside ts us w w') {kind : Kind} {f g : Bool → Parse β}
    (htrue : w.peek.kind = kind → Agrees ts us W (f true) (g true) w.advance w'.advance)
    (hfalse : Agrees ts us W (f false) (g false) w w') :
    Agrees ts us W (liftM (Run.take kind) >>= f) (liftM (Run.take kind) >>= g) w w' := by
  unfold Agrees at htrue hfalse ⊢
  rw [bind_apply, bind_apply, lift_apply, lift_apply, Run.take_apply, Run.take_apply,
    h.peek_kind hts]
  by_cases hk : w.peek.kind = kind
  · rw [if_pos hk, if_pos hk]
    exact ⟨(htrue hk).value, (htrue hk).window, (htrue hk).diagnostics⟩
  · rw [if_neg hk, if_neg hk]
    exact hfalse

theorem terminated (h : Agrees ts us V p q w w') :
    Agrees ts us V (Parse.terminated p) (Parse.terminated q) w w' := by
  obtain ⟨hvalue, hwindow, hdiagnostics⟩ := h
  unfold Agrees
  rw [terminated_apply, terminated_apply, Run.take_apply, Run.take_apply, hwindow.peek_kind hts]
  split
  · exact ⟨hvalue, hwindow.advance, by simpa using hdiagnostics⟩
  · exact ⟨hvalue, hwindow, by simpa using hdiagnostics⟩

end Parse.Agrees

end MonkeyLang
