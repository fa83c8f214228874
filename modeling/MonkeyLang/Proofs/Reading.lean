import MonkeyLang.Proofs.StepInvariant

/-!
# Stretches of tokens

A window reads a list of tokens if these are the current token and the ones after it; reading leads
to the window right behind them. A window spans a list of tokens if reading them leads to the last
of them, which is where the forms of the grammar stop. Main statements: every run reads some tokens
(`StepInvariant.reads`), and the loop over statements unfolds by one statement
(`statementsUntil_next`).
-/

namespace MonkeyLang

namespace Window

@[simp] theorem current_advance (w : Window) : w.advance.current = w.peek := rfl

/-- The given tokens are the current one and the ones after it, and `v` is the window behind them.
-/
def Reads (w : Window) : List Token → Window → Prop
  | [], v => v = w
  | t :: us, v => w.current = t ∧ w.advance.Reads us v

@[simp] theorem reads_nil {w v : Window} : w.Reads [] v ↔ v = w := Iff.rfl

@[simp] theorem reads_cons {w v : Window} {t : Token} {us : List Token} :
    w.Reads (t :: us) v ↔ w.current = t ∧ w.advance.Reads us v := Iff.rfl

theorem reads_append {w v : Window} {us vs : List Token} :
    w.Reads (us ++ vs) v ↔ ∃ u, w.Reads us u ∧ u.Reads vs v := by
  induction us generalizing w with
  | nil => simp
  | cons t us ih => simp [ih, and_assoc]

/-- Reading starts with the current token. -/
theorem Reads.head {w v : Window} {us : List Token} (h : w.Reads us v) :
    ∀ t ∈ us.head?, t = w.current := by
  cases us with
  | nil => simp
  | cons t us => simp [h.1]

theorem Reads.size_le {w v : Window} {us : List Token} (h : w.Reads us v) : v.size ≤ w.size := by
  induction us generalizing w with
  | nil => exact Nat.le_of_eq (by rw [reads_nil.1 h])
  | cons t us ih => exact Nat.le_trans (ih h.2) w.size_advance_le

/-- Moving on once more after reading lowers the bound, if not all was read before. -/
theorem Reads.size_advance_lt {w v : Window} {us : List Token} (h : w.Reads us v)
    (hw : w.current.kind ≠ .eof) : v.advance.size < w.size := by
  cases us with
  | nil =>
    rw [reads_nil.1 h]
    exact Window.size_advance_lt hw
  | cons t us =>
    calc
      v.advance.size ≤ v.size := v.size_advance_le
      _ ≤ w.advance.size := h.2.size_le
      _ < w.size := Window.size_advance_lt hw

/-- The given tokens are the current one and the ones after it, and `v` is the window on the last of
them. -/
def Spans (w : Window) (us : List Token) (v : Window) : Prop :=
  ∃ init, us = init ++ [v.current] ∧ w.Reads init v

theorem spans_concat {w v : Window} {us : List Token} {t : Token} :
    w.Spans (us ++ [t]) v ↔ w.Reads us v ∧ v.current = t := by
  constructor
  · rintro ⟨init, hus, h⟩
    obtain ⟨rfl, ht⟩ := List.append_inj' hus rfl
    exact ⟨h, (List.singleton_inj.1 ht).symm⟩
  · rintro ⟨h, rfl⟩
    exact ⟨us, rfl, h⟩

@[simp] theorem spans_singleton {w v : Window} {t : Token} :
    w.Spans [t] v ↔ w.current = t ∧ v = w := by
  rw [← List.nil_append [t], spans_concat, reads_nil]
  constructor
  · rintro ⟨rfl, h⟩
    exact ⟨h, rfl⟩
  · rintro ⟨h, rfl⟩
    exact ⟨rfl, h⟩

theorem Spans.ne_nil {w v : Window} {us : List Token} (h : w.Spans us v) : us ≠ [] := by
  obtain ⟨init, rfl, -⟩ := h
  simp

theorem Spans.current {w v : Window} {t : Token} {us : List Token} (h : w.Spans (t :: us) v) :
    w.current = t := by
  obtain ⟨init, hus, hinit⟩ := h
  cases init with
  | nil =>
    obtain rfl := hinit
    exact (List.cons.inj hus).1.symm
  | cons s init =>
    obtain ⟨rfl, -⟩ := List.cons.inj hus
    exact hinit.1

/-- Reading what a window spans leads behind the last token. -/
theorem Spans.reads {w v : Window} {us : List Token} (h : w.Spans us v) :
    w.Reads us v.advance := by
  obtain ⟨init, rfl, h⟩ := h
  exact reads_append.2 ⟨v, h, rfl, rfl⟩

/-- What is read, unless it is nothing, is spanned by a window right before the end. -/
theorem Reads.spans {w v : Window} {us : List Token} (h : w.Reads us v) (hus : us ≠ []) :
    ∃ u, w.Spans us u ∧ v = u.advance := by
  rw [← List.dropLast_concat_getLast hus] at h ⊢
  obtain ⟨u, hinit, ht, rfl⟩ := reads_append.1 h
  exact ⟨u, spans_concat.2 ⟨hinit, ht⟩, rfl⟩

theorem spans_append {w v : Window} {us vs : List Token} (hvs : vs ≠ []) :
    w.Spans (us ++ vs) v ↔ ∃ u, w.Reads us u ∧ u.Spans vs v := by
  rw [← List.dropLast_concat_getLast hvs, ← List.append_assoc]
  simp only [spans_concat, reads_append]
  constructor
  · rintro ⟨⟨u, hus, hvs⟩, ht⟩
    exact ⟨u, hus, hvs, ht⟩
  · rintro ⟨u, hus, hvs, ht⟩
    exact ⟨⟨u, hus, hvs⟩, ht⟩

theorem spans_cons {w v : Window} {t : Token} {us : List Token} (hus : us ≠ []) :
    w.Spans (t :: us) v ↔ w.current = t ∧ w.advance.Spans us v := by
  rw [← List.singleton_append, spans_append hus]
  constructor
  · rintro ⟨_, ⟨ht, rfl⟩, h⟩
    exact ⟨ht, h⟩
  · rintro ⟨ht, h⟩
    exact ⟨_, ⟨ht, rfl⟩, h⟩

/-- What one window spans, followed by what the window behind it spans. -/
theorem Spans.append {w u v : Window} {us vs : List Token} (hu : w.Spans us u)
    (hv : u.advance.Spans vs v) : w.Spans (us ++ vs) v :=
  (spans_append hv.ne_nil).2 ⟨_, hu.reads, hv⟩

/-- A span that begins with a span falls into the two. -/
theorem Spans.split {w v : Window} {us vs : List Token} (h : w.Spans (us ++ vs) v) (hus : us ≠ [])
    (hvs : vs ≠ []) : ∃ u, w.Spans us u ∧ u.advance.Spans vs v := by
  obtain ⟨_, hreads, hv⟩ := (spans_append hvs).1 h
  obtain ⟨u, hu, rfl⟩ := hreads.spans hus
  exact ⟨u, hu, hv⟩

end Window

/-! ### Every run reads on -/

/-- A run only ever moves on along the tokens. -/
theorem StepInvariant.reads : StepInvariant fun w _ _ v => ∃ us, w.Reads us v :=
  TraceInvariant.stepInvariant
    { stay := fun _ => ⟨[], rfl⟩
      advance := fun w => ⟨[w.current], rfl, rfl⟩
      reject := fun _ _ _ _ => ⟨[], rfl⟩
      append := by
        rintro w a u b v ⟨us, hus⟩ ⟨vs, hvs⟩
        exact ⟨us ++ vs, Window.reads_append.2 ⟨u, hus, hvs⟩⟩
      nested := id
      drop := fun _ h => h }

/-- A failed parse leaves a diagnostic. -/
theorem StepInvariant.loud :
    StepInvariant fun _ failed trace _ => failed = true → Event.diagnostics trace ≠ [] where
  stay _ := by simp
  advance _ := by simp
  reject _ _ _ _ := by simp
  andThen ha hb := by
    intro hf
    simp [hb hf]
  nested h := by simpa using h
  finish ha _ := by
    intro hf
    simp [ha hf]
  drop _ _ := by simp

/-! ### The loop over statements -/

namespace Grammar

variable {stop : Kind → Bool} {p : Parse (Option Node)}

/-- What a statement yields, one step on, and then what the statements after it yield. -/
def followedBy (o : Outcome (Option (Option Node))) (q : Outcome (List Node)) :
    Outcome (List Node) :=
  ⟨o.value.join.toList ++ q.value, q.window, o.trace ++ .took o.window.advance.peek :: q.trace⟩

theorem statementsWithin_stop {w : Window} (h : stop w.current.kind = true) (n : Nat) :
    statementsWithin stop p n w = ⟨[], w, []⟩ := by
  cases n with
  | zero => rfl
  | succ n => simp [statementsWithin, Run.bind_apply, Run.current, Run.pure_apply, h]

theorem statementsWithin_next {w : Window} (h : stop w.current.kind = false) (n : Nat) :
    statementsWithin stop p (n + 1) w =
      followedBy (Parse.recover p w)
        (statementsWithin stop p n (Parse.recover p w).window.advance) := by
  simp [followedBy, statementsWithin, Run.bind_apply, Run.map_apply, Run.current, Run.advance, h]

private theorem kind_of_size_eq_zero {w : Window} (h : w.size = 0) : w.current.kind = .eof := by
  by_cases hk : w.current.kind = .eof
  · exact hk
  · have := Token.weight_of_ne_eof hk
    simp only [Window.size] at h
    omega

/-- The loop over statements does not go on at the end. -/
theorem ne_eof_of_goesOn (hstop : stop .eof = true) {k : Kind} (h : stop k = false) : k ≠ .eof := by
  rintro rfl
  rw [hstop] at h
  cases h

/-- The loop over statements does not depend on its number of rounds, if there are enough. -/
private theorem statementsWithin_congr (hstop : stop .eof = true)
    (hp : Parse.Respects (fun w _ _ v => ∃ us, w.Reads us v) p) {n m : Nat} {w : Window}
    (hn : w.size ≤ n) (hm : w.size ≤ m) :
    statementsWithin stop p n w = statementsWithin stop p m w := by
  induction n generalizing m w with
  | zero =>
    have hk : stop w.current.kind = true := by
      rw [kind_of_size_eq_zero (Nat.le_zero.1 hn), hstop]
    rw [statementsWithin_stop hk, statementsWithin_stop hk]
  | succ n ih =>
    cases h : stop w.current.kind with
    | true => rw [statementsWithin_stop h, statementsWithin_stop h]
    | false =>
      have hk := ne_eof_of_goesOn hstop h
      cases m with
      | zero => exact absurd (kind_of_size_eq_zero (Nat.le_zero.1 hm)) hk
      | succ m =>
        obtain ⟨us, hus⟩ := hp w
        rw [← Parse.recover_window] at hus
        have hlt := hus.size_advance_lt hk
        rw [statementsWithin_next h, statementsWithin_next h]
        exact congrArg _ (ih (by omega) (by omega))

/-- Any number of rounds from the bound on takes the loop to its end. -/
theorem statementsWithin_eq (hstop : stop .eof = true)
    (hp : Parse.Respects (fun w _ _ v => ∃ us, w.Reads us v) p) {n : Nat} {w : Window}
    (hn : w.size ≤ n) : statementsWithin stop p n w = statementsUntil stop p w :=
  statementsWithin_congr hstop hp hn (Nat.le_refl _)

theorem statementsUntil_stop {w : Window} (h : stop w.current.kind = true) :
    statementsUntil stop p w = ⟨[], w, []⟩ :=
  statementsWithin_stop h _

/-- The loop over statements parses a statement, moves on and begins again. -/
theorem statementsUntil_next (hstop : stop .eof = true)
    (hp : Parse.Respects (fun w _ _ v => ∃ us, w.Reads us v) p) {w : Window}
    (h : stop w.current.kind = false) :
    statementsUntil stop p w =
      followedBy (Parse.recover p w)
        (statementsUntil stop p (Parse.recover p w).window.advance) := by
  have hk := ne_eof_of_goesOn hstop h
  obtain ⟨us, hus⟩ := hp w
  rw [← Parse.recover_window] at hus
  have hlt := hus.size_advance_lt hk
  obtain ⟨n, hn⟩ : ∃ n, w.size = n + 1 := ⟨w.size - 1, by omega⟩
  simp only [statementsUntil]
  rw [hn, statementsWithin_next h]
  exact congrArg _ (statementsWithin_congr hstop hp (by omega) (Nat.le_refl _))

/-- What holds where the loop over statements stops, and at any other window if it does where the
loop goes on from there, holds at every window: each statement takes one token at least. -/
theorem statements_induction {motive : Window → Prop} (hstop : stop .eof = true)
    (hp : Parse.Respects (fun w _ _ v => ∃ us, w.Reads us v) p)
    (stops : ∀ w, stop w.current.kind = true → motive w)
    (goesOn : ∀ w, stop w.current.kind = false → motive (p.run w).window.advance → motive w)
    (w : Window) : motive w := by
  induction hk : w.size using Nat.strongRecOn generalizing w with
  | ind k ih =>
    subst hk
    cases hw : stop w.current.kind with
    | true => exact stops w hw
    | false =>
      have hne := ne_eof_of_goesOn hstop hw
      obtain ⟨us, hus⟩ := hp w
      exact goesOn w hw (ih _ (hus.size_advance_lt hne) _ rfl)

/-! ### The loop over items -/

section Items

variable {item : Parse Node}

/-- An item that is parsed from a comma on takes that comma at least. -/
def TakesComma (item : Parse Node) : Prop :=
  ∀ w, w.current.kind = .comma → (item.run w).value.isSome → (item.run w).window.size < w.size

/-- What moves on and then reads on takes the current token at least. -/
theorem takesComma_advance {p : Parse Node}
    (hp : Parse.Respects (fun w _ _ v => ∃ us, w.Reads us v) p) :
    TakesComma (do Parse.advance; p) := by
  intro w hw _
  obtain ⟨us, hus⟩ := hp w.advance
  rw [Parse.bind_apply, Parse.advance_apply]
  exact Nat.lt_of_le_of_lt hus.size_le (Window.size_advance_lt (by simp [hw]))

theorem itemsWithin_end {w : Window} (h : w.peek.kind ≠ .comma) (n : Nat) :
    (itemsWithin item n).run w = ⟨some [], w, []⟩ := by
  cases n with
  | zero => rfl
  | succ n => simp [itemsWithin, Parse.bind_apply, Parse.peek_apply, Parse.pure_apply, h]

theorem itemsWithin_next {w : Window} (h : w.peek.kind = .comma) (n : Nat) :
    (itemsWithin item (n + 1)).run w =
      (do Parse.advance; let first ← item; Parse.cons first (itemsWithin item n)).run w := by
  rw [itemsWithin, Parse.bind_apply, Parse.peek_apply]
  simp [h]

private theorem size_pos_of_comma {w : Window} (h : w.peek.kind = .comma) : 0 < w.size := by
  have hw : w.peek.weight = 1 := Token.weight_of_ne_eof (by simp [h])
  simp only [Window.size]
  omega

/-- The loop over items does not depend on its number of rounds, if there are enough. -/
private theorem itemsWithin_congr (hitem : TakesComma item) {n m : Nat} {w : Window}
    (hn : w.size ≤ n) (hm : w.size ≤ m) :
    (itemsWithin item n).run w = (itemsWithin item m).run w := by
  induction n generalizing m w with
  | zero =>
    have h : w.peek.kind ≠ .comma := fun h => absurd (size_pos_of_comma h) (by omega)
    rw [itemsWithin_end h, itemsWithin_end h]
  | succ n ih =>
    by_cases h : w.peek.kind = .comma
    · have hpos := size_pos_of_comma h
      obtain ⟨m, rfl⟩ : ∃ k, m = k + 1 := ⟨m - 1, by omega⟩
      rw [itemsWithin_next h, itemsWithin_next h]
      simp only [Parse.bind_apply, Parse.advance_apply]
      cases ho : (item.run w.advance).value with
      | none => rfl
      | some first =>
        have hlt := hitem w.advance h (by simp [ho])
        have hle := w.size_advance_le
        simp only [Parse.cons_apply, @ih m (item.run w.advance).window (by omega) (by omega)]
    · rw [itemsWithin_end h, itemsWithin_end h]

/-- Any number of rounds from the bound on takes the loop to its end. -/
theorem itemsWithin_eq (hitem : TakesComma item) {n : Nat} {w : Window} (hn : w.size ≤ n) :
    (itemsWithin item n).run w = (moreItems item).run w :=
  itemsWithin_congr hitem hn (Nat.le_refl _)

theorem moreItems_end {w : Window} (h : w.peek.kind ≠ .comma) :
    (moreItems item).run w = ⟨some [], w, []⟩ :=
  itemsWithin_end h _

/-- The loop over items parses an item behind a comma and begins again. -/
theorem moreItems_next (hitem : TakesComma item) {w : Window} (h : w.peek.kind = .comma) :
    (moreItems item).run w =
      (do Parse.advance; let first ← item; Parse.cons first (moreItems item)).run w := by
  rw [← itemsWithin_eq hitem (Nat.le_succ w.size), itemsWithin_next h]
  simp only [Parse.bind_apply, Parse.advance_apply]
  cases ho : (item.run w.advance).value with
  | none => rfl
  | some first =>
    have hlt := hitem w.advance h (by simp [ho])
    have hle := w.size_advance_le
    have hrest : (itemsWithin item w.size).run (item.run w.advance).window =
        (moreItems item).run (item.run w.advance).window := itemsWithin_eq hitem (by omega)
    simp only [Parse.cons_apply, hrest]

end Items

end Grammar

end MonkeyLang
