import MonkeyLang.Proofs.Problems
import MonkeyLang.Proofs.TokenView

/-!
# What a run depends on

A quiet run depends on the tokens that it has looked at and on no later ones, and the first problem
that a run finds depends on the tokens up to the one that is blamed. Along a sequence of tokens no
run looks beyond the end before it has found a problem. Main statement:
`statementLookahead_causal`.
-/

namespace MonkeyLang

/-- The position of the last token that has been looked at. -/
def Sight.last (s : Sight) (w : Window) : Nat := w.index + s.reach

namespace Window

/-- From its position on the window shows the tokens of a sequence. -/
def On (ts : Nat → Token) (w : Window) : Prop := ∀ i, w.ahead i = ts (w.index + i)

/-- From its start on the window on a list shows the tokens of the list and then end tokens. -/
theorem on_ofSource (ts : List Token) (finish : Place) :
    (ofSource (.tokens ts finish)).On fun i => ts.getD i (.endAt finish) := by
  intro i
  have hi : (ofSource (.tokens ts finish)).index + i = i := Nat.zero_add i
  rw [hi]
  exact (shows_ofSource _).ahead_eq i

namespace On

variable {ts : Nat → Token} {w : Window} (h : w.On ts)

include h

theorem current : w.current = ts w.index := h 0

theorem peek : w.peek = ts (w.index + 1) := h 1

theorem advance : w.advance.On ts := by
  intro i
  rw [ahead_advance, h (i + 1), index_advance, Nat.add_right_comm, Nat.add_assoc]

theorem tokenAt (spot : Spot) : w.tokenAt spot = ts (w.indexAt spot) := by
  cases spot with
  | current => exact h.current
  | peek => exact h.peek

/-- Windows at one position of two sequences that agree so far show the same token. -/
theorem tokenAt_eq {ts' : Nat → Token} {w' : Window} {spot : Spot} {n : Nat} (h' : w'.On ts')
    (hindex : w'.index = w.index) (hts : ∀ i ≤ n, ts' i = ts i) (hle : w.indexAt spot ≤ n) :
    w'.tokenAt spot = w.tokenAt spot := by
  have hspot : w'.indexAt spot = w.indexAt spot := by
    cases spot <;> simp [indexAt, hindex]
  rw [h.tokenAt, h'.tokenAt, hspot]
  exact hts _ hle

/-- The end is not at a token of another kind. -/
theorem lt_of_ne_eof {e : Nat} (he : (ts e).kind = .eof) (hle : w.index ≤ e)
    (hw : w.current.kind ≠ .eof) : w.index + 1 ≤ e := by
  refine Nat.lt_of_le_of_ne hle fun heq => hw ?_
  rw [h.current, heq, he]

end On

end Window

/-- Along a sequence of tokens, what has been looked at grows from `s` at `w` to `t` at `u`, though
not beyond the end. -/
structure Reaches (ts : Nat → Token) (s : Sight) (w : Window) (t : Sight) (u : Window) : Prop where
  on : u.On ts
  agrees : t.Agrees u
  le : s.last w ≤ t.last u
  bounded : ∀ e, (ts e).kind = .eof → s.last w ≤ e → t.last u ≤ e

namespace Reaches

variable {ts : Nat → Token} {s t r : Sight} {w u v : Window}

theorem refl (h : w.On ts) (hs : s.Agrees w) : Reaches ts s w s w :=
  ⟨h, hs, Nat.le_refl _, fun _ _ he => he⟩

/-- What has been seen of the current token may be forgotten. -/
theorem forget {k : Kind} (h : w.On ts) : Reaches ts (.on k) w .fresh w :=
  ⟨h, trivial, Nat.le_refl _, fun _ _ he => he⟩

theorem ahead_of_before {k : Kind} (h : w.On ts) : Reaches ts (.before k) w .ahead w :=
  ⟨h, trivial, Nat.le_refl _, fun _ _ he => he⟩

/-- Behind a token that is not the end there is a token of the sequence. -/
theorem ahead {k : Kind} (hk : k ≠ .eof) (h : w.On ts) (hw : w.current.kind = k) :
    Reaches ts (.on k) w .ahead w :=
  ⟨h, trivial, Nat.le_succ _, fun _ he hle => h.lt_of_ne_eof he hle (hw ▸ hk)⟩

theorem trans (h : Reaches ts s w t u) (h' : Reaches ts t u r v) : Reaches ts s w r v where
  on := h'.on
  agrees := h'.agrees
  le := Nat.le_trans h.le h'.le
  bounded e he hw := h'.bounded e he (h.bounded e he hw)

end Reaches

/-- The parse finds the same from the same tokens: a quiet run is repeated on any sequence of tokens
that agrees up to the last one that it has looked at, and so is the first problem on any sequence
that agrees up to the blamed token. -/
structure Parse.Causal {α : Type} (s t : Sight) (p : Parse α) : Prop where
  loud : ∀ w, (p.run w).value = none → Event.diagnostics (p.run w).trace ≠ []
  reaches : ∀ {ts w a u}, w.On ts → s.Agrees w → p.Leads Quiet w a u → Reaches ts s w t u
  repeats : ∀ {ts ts' w w' a u}, w.On ts → s.Agrees w → p.Leads Quiet w a u → w'.On ts' →
    w'.index = w.index → (∀ i ≤ t.last u, ts' i = ts i) →
    ∃ u', p.Leads Quiet w' a u' ∧ u'.On ts' ∧ u'.index = u.index
  blames : ∀ {ts w d}, w.On ts → s.Agrees w → p.Stumbles w d → d.token = ts d.index ∧
    s.last w ≤ d.index ∧ ∀ e, (ts e).kind = .eof → s.last w ≤ e → d.index ≤ e
  stumbles : ∀ {ts ts' w w' d}, w.On ts → s.Agrees w → p.Stumbles w d → w'.On ts' →
    w'.index = w.index → (∀ i ≤ d.index, ts' i = ts i) → p.Stumbles w' d

namespace Parse.Causal

variable {α β : Type} {s t r : Sight} {p : Parse α}

/-- Doing nothing, while what has been looked at changes. -/
theorem glance (a : α) (h : ∀ {ts w}, w.On ts → s.Agrees w → Reaches ts s w t w) :
    Causal s t (pure a : Parse α) where
  loud _ h := by cases h
  reaches hw hs hlead := by
    obtain ⟨-, rfl⟩ := leads_pure.1 hlead
    exact h hw hs
  repeats _ _ hlead hw' hindex _ := by
    obtain ⟨rfl, rfl⟩ := leads_pure.1 hlead
    exact ⟨_, leads_pure.2 ⟨rfl, rfl⟩, hw', hindex⟩
  blames _ _ hd := absurd hd stumbles_pure
  stumbles _ _ hd := absurd hd stumbles_pure

theorem bind {f : α → Parse β} (hp : Causal s t p) (hf : ∀ a, Causal t r (f a)) :
    Causal s r (p >>= f) where
  loud w h := by
    rw [bind_apply] at h ⊢
    cases ho : (p.run w).value with
    | none => exact hp.loud w ho
    | some a =>
      rw [ho] at h
      simpa using fun _ => (hf a).loud _ h
  reaches hw hs h := by
    obtain ⟨a, u, ha, hb⟩ := leads_bind.1 h
    have hu := hp.reaches hw hs ha
    exact hu.trans ((hf a).reaches hu.on hu.agrees hb)
  repeats hw hs h hw' hindex hts := by
    obtain ⟨a, u, ha, hb⟩ := leads_bind.1 h
    have hu := hp.reaches hw hs ha
    have hv := (hf a).reaches hu.on hu.agrees hb
    obtain ⟨u', ha', hu', hindex'⟩ :=
      hp.repeats hw hs ha hw' hindex fun i hi => hts i (Nat.le_trans hi hv.le)
    obtain ⟨v', hb', hv'⟩ := (hf a).repeats hu.on hu.agrees hb hu' hindex' hts
    exact ⟨v', leads_bind.2 ⟨a, u', ha', hb'⟩, hv'⟩
  blames hw hs h := by
    rcases stumbles_bind.1 h with hd | ⟨a, u, ha, hd⟩
    · exact hp.blames hw hs hd
    · have hu := hp.reaches hw hs ha
      obtain ⟨htoken, hle, hbounded⟩ := (hf a).blames hu.on hu.agrees hd
      exact ⟨htoken, Nat.le_trans hu.le hle,
        fun e he hle' => hbounded e he (hu.bounded e he hle')⟩
  stumbles hw hs h hw' hindex hts := by
    rcases stumbles_bind.1 h with hd | ⟨a, u, ha, hd⟩
    · exact stumbles_bind.2 (.inl (hp.stumbles hw hs hd hw' hindex hts))
    · have hu := hp.reaches hw hs ha
      obtain ⟨-, hle, -⟩ := (hf a).blames hu.on hu.agrees hd
      obtain ⟨u', ha', hu', hindex'⟩ :=
        hp.repeats hw hs ha hw' hindex fun i hi => hts i (Nat.le_trans hi hle)
      exact stumbles_bind.2
        (.inr ⟨a, u', ha', (hf a).stumbles hu.on hu.agrees hd hu' hindex' hts⟩)

/-- A parse that begins with a look at a token. What is seen may be remembered. -/
theorem ofToken {spot : Spot} {q : Token → Parse α}
    (hrun : ∀ w, p.run w = (q (w.tokenAt spot)).run w) (hspot : ∀ w, w.indexAt spot ≤ s.last w)
    (hq : ∀ t, ∃ s', Causal s' r (q t) ∧ s'.reach = s.reach ∧
      ∀ w, s.Agrees w → w.tokenAt spot = t → s'.Agrees w) : Causal s r p where
  loud w h := by
    rw [hrun] at h ⊢
    obtain ⟨s', hs', -, -⟩ := hq (w.tokenAt spot)
    exact hs'.loud w h
  reaches {ts w a u} hw hs h := by
    obtain ⟨s', hs', hreach, hagrees⟩ := hq (w.tokenAt spot)
    have hu := hs'.reaches hw (hagrees w hs rfl) ((leads_congr (hrun w)).1 h)
    refine ⟨hu.on, hu.agrees, ?_, fun e he hle => hu.bounded e he ?_⟩
    · have := hu.le
      rwa [Sight.last, hreach] at this
    · rwa [Sight.last, hreach]
  repeats {ts ts' w w' a u} hw hs h hw' hindex hts := by
    obtain ⟨s', hs', hreach, hagrees⟩ := hq (w.tokenAt spot)
    have hlead := (leads_congr (hrun w)).1 h
    have hu := hs'.reaches hw (hagrees w hs rfl) hlead
    have hle : w.indexAt spot ≤ r.last u := by
      have hle := hu.le
      rw [Sight.last, hreach] at hle
      exact Nat.le_trans (hspot w) hle
    obtain ⟨u', hu', hon, hindex'⟩ := hs'.repeats hw (hagrees w hs rfl) hlead hw' hindex hts
    rw [← hw.tokenAt_eq hw' hindex hts hle] at hu'
    exact ⟨u', (leads_congr (hrun w')).2 hu', hon, hindex'⟩
  blames {ts w d} hw hs h := by
    obtain ⟨s', hs', hreach, hagrees⟩ := hq (w.tokenAt spot)
    have hd := hs'.blames hw (hagrees w hs rfl) ((stumbles_congr (hrun w)).1 h)
    rwa [Sight.last, hreach] at hd
  stumbles {ts ts' w w' d} hw hs h hw' hindex hts := by
    obtain ⟨s', hs', hreach, hagrees⟩ := hq (w.tokenAt spot)
    have hd := (stumbles_congr (hrun w)).1 h
    obtain ⟨-, hle, -⟩ := hs'.blames hw (hagrees w hs rfl) hd
    rw [Sight.last, hreach] at hle
    have hd' := hs'.stumbles hw (hagrees w hs rfl) hd hw' hindex hts
    rw [← hw.tokenAt_eq hw' hindex hts (Nat.le_trans (hspot w) hle)] at hd'
    exact (stumbles_congr (hrun w')).2 hd'

theorem advance (hs : s.reach = 1) (ht : t.reach = 0)
    (h : ∀ w, s.Agrees w → t.Agrees w.advance) : Causal s t Parse.advance where
  loud _ h := by cases h
  reaches {ts w a u} hw hagrees hlead := by
    obtain rfl := leads_advance.1 hlead
    have hlast : t.last w.advance = s.last w := by
      rw [Sight.last, Sight.last, hs, ht]
      rfl
    exact ⟨hw.advance, h w hagrees, Nat.le_of_eq hlast.symm, fun e _ he => hlast ▸ he⟩
  repeats _ _ hlead hw' hindex _ := by
    obtain rfl := leads_advance.1 hlead
    exact ⟨_, leads_advance.2 rfl, hw'.advance, congrArg (· + 1) hindex⟩
  blames _ _ hd := absurd hd stumbles_advance
  stumbles _ _ hd := absurd hd stumbles_advance

/-- The blamed token is the last one that has been looked at. -/
theorem reject (t : Sight) (spot : Spot) (problem : Problem)
    (hspot : ∀ w, w.indexAt spot = s.last w) :
    Causal s t (Parse.reject spot problem : Parse α) where
  loud _ _ := by simp [reject_apply]
  reaches _ _ hlead := absurd hlead leads_reject
  repeats _ _ hlead := absurd hlead leads_reject
  blames {ts w d} hw _ hd := by
    obtain rfl := stumbles_reject.1 hd
    have hlast : (w.blame spot problem).index = s.last w := hspot w
    exact ⟨hw.tokenAt spot, Nat.le_of_eq hlast.symm, fun e _ he => hlast ▸ he⟩
  stumbles {ts ts' w w' d} hw _ hd hw' hindex hts := by
    obtain rfl := stumbles_reject.1 hd
    have htoken := hw.tokenAt_eq hw' hindex hts (Nat.le_refl _)
    have hindexAt : w'.indexAt spot = w.indexAt spot := by
      rw [hspot, hspot, Sight.last, Sight.last, hindex]
    exact stumbles_reject.2 (by simp [Window.blame, htoken, hindexAt])

/-- What quiet runs lead to and where runs stumble is all that matters. -/
theorem congr {q : Parse α} (hq : Causal s t q)
    (hloud : ∀ w, (p.run w).value = none → Event.diagnostics (p.run w).trace ≠ [])
    (hleads : ∀ {w a u}, p.Leads Quiet w a u ↔ q.Leads Quiet w a u)
    (hstumbles : ∀ {w d}, p.Stumbles w d ↔ q.Stumbles w d) : Causal s t p where
  loud := hloud
  reaches hw hs h := hq.reaches hw hs (hleads.1 h)
  repeats hw hs h hw' hindex hts := by
    obtain ⟨u', hu', hrest⟩ := hq.repeats hw hs (hleads.1 h) hw' hindex hts
    exact ⟨u', hleads.2 hu', hrest⟩
  blames hw hs h := hq.blames hw hs (hstumbles.1 h)
  stumbles hw hs h hw' hindex hts :=
    hstumbles.2 (hq.stumbles hw hs (hstumbles.1 h) hw' hindex hts)

theorem nested (hp : Causal s t p) : Causal s t (Parse.nested p) where
  loud w h := by simpa [nested_apply] using hp.loud w h
  reaches hw hs h := hp.reaches hw hs (leads_nested.1 h)
  repeats hw hs h hw' hindex hts := by
    obtain ⟨u', hu', hrest⟩ := hp.repeats hw hs (leads_nested.1 h) hw' hindex hts
    exact ⟨u', leads_nested.2 hu', hrest⟩
  blames hw hs h := by
    obtain ⟨d, hd, rfl⟩ := stumbles_nested.1 h
    have hblames := hp.blames hw hs hd
    exact hblames
  stumbles hw hs h hw' hindex hts := by
    obtain ⟨d, hd, rfl⟩ := stumbles_nested.1 h
    exact stumbles_nested.2 ⟨d, hp.stumbles hw hs hd hw' hindex hts, rfl⟩

theorem cons (a : α) {p : Parse (List α)} (hp : Causal s t p) : Causal s t (Parse.cons a p) :=
  (hp.bind fun more => glance (a :: more) Reaches.refl).congr
    (fun w h => hp.loud w (by simpa [cons_apply] using h)) (by simp) (by simp)

/-- A loop finds what its rounds find. -/
theorem limit {q : Nat → Parse α} (hq : ∀ n, Causal s t (q n))
    (heq : ∀ w n, w.size ≤ n → (q n).run w = p.run w) : Causal s t p where
  loud w h := by
    rw [← heq w _ (Nat.le_refl _)] at h ⊢
    exact (hq _).loud w h
  reaches {ts w a u} hw hs h :=
    (hq _).reaches hw hs ((leads_congr (heq w _ (Nat.le_refl _))).2 h)
  repeats {ts ts' w w' a u} hw hs h hw' hindex hts := by
    have hrun := heq w (max w.size w'.size) (Nat.le_max_left _ _)
    have hrun' := heq w' (max w.size w'.size) (Nat.le_max_right _ _)
    obtain ⟨u', hu', hrest⟩ := (hq _).repeats hw hs ((leads_congr hrun).2 h) hw' hindex hts
    exact ⟨u', (leads_congr hrun').1 hu', hrest⟩
  blames {ts w d} hw hs h :=
    (hq _).blames hw hs ((stumbles_congr (heq w _ (Nat.le_refl _))).2 h)
  stumbles {ts ts' w w' d} hw hs h hw' hindex hts := by
    have hrun := heq w (max w.size w'.size) (Nat.le_max_left _ _)
    have hrun' := heq w' (max w.size w'.size) (Nat.le_max_right _ _)
    have hd := (hq _).stumbles hw hs ((stumbles_congr hrun).2 h) hw' hindex hts
    exact (stumbles_congr hrun').1 hd

/-- A change of what has been looked at before the parse, or behind it. -/
theorem first (h : ∀ {ts w}, w.On ts → s.Agrees w → Reaches ts s w t w) (hp : Causal t r p) :
    Causal s r p := by
  have hbind : Causal s r ((pure () : Parse Unit) >>= fun _ => p) := (glance () h).bind fun _ => hp
  rwa [pure_bind] at hbind

theorem last (hp : Causal s t p) (h : ∀ {ts w}, w.On ts → t.Agrees w → Reaches ts t w r w) :
    Causal s r p := by
  have hbind : Causal s r (p >>= pure) := hp.bind fun a => glance a h
  rwa [bind_pure] at hbind

end Parse.Causal

theorem lookahead_causal : Lookahead fun s t p => Parse.Causal s t p where
  stay _ a := .glance a .refl
  andThen hp hf := hp.bind hf
  look {_ _ f} hf := by
    apply @Parse.Causal.ofToken _ _ _ _ .current f
    · intro w
      rfl
    · intro w
      exact Nat.le_refl _
    · intro t
      exact ⟨.on t.kind, hf t, rfl, fun w _ ht => congrArg Token.kind ht⟩
  lookAgain {_ k _ f} hf := by
    apply @Parse.Causal.ofToken _ _ _ _ .current f
    · intro w
      rfl
    · intro w
      exact Nat.le_refl _
    · intro t
      exact ⟨.on k, hf t, rfl, fun w hw _ => hw⟩
  lookAhead {_ _ f} hf := by
    apply @Parse.Causal.ofToken _ _ _ _ .peek f
    · intro w
      rfl
    · intro w
      exact Nat.le_refl _
    · intro t
      exact ⟨.before t.kind, hf t, rfl, fun w _ ht => congrArg Token.kind ht⟩
  moveOn := .advance rfl rfl fun _ _ => trivial
  moveOnto k := .advance rfl rfl fun _ h => h
  rejectCurrent t problem := .reject t .current problem fun _ => rfl
  rejectPeek t problem := .reject t .peek problem fun _ => rfl
  nested hp := hp.nested
  cons a _ hp := hp.cons a
  refresh hp := hp.first fun hw _ => .forget hw
  ahead hk hp := hp.first fun hw hs => .ahead (Kind.ne_eof_of_not_mem_closing hk) hw hs
  before hp := hp.first fun hw _ => .ahead_of_before hw
  seen hk hp := hp.last fun hw hs => .ahead (Kind.ne_eof_of_not_mem_closing hk) hw hs
  seenBefore hp := hp.last fun hw _ => .ahead_of_before hw
  limit hq heq := .limit hq heq

namespace Parse.Causal

variable {α : Type} {s : Sight} {p : Parse α}

theorem terminated (hp : Causal s .ahead p) : Causal s .ahead (Parse.terminated p) := by
  have htake (a : α) : Causal .ahead .ahead (liftM (Run.take .semicolon) >>= fun _ => pure a) :=
    lookahead_causal.take (.glance a fun hw hs => .ahead (by decide) hw hs) (.glance a .refl)
  refine (hp.bind htake).congr ?_ ?_ ?_
  · intro w h
    have hd := hp.loud w (by simpa [terminated_apply] using h)
    simp [terminated_apply, hd]
  · intro w a u
    rw [leads_terminated, leads_bind]
    simp only [leads_take_bind, leads_pure, Window.pastSemicolon]
    constructor
    · rintro ⟨v, hv, rfl⟩
      exact ⟨a, v, hv, by split <;> exact ⟨rfl, rfl⟩⟩
    · rintro ⟨b, v, hv, h⟩
      split at h
      · next hk =>
        obtain ⟨rfl, rfl⟩ := h
        exact ⟨_, hv, (if_pos hk).symm⟩
      · next hk =>
        obtain ⟨rfl, rfl⟩ := h
        exact ⟨_, hv, (if_neg hk).symm⟩
  · simp [stumbles_bind]

/-- A statement that is given up is no quiet run. -/
theorem recover (hp : Causal s .ahead p) :
    Causal s .ahead (liftM (Parse.recover p) : Parse (Option α)) := by
  refine (lookahead_causal.map some hp).congr ?_ ?_ ?_
  · intro w h
    simp [lift_apply] at h
  · intro w found u
    rw [leads_lift]
    simp only [Leads, Run.Leads, Quiet, map_apply, recover_apply]
    cases ho : (p.run w).value with
    | none => simp [hp.loud w ho]
    | some a => simp
  · simp

theorem round (hp : Causal .fresh .ahead p) : Causal .fresh .fresh (Parse.round p) :=
  hp.recover.bind fun found =>
    (lookahead_causal.andThen lookahead_causal.moveOn fun _ => lookahead_causal.stay _ found)

end Parse.Causal

/-- All parses find the same from the same tokens, programs included. -/
theorem statementLookahead_causal : StatementLookahead fun s t p => Parse.Causal s t p where
  toLookahead := lookahead_causal
  terminated hp := hp.terminated
  round hp := hp.round
  forget hp := hp.last fun hw _ => .forget hw
  seenAny hk hp := hp.last fun hw hs => .ahead hk hw hs

end MonkeyLang
