import MonkeyLang.Proofs.Causality
import MonkeyLang.Proofs.Resumption

/-!
# The order of diagnostics

A problem is noted at the last token that has been looked at, so positions never decrease from one
diagnostic to the next. After a problem the parse always moves on, either behind the blamed token or
onto it, so no token is blamed a third time. Main statements: `statementLookahead_orderly`, and
`ascends_parse` for whole parses.
-/

namespace MonkeyLang

/-! ### Positions -/

/-- Positions that never decrease, from `lo` to `hi`. The first one stands there once at most, and
the others twice at most. -/
structure Ascends (lo hi : Nat) (is : List Nat) : Prop where
  le : lo ≤ hi
  sorted : is.Pairwise (· ≤ ·)
  bounds : ∀ i ∈ is, lo ≤ i ∧ i ≤ hi
  first : is.count lo ≤ 1
  twice : ∀ i, is.count i ≤ 2

namespace Ascends

variable {lo mid hi : Nat} {is js : List Nat}

theorem nil (h : lo ≤ hi) : Ascends lo hi [] :=
  ⟨h, .nil, by simp, by simp, by simp⟩

theorem singleton {i : Nat} (hlo : lo ≤ i) (hhi : i ≤ hi) : Ascends lo hi [i] where
  le := Nat.le_trans hlo hhi
  sorted := List.pairwise_singleton _ _
  bounds := by simpa using ⟨hlo, hhi⟩
  first := List.count_le_length
  twice _ := Nat.le_succ_of_le List.count_le_length

theorem count_eq_zero (h : Ascends lo hi is) {i : Nat} (hi : i < lo ∨ hi < i) :
    is.count i = 0 := by
  refine List.count_eq_zero.2 fun hmem => ?_
  have := h.bounds i hmem
  omega

theorem mono (h : Ascends lo mid is) (hle : mid ≤ hi) : Ascends lo hi is :=
  { h with
    le := Nat.le_trans h.le hle
    bounds := fun i hmem => ⟨(h.bounds i hmem).1, Nat.le_trans (h.bounds i hmem).2 hle⟩ }

/-- Ascents that meet at a position which each of them has once at most. -/
theorem append (h : Ascends lo mid is) (h' : Ascends mid hi js) (hlo : lo = mid → is = [])
    (hmid : is.count mid ≤ 1) : Ascends lo hi (is ++ js) where
  le := Nat.le_trans h.le h'.le
  sorted := List.pairwise_append.2 ⟨h.sorted, h'.sorted, fun i hi j hj =>
    Nat.le_trans (h.bounds i hi).2 (h'.bounds j hj).1⟩
  bounds i hmem := by
    have hle := h.le
    have hle' := h'.le
    rcases List.mem_append.1 hmem with hmem | hmem
    · have := h.bounds i hmem
      omega
    · have := h'.bounds i hmem
      omega
  first := by
    rcases Nat.eq_or_lt_of_le h.le with rfl | hlt
    · rw [hlo rfl]
      exact h'.first
    · rw [List.count_append, h'.count_eq_zero (.inl hlt)]
      exact h.first
  twice i := by
    rw [List.count_append]
    rcases Nat.lt_trichotomy i mid with hlt | rfl | hlt
    · rw [h'.count_eq_zero (.inl hlt)]
      exact h.twice i
    · exact Nat.add_le_add hmid h'.first
    · rw [h.count_eq_zero (.inr hlt), Nat.zero_add]
      exact h'.twice i

end Ascends

namespace Event

/-- The positions of the tokens that are blamed in a trace. -/
def blamed (trace : List Event) : List Nat := (diagnostics trace).map Diagnostic.index

@[simp] theorem blamed_append (a b : List Event) : blamed (a ++ b) = blamed a ++ blamed b := by
  simp [blamed]

@[simp] theorem blamed_map_nested (trace : List Event) :
    blamed (trace.map nested) = blamed trace := by
  simp [blamed, Function.comp_def]

end Event

open Event (blamed)

/-! ### What parses blame -/

theorem Sight.reach_le_one (s : Sight) : s.reach ≤ 1 := by
  cases s <;> simp [reach]

/-- In a run that succeeds, the blamed positions ascend from the last token that was looked at
before the run to the last one that has been looked at behind it. If the latter is still to come, it
has not been blamed, and if both are the same, nothing has. -/
structure Clears (s : Sight) (w : Window) (t : Sight) (v : Window) (is : List Nat) : Prop
    extends Ascends (s.last w) (t.last v) is where
  index_le : w.index ≤ v.index
  room : is.count (t.last v) + t.reach ≤ 1
  still : s.last w = t.last v → is = []

/-- In a run that fails, the blamed positions ascend to the next token at most, which is blamed once
at most. -/
structure Breaks (s : Sight) (w v : Window) (is : List Nat) : Prop
    extends Ascends (s.last w) (v.index + 1) is where
  index_le : w.index ≤ v.index
  once : is.count (v.index + 1) ≤ 1

section Composition

variable {s t r : Sight} {w u v : Window} {is js : List Nat}

theorem Clears.nil (hindex : w.index ≤ v.index) (hlast : s.last w ≤ t.last v) :
    Clears s w t v [] where
  toAscends := .nil hlast
  index_le := hindex
  room := by simpa using t.reach_le_one
  still _ := rfl

theorem Clears.ascends_append {hi : Nat} (h : Clears s w t u is) (h' : Ascends (t.last u) hi js) :
    Ascends (s.last w) hi (is ++ js) :=
  h.append h' h.still (Nat.le_trans (Nat.le_add_right _ _) h.room)

theorem Clears.trans (h : Clears s w t u is) (h' : Clears t u r v js) :
    Clears s w r v (is ++ js) where
  toAscends := h.ascends_append h'.toAscends
  index_le := Nat.le_trans h.index_le h'.index_le
  room := by
    rw [List.count_append]
    rcases Nat.eq_or_lt_of_le h'.le with heq | hlt
    · -- nothing more has been looked at, so nothing more is blamed
      have hroom := h.room
      have hindex := h'.index_le
      rw [h'.still heq, List.count_nil, ← heq]
      rw [Sight.last, Sight.last] at heq
      omega
    · rw [h.count_eq_zero (.inr hlt), Nat.zero_add]
      exact h'.room
  still heq := by
    have hle := h.le
    have hle' := h'.le
    rw [h.still (by omega), h'.still (by omega), List.append_nil]

theorem Clears.breaks (h : Clears s w t u is) (h' : Breaks t u v js) :
    Breaks s w v (is ++ js) where
  toAscends := h.ascends_append h'.toAscends
  index_le := Nat.le_trans h.index_le h'.index_le
  once := by
    have honce := h'.once
    have hindex := h'.index_le
    have hroom := h.room
    have hreach := t.reach_le_one
    rw [List.count_append]
    rcases Nat.eq_or_lt_of_le h'.le with heq | hlt
    · rw [heq] at hroom
      rw [Sight.last] at heq
      omega
    · rw [h.count_eq_zero (.inr hlt)]
      omega

theorem Breaks.mono (h : Breaks s w u is) (hindex : u.index ≤ v.index) : Breaks s w v is where
  toAscends := h.toAscends.mono (Nat.succ_le_succ hindex)
  index_le := Nat.le_trans h.index_le hindex
  once := by
    rcases Nat.eq_or_lt_of_le hindex with heq | hlt
    · rw [← heq]
      exact h.once
    · rw [h.count_eq_zero (.inr (Nat.succ_lt_succ hlt))]
      exact Nat.zero_le 1

/-- Moving on after a failure leads onto the next token. -/
theorem Breaks.advance (h : Breaks .fresh w u is) : Clears .fresh w .fresh u.advance is where
  toAscends := h.toAscends
  index_le := Nat.le_succ_of_le h.index_le
  room := h.once
  still heq := by
    have heq : w.index = u.index + 1 := heq
    have hle := h.index_le
    omega

end Composition

/-- From wherever it starts the parse blames positions in their order. -/
structure Parse.Orderly {α : Type} (s t : Sight) (p : Parse α) : Prop where
  clears : ∀ w, (p.run w).value.isSome →
    Clears s w t (p.run w).window (blamed (p.run w).trace)
  breaks : ∀ w, (p.run w).value = none → Breaks s w (p.run w).window (blamed (p.run w).trace)

namespace Parse.Orderly

variable {α β : Type} {s t r : Sight} {p : Parse α}

/-- Doing nothing, while what has been looked at may grow. -/
theorem glance (a : α) (h : s.reach ≤ t.reach) : Orderly s t (pure a : Parse α) where
  clears w _ := .nil (Nat.le_refl _) (Nat.add_le_add_left h _)
  breaks _ h := by cases h

theorem bind {f : α → Parse β} (hp : Orderly s t p) (hf : ∀ a, Orderly t r (f a)) :
    Orderly s r (p >>= f) where
  clears w h := by
    rw [bind_apply] at h ⊢
    cases ho : (p.run w).value with
    | none => simp [ho] at h
    | some a =>
      simp only [ho, Event.blamed_append] at h ⊢
      exact (hp.clears w (by simp [ho])).trans ((hf a).clears _ h)
  breaks w h := by
    rw [bind_apply] at h ⊢
    cases ho : (p.run w).value with
    | none => exact hp.breaks w ho
    | some a =>
      simp only [ho, Event.blamed_append] at h ⊢
      exact (hp.clears w (by simp [ho])).breaks ((hf a).breaks _ h)

/-- From each window the parse runs like one that blames in order. -/
theorem congr (h : ∀ w, ∃ q : Parse α, p.run w = q.run w ∧ Orderly s t q) : Orderly s t p where
  clears w hw := by
    obtain ⟨q, hrun, hq⟩ := h w
    rw [hrun] at hw ⊢
    exact hq.clears w hw
  breaks w hw := by
    obtain ⟨q, hrun, hq⟩ := h w
    rw [hrun] at hw ⊢
    exact hq.breaks w hw

theorem first (hp : Orderly t r p) (h : s.reach ≤ t.reach) : Orderly s r p := by
  have hbind : Orderly s r ((pure () : Parse Unit) >>= fun _ => p) :=
    (glance () h).bind fun _ => hp
  rwa [pure_bind] at hbind

theorem last (hp : Orderly s t p) (h : t.reach ≤ r.reach) : Orderly s r p := by
  have hbind : Orderly s r (p >>= pure) := hp.bind fun a => glance a h
  rwa [bind_pure] at hbind

theorem advance (hs : s.reach = 1) (ht : t.reach = 0) : Orderly s t Parse.advance where
  clears w _ := by
    refine .nil (Nat.le_succ _) (Nat.le_of_eq ?_)
    rw [Sight.last, Sight.last, hs, ht]
    rfl
  breaks _ h := by cases h

/-- The blamed token is the last one that has been looked at. -/
theorem reject (t : Sight) (spot : Spot) (problem : Problem)
    (hspot : ∀ w, w.indexAt spot = s.last w) :
    Orderly s t (Parse.reject spot problem : Parse α) where
  clears _ h := by cases h
  breaks w _ := by
    have hlast : s.last w ≤ w.index + 1 := Nat.add_le_add_left s.reach_le_one _
    have hblamed : blamed ((Parse.reject spot problem : Parse α).run w).trace = [s.last w] :=
      congrArg (fun i => [i]) (hspot w)
    rw [hblamed]
    exact ⟨.singleton (Nat.le_refl _) hlast, Nat.le_refl _, List.count_le_length⟩

theorem nested (hp : Orderly s t p) : Orderly s t (Parse.nested p) where
  clears w h := by
    rw [nested_apply, Event.blamed_map_nested]
    exact hp.clears w h
  breaks w h := by
    rw [nested_apply, Event.blamed_map_nested]
    exact hp.breaks w h

theorem cons (a : α) {p : Parse (List α)} (hp : Orderly s t p) :
    Orderly s t (Parse.cons a p) where
  clears w h := hp.clears w (by simpa [cons_apply] using h)
  breaks w h := hp.breaks w (by simpa [cons_apply] using h)

theorem terminated (hp : Orderly s .ahead p) : Orderly s .ahead (Parse.terminated p) := by
  have hblamed (w : Window) :
      blamed ((Parse.terminated p).run w).trace = blamed (p.run w).trace := by
    simp [blamed, terminated_apply, Run.diagnostics_take]
  have hindex (w : Window) : w.index ≤ (Run.take .semicolon w).window.index := by
    rw [Run.take_apply]
    split
    · exact Nat.le_succ _
    · exact Nat.le_refl _
  constructor
  · intro w h
    have hskip := (hp.clears w h).trans
      (.nil (hindex _) (Nat.add_le_add_right (hindex _) Sight.ahead.reach))
    rwa [List.append_nil, ← hblamed] at hskip
  · intro w h
    have hskip := (hp.breaks w h).mono (hindex _)
    rwa [← hblamed] at hskip

/-- Behind a statement the parse moves on, onto a blamed token or behind it. -/
theorem round (hp : Orderly .fresh .ahead p) : Orderly .fresh .fresh (Parse.round p) where
  clears w _ := by
    have hblamed : blamed ((Parse.round p).run w).trace = blamed (p.run w).trace := by
      rw [round_apply, recover_apply]
      cases (p.run w).value <;> simp [blamed]
    rw [hblamed, round_apply]
    cases ho : (p.run w).value with
    | none => exact (hp.breaks w ho).advance
    | some a =>
      have hmove := (hp.clears w (by simp [ho])).trans
        (.nil (Nat.le_succ _) (Nat.le_refl _) : Clears .ahead _ .fresh (p.run w).window.advance [])
      rwa [List.append_nil] at hmove
  breaks w h := by cases h

end Parse.Orderly

theorem statementLookahead_orderly : StatementLookahead fun s t p => Parse.Orderly s t p where
  stay _ a := .glance a (Nat.le_refl _)
  andThen hp hf := hp.bind hf
  look {_ _ f} hf := .congr fun w => ⟨f w.current, rfl, (hf _).first (Nat.le_refl _)⟩
  lookAgain {_ _ _ f} hf := .congr fun w => ⟨f w.current, rfl, hf _⟩
  lookAhead {_ _ f} hf := .congr fun w => ⟨f w.peek, rfl, (hf _).first (Nat.le_refl _)⟩
  moveOn := .advance rfl rfl
  moveOnto _ := .advance rfl rfl
  rejectCurrent t problem := .reject t .current problem fun _ => rfl
  rejectPeek t problem := .reject t .peek problem fun _ => rfl
  nested hp := hp.nested
  cons a _ hp := hp.cons a
  refresh hp := hp.first (Nat.le_refl _)
  ahead _ hp := hp.first (Nat.zero_le _)
  before hp := hp.first (Nat.le_refl _)
  seen _ hp := hp.last (Nat.zero_le _)
  seenBefore hp := hp.last (Nat.le_refl _)
  limit {_ _ _ q _} hq heq := .congr fun w => ⟨q w.size, (heq w _ (Nat.le_refl _)).symm, hq _⟩
  terminated hp := hp.terminated
  round hp := hp.round
  forget hp := hp.last (Nat.le_refl _)
  seenAny _ hp := hp.last (Nat.zero_le _)

/-- Along a sequence of tokens, the diagnostic blames the token at its position, and its problem is
one that this token can have. -/
def Diagnostic.Fits (ts : Nat → Token) (d : Diagnostic) : Prop :=
  d.token = ts d.index ∧ d.problem.Fits d.token

theorem StepInvariant.fits (ts : Nat → Token) : StepInvariant fun w _ trace v =>
    w.On ts → v.On ts ∧ ∀ d ∈ Event.diagnostics trace, d.Fits ts :=
  TraceInvariant.stepInvariant
    { stay := fun _ hw => ⟨hw, by simp⟩
      advance := fun _ hw => ⟨hw.advance, by simp⟩
      reject := by
        intro w spot problem hfits hw
        refine ⟨hw, fun d hd => ?_⟩
        obtain rfl := List.mem_singleton.1 hd
        exact ⟨hw.tokenAt spot, hfits⟩
      append := by
        intro w a u b v ha hb hw
        obtain ⟨hu, ha⟩ := ha hw
        obtain ⟨hv, hb⟩ := hb hu
        exact ⟨hv, by simpa [or_imp, forall_and] using ⟨ha, hb⟩⟩
      nested := by
        intro w a v h hw
        obtain ⟨hv, h⟩ := h hw
        refine ⟨hv, fun d hd => ?_⟩
        rw [Event.diagnostics_map_nested] at hd
        obtain ⟨e, he, rfl⟩ := List.mem_map.1 hd
        exact h e he
      drop := by
        intro w a v _ h hw
        obtain ⟨hv, h⟩ := h hw
        exact ⟨hv, by simpa using h⟩ }

/-- The positions that a whole parse blames ascend. -/
theorem ascends_parse (config : Config) (source : Source) :
    ∃ hi, Ascends 0 hi ((parse { config } source).diagnostics.map Diagnostic.index) := by
  have hclears := (statementLookahead_orderly.statements config maxNesting).clears
    (.ofSource source) (by simp [Parse.lift_apply])
  rw [Parse.lift_apply] at hclears
  rw [diagnostics_parse]
  exact ⟨_, hclears.toAscends⟩

end MonkeyLang
