import MonkeyLang.Proofs.DiagnosticPlaces
import MonkeyLang.Proofs.Resumption
import MonkeyLang.Proofs.StepwiseReading
import MonkeyLang.Proofs.TokensTaken

/-!
# Reading as needed and reading ahead

A parse takes the tokens of a text while a cursor moves through it, and it may take the end token
many times over. It depends on its source only through the tokens that it takes, so it can as well
be handed the list of all tokens of the text, with the end token at its end repeated. Main
statements: `parse_eq_of_on`, for any two sources along the same tokens, and `parse_tokenized`.
-/

namespace MonkeyLang

open Grammar

/-! ### Along the same tokens -/

theorem Event.later_zero : Event.later 0 = id := by
  funext e
  cases e <;> rfl

/-- Two windows at the same position of a sequence follow the same tokens. -/
theorem Window.On.follows {ts : Nat → Token} {w w' : Window} (h : w.On ts) (h' : w'.On ts)
    (hindex : w'.index = w.index) : w.Follows 0 w' :=
  ⟨hindex, fun i => by rw [h i, h' i, hindex]⟩

/-- What a whole parse yields and what happens in its course depend on the tokens only. -/
theorem program_eq_of_on (config : Config) {ts : Nat → Token} {w w' : Window} (h : w.On ts)
    (h' : w'.On ts) (hindex : w'.index = w.index) (levels : Nat) :
    (program { config } levels w').value = (program { config } levels w).value ∧
      (program { config } levels w').trace = (program { config } levels w).trace := by
  obtain ⟨hvalue, htrace, -⟩ :=
    (statementLookahead_shifts 0).statements config levels (h.follows h' hindex)
  rw [Parse.lift_apply, Parse.lift_apply] at hvalue htrace
  rw [Event.later_zero, List.map_id] at htrace
  simp only [program, bind_pure_comp, Run.map_apply]
  exact ⟨congrArg Node.program (Option.some.inj hvalue), htrace⟩

/-- Parses from sources of the same tokens yield the same program and the same diagnostics, and take
the same tokens. -/
theorem parse_eq_of_on (config : Config) {ts : Nat → Token} {s s' : Source}
    (h : (Window.ofSource s).On ts) (h' : (Window.ofSource s').On ts) :
    (parse { config } s').program = (parse { config } s).program ∧
      (parse { config } s').diagnostics = (parse { config } s).diagnostics ∧
      (Session.start { config } s').tokensTaken = (Session.start { config } s).tokensTaken := by
  obtain ⟨hvalue, htrace⟩ := program_eq_of_on config h h' rfl maxNesting
  refine ⟨hvalue, congrArg Event.diagnostics htrace, ?_⟩
  have hcurrent : (Window.ofSource s').current = (Window.ofSource s).current :=
    h'.current.trans h.current.symm
  have hpeek : (Window.ofSource s').peek = (Window.ofSource s).peek := h'.peek.trans h.peek.symm
  simp only [Session.tokensTaken, Session.start, Nat.sub_zero, hcurrent, hpeek, htrace]

/-- The tokens that are taken for a whole parse are the first ones of the sequence. -/
theorem exists_tokensTaken_eq (setup : Setup) {ts : Nat → Token} {s : Source}
    (h : (Window.ofSource s).On ts) :
    ∃ n, (Session.start setup s).tokensTaken = (List.range n).map ts := by
  obtain ⟨-, n, -, htaken⟩ := (StepInvariant.takes ts).program setup maxNesting _ h
  refine ⟨n + 2, ?_⟩
  rw [List.range_eq_range', List.range'_succ, List.range'_succ, List.map_cons, List.map_cons]
  exact congr (congrArg List.cons h.current) (congr (congrArg List.cons h.peek) htaken)

/-! ### The list of all tokens -/

namespace Scan

theorem getLast?_tokens (s : Scan) : s.tokens.getLast? = some (.endAt s.finish) := by
  rw [tokens_eq_append, List.getLast?_concat]

/-- The tokens of a scan one by one are those of the list, and the last of them over and over. -/
theorem token_after_eq_getD (s : Scan) (i : Nat) :
    (s.after i).token = s.tokens.getD i (.endAt s.finish) := by
  induction i generalizing s with
  | zero =>
    rw [tokens_eq]
    split <;> rfl
  | succ i ih =>
    rw [tokens_eq]
    split
    · next h => exact (token_after_of_eof (Nat.zero_le _) h).trans (token_of_eof h)
    · rw [after, ih s.next, finish_next, List.getD_cons_succ]

end Scan

/-- A window on the list of all tokens of a text, end tokens behind it, shows the tokens that come
from the text itself. -/
theorem Window.on_ofSource_tokenize (text : String) :
    (ofSource (.tokens (tokenize text) (Scan.ofText text).finish)).On
      fun i => ((Scan.ofText text).after i).token := by
  simp only [Scan.token_after_eq_getD]
  exact on_ofSource _ _

/-! ### Reading one token after the other -/

namespace Stepwise

/-- What reading so many tokens one after the other yields. -/
def tokens : Nat → TextCursor → List (Except ReadFault Token)
  | 0, _ => []
  | n + 1, c => (token c).1 :: tokens n (token c).2

/-- In the text any number of tokens can be read, and these are the tokens of the unread part. -/
theorem tokens_eq (n : Nat) {c : TextCursor} (h : 0 ≤ c.position) :
    tokens n c = (List.range n).map fun i => .ok (c.scan.after i).token := by
  induction n generalizing c with
  | zero => rfl
  | succ n ih =>
    have hnext : 0 ≤ (c.moveTo c.scan.next).position := Int.add_nonneg h (Int.natCast_nonneg _)
    rw [tokens, token_eq_scan h, ih hnext, c.scan_moveTo_next h, List.range_succ_eq_map,
      List.map_cons, List.map_map]
    rfl

end Stepwise

/-- Parsing a text whose tokens are read as they are needed, and parsing the list of all its tokens
with the end token at its end repeated, yield the same program and the same diagnostics, places
included, and take the same tokens. A cursor that is put at the start of the text and asked for a
token as many times yields these tokens. -/
theorem parse_tokenized (config : Config) (text : String) :
    ∃ finish, (tokenize text).getLast? = some (.endAt finish) ∧
      let needed := Session.start { config } (.ofText text)
      let listed := Session.start { config } (.tokens (tokenize text) finish)
      needed.parse.1 = listed.parse.1 ∧
        needed.parse.2.diagnostics = listed.parse.2.diagnostics ∧
        needed.tokensTaken = listed.tokensTaken ∧
        Stepwise.tokens needed.tokensTaken.length ⟨text, 0, .start⟩ =
          needed.tokensTaken.map .ok := by
  have hneeded : (Window.ofSource (.ofText text)).On
      fun i => ((Scan.ofText text).after i).token := (Window.shows_ofSource _).on rfl
  obtain ⟨hprogram, hdiagnostics, htaken⟩ :=
    parse_eq_of_on config (Window.on_ofSource_tokenize text) hneeded
  obtain ⟨n, hn⟩ := exists_tokensTaken_eq { config } hneeded
  refine ⟨_, Scan.getLast?_tokens _, hprogram, hdiagnostics, htaken, ?_⟩
  rw [hn, List.length_map, List.length_range, Stepwise.tokens_eq n (Int.le_refl 0), List.map_map]
  rfl

end MonkeyLang
