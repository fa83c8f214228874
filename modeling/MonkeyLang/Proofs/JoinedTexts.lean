import Mathlib.Data.List.TakeWhile
import MonkeyLang.Proofs.Coordinates

/-!
# Texts joined by a blank

No lexeme reaches over a blank, so two texts with a blank between them have the tokens of the first
and the tokens of the second. Those of the second stand as they stand in their own text, seen from
the place behind the blank. Main statements: `Lexeme.Longest.append_blank`, `Scan.tokens_seenFrom`
and `tokenize_append_blank`.
-/

namespace MonkeyLang

open Text

/-! ### Places seen from another place -/

namespace Place

/-- Where a place of a text lies if the text begins at `q`: on its first line the columns go on from
that of `q`, and on further lines they stay as they are. -/
def seenFrom (q p : Place) : Place :=
  if p.line = 1 then ⟨q.line, q.col - 1 + p.col⟩ else ⟨q.line + p.line - 1, p.col⟩

@[simp] theorem seenFrom_start (q : Place) : q.seenFrom start = q := by
  simp [seenFrom, start]

theorem seenFrom_after {p : Place} (hp : 1 ≤ p.line) (q : Place) (c : Char) :
    q.seenFrom (p.after c) = (q.seenFrom p).after c := by
  by_cases hc : c = '\n' <;> by_cases hline : p.line = 1 <;>
    simp only [seenFrom, after, hc, hline, if_true, if_false, Place.mk.injEq] <;> grind

theorem one_le_line_afterAll {p : Place} (hp : 1 ≤ p.line) (cs : List Char) :
    1 ≤ (p.afterAll cs).line := by
  rw [line_afterAll]
  omega

/-- Reading on from a place leads to the same places, seen from `q`. -/
theorem seenFrom_afterAll {p : Place} (hp : 1 ≤ p.line) (q : Place) (cs : List Char) :
    q.seenFrom (p.afterAll cs) = (q.seenFrom p).afterAll cs := by
  induction cs generalizing p with
  | nil => rfl
  | cons c cs ih =>
    have hafter : 1 ≤ (p.after c).line := one_le_line_afterAll hp [c]
    rw [afterAll_cons, afterAll_cons, ih hafter, seenFrom_after hp]

end Place

/-- The token where it stands if its text begins at `q`. -/
def Token.seenFrom (q : Place) (t : Token) : Token := { t with place := q.seenFrom t.place }

@[simp] theorem Token.kind_seenFrom (q : Place) (t : Token) : (t.seenFrom q).kind = t.kind := rfl

namespace Scan

/-- The scan where it stands if its text begins at `q`. -/
def seenFrom (q : Place) (s : Scan) : Scan := { s with place := q.seenFrom s.place }

section

variable {s : Scan} (hs : 1 ≤ s.place.line) (q : Place)

include hs

theorem skipBlanks_seenFrom : (s.seenFrom q).skipBlanks = s.skipBlanks.seenFrom q := by
  simp only [skipBlanks, seenFrom, Place.seenFrom_afterAll hs]

theorem token_seenFrom : (s.seenFrom q).token = s.token.seenFrom q := by
  rw [token, skipBlanks_seenFrom hs]
  rfl

theorem next_seenFrom : (s.seenFrom q).next = s.next.seenFrom q := by
  have hblanks : 1 ≤ s.skipBlanks.place.line := Place.one_le_line_afterAll hs _
  rw [next, skipBlanks_seenFrom hs]
  simp only [next, drop, seenFrom, Place.seenFrom_afterAll hblanks]

end

/-- A text that begins elsewhere has the same tokens, seen from there. -/
theorem tokens_seenFrom {s : Scan} (hs : 1 ≤ s.place.line) (q : Place) :
    (s.seenFrom q).tokens = s.tokens.map (Token.seenFrom q) := by
  rw [tokens_eq, s.tokens_eq, token_seenFrom hs, next_seenFrom hs, Token.kind_seenFrom]
  by_cases h : s.token.kind = .eof
  · rw [if_pos h, if_pos h, List.map_singleton]
  · have hlt := length_next_lt h
    have hnext : 1 ≤ s.next.place.line :=
      Place.one_le_line_afterAll (Place.one_le_line_afterAll hs _) _
    rw [if_neg h, if_neg h, tokens_seenFrom hnext q, List.map_cons]
termination_by s.rest.length

end Scan

/-! ### A blank ends every lexeme -/

/-- Nothing that is free of `w` begins a text and reaches over a `w` in it. -/
theorem prefix_of_prefix_append_cons {os xs ys : List Char} {w : Char} (hw : w ∉ os)
    (h : os <+: xs ++ w :: ys) : os <+: xs := by
  have hfirst : xs ++ [w] <+: xs ++ w :: ys := ⟨ys, by simp⟩
  rcases List.prefix_or_prefix_of_prefix h hfirst with hle | hge
  · rcases List.prefix_concat_iff.1 hle with rfl | hxs
    · exact absurd (by simp) hw
    · exact hxs
  · exact absurd (hge.subset (by simp)) hw

/-- Behind the rest of a text, a character that is not of a class changes nothing for the class. -/
theorem head?_append_not_of_class {p : Char → Bool} {w : Char} (hw : p w = false)
    {rest : List Char} (hrest : ∀ c ∈ rest.head?, p c = false) (cs : List Char) :
    ∀ c ∈ (rest ++ w :: cs).head?, p c = false := by
  cases rest with
  | nil =>
    rintro _ ⟨⟩
    exact hw
  | cons d rest => exact hrest

/-- A lexeme that is as long as it can be still is if a blank and anything else is put behind the
text. -/
theorem Lexeme.Longest.append_blank {l : Lexeme} {rest : List Char} (h : l.Longest rest) {w : Char}
    (hw : isBlank w = true) (cs : List Char) : l.Longest (rest ++ w :: cs) := by
  have hclass {p : Char → Bool} (hp : [' ', '\t', '\r', '\n'].any p = false) : p w = false := by
    rw [Bool.eq_false_iff]
    intro hpw
    rw [isBlank_eq_false_of_class hp hpw] at hw
    cases hw
  cases h with
  | word hne hletters hrest hkind =>
    exact .word hne hletters (head?_append_not_of_class (hclass rfl) hrest cs) hkind
  | numeral hne hdigits hrest =>
    exact .numeral hne hdigits (head?_append_not_of_class (hclass rfl) hrest cs)
  | operator hmem hlongest =>
    refine .operator hmem fun o ho hprefix => hlongest o ho ?_
    have hblanks : Kind.operators.all (fun o => o.1.toList.all fun c => !isBlank c) = true := by
      decide
    have hfree : w ∉ o.1.toList := by
      intro hmem
      have hnot := List.all_eq_true.1 (List.all_eq_true.1 hblanks o ho) w hmem
      rw [hw] at hnot
      cases hnot
    rw [← List.append_assoc] at hprefix
    exact prefix_of_prefix_append_cons hfree hprefix
  | illegal hblank hletter hdigit hoperator => exact .illegal hblank hletter hdigit hoperator

/-! ### The tokens of joined texts -/

namespace Scan

/-- The scan with more text behind it. -/
def append (s : Scan) (cs : List Char) : Scan := { s with rest := s.rest ++ cs }

theorem tokens_congr {s u : Scan} (h : s.skipBlanks = u.skipBlanks) : s.tokens = u.tokens := by
  obtain ⟨htoken, hnext⟩ := token_next_congr h
  rw [s.tokens_eq, u.tokens_eq, htoken, hnext]

/-- A longest lexeme behind the blanks is the next token, and what follows it comes after. -/
theorem token_next_of_longest {s : Scan} {l : Lexeme} {rest : List Char}
    (hrest : s.skipBlanks.rest = l.text ++ rest) (h : l.Longest rest) :
    s.token = ⟨l.kind, String.ofList l.text, s.skipBlanks.place⟩ ∧
      s.next = ⟨rest, s.skipBlanks.place.afterAll l.text⟩ := by
  constructor
  · rw [token, hrest, h.atHead_eq]
  · simp [next, drop, hrest, h.atHead_eq]

theorem skipBlanks_append {s : Scan} (h : s.token.kind ≠ .eof) (cs : List Char) :
    (s.append cs).skipBlanks = s.skipBlanks.append cs := by
  have hne : s.rest.dropWhile isBlank ≠ [] := mt s.kind_token_eq_eof_iff.2 h
  have hshort : (s.rest.takeWhile isBlank).length ≠ s.rest.length := by
    intro hlength
    have hsplit := congrArg List.length
      (List.takeWhile_append_dropWhile (p := isBlank) (l := s.rest))
    rw [List.length_append] at hsplit
    exact hne (List.length_eq_zero_iff.1 (by omega))
  simp only [skipBlanks, append, List.dropWhile_append, List.takeWhile_append, hshort, if_false,
    List.isEmpty_eq_false_iff.2 hne, Bool.false_eq_true]

section

variable {w : Char} (hw : isBlank w = true) (cs : List Char)

include hw

/-- A blank and more text behind the text change neither the next token nor where it ends. -/
theorem token_next_append {s : Scan} (h : s.token.kind ≠ .eof) :
    (s.append (w :: cs)).token = s.token ∧
      (s.append (w :: cs)).next = s.next.append (w :: cs) := by
  have hlongest := (longest_token h).append_blank hw cs
  have hrest : (s.append (w :: cs)).skipBlanks.rest =
      s.token.lexeme.text ++ (s.next.rest ++ w :: cs) := by
    rw [skipBlanks_append h, append, ← s.literal_append_next, List.append_assoc]
    rfl
  obtain ⟨htoken, hnext⟩ := token_next_of_longest hrest hlongest
  obtain ⟨htoken', hnext'⟩ := token_next_of_longest s.literal_append_next.symm (longest_token h)
  rw [skipBlanks_append h] at htoken hnext
  exact ⟨htoken.trans htoken'.symm, hnext.trans (by rw [hnext']; rfl)⟩

/-- With a blank and more text behind it, a text has its own tokens and then those of the text
behind the blank. -/
theorem tokens_append_blank (s : Scan) :
    (s.append (w :: cs)).tokens = (Source.text s).upcoming ++
      (⟨cs, s.place.afterAll (s.rest ++ [w])⟩ : Scan).tokens := by
  by_cases h : s.token.kind = .eof
  · rw [Source.upcoming_of_head_eof (s := .text s) h, List.nil_append]
    have hblanks : ∀ c ∈ s.rest ++ [w], isBlank c = true := by
      have hrest := List.dropWhile_eq_nil_iff.1 (s.kind_token_eq_eof_iff.1 h)
      simpa [or_imp, forall_and, hw] using hrest
    apply tokens_congr
    simp only [skipBlanks, append]
    rw [List.append_cons, List.dropWhile_append_of_pos hblanks,
      List.takeWhile_append_of_pos hblanks, Place.afterAll_append]
  · obtain ⟨htoken, hnext⟩ := token_next_append hw cs h
    have hlt := length_next_lt h
    have hplace : s.next.place.afterAll (s.next.rest ++ [w]) =
        s.place.afterAll (s.rest ++ [w]) := by
      rw [Place.afterAll_append, Place.afterAll_append]
      exact congrArg (Place.afterAll · [w]) s.finish_next
    have hmore := s.next.tokens_append_blank
    rw [hplace] at hmore
    rw [tokens_eq, htoken, if_neg h, hnext, hmore,
      Source.upcoming_of_head_ne_eof (s := .text s) h]
    rfl
termination_by s.rest.length

end

end Scan

/-- Two texts with a blank between them have the tokens of the first without its end token, and then
those of the second, seen from the place behind the blank. -/
theorem tokenize_append_blank (a b : String) {w : Char} (hw : w ∈ [' ', '\t', '\r', '\n']) :
    tokenize (a ++ String.singleton w ++ b) =
      (tokenize a).filter (·.kind ≠ .eof) ++
        (tokenize b).map (Token.seenFrom (Place.start.afterAll (a.toList ++ [w]))) := by
  have hblank : isBlank w = true := by simpa [isBlank, or_assoc] using hw
  have hjoined : Scan.ofText (a ++ String.singleton w ++ b) =
      (Scan.ofText a).append (w :: b.toList) := by
    simp [Scan.ofText, Scan.append]
  have hfilter : (tokenize a).filter (·.kind ≠ .eof) = (Source.text (.ofText a)).upcoming := by
    rw [tokenize, Scan.tokens_eq_append, List.filter_append, List.filter_eq_self.2]
    · exact List.append_nil _
    · exact fun t ht => by simpa using Source.ne_eof_of_mem_upcoming ht
  have hbehind : (⟨b.toList, Place.start.afterAll (a.toList ++ [w])⟩ : Scan) =
      (Scan.ofText b).seenFrom (Place.start.afterAll (a.toList ++ [w])) := by
    simp [Scan.ofText, Scan.seenFrom]
  rw [tokenize, hjoined, Scan.tokens_append_blank hblank, hfilter, tokenize,
    ← Scan.tokens_seenFrom (Int.le_refl 1), ← hbehind]
  rfl

/-- An equals sign at the end of a line and another one on the next are two tokens, and the numeral
behind them is where it is in its own text, one line further down. -/
theorem tokenize_append_blank_newline :
    '\n' ∈ [' ', '\t', '\r', '\n'] ∧
      tokenize ("x =" ++ String.singleton '\n' ++ "= 1\n2") =
        (tokenize "x =").filter (·.kind ≠ .eof) ++
          (tokenize "= 1\n2").map (Token.seenFrom ⟨2, 1⟩) :=
  ⟨by decide, tokenize_append_blank "x =" "= 1\n2" (by decide)⟩

end MonkeyLang
