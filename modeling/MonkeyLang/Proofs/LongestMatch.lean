import MonkeyLang.Proofs.Spelling

/-!
# Cutting a text into lexemes

A cut of a text is a row of gaps and lexemes: gaps are blank, and each lexeme goes as far as it can
where it stands. The longest lexemes are said here without the reader of lexemes, and are the ones
that it reads (`Lexeme.exists_longest_atHead`, `Lexeme.Longest.atHead_eq`). Main statement:
`tokenize_longest`, by which the tokens of a text are the lexemes of its only cut.
-/

namespace MonkeyLang

open Text

/-! ### Longest lexemes -/

/-- A class without the four blanks has no blank. -/
theorem Text.isBlank_eq_false_of_class {p : Char → Bool}
    (hp : [' ', '\t', '\r', '\n'].any p = false) {c : Char} (h : p c = true) :
    isBlank c = false := by
  rw [Bool.eq_false_iff]
  intro hblank
  simp only [isBlank, Bool.or_eq_true, beq_iff_eq, or_assoc] at hblank
  exact List.any_eq_false.1 hp c (by simpa using hblank) h

namespace Kind

theorem mem_operators_iff {s : String} {k : Kind} :
    (s, k) ∈ operators ↔ k ∈ operatorKinds ∧ s = k.text := by
  simp only [operators, List.mem_map, Prod.mk.injEq]
  constructor
  · rintro ⟨_, hk, rfl, rfl⟩
    exact ⟨hk, rfl⟩
  · rintro ⟨hk, rfl⟩
    exact ⟨k, hk, rfl, rfl⟩

theorem ofWord_eq_iff {word : String} {k : Kind} :
    ofWord word = k ↔ (word, k) ∈ keywords ∨ k = ident ∧ word ∉ keywords.map Prod.fst := by
  have hkeywords : ∀ entry ∈ keywords, ofWord entry.1 = entry.2 := by decide
  constructor
  · rintro rfl
    rcases ofWord_cases word with ⟨hnot, hident⟩ | hmem
    · exact .inr ⟨hident, hnot⟩
    · exact .inl hmem
  · rintro (hmem | ⟨rfl, hnot⟩)
    · exact hkeywords _ hmem
    · rcases ofWord_cases word with ⟨-, hident⟩ | hmem
      · exact hident
      · exact absurd (List.mem_map_of_mem hmem) hnot

/-- The first character of an operator is an operator on its own. -/
theorem exists_operator_of_head {k : Kind} {c : Char} (hk : k ∈ operatorKinds)
    (hc : k.text.toList.head? = some c) : ∃ l ∈ operatorKinds, l.text.toList = [c] := by
  have hheads : ∀ k ∈ operatorKinds, ∃ l ∈ operatorKinds,
      l.text.toList = k.text.toList.head?.toList := by decide
  obtain ⟨l, hl, htext⟩ := hheads k hk
  exact ⟨l, hl, by rw [htext, hc]; rfl⟩

theorem text_ne_nil_of_mem_operatorKinds {k : Kind} (hk : k ∈ operatorKinds) :
    k.text.toList ≠ [] := by
  revert hk
  cases k <;> decide

end Kind

namespace Lexeme

/-- In front of `rest` the lexeme is as long as it can be: a word or a numeral that no further
character of its class follows, the longest operator or delimiter that stands there, or a character
that is not blank and with which none of these begins. -/
inductive Longest : Lexeme → List Char → Prop
  | word {cs rest k} : cs ≠ [] → (∀ c ∈ cs, isLetter c = true) →
    (∀ c ∈ rest.head?, isLetter c = false) →
    ((String.ofList cs, k) ∈ Kind.keywords ∨
      k = .ident ∧ String.ofList cs ∉ Kind.keywords.map Prod.fst) → Longest ⟨k, cs⟩ rest
  | numeral {cs rest} : cs ≠ [] → (∀ c ∈ cs, isDigit c = true) →
    (∀ c ∈ rest.head?, isDigit c = false) → Longest ⟨.int, cs⟩ rest
  | operator {s k rest} : (s, k) ∈ Kind.operators →
    (∀ o ∈ Kind.operators, o.1.toList <+: s.toList ++ rest → o.1.length ≤ s.length) →
    Longest ⟨k, s.toList⟩ rest
  | illegal {c rest} : isBlank c = false → isLetter c = false → isDigit c = false →
    (∀ o ∈ Kind.operators, o.1.toList.head? ≠ some c) → Longest ⟨.illegal, [c]⟩ rest

namespace Longest

variable {l : Lexeme} {rest : List Char}

theorem ne_nil (h : l.Longest rest) : l.text ≠ [] := by
  cases h with
  | word hne | numeral hne => exact hne
  | operator hmem =>
    obtain ⟨hk, rfl⟩ := Kind.mem_operators_iff.1 hmem
    exact Kind.text_ne_nil_of_mem_operatorKinds hk
  | illegal => exact List.cons_ne_nil _ _

theorem isBlank_eq_false (h : l.Longest rest) : ∀ c ∈ l.text, isBlank c = false := by
  cases h with
  | word _ hletters =>
    exact fun c hc => isBlank_eq_false_of_class (p := isLetter) rfl (hletters c hc)
  | numeral _ hdigits =>
    exact fun c hc => isBlank_eq_false_of_class (p := isDigit) rfl (hdigits c hc)
  | operator hmem =>
    obtain ⟨hk, rfl⟩ := Kind.mem_operators_iff.1 hmem
    have hblanks : Kind.operatorKinds.all (fun k => !k.text.toList.any isBlank) = true := by decide
    simpa using List.all_eq_true.1 hblanks _ hk
  | illegal hblank => simpa using hblank

/-- The longest lexeme that stands at the head of a text is the one that is read there. -/
theorem atHead_eq (h : l.Longest rest) : atHead (l.text ++ rest) = l := by
  cases h with
  | word hne hletters hrest hkind =>
    rw [atHead_word hne hletters hrest, Kind.ofWord_eq_iff.2 hkind]
  | numeral hne hdigits hrest => exact atHead_numeral hne hdigits hrest
  | @operator s k rest hmem hlongest =>
    obtain ⟨hk, rfl⟩ := Kind.mem_operators_iff.1 hmem
    have hspelling : k.spelling = k.text := by
      revert hk
      cases k <;> decide
    have hequals : k = .assign ∨ k = .bang → rest.head? ≠ some '=' := by
      intro hk' hhead
      obtain ⟨ds, rfl⟩ := List.head?_eq_some_iff.1 hhead
      -- one of the two operators of two characters stands here
      rcases hk' with rfl | rfl
      · exact absurd (hlongest ("==", .eq) (by decide) ⟨ds, rfl⟩) (by decide)
      · exact absurd (hlongest ("!=", .notEq) (by decide) ⟨ds, rfl⟩) (by decide)
    have hhead := atHead_operator hk hequals
    rwa [Kind.lexeme, hspelling] at hhead
  | @illegal c rest _ hletter hdigit hoperator =>
    have hnone : Kind.operatorAt? (c :: rest) = none := by
      rw [Kind.operatorAt?, List.find?_eq_none]
      intro k hk hprefix
      obtain ⟨ds, hds⟩ := List.isPrefixOf_iff_prefix.1 hprefix
      obtain ⟨d, ds', htext⟩ :=
        List.exists_cons_of_ne_nil (Kind.text_ne_nil_of_mem_operatorKinds hk)
      refine hoperator (k.text, k) (Kind.mem_operators_iff.2 ⟨hk, rfl⟩) ?_
      rw [htext, List.cons_append] at hds
      rw [htext, List.head?_cons, (List.cons.inj hds).1]
    simp [atHead, hletter, hdigit, hnone]

end Longest

/-- What is read at a character that is not blank is the longest lexeme there. -/
theorem exists_longest_atHead {c : Char} (cs : List Char) (hc : isBlank c = false) :
    ∃ rest, c :: cs = (atHead (c :: cs)).text ++ rest ∧ (atHead (c :: cs)).Longest rest := by
  have hstops (p : Char → Bool) : ∀ d ∈ ((c :: cs).dropWhile p).head?, p d = false := by
    intro d hd
    have hnot := List.head?_dropWhile_not p (c :: cs)
    rw [hd] at hnot
    exact hnot
  have hruns (p : Char → Bool) : ∀ d ∈ (c :: cs).takeWhile p, p d = true :=
    List.all_eq_true.1 List.all_takeWhile
  rw [atHead]
  split
  · next hletter =>
    exact ⟨_, (List.takeWhile_append_dropWhile (p := isLetter)).symm,
      .word (by simp [hletter]) (hruns _) (hstops _) (Kind.ofWord_eq_iff.1 rfl)⟩
  · next hletter =>
    split
    · next hdigit =>
      exact ⟨_, (List.takeWhile_append_dropWhile (p := isDigit)).symm,
        .numeral (by simp [hdigit]) (hruns _) (hstops _)⟩
    · next hdigit =>
      split
      · next k hk =>
        obtain ⟨hmem, rest, hrest⟩ := operatorAt?_isPrefix hk
        refine ⟨rest, hrest.symm, .operator (Kind.mem_operators_iff.2 ⟨hmem, rfl⟩) ?_⟩
        rintro ⟨s, l⟩ ho hprefix
        obtain ⟨hl, rfl⟩ := Kind.mem_operators_iff.1 ho
        exact Kind.length_le_of_operatorAt? hk hl (hrest ▸ hprefix)
      · next hnone =>
        refine ⟨cs, rfl, .illegal hc (by simpa using hletter) (by simpa using hdigit) ?_⟩
        rintro ⟨s, l⟩ ho hhead
        obtain ⟨hl, rfl⟩ := Kind.mem_operators_iff.1 ho
        obtain ⟨k, hk, htext⟩ := Kind.exists_operator_of_head hl hhead
        have hprefix := List.find?_eq_none.1 hnone k hk
        simp [htext] at hprefix

end Lexeme

/-! ### Cuts -/

/-- The text is cut into pieces, each of them a gap and a longest lexeme behind it, and a last gap.
-/
inductive Cut : List Char → List (List Char × Lexeme) → List Char → Prop
  | nil {gap} : (∀ c ∈ gap, isBlank c = true) → Cut gap [] gap
  | cons {gap l rest pieces last} : (∀ c ∈ gap, isBlank c = true) → l.Longest rest →
    Cut rest pieces last → Cut (gap ++ (l.text ++ rest)) ((gap, l) :: pieces) last

namespace Cut

variable {cs last : List Char} {pieces : List (List Char × Lexeme)}

private theorem takeWhile_gap {gap rest : List Char} {l : Lexeme}
    (hgap : ∀ c ∈ gap, isBlank c = true) (hl : l.Longest rest) :
    (gap ++ (l.text ++ rest)).takeWhile isBlank = gap := by
  refine takeWhile_append_delimited hgap fun c hc => hl.isBlank_eq_false c ?_
  obtain ⟨d, ds, htext⟩ := List.exists_cons_of_ne_nil hl.ne_nil
  rw [htext, List.cons_append] at hc
  obtain rfl := Option.some.inj hc
  simp [htext]

/-- A text has one cut: its gaps end where the blanks do, and its lexemes are the longest ones. -/
theorem unique {pieces' : List (List Char × Lexeme)} {last' : List Char} (h : Cut cs pieces last)
    (h' : Cut cs pieces' last') : pieces' = pieces ∧ last' = last := by
  induction h generalizing pieces' last' with
  | @nil gap hgap =>
    cases h' with
    | nil => exact ⟨rfl, rfl⟩
    | @cons gap' l rest _ _ _ hl _ =>
      obtain ⟨d, ds, htext⟩ := List.exists_cons_of_ne_nil hl.ne_nil
      have hblank := hgap d (by simp [htext])
      rw [hl.isBlank_eq_false d (by simp [htext])] at hblank
      cases hblank
  | @cons gap l rest pieces last hgap hl _ ih =>
    generalize hcs : gap ++ (l.text ++ rest) = cs at h'
    cases h' with
    | nil hblanks =>
      obtain ⟨d, ds, htext⟩ := List.exists_cons_of_ne_nil hl.ne_nil
      have hblank := hblanks d (by simp [← hcs, htext])
      rw [hl.isBlank_eq_false d (by simp [htext])] at hblank
      cases hblank
    | @cons gap' l' rest' pieces' _ hgap' hl' hrest' =>
      obtain rfl : gap = gap' := by
        rw [← takeWhile_gap hgap hl, hcs, takeWhile_gap hgap' hl']
      have htext := List.append_cancel_left hcs
      obtain rfl : l = l' := by rw [← hl.atHead_eq, htext, hl'.atHead_eq]
      obtain rfl := List.append_cancel_left htext
      obtain ⟨rfl, rfl⟩ := ih hrest'
      exact ⟨rfl, rfl⟩

/-- The lexemes hold every character of the text that is not blank, once and in order. -/
theorem flatMap_text (h : Cut cs pieces last) :
    (pieces.map Prod.snd).flatMap Lexeme.text = cs.filter fun c => !isBlank c := by
  induction h with
  | nil hgap => simpa using hgap
  | @cons gap l _ _ _ hgap hl _ ih =>
    have hnone : gap.filter (fun c => !isBlank c) = [] := by simpa using hgap
    have hall : l.text.filter (fun c => !isBlank c) = l.text := by
      simpa using hl.isBlank_eq_false
    rw [List.filter_append, List.filter_append, hnone, hall, ← ih]
    simp

end Cut

/-! ### The tokens of a text -/

namespace Scan

/-- The place behind all that is unread. -/
def finish (s : Scan) : Place := s.place.afterAll s.rest

theorem finish_skipBlanks (s : Scan) : s.skipBlanks.finish = s.finish := by
  rw [finish, finish, skipBlanks, ← Place.afterAll_append, List.takeWhile_append_dropWhile]

@[simp] theorem finish_next (s : Scan) : s.next.finish = s.finish := by
  rw [← finish_skipBlanks s, finish, finish, next, drop, ← Place.afterAll_append,
    List.take_append_drop]

theorem token_of_eof {s : Scan} (h : s.token.kind = .eof) : s.token = .endAt s.finish := by
  have hrest := s.kind_token_eq_eof_iff.1 h
  have hplace : s.skipBlanks.place = s.finish := by
    rw [← finish_skipBlanks, finish, hrest, Place.afterAll_nil]
  rw [token, hrest, hplace]
  rfl

/-- The tokens of a scan are the ones before the end, and one end token. -/
theorem tokens_eq_append (s : Scan) :
    s.tokens = (Source.text s).upcoming ++ [.endAt s.finish] := by
  rw [tokens_eq]
  split
  · next h => rw [Source.upcoming_of_head_eof (s := .text s) h, token_of_eof h, List.nil_append]
  · next h =>
    have hlt := length_next_lt h
    rw [Source.upcoming_of_head_ne_eof (s := .text s) h, s.next.tokens_eq_append, finish_next]
    rfl
termination_by s.rest.length

/-- Behind the blanks at the head of a scan stand the next token and all that comes after it. -/
theorem literal_append_next (s : Scan) :
    s.token.literal.toList ++ s.next.rest = s.skipBlanks.rest := by
  have hprefix := List.prefix_iff_eq_append.1 (Lexeme.text_isPrefix s.skipBlanks.rest)
  rw [← Token.lexeme_scan] at hprefix
  rw [next, ← Token.lexeme_scan]
  exact hprefix

theorem gap_append_literal (s : Scan) :
    s.rest.takeWhile isBlank ++ (s.token.literal.toList ++ s.next.rest) = s.rest := by
  rw [literal_append_next]
  exact List.takeWhile_append_dropWhile

/-- Every token but the end token is the longest lexeme in front of what comes after it. -/
theorem longest_token {s : Scan} (h : s.token.kind ≠ .eof) :
    s.token.lexeme.Longest s.next.rest := by
  obtain ⟨c, cs, hcs⟩ := List.exists_cons_of_ne_nil (mt s.kind_token_eq_eof_iff.2 h)
  have hc : isBlank c = false := by
    have hnot := List.head?_dropWhile_not isBlank s.rest
    rw [show s.rest.dropWhile isBlank = c :: cs from hcs] at hnot
    exact hnot
  obtain ⟨rest, htext, hlongest⟩ := Lexeme.exists_longest_atHead cs hc
  rw [← hcs, ← Token.lexeme_scan] at htext hlongest
  have hnext := s.literal_append_next.trans htext
  rwa [List.append_cancel_left hnext]

/-- The tokens before the end are read from the lexemes of a cut. -/
theorem exists_cut (s : Scan) : ∃ pieces last, Cut s.rest pieces last ∧
    (Source.text s).upcoming.map Token.lexeme = pieces.map Prod.snd := by
  have hgap : ∀ c ∈ s.rest.takeWhile isBlank, isBlank c = true :=
    List.all_eq_true.1 List.all_takeWhile
  by_cases h : s.token.kind = .eof
  · have hrest : s.rest.takeWhile isBlank = s.rest := by
      have hsplit := s.gap_append_literal
      rwa [literal_append_next, s.kind_token_eq_eof_iff.1 h, List.append_nil] at hsplit
    rw [hrest] at hgap
    exact ⟨[], s.rest, .nil hgap, by rw [Source.upcoming_of_head_eof (s := .text s) h]; rfl⟩
  · have hlt := length_next_lt h
    obtain ⟨pieces, last, hcut, hmap⟩ := s.next.exists_cut
    have hcons := Cut.cons hgap (longest_token h) hcut
    rw [Token.lexeme, gap_append_literal] at hcons
    refine ⟨_, last, hcons, ?_⟩
    rw [Source.upcoming_of_head_ne_eof (s := .text s) h, List.map_cons, List.map_cons, ← hmap]
    rfl
termination_by s.rest.length

end Scan

/-- The tokens of a text are the lexemes of its only cut, and one end token. So they hold all
characters of the text but the blanks. -/
theorem tokenize_longest (text : String) :
    ∃ ts finish pieces last, tokenize text = ts ++ [.endAt finish] ∧ (∀ t ∈ ts, t.kind ≠ .eof) ∧
      Cut text.toList pieces last ∧ ts.map Token.lexeme = pieces.map Prod.snd ∧
      (∀ pieces' last', Cut text.toList pieces' last' → pieces' = pieces ∧ last' = last) ∧
      ts.flatMap (fun t => t.literal.toList) = text.toList.filter fun c => !isBlank c := by
  obtain ⟨pieces, last, hcut, hmap⟩ := (Scan.ofText text).exists_cut
  refine ⟨_, _, pieces, last, Scan.tokens_eq_append _, ?_, hcut, hmap, ?_, ?_⟩
  · exact fun t ht => Source.ne_eof_of_mem_upcoming ht
  · exact fun pieces' last' h => hcut.unique h
  · have hflat := hcut.flatMap_text
    rw [← hmap, List.flatMap_map] at hflat
    exact hflat

end MonkeyLang
