import MonkeyLang.Proofs.LongestMatch

/-!
# Coordinates

Places count lines and columns step by step; here they are compared with the lines into which the
whole text is split. Tokens stand where their places say, one behind the other, and none reaches
beyond its line. Main statements: `Place.exists_lines`, which finds a place in the split text, and
`tokenize_coordinates`.
-/

namespace MonkeyLang

open Text

/-! ### The order of places -/

namespace Place

/-- Places are ordered by line, and on a line by column. -/
instance : LT Place := ⟨fun p q => p.line < q.line ∨ p.line = q.line ∧ p.col < q.col⟩

instance : LE Place := ⟨fun p q => p.line < q.line ∨ p.line = q.line ∧ p.col ≤ q.col⟩

variable {p q r : Place}

theorem lt_def : p < q ↔ p.line < q.line ∨ p.line = q.line ∧ p.col < q.col := Iff.rfl

theorem le_def : p ≤ q ↔ p.line < q.line ∨ p.line = q.line ∧ p.col ≤ q.col := Iff.rfl

protected theorem le_refl (p : Place) : p ≤ p := .inr ⟨rfl, Int.le_refl _⟩

protected theorem lt_irrefl (p : Place) : ¬ p < p := by
  rw [lt_def]
  omega

protected theorem le_of_lt (h : p < q) : p ≤ q := by
  rw [lt_def] at h
  rw [le_def]
  omega

protected theorem lt_of_lt_of_le (h : p < q) (h' : q ≤ r) : p < r := by
  rw [lt_def] at h ⊢
  rw [le_def] at h'
  omega

theorem lt_after (p : Place) (c : Char) : p < p.after c := by
  rw [lt_def, after]
  split
  · exact .inl (Int.lt_succ _)
  · exact .inr ⟨rfl, Int.lt_succ _⟩

theorem le_afterAll (p : Place) (cs : List Char) : p ≤ p.afterAll cs := by
  induction cs generalizing p with
  | nil => exact Place.le_refl p
  | cons c cs ih => exact Place.le_of_lt (Place.lt_of_lt_of_le (p.lt_after c) (ih _))

/-- Reading on leads to later places. -/
theorem lt_afterAll {cs : List Char} (h : cs ≠ []) (p : Place) : p < p.afterAll cs := by
  obtain ⟨c, cs, rfl⟩ := List.exists_cons_of_ne_nil h
  exact Place.lt_of_lt_of_le (p.lt_after c) (le_afterAll _ _)

/-! ### Lines -/

/-- A place counts the newlines before it. -/
theorem line_afterAll (p : Place) (cs : List Char) :
    (p.afterAll cs).line = p.line + cs.count '\n' := by
  induction cs generalizing p with
  | nil => simp
  | cons c cs ih =>
    rw [afterAll_cons, ih, after, List.count_cons]
    split
    · next hc => simp [hc, Int.add_comm, Int.add_left_comm]
    · next hc => simp [hc]

/-- On its line a place counts the characters behind the last newline. -/
theorem col_afterAll (p : Place) (cs : List Char) :
    (p.afterAll cs).col =
      (if '\n' ∈ cs then 1 else p.col) + (cs.reverse.takeWhile (· ≠ '\n')).length := by
  have htake {ds es : List Char} (hds : '\n' ∉ ds) (hes : ∀ c ∈ es.head?, c = '\n') :
      (ds ++ es).takeWhile (· ≠ '\n') = ds := by
    refine takeWhile_append_delimited (fun c hc => ?_) fun c hc => by simp [hes c hc]
    exact decide_eq_true fun (e : c = '\n') => hds (e ▸ hc)
  by_cases h : '\n' ∈ cs
  · obtain ⟨ds, es, hcs, hds⟩ := List.eq_append_cons_of_mem (List.mem_reverse.2 h)
    have hsplit : cs = es.reverse ++ '\n' :: ds.reverse := by
      rw [← List.reverse_reverse cs, hcs]
      simp
    have hplace : p.afterAll cs = ⟨(p.afterAll es.reverse).line + 1, 1 + ds.length⟩ := by
      rw [hsplit, afterAll_append, afterAll_cons, after, if_pos rfl,
        afterAll_of_not_mem (by simpa using hds), List.length_reverse]
    rw [if_pos h, hplace, hcs, htake hds (by simp)]
  · have hcs : '\n' ∉ cs.reverse := by simpa using h
    have hall := @htake cs.reverse [] hcs (by simp)
    rw [List.append_nil] at hall
    rw [hall, if_neg h, afterAll_of_not_mem h, List.length_reverse]

theorem splitOn_newline (cs : List Char) :
    ('\n' :: cs).splitOn '\n' = [] :: cs.splitOn '\n' := by
  simp [List.splitOn_eq_splitOnP, List.splitOnP_cons_eq_if_modifyHead]

theorem splitOn_of_ne_newline {c : Char} (hc : c ≠ '\n') (cs : List Char) :
    (c :: cs).splitOn '\n' = (cs.splitOn '\n').modifyHead (c :: ·) := by
  simp [List.splitOn_eq_splitOnP, List.splitOnP_cons_eq_if_modifyHead, hc]

/-- Without a newline a piece of text goes onto the first line of what follows. -/
theorem splitOn_append_of_not_mem {piece : List Char} (h : '\n' ∉ piece) (rest : List Char) :
    (piece ++ rest).splitOn '\n' = (rest.splitOn '\n').modifyHead (piece ++ ·) := by
  induction piece with
  | nil => exact (congrFun List.modifyHead_id _).symm
  | cons c piece ih =>
    have hc : c ≠ '\n' := fun e => h (e ▸ List.mem_cons_self)
    have hpiece : '\n' ∉ piece := fun hmem => h (List.mem_cons_of_mem _ hmem)
    rw [List.cons_append, splitOn_of_ne_newline hc, ih hpiece, List.modifyHead_modifyHead]
    rfl

/-- The lines before a place, and the part of its own line that is left of it. Behind these the
rest of the text is split, however it goes on. -/
theorem exists_lines (cs : List Char) (above : List (List Char)) (left : List Char) :
    ∃ above' left', afterAll ⟨above.length + 1, left.length + 1⟩ cs =
        ⟨above'.length + 1, left'.length + 1⟩ ∧
      ∀ rest, above ++ ((cs ++ rest).splitOn '\n').modifyHead (left ++ ·) =
        above' ++ (rest.splitOn '\n').modifyHead (left' ++ ·) := by
  induction cs generalizing above left with
  | nil => exact ⟨above, left, rfl, fun rest => rfl⟩
  | cons c cs ih =>
    by_cases hc : c = '\n'
    · obtain ⟨above', left', hplace, hlines⟩ := ih (above ++ [left]) []
      refine ⟨above', left', ?_, fun rest => ?_⟩
      · rw [← hplace, afterAll_cons, after, if_pos hc]
        simp
      · have hid : ((cs ++ rest).splitOn '\n').modifyHead ([] ++ ·) = (cs ++ rest).splitOn '\n' :=
          congrFun List.modifyHead_id _
        rw [← hlines, hid, hc, List.cons_append, splitOn_newline]
        simp
    · obtain ⟨above', left', hplace, hlines⟩ := ih above (left ++ [c])
      refine ⟨above', left', ?_, fun rest => ?_⟩
      · rw [← hplace, afterAll_cons, after, if_neg hc]
        simp
      · rw [← hlines, List.cons_append, splitOn_of_ne_newline hc, List.modifyHead_modifyHead]
        simp [Function.comp_def]

/-- A piece of text without a newline begins where its place says, on the line that its place
says. -/
theorem exists_line {before piece after : List Char} (h : '\n' ∉ piece) :
    ∃ (i j : Nat) (line : List Char), start.afterAll before = ⟨i + 1, j + 1⟩ ∧
      ((before ++ (piece ++ after)).splitOn '\n')[i]? = some line ∧ piece <+: line.drop j := by
  obtain ⟨above, left, hplace, hlines⟩ := exists_lines before [] []
  obtain ⟨right, below, hafter⟩ := List.exists_cons_of_ne_nil (List.splitOn_ne_nil '\n' after)
  have hsplit : (before ++ (piece ++ after)).splitOn '\n' =
      above ++ (left ++ (piece ++ right)) :: below := by
    have hid (lines : List (List Char)) : lines.modifyHead ([] ++ ·) = lines :=
      congrFun List.modifyHead_id _
    rw [← List.nil_append (List.splitOn _ _), ← hid (List.splitOn _ _), hlines,
      splitOn_append_of_not_mem h, hafter]
    rfl
  refine ⟨above.length, left.length, left ++ (piece ++ right), hplace, ?_, ?_⟩
  · rw [hsplit, List.getElem?_append_right (Nat.le_refl _), Nat.sub_self]
    rfl
  · rw [List.drop_left]
    exact List.prefix_append _ _

end Place

/-! ### The places of tokens -/

namespace Token

/-- In one text `u` stands behind `t`, which is not the end: from the place of `t` on its text and
then some more leads to the place of `u`. -/
def Precedes (t u : Token) : Prop :=
  t.literal.toList ≠ [] ∧ ∃ cs, u.place = t.place.afterAll (t.literal.toList ++ cs)

namespace Precedes

variable {t u : Token} (h : t.Precedes u)

include h

theorem place_lt : t.place < u.place := by
  obtain ⟨hne, cs, hplace⟩ := h
  rw [hplace]
  exact Place.lt_afterAll (by simp [hne]) _

/-- On one line the texts of tokens do not overlap. -/
theorem col_le (hline : t.place.line = u.place.line) :
    t.place.col + t.literal.toList.length ≤ u.place.col := by
  obtain ⟨-, cs, hplace⟩ := h
  have hcount := Place.line_afterAll t.place (t.literal.toList ++ cs)
  rw [← hplace, ← hline] at hcount
  have hnewline : '\n' ∉ t.literal.toList ++ cs := List.count_eq_zero.1 (by omega)
  rw [hplace, Place.afterAll_of_not_mem hnewline, List.length_append]
  simp only
  omega

end Precedes

end Token

namespace Scan

theorem place_token (s : Scan) :
    s.token.place = s.place.afterAll (s.rest.takeWhile isBlank) := rfl

theorem place_next (s : Scan) :
    s.next.place = s.token.place.afterAll s.token.literal.toList := by
  have hprefix := List.prefix_iff_eq_take.1 (Lexeme.text_isPrefix s.skipBlanks.rest)
  have hliteral : s.token.literal.toList = (Lexeme.atHead s.skipBlanks.rest).text :=
    String.toList_ofList
  rw [next, drop, ← hprefix, hliteral]
  rfl

/-- The text of a token stands in the unread part where its place says, and is the longest lexeme
there. -/
theorem exists_of_mem_tokens {s : Scan} {t : Token} (h : t ∈ s.tokens) :
    ∃ before after, s.rest = before ++ (t.literal.toList ++ after) ∧
      t.place = s.place.afterAll before ∧ (t.kind ≠ .eof → t.lexeme.Longest after) := by
  have hfirst : ∃ before after, s.rest = before ++ (s.token.literal.toList ++ after) ∧
      s.token.place = s.place.afterAll before ∧
        (s.token.kind ≠ .eof → s.token.lexeme.Longest after) :=
    ⟨_, _, s.gap_append_literal.symm, s.place_token, longest_token⟩
  rw [tokens_eq] at h
  split at h
  · obtain rfl := List.mem_singleton.1 h
    exact hfirst
  · next heof =>
    rcases List.mem_cons.1 h with rfl | h
    · exact hfirst
    · have hlt := length_next_lt heof
      obtain ⟨before, after, hrest, hplace, hlongest⟩ := exists_of_mem_tokens h
      refine ⟨s.rest.takeWhile isBlank ++ (s.token.literal.toList ++ before), after, ?_, ?_,
        hlongest⟩
      · rw [List.append_assoc, List.append_assoc, ← hrest, gap_append_literal]
      · rw [hplace, place_next, place_token, ← Place.afterAll_append, ← Place.afterAll_append]
termination_by s.rest.length

/-- Unless it is the end, the next token stands before all that come after it. -/
theorem precedes_of_mem_tokens_next {s : Scan} (h : s.token.kind ≠ .eof) :
    ∀ u ∈ s.next.tokens, s.token.Precedes u := by
  intro u hu
  obtain ⟨before, _, -, hplace, -⟩ := exists_of_mem_tokens hu
  rw [place_next, ← Place.afterAll_append] at hplace
  exact ⟨(longest_token h).ne_nil, before, hplace⟩

theorem pairwise_tokens (s : Scan) : s.tokens.Pairwise Token.Precedes := by
  rw [tokens_eq]
  split
  · exact List.pairwise_singleton _ _
  · next h =>
    have hlt := length_next_lt h
    exact List.pairwise_cons.2 ⟨precedes_of_mem_tokens_next h, s.next.pairwise_tokens⟩
termination_by s.rest.length

theorem token_mem_tokens (s : Scan) : s.token ∈ s.tokens := by
  rw [tokens_eq]
  split
  · exact List.mem_singleton_self _
  · exact List.mem_cons_self

theorem place_token_le (s : Scan) : ∀ t ∈ s.tokens, s.token.place ≤ t.place := by
  intro t ht
  rw [tokens_eq] at ht
  split at ht
  · rw [List.mem_singleton.1 ht]
    exact Place.le_refl _
  · next h =>
    rcases List.mem_cons.1 ht with rfl | ht
    · exact Place.le_refl _
    · exact Place.le_of_lt (precedes_of_mem_tokens_next h t ht).place_lt

/-- At the end of a text the end token comes again. -/
theorem token_next_of_eof {s : Scan} (h : s.token.kind = .eof) : s.next.token = s.token := by
  have hrest := s.kind_token_eq_eof_iff.1 h
  have hempty : s.next.rest = [] := by simp [next, drop, hrest]
  have hnext : s.next.token.kind = .eof := by simp [skipBlanks, hempty]
  rw [token_of_eof h, token_of_eof hnext, finish_next]

theorem tokens_next_sublist (s : Scan) : s.next.tokens.Sublist s.tokens := by
  by_cases h : s.token.kind = .eof
  · have hnext := token_next_of_eof h
    have htokens : s.next.tokens = s.tokens := by
      rw [tokens_eq s, if_pos h, tokens_eq, if_pos (hnext ▸ h), hnext]
    exact htokens ▸ List.Sublist.refl _
  · rw [tokens_eq s, if_neg h]
    exact List.sublist_cons_self _ _

end Scan

/-- Behind a whole text stands the place that counts its newlines and the characters behind the last
of them. -/
theorem Scan.finish_ofText (text : String) : (ofText text).finish =
    ⟨1 + text.toList.count '\n', 1 + (text.toList.reverse.takeWhile (· ≠ '\n')).length⟩ := by
  have hline : (Place.start.afterAll text.toList).line = 1 + text.toList.count '\n' :=
    Place.line_afterAll _ _
  have hcol : (Place.start.afterAll text.toList).col =
      1 + (text.toList.reverse.takeWhile (· ≠ '\n')).length := by
    have hcol := Place.col_afterAll .start text.toList
    rwa [show Place.start.col = 1 from rfl, ite_self] at hcol
  rw [← hline, ← hcol]
  rfl

/-- Each token but the end token has a text without a newline that stands on the line and at the
column that its place says, when the whole text is split into lines. Places increase from token to
token, and tokens on one line do not overlap. The one end token stands behind all newlines and all
characters after the last of them. -/
theorem tokenize_coordinates (text : String) :
    (∀ t ∈ tokenize text, t.kind ≠ .eof → '\n' ∉ t.literal.toList ∧
        ∃ (i j : Nat) (line : List Char), t.place = ⟨i + 1, j + 1⟩ ∧
          (text.toList.splitOn '\n')[i]? = some line ∧ t.literal.toList <+: line.drop j) ∧
      (tokenize text).Pairwise (fun (t u : Token) => t.place < u.place ∧
        (t.place.line = u.place.line →
          t.place.col + t.literal.toList.length ≤ u.place.col)) ∧
      (tokenize text).filter (·.kind = .eof) = [.endAt ⟨1 + text.toList.count '\n',
        1 + (text.toList.reverse.takeWhile (· ≠ '\n')).length⟩] := by
  refine ⟨fun t ht hne => ?_, ?_, ?_⟩
  · obtain ⟨before, after, hrest, hplace, hlongest⟩ := Scan.exists_of_mem_tokens ht
    have hnewline : '\n' ∉ t.literal.toList := by
      intro hmem
      have hblank := (hlongest hne).isBlank_eq_false '\n' hmem
      exact absurd hblank (by decide)
    obtain ⟨i, j, line, hstart, hline, hpiece⟩ := @Place.exists_line before _ after hnewline
    have htext : text.toList = before ++ (t.literal.toList ++ after) := hrest
    exact ⟨hnewline, i, j, line, hplace.trans hstart, htext ▸ hline, hpiece⟩
  · exact (Scan.pairwise_tokens _).imp fun h => ⟨h.place_lt, h.col_le⟩
  · have hnone : (Source.text (.ofText text)).upcoming.filter (·.kind = .eof) = [] := by
      rw [List.filter_eq_nil_iff]
      exact fun t ht => by simpa using Source.ne_eof_of_mem_upcoming ht
    rw [tokenize, Scan.tokens_eq_append, List.filter_append, hnone, Scan.finish_ofText]
    rfl

end MonkeyLang
