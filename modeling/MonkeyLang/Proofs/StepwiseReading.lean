import Mathlib.Logic.Function.Iterate
import MonkeyLang.Lexing.TextCursor
import MonkeyLang.Proofs.Coordinates

/-!
# Reading a text character by character

A cursor can be moved in one way only, by reading the character at it, and shows a few characters
without moving. Here tokens are read by these steps alone, in loops that ask before each character
whether the cursor goes on. What a cursor shows, whether it is at the end, and what it reads
disagree below the start of the text: nothing is shown there, it is not the end, and characters are
read from the end of the text. A step that cannot read leaves the cursor where it was. Main
statements: `Stepwise.token_eq`, by which such reading gives the tokens of `TextCursor.nextToken`,
and `token_of_any_cursor`.
-/

namespace MonkeyLang

open Text

/-- What a step of reading yields, or why it stopped, and the cursor after it. -/
abbrev Reading (α : Type) : Type := Except ReadFault α × TextCursor

namespace Reading

variable {α β : Type}

/-- Goes on with what a step yields, from where it left the cursor. -/
def andThen (r : Reading α) (f : α → TextCursor → Reading β) : Reading β :=
  match r with
  | (.ok a, c) => f a c
  | (.error e, c) => (.error e, c)

@[simp] theorem andThen_ok (a : α) (c : TextCursor) (f : α → TextCursor → Reading β) :
    andThen (.ok a, c) f = f a c := rfl

/-- A step that may fail and then leaves the cursor where it was. -/
def ofExcept (c : TextCursor) : Except ReadFault (α × TextCursor) → Reading α
  | .ok (a, d) => (.ok a, d)
  | .error e => (.error e, c)

end Reading

namespace TextCursor

theorem atEnd_eq_false_iff {c : TextCursor} : c.atEnd = false ↔ c.position < c.length := by
  rw [atEnd, decide_eq_false_iff_not, Int.not_le]

/-- Reading a character moves a cursor that is not at the end by one position. -/
theorem eq_of_next_eq_ok {c d : TextCursor} {x : Char} (h : c.next = .ok (x, d)) :
    c.position < c.length ∧ d = ⟨c.source, c.position + 1, c.place.after x⟩ := by
  unfold next at h
  split at h
  · cases h
  · next hend =>
    have hlt := atEnd_eq_false_iff.1 (Bool.eq_false_iff.2 hend)
    dsimp only at h
    split at h
    · obtain ⟨rfl, rfl⟩ := Prod.mk.inj (Except.ok.inj h)
      exact ⟨hlt, rfl⟩
    · cases h

end TextCursor

/-! ### Stepwise reading -/

namespace Stepwise

/-- Reads the character at the cursor. -/
def char (c : TextCursor) : Reading Char := .ofExcept c c.next

/-- Reads on as long as the cursor is not at the end and goes on at what it shows. -/
def loop (goesOn : Option Char → Bool) (c : TextCursor) : Reading Unit :=
  if c.atEnd = false ∧ goesOn (c.peek 0) = true then
    match _hnext : c.next with
    | .ok (_, d) => loop goesOn d
    | .error e => (.error e, c)
  else
    (.ok (), c)
termination_by (c.length - c.position).toNat
decreasing_by
  obtain ⟨hlt, rfl⟩ := TextCursor.eq_of_next_eq_ok _hnext
  simp only [TextCursor.length] at hlt ⊢
  omega

/-- Reads over blanks. Where a cursor shows nothing and is not at the end, it reads on too. -/
def skipBlanks : TextCursor → Reading Unit := loop fun shown => shown.all isBlank

/-- Reads over the characters of a class, and yields the part of the text that was read. -/
def readWhile (inClass : Char → Bool) (c : TextCursor) : Reading String :=
  (loop (fun shown => shown.any inClass) c).andThen fun _ d =>
    (.ok (String.ofList ((c.source.toList.take d.position.toNat).drop c.position.toNat)), d)

/-- Looks at so many more characters from an offset on. The candidate is the text shown so far, and
`best` is the operator found last. -/
def operatorShown (c : TextCursor) : Nat → Nat → String → Option Kind → Option Kind
  | 0, _, _, best => best
  | n + 1, offset, candidate, best =>
    match c.peek offset with
    | none => best
    | some x =>
      operatorShown c n (offset + 1) (candidate.push x)
        ((Kind.operators.lookup (candidate.push x)).or best)

/-- Reads so many characters. -/
def readMany : Nat → TextCursor → Reading Unit
  | 0, c => (.ok (), c)
  | n + 1, c => (char c).andThen fun _ d => readMany n d

/-- Reads the operator or delimiter at the cursor, if one is shown there. -/
def operator (c : TextCursor) : Reading (Option Token) :=
  match operatorShown c Kind.maxOperatorLength 0 "" none with
  | none => (.ok none, c)
  | some k =>
    (readMany k.text.length c).andThen fun _ d => (.ok (some ⟨k, k.text, c.place⟩), d)

/-- Reads the next token. -/
def token (c : TextCursor) : Reading Token :=
  (skipBlanks c).andThen fun _ d =>
    if d.atEnd then
      (.ok (.endAt d.place), d)
    else if (d.peek 0).any isLetter then
      (readWhile isLetter d).andThen fun word e => (.ok ⟨Kind.ofWord word, word, d.place⟩, e)
    else if (d.peek 0).any isDigit then
      (readWhile isDigit d).andThen fun numeral e => (.ok ⟨.int, numeral, d.place⟩, e)
    else
      (operator d).andThen fun found e =>
        match found with
        | some t => (.ok t, e)
        | none => (char e).andThen fun x e => (.ok ⟨.illegal, String.singleton x, d.place⟩, e)

end Stepwise

/-! ### Cursors in the text -/

namespace TextCursor

/-- The cursor after the next `n` characters. -/
def past (c : TextCursor) (n : Nat) : TextCursor :=
  ⟨c.source, c.position + n, c.place.afterAll (c.scan.rest.take n)⟩

@[simp] theorem past_zero (c : TextCursor) : c.past 0 = c := by
  simp [past]

theorem moveTo_drop {c : TextCursor} {n : Nat} (hn : n ≤ c.scan.rest.length) :
    c.moveTo (c.scan.drop n) = c.past n := by
  have hlength : c.scan.rest.length - (c.scan.rest.length - n) = n := by omega
  simp only [moveTo, past, Scan.drop, List.length_drop, hlength]
  rfl

section

variable {c : TextCursor} (h : 0 ≤ c.position)

include h

theorem scan_past (n : Nat) : (c.past n).scan = c.scan.drop n := by
  have hposition : (c.position + n).toNat = c.position.toNat + n := by omega
  simp only [scan, past, Scan.drop, hposition, List.drop_drop]

theorem past_past (m n : Nat) : (c.past m).past n = c.past (m + n) := by
  have hrest : (c.past m).scan.rest = c.scan.rest.drop m := by rw [scan_past h, Scan.drop]
  have hposition : c.position + m + n = c.position + (m + n : Nat) := by omega
  simp only [past] at hrest ⊢
  rw [hrest, hposition, ← Place.afterAll_append, ← List.take_add]

theorem peek_eq (i : Nat) : c.peek i = c.scan.rest[i]? := by
  have hindex : (c.position + i).toNat = c.position.toNat + i := by omega
  rw [peek, if_neg (by omega), hindex, scan, List.getElem?_drop]

theorem peek_zero : c.peek 0 = c.scan.rest.head? := by
  rw [List.head?_eq_getElem?]
  exact peek_eq h 0

theorem atEnd_iff : c.atEnd = true ↔ c.scan.rest = [] := by
  have hlength : (c.length : Int) ≤ c.position ↔ c.length ≤ c.position.toNat := by omega
  rw [atEnd, decide_eq_true_iff, hlength, scan, List.drop_eq_nil_iff, length]

/-- In the text the next character of the unread part is read. -/
theorem next_eq {x : Char} {cs : List Char} (hrest : c.scan.rest = x :: cs) :
    c.next = .ok (x, c.past 1) := by
  have hend : ¬ c.atEnd = true := by
    rw [atEnd_iff h, hrest]
    exact List.cons_ne_nil _ _
  have hx : c.source.toList[c.position.toNat]? = some x := by
    rw [← List.head?_drop]
    exact congrArg List.head? hrest
  have hneg : ¬ c.position < 0 := by omega
  rw [next, if_neg hend]
  simp only [hneg, if_false, hx, past, hrest, List.take_succ_cons, List.take_zero,
    Place.afterAll_cons, Place.afterAll_nil]
  rfl

end

end TextCursor

/-! ### Operators -/

namespace Kind

theorem lookup_operators {text : String} {k : Kind} :
    operators.lookup text = some k ↔ k ∈ operatorKinds ∧ text = k.text := by
  have hfound : ∀ o ∈ operators, operators.lookup o.1 = some o.2 := by decide
  rw [← mem_operators_iff]
  constructor
  · intro h
    obtain ⟨_, _, hsplit, -⟩ := List.lookup_eq_some_iff.1 h
    simp [hsplit]
  · exact fun h => hfound _ h

/-- An operator stands at the head of a text if it is spelled there and none that is spelled there
is longer. -/
theorem operatorAt?_eq_some_iff {cs : List Char} {k : Kind} :
    operatorAt? cs = some k ↔ k ∈ operatorKinds ∧ k.text.toList <+: cs ∧
      ∀ l ∈ operatorKinds, l.text.toList <+: cs → l.text.length ≤ k.text.length := by
  constructor
  · intro h
    obtain ⟨hk, hprefix⟩ := Lexeme.operatorAt?_isPrefix h
    exact ⟨hk, hprefix, fun l hl => length_le_of_operatorAt? h hl⟩
  · rintro ⟨hk, hprefix, hlongest⟩
    cases hfound : operatorAt? cs with
    | none =>
      have hnot := List.find?_eq_none.1 hfound k hk
      simp [List.isPrefixOf_iff_prefix.2 hprefix] at hnot
    | some l =>
      obtain ⟨hl, hprefix'⟩ := Lexeme.operatorAt?_isPrefix hfound
      have hlength : l.text.length = k.text.length :=
        Nat.le_antisymm (hlongest l hl hprefix') (length_le_of_operatorAt? hfound hk hprefix)
      have htext : l.text.toList = k.text.toList :=
        (List.prefix_of_prefix_length_le hprefix' hprefix
          (by simp only [String.length_toList, hlength, Nat.le_refl])).eq_of_length
            (by simp only [String.length_toList, hlength])
      rw [text_injective (String.toList_inj.1 htext)]

/-- With one more character a text has the operator that is the whole of it, or else the one that
it had before. -/
theorem operatorAt?_concat (cs : List Char) (x : Char) :
    operatorAt? (cs ++ [x]) =
      (operators.lookup (String.ofList (cs ++ [x]))).or (operatorAt? cs) := by
  cases hwhole : operators.lookup (String.ofList (cs ++ [x])) with
  | some k =>
    obtain ⟨hk, htext⟩ := lookup_operators.1 hwhole
    have hspelled : k.text.toList = cs ++ [x] := by rw [← htext, String.toList_ofList]
    refine operatorAt?_eq_some_iff.2 ⟨hk, hspelled ▸ List.prefix_refl _, fun l hl hprefix => ?_⟩
    have hle := hprefix.length_le
    rwa [← hspelled, String.length_toList, String.length_toList] at hle
  | none =>
    have hshorter {l : Kind} (hl : l ∈ operatorKinds) :
        l.text.toList <+: cs ++ [x] ↔ l.text.toList <+: cs := by
      rw [List.prefix_concat_iff, or_iff_right]
      intro hspelled
      have hfound := lookup_operators.2 ⟨hl, rfl⟩
      rw [← String.ofList_toList (s := l.text), hspelled, hwhole] at hfound
      cases hfound
    ext k
    rw [Option.none_or, operatorAt?_eq_some_iff, operatorAt?_eq_some_iff]
    refine and_congr_right fun hk => and_congr (hshorter hk) ?_
    exact forall_congr' fun l => forall_congr' fun hl => by rw [hshorter hl]

/-- No more characters of a text than the longest operator has decide which operator it has. -/
theorem operatorAt?_take (cs : List Char) :
    operatorAt? (cs.take maxOperatorLength) = operatorAt? cs := by
  have hlength : ∀ l ∈ operatorKinds, l.text.toList.length ≤ maxOperatorLength := by decide
  have hshort {l : Kind} (hl : l ∈ operatorKinds) :
      l.text.toList <+: cs.take maxOperatorLength ↔ l.text.toList <+: cs := by
    rw [List.prefix_take_iff, and_iff_left (hlength l hl)]
  ext k
  rw [operatorAt?_eq_some_iff, operatorAt?_eq_some_iff]
  refine and_congr_right fun hk => and_congr (hshort hk) ?_
  exact forall_congr' fun l => forall_congr' fun hl => by rw [hshort hl]

end Kind

/-! ### Stepwise reading in the text -/

namespace Scan

theorem skipBlanks_eq_drop (s : Scan) :
    s.skipBlanks = s.drop (s.rest.takeWhile isBlank).length := by
  have htake := List.prefix_iff_eq_take.1 (List.takeWhile_prefix isBlank (l := s.rest))
  have hdrop := List.prefix_iff_eq_append.1 (List.takeWhile_prefix isBlank (l := s.rest))
  rw [skipBlanks, drop, ← htake]
  congr 1
  exact List.append_cancel_left (List.takeWhile_append_dropWhile.trans hdrop.symm)

theorem drop_drop (s : Scan) (m n : Nat) : (s.drop m).drop n = s.drop (m + n) := by
  simp only [drop, List.drop_drop, List.take_add, Place.afterAll_append]

/-- Taking a token passes over so many blanks and then over the characters of the lexeme. -/
theorem exists_next_eq_drop (s : Scan) : ∃ n, s.skipBlanks = s.drop n ∧
    s.next = s.drop (n + (Lexeme.atHead s.skipBlanks.rest).text.length) ∧
    n + (Lexeme.atHead s.skipBlanks.rest).text.length ≤ s.rest.length := by
  have hgap := (List.takeWhile_prefix isBlank (l := s.rest)).length_le
  have hlexeme := (Lexeme.text_isPrefix s.skipBlanks.rest).length_le
  refine ⟨_, s.skipBlanks_eq_drop, ?_, ?_⟩
  · rw [← drop_drop, ← skipBlanks_eq_drop, next]
  · generalize (Lexeme.atHead s.skipBlanks.rest).text.length = m at hlexeme ⊢
    rw [skipBlanks_eq_drop, drop, List.length_drop] at hlexeme
    omega

theorem rest_next_of_eof {s : Scan} (h : s.token.kind = .eof) : s.next.rest = [] := by
  simp [next, drop, s.kind_token_eq_eof_iff.1 h]

/-- Of an empty text only the end token is taken, and nothing moves. -/
theorem next_of_rest_eq_nil {s : Scan} (h : s.rest = []) : s.next = s := by
  obtain ⟨n, -, hnext, -⟩ := s.exists_next_eq_drop
  rw [hnext, drop, h, List.drop_nil, List.take_nil, Place.afterAll_nil, ← h]

end Scan

namespace Stepwise

section

variable {c : TextCursor}

theorem loop_stop {goesOn : Option Char → Bool} (h : c.atEnd = true ∨ goesOn (c.peek 0) = false) :
    loop goesOn c = (.ok (), c) := by
  rw [loop, if_neg]
  rintro ⟨hend, hgo⟩
  rcases h with h | h
  · rw [h] at hend
    cases hend
  · rw [h] at hgo
    cases hgo

theorem loop_next {goesOn : Option Char → Bool} {d : TextCursor} {x : Char}
    (hgo : goesOn (c.peek 0) = true) (h : c.next = .ok (x, d)) : loop goesOn c = loop goesOn d := by
  have hend := TextCursor.atEnd_eq_false_iff.2 (TextCursor.eq_of_next_eq_ok h).1
  rw [loop, if_pos ⟨hend, hgo⟩]
  split
  · next _ h' =>
    rw [h] at h'
    cases h'
    rfl
  · next h' =>
    rw [h] at h'
    cases h'

theorem loop_fault {goesOn : Option Char → Bool} {e : ReadFault} (hend : c.atEnd = false)
    (hgo : goesOn (c.peek 0) = true) (h : c.next = .error e) : loop goesOn c = (.error e, c) := by
  rw [loop, if_pos ⟨hend, hgo⟩]
  split
  · next h' =>
    rw [h] at h'
    cases h'
  · next h' =>
    rw [h] at h'
    cases h'
    rfl

end

section

variable {c : TextCursor} (h : 0 ≤ c.position)

include h

/-- In the text a loop reads the longest run of characters at which it goes on. -/
theorem loop_eq (goesOn : Option Char → Bool) :
    loop goesOn c = (.ok (), c.past (c.scan.rest.takeWhile fun x => goesOn (some x)).length) := by
  generalize hrest : c.scan.rest = cs
  induction cs generalizing c with
  | nil => simpa using loop_stop (.inl ((c.atEnd_iff h).2 hrest))
  | cons x cs ih =>
    have hpeek : c.peek 0 = some x := by rw [c.peek_zero h, hrest, List.head?_cons]
    cases hgo : goesOn (some x) with
    | false => simpa [hgo] using loop_stop (.inr (by rw [hpeek, hgo]))
    | true =>
      have hpast : (c.past 1).scan.rest = cs := by
        rw [c.scan_past h, Scan.drop, hrest, List.drop_one, List.tail_cons]
      have hmore := ih (c := c.past 1) (Int.le_add_one h) hpast
      rw [loop_next (by rw [hpeek, hgo]) (c.next_eq h hrest), hmore, c.past_past h,
        List.takeWhile_cons_of_pos (by rw [hgo]), List.length_cons, Nat.add_comm]

theorem skipBlanks_eq : skipBlanks c = (.ok (), c.moveTo c.scan.skipBlanks) := by
  rw [Scan.skipBlanks_eq_drop, c.moveTo_drop (List.takeWhile_prefix _).length_le]
  exact loop_eq h _

theorem readWhile_eq (inClass : Char → Bool) :
    readWhile inClass c = (.ok (String.ofList (c.scan.rest.takeWhile inClass)),
      c.past (c.scan.rest.takeWhile inClass).length) := by
  have hposition (n : Nat) : (c.past n).position.toNat = c.position.toNat + n := by
    simp only [TextCursor.past]
    omega
  have hprefix := List.prefix_iff_eq_take.1 (List.takeWhile_prefix inClass (l := c.scan.rest))
  rw [readWhile, loop_eq h, Reading.andThen_ok, hposition, ← List.take_drop]
  simp only [Option.any_some]
  exact congrArg (fun run => (Except.ok (String.ofList run), _)) hprefix.symm

theorem readMany_eq {n : Nat} (hn : n ≤ c.scan.rest.length) :
    readMany n c = (.ok (), c.past n) := by
  induction n generalizing c with
  | zero => rw [readMany, c.past_zero]
  | succ n ih =>
    obtain ⟨x, cs, hrest⟩ := List.exists_cons_of_length_pos (Nat.zero_lt_of_lt hn)
    have hfewer : n ≤ (c.past 1).scan.rest.length := by
      rw [c.scan_past h, Scan.drop, List.length_drop]
      omega
    rw [readMany, char, c.next_eq h hrest, Reading.ofExcept, Reading.andThen_ok,
      ih (Int.le_add_one h) hfewer, c.past_past h, Nat.add_comm]

/-- Looking at one character after the other finds the operator at the head of what was shown. -/
theorem operatorShown_eq {n i : Nat} {candidate : String}
    (hcandidate : candidate.toList = c.scan.rest.take i) :
    operatorShown c n i candidate (Kind.operatorAt? (c.scan.rest.take i)) =
      Kind.operatorAt? (c.scan.rest.take (i + n)) := by
  induction n generalizing i candidate with
  | zero => rfl
  | succ n ih =>
    rw [operatorShown, c.peek_eq h]
    cases hx : c.scan.rest[i]? with
    | none =>
      have hlength := List.getElem?_eq_none_iff.1 hx
      rw [List.take_of_length_le hlength, List.take_of_length_le (by omega)]
    | some x =>
      have htake : c.scan.rest.take (i + 1) = c.scan.rest.take i ++ [x] := by
        rw [List.take_add_one, hx, Option.toList_some]
      have hpush : (candidate.push x).toList = c.scan.rest.take (i + 1) := by
        rw [String.toList_push, hcandidate, htake]
      have hfound : Kind.operatorAt? (c.scan.rest.take (i + 1)) =
          (Kind.operators.lookup (candidate.push x)).or
            (Kind.operatorAt? (c.scan.rest.take i)) := by
        rw [htake, Kind.operatorAt?_concat, ← htake, ← hpush, String.ofList_toList]
      have hindex : i + (n + 1) = i + 1 + n := by omega
      rw [hindex, ← ih hpush, hfound]

theorem operator_eq :
    operator c = match Kind.operatorAt? c.scan.rest with
      | none => (.ok none, c)
      | some k => (.ok (some ⟨k, k.text, c.place⟩), c.past k.text.length) := by
  have hnone : Kind.operatorAt? (c.scan.rest.take 0) = none := by
    rw [List.take_zero]
    decide
  have hshown : operatorShown c Kind.maxOperatorLength 0 "" (Kind.operatorAt? (_ : List Char)) =
      Kind.operatorAt? (c.scan.rest.take (0 + Kind.maxOperatorLength)) := operatorShown_eq h rfl
  rw [hnone, Nat.zero_add, Kind.operatorAt?_take] at hshown
  rw [operator, hshown]
  cases hk : Kind.operatorAt? c.scan.rest with
  | none => rfl
  | some k =>
    have hlength : k.text.length ≤ c.scan.rest.length := by
      rw [← String.length_toList]
      exact (Lexeme.operatorAt?_isPrefix hk).2.length_le
    simp only [readMany_eq h hlength, Reading.andThen_ok]

/-- In the text the token at the head of the unread part is read. -/
theorem token_eq_scan : token c = (.ok c.scan.token, c.moveTo c.scan.next) := by
  obtain ⟨n, hblanks, hlast, hlength⟩ := c.scan.exists_next_eq_drop
  have hd : 0 ≤ (c.past n).position := Int.add_nonneg h (Int.natCast_nonneg n)
  have hscan : (c.past n).scan = c.scan.skipBlanks := by rw [c.scan_past h, hblanks]
  have hnext : c.moveTo c.scan.next =
      (c.past n).past (Lexeme.atHead (c.past n).scan.rest).text.length := by
    rw [hscan, hlast, c.moveTo_drop hlength, c.past_past h]
  rw [token, skipBlanks_eq h, hblanks, c.moveTo_drop (by omega), Reading.andThen_ok, hnext,
    Scan.token, ← hscan]
  generalize c.past n = d at hd
  cases hrest : d.scan.rest with
  | nil =>
    rw [if_pos ((d.atEnd_iff hd).2 hrest), Lexeme.atHead, List.length_nil, d.past_zero]
    rfl
  | cons x cs =>
    have hend : ¬ d.atEnd = true := by
      rw [d.atEnd_iff hd, hrest]
      exact List.cons_ne_nil _ _
    rw [if_neg hend, d.peek_zero hd, hrest, List.head?_cons, Option.any_some, Option.any_some,
      readWhile_eq hd, readWhile_eq hd, operator_eq hd, hrest, Lexeme.atHead]
    split
    · rfl
    · split
      · rfl
      · cases hk : Kind.operatorAt? (x :: cs) with
        | none =>
          simp only [Reading.andThen_ok, char, d.next_eq hd hrest, Reading.ofExcept]
          rfl
        | some k =>
          simp only [Reading.andThen_ok, String.length_toList, String.ofList_toList]
          rfl

end

end Stepwise

/-! ### Below the start of the text -/

namespace TextCursor

section

variable {c : TextCursor}

/-- Below zero the characters from the end of the text on are read, if there are so many. -/
theorem arrive_of_nonpos (h : c.position ≤ 0) (hstart : -c.length ≤ c.position) :
    c.arrive = .ok
      ⟨c.source, 0, c.place.afterAll (c.source.toList.drop (c.length + c.position).toNat)⟩ := by
  rw [arrive]
  split
  · next hpos =>
    have hzero : c.position = 0 := Int.le_antisymm h hpos
    have hall : c.source.toList.drop (c.length + c.position).toNat = [] := by
      rw [List.drop_eq_nil_iff, hzero, length]
      omega
    rw [hall, Place.afterAll_nil]
    cases c
    cases hzero
    rfl
  · rw [if_neg (by omega)]

/-- Below zero nothing is shown. -/
theorem peek_of_neg (h : c.position < 0) : c.peek 0 = none := by
  rw [peek, if_pos (by omega)]

theorem next_beforeStart (h : c.position < -c.length) : c.next = .error .beforeStart := by
  have hend : c.atEnd = false := atEnd_eq_false_iff.2 (by omega)
  have hindex : c.position + c.length < 0 := by omega
  have hneg : c.position < 0 := by omega
  simp only [next, hend, Bool.false_eq_true, if_false, if_pos hneg, if_pos hindex]

/-- A character that is read below zero brings a cursor nearer to where it arrives. -/
theorem exists_next_arrive (h : c.position < 0) (hstart : -c.length ≤ c.position) :
    ∃ x d, c.next = .ok (x, d) ∧ d.position = c.position + 1 ∧ d.length = c.length ∧
      d.arrive = c.arrive := by
  have hend : c.atEnd = false := atEnd_eq_false_iff.2 (by omega)
  have hindex : ¬ c.position + c.length < 0 := by omega
  have hlt : (c.length + c.position).toNat < c.source.toList.length := by
    rw [length] at hstart ⊢
    omega
  have hrest := List.drop_eq_getElem_cons hlt
  have hx := List.getElem?_eq_getElem hlt
  generalize c.source.toList[(c.length + c.position).toNat] = x at hrest hx
  have hnext : c.next = .ok (x, ⟨c.source, c.position + 1, c.place.after x⟩) := by
    rw [Int.add_comm] at hx
    simp only [next, hend, Bool.false_eq_true, if_false, if_pos h, if_neg hindex, hx]
  refine ⟨x, _, hnext, rfl, rfl, ?_⟩
  have hstep : (c.length + (c.position + 1)).toNat = (c.length + c.position).toNat + 1 := by omega
  rw [arrive_of_nonpos (Int.le_of_lt h) hstart, hrest, Place.afterAll_cons,
    arrive_of_nonpos (Int.add_one_le_of_lt h) (by simp only [length] at hstart ⊢; omega)]
  simp only [length] at hstep ⊢
  rw [hstep]

end

end TextCursor

namespace Stepwise

/-- Reading over blanks goes on through the characters below zero to the start of the text. -/
theorem skipBlanks_below {c : TextCursor} {n : Nat} (h : c.position = -n) (hn : n ≤ c.length) :
    ∃ d, c.arrive = .ok d ∧ skipBlanks c = skipBlanks d := by
  induction n generalizing c with
  | zero => exact ⟨c, by rw [TextCursor.arrive, if_pos (by omega)], rfl⟩
  | succ n ih =>
    obtain ⟨x, d, hnext, hposition, hlength, harrive⟩ :=
      c.exists_next_arrive (by omega) (by omega)
    obtain ⟨e, he, hskip⟩ := ih (c := d) (by omega) (by omega)
    have hpeek := c.peek_of_neg (by omega)
    exact ⟨e, harrive ▸ he, (loop_next (by rw [hpeek]; rfl) hnext).trans hskip⟩

/-- Reading over blanks brings a cursor into the text first, or cannot begin. -/
theorem skipBlanks_arrive (c : TextCursor) :
    skipBlanks c = match c.arrive with
      | .ok d => skipBlanks d
      | .error e => (.error e, c) := by
  by_cases hpos : 0 ≤ c.position
  · simp only [TextCursor.arrive, if_pos hpos]
  by_cases hstart : -c.length ≤ c.position
  · obtain ⟨d, hd, hskip⟩ :=
      skipBlanks_below (c := c) (n := (-c.position).toNat) (by omega) (by omega)
    rw [hskip, hd]
  · have hstart : c.position < -c.length := Int.not_le.1 hstart
    have hend : c.atEnd = false := TextCursor.atEnd_eq_false_iff.2 (by omega)
    have hpeek := c.peek_of_neg (by omega)
    rw [(c.arrive_eq_error_iff _).2 ⟨hstart, rfl⟩]
    exact loop_fault hend (by rw [hpeek]; rfl) (c.next_beforeStart hstart)

/-- Reading character by character gives the token that the longest lexeme makes, and leaves the
cursor where it was if there is none. -/
theorem token_eq (c : TextCursor) : token c = .ofExcept c c.nextToken := by
  rw [token, skipBlanks_arrive, TextCursor.nextToken]
  cases harrive : c.arrive with
  | error e => rfl
  | ok d =>
    have hd : 0 ≤ d.position := by
      rw [(c.position_arrive harrive).2]
      exact Int.le_max_right _ _
    exact token_eq_scan hd

/-- Two below zero the last two characters are read first, and then the text from its start. -/
example : token ⟨"1\n", -2, ⟨5, 7⟩⟩ = (.ok ⟨.int, "1", ⟨6, 1⟩⟩, ⟨"1\n", 1, ⟨6, 2⟩⟩) := by
  rw [token_eq]
  rfl

end Stepwise

/-! ### From any cursor -/

namespace TextCursor

section

variable {c : TextCursor} (h : 0 ≤ c.position)

include h

theorem scan_moveTo_next : (c.moveTo c.scan.next).scan = c.scan.next := by
  obtain ⟨n, -, hnext, hlength⟩ := c.scan.exists_next_eq_drop
  rw [hnext, c.moveTo_drop hlength, c.scan_past h]

theorem length_scan : c.position + c.scan.rest.length = max c.position c.length := by
  simp only [scan, List.length_drop, length]
  omega

/-- In the text a token moves a cursor over as many characters as the unread part loses. -/
theorem position_moveTo_next :
    (c.moveTo c.scan.next).position + c.scan.next.rest.length = max c.position c.length := by
  have hle := c.scan.length_next_le
  rw [← length_scan h, moveTo]
  simp only
  omega

/-- After the end token the same token is read again, and nothing moves. -/
theorem token_moveTo_of_eof (heof : c.scan.token.kind = .eof) :
    Stepwise.token (c.moveTo c.scan.next) = (.ok c.scan.token, c.moveTo c.scan.next) := by
  have hd : 0 ≤ (c.moveTo c.scan.next).position := Int.add_nonneg h (Int.natCast_nonneg _)
  have hrest := Scan.rest_next_of_eof heof
  rw [Stepwise.token_eq_scan hd, scan_moveTo_next h, Scan.token_next_of_eof heof,
    Scan.next_of_rest_eq_nil hrest, moveTo, scan_moveTo_next h]
  simp [hrest, moveTo]

end

end TextCursor

/-- From any cursor, wherever it stands and whatever place it reports, reading fails if and only if
it stands further below zero than the text is long, and then leaves it as it was. Otherwise a token
is read, the cursor is brought into the text, and forward unless that is the end token read at the
end. After the end token every further reading yields it again and moves nothing. -/
theorem token_of_any_cursor (c : TextCursor) :
    Stepwise.token c = .ofExcept c c.nextToken ∧
      ((∃ e, (Stepwise.token c).1 = .error e) ↔ c.position < -c.length) ∧
      match Stepwise.token c with
      | (.error e, d) => e = .beforeStart ∧ d = c
      | (.ok t, d) =>
        d.source = c.source ∧ max c.position 0 ≤ d.position ∧
          (c.position < d.position ↔ ¬ (t.kind = .eof ∧ c.length ≤ c.position)) ∧
          (t.kind = .eof → c.length ≤ d.position ∧
            ∀ n, (fun r => Stepwise.token r.2)^[n] (.ok t, d) = (.ok t, d)) := by
  refine ⟨Stepwise.token_eq c, ?_⟩
  rw [Stepwise.token_eq, TextCursor.nextToken]
  cases harrive : c.arrive with
  | error e =>
    obtain ⟨hstart, rfl⟩ := (c.arrive_eq_error_iff e).1 harrive
    exact ⟨iff_of_true ⟨_, rfl⟩ hstart, rfl, rfl⟩
  | ok d =>
    obtain ⟨hsource, hposition⟩ := c.position_arrive harrive
    have hstart : ¬ c.position < -c.length := fun hstart => by
      rw [(c.arrive_eq_error_iff _).2 ⟨hstart, rfl⟩] at harrive
      cases harrive
    have hd : 0 ≤ d.position := by omega
    have hlength : d.length = c.length := by rw [TextCursor.length, hsource, TextCursor.length]
    have hscan := d.length_scan hd
    have hmove := d.position_moveTo_next hd
    refine ⟨iff_of_false (fun ⟨_, h⟩ => by cases h) hstart, hsource, ?_, ?_, fun heof => ⟨?_, ?_⟩⟩
    · have hle := d.scan.length_next_le
      omega
    · by_cases heof : d.scan.token.kind = .eof
      · rw [Scan.rest_next_of_eof heof, List.length_nil] at hmove
        rw [heof, eq_self, true_and]
        omega
      · have hlt := Scan.length_next_lt heof
        exact iff_of_true (by omega) fun h => heof h.1
    · rw [Scan.rest_next_of_eof heof, List.length_nil] at hmove
      omega
    · exact Function.iterate_fixed (d.token_moveTo_of_eof hd heof)

end MonkeyLang
