import MonkeyLang.Proofs.Acceptance

/-!
# Lexemes and their spelling

How lexemes are spelled, and what a text that spells them out reads back as. Every lexeme of a text
is read back if the text behind it does not go on with it; blanks between lexemes are free. Main
statements: `Lexes.upcoming`, and the lemmas that put one lexeme in front of a text.
-/

namespace MonkeyLang

open Text

/-! ### Spelling -/

namespace Kind

/-- How a kind is spelled, if all its tokens are spelled alike. -/
def spelling : Kind → String
  | function => "fn"
  | letWord => "let"
  | trueWord => "true"
  | falseWord => "false"
  | ifWord => "if"
  | elseWord => "else"
  | returnWord => "return"
  | k => k.text

/-- The lexeme of a kind whose tokens are all spelled alike. -/
def lexeme (k : Kind) : Lexeme := ⟨k, k.spelling.toList⟩

end Kind

namespace Token

/-- The lexeme that a token is read from. -/
def lexeme (t : Token) : Lexeme := ⟨t.kind, t.literal.toList⟩

/-- The token is of a kind and spelled like one. -/
def Spells (t : Token) (k : Kind) : Prop := t.kind = k ∧ t.literal = k.spelling

theorem Spells.lexeme {t : Token} {k : Kind} (h : t.Spells k) : t.lexeme = k.lexeme := by
  rw [Token.lexeme, Kind.lexeme, h.1, h.2]

end Token

/-- A text of letters that is no keyword. -/
structure IsName (s : String) : Prop where
  ne_nil : s.toList ≠ []
  letters : ∀ c ∈ s.toList, isLetter c = true
  not_keyword : s ∉ Kind.keywords.map Prod.fst

/-- The number that a row of decimal digits denotes. -/
def Text.decimal (cs : List Char) : Nat := ofDigits (cs.map fun c => c.toNat - 48)

/-- A text of decimal digits that denotes a number and is not too long. -/
structure IsNumeral (s : String) (n : Nat) : Prop where
  ne_nil : s.toList ≠ []
  digits : ∀ c ∈ s.toList, isDigit c = true
  length_le : s.toList.length ≤ maxDigits
  value : decimal s.toList = n

/-- A text of decimal digits, of any length. -/
structure IsDigits (s : String) : Prop where
  ne_nil : s.toList ≠ []
  digits : ∀ c ∈ s.toList, isDigit c = true

theorem IsNumeral.isDigits {s : String} {n : Nat} (h : IsNumeral s n) : IsDigits s :=
  ⟨h.ne_nil, h.digits⟩

/-! ### Numerals -/

theorem Text.toNat_of_isDigit {c : Char} (h : isDigit c = true) : 48 ≤ c.toNat ∧ c.toNat < 58 := by
  simp only [isDigit, Bool.and_eq_true, decide_eq_true_eq, Char.le_def] at h
  exact ⟨h.1, Nat.lt_succ_of_le h.2⟩

theorem Text.digitValue?_of_isDigit {c : Char} (h : isDigit c = true) :
    digitValue? c = some (c.toNat - 48) := by
  have hc := toNat_of_isDigit h
  rw [digitValue?, zeros, List.find?_cons_of_pos (by simpa using hc)]
  rfl

theorem Text.isNumeralBlank_of_isDigit {c : Char} (h : isDigit c = true) :
    isNumeralBlank c = false := by
  have hc := toNat_of_isDigit h
  have hspace : c ≠ ' ' := by
    rintro rfl
    simp at hc
  have hwide : c.toNat ∉ wideBlanks := by
    intro hmem
    simp only [wideBlanks, List.mem_cons, List.not_mem_nil, or_false] at hmem
    omega
  simp [isNumeralBlank, hspace, hwide]
  omega

theorem Text.digits?_of_isDigit {cs : List Char} (hne : cs ≠ [])
    (h : ∀ c ∈ cs, isDigit c = true) : digits? cs = some (cs.map fun c => c.toNat - 48) := by
  induction cs with
  | nil => exact absurd rfl hne
  | cons c cs ih =>
    have hc := digitValue?_of_isDigit (h c List.mem_cons_self)
    cases cs with
    | nil => simp [digits?, hc]
    | cons d ds =>
      have hd : d ≠ '_' := by
        rintro rfl
        exact absurd (h '_' (by simp)) (by decide)
      rw [digits?.eq_4 _ _ (by simp) (by simpa using hd)]
      rw [hc, ih (by simp) fun x hx => h x (List.mem_cons_of_mem _ hx)]
      rfl

theorem Text.trim_of_isDigit {cs : List Char} (h : ∀ c ∈ cs, isDigit c = true) : trim cs = cs := by
  have hdrop (ds : List Char) (hds : ∀ c ∈ ds, isDigit c = true) :
      ds.dropWhile isNumeralBlank = ds := by
    cases ds with
    | nil => rfl
    | cons d ds =>
      rw [List.dropWhile_cons_of_neg]
      simp [isNumeralBlank_of_isDigit (hds d List.mem_cons_self)]
  rw [trim, hdrop cs h, hdrop cs.reverse fun c hc => h c (List.mem_reverse.1 hc),
    List.reverse_reverse]

/-- A row of decimal digits denotes its value, unless it is too long. -/
theorem Text.integer?_of_isDigit {s : String} (hne : s.toList ≠ [])
    (h : ∀ c ∈ s.toList, isDigit c = true) :
    integer? s = if s.toList.length ≤ maxDigits then some (decimal s.toList : Int) else none := by
  have hnatural : natural? s.toList =
      if s.toList.length ≤ maxDigits then some (decimal s.toList) else none := by
    simp [natural?, digits?_of_isDigit hne h, decimal]
  rw [integer?, trim_of_isDigit h]
  split
  · next cs hcs => exact absurd (h '+' (by simp [hcs])) (by decide)
  · next cs hcs => exact absurd (h '-' (by simp [hcs])) (by decide)
  · rw [hnatural]
    split <;> rfl

theorem IsNumeral.integer? {s : String} {n : Nat} (h : IsNumeral s n) :
    Text.integer? s = some (n : Int) := by
  rw [integer?_of_isDigit h.ne_nil h.digits, if_pos h.length_le, h.value]

/-! ### Reading lexemes back -/

/-- Cut into lexemes, with blanks free between them, the text has the given ones. -/
inductive Lexes : List Char → List Lexeme → Prop
  | nil : Lexes [] []
  | blank {c cs ls} : isBlank c = true → Lexes cs ls → Lexes (c :: cs) ls
  | lexeme {l cs ls} : Lexeme.atHead (l.text ++ cs) = l → l.text ≠ [] → l.kind ≠ .illegal →
    Lexes cs ls → Lexes (l.text ++ cs) (l :: ls)

namespace Scan

/-- What comes next depends on what stands behind the blanks only. -/
theorem token_next_congr {s u : Scan} (h : s.skipBlanks = u.skipBlanks) :
    s.token = u.token ∧ s.next = u.next :=
  ⟨by rw [token, token, h], by rw [next, next, h]⟩

/-- Skipping one blank more or less makes no difference to what comes next. -/
theorem upcoming_congr {s u : Scan} (h : s.skipBlanks = u.skipBlanks) :
    (Source.text s).upcoming = (Source.text u).upcoming := by
  obtain ⟨htoken, hnext⟩ := token_next_congr h
  by_cases hs : s.token.kind = .eof
  · rw [Source.upcoming_of_head_eof (s := .text s) hs,
      Source.upcoming_of_head_eof (s := .text u) (by rwa [Source.head, ← htoken])]
  · rw [Source.upcoming_of_head_ne_eof (s := .text s) hs,
      Source.upcoming_of_head_ne_eof (s := .text u) (by rwa [Source.head, ← htoken])]
    simp only [Source.head, Source.tail, htoken, hnext]

theorem skipBlanks_cons_of_blank {c : Char} {cs : List Char} {p : Place} (h : isBlank c = true) :
    skipBlanks ⟨c :: cs, p⟩ = skipBlanks ⟨cs, p.after c⟩ := by
  simp [skipBlanks, h]

theorem skipBlanks_cons_of_not_blank {c : Char} {cs : List Char} {p : Place}
    (h : isBlank c = false) : skipBlanks ⟨c :: cs, p⟩ = ⟨c :: cs, p⟩ := by
  simp [skipBlanks, h]

end Scan

theorem Lexeme.atHead_of_blank {c : Char} {cs : List Char} (h : isBlank c = true) :
    atHead (c :: cs) = ⟨.illegal, [c]⟩ := by
  simp only [isBlank, Bool.or_eq_true, beq_iff_eq] at h
  obtain ((rfl | rfl) | rfl) | rfl := h <;> rfl

@[simp] theorem Token.lexeme_scan (s : Scan) :
    s.token.lexeme = Lexeme.atHead s.skipBlanks.rest := by
  simp [Token.lexeme, Scan.token]

/-- The tokens of a text are read from its lexemes. -/
theorem Lexes.upcoming {cs : List Char} {ls : List Lexeme} (h : Lexes cs ls) (p : Place) :
    (Source.text ⟨cs, p⟩).upcoming.map Token.lexeme = ls := by
  induction h generalizing p with
  | nil => rfl
  | blank hc _ ih =>
    rw [Scan.upcoming_congr (Scan.skipBlanks_cons_of_blank hc)]
    exact ih _
  | @lexeme l cs ls hl hne hillegal _ ih =>
    obtain ⟨c, ds, htext⟩ := List.exists_cons_of_ne_nil hne
    have hblank : isBlank c = false := by
      rw [Bool.eq_false_iff]
      intro hblank
      rw [htext, List.cons_append, Lexeme.atHead_of_blank hblank] at hl
      exact hillegal (by rw [← hl])
    have hskip : Scan.skipBlanks ⟨l.text ++ cs, p⟩ = ⟨l.text ++ cs, p⟩ := by
      rw [htext]
      exact Scan.skipBlanks_cons_of_not_blank hblank
    have htoken : (Scan.token ⟨l.text ++ cs, p⟩).lexeme = l := by
      rw [Token.lexeme_scan, hskip, hl]
    have hnext : Scan.next ⟨l.text ++ cs, p⟩ = ⟨cs, p.afterAll l.text⟩ := by
      simp [Scan.next, hskip, hl, Scan.drop]
    have hkind : (Source.text ⟨l.text ++ cs, p⟩).head.kind ≠ .eof := by
      rw [ne_eq, Source.head, Scan.kind_token_eq_eof_iff, hskip]
      simp [htext]
    calc
      (Source.text ⟨l.text ++ cs, p⟩).upcoming.map Token.lexeme
      _ = (Scan.token ⟨l.text ++ cs, p⟩).lexeme ::
          (Source.text (Scan.next ⟨l.text ++ cs, p⟩)).upcoming.map Token.lexeme := by
        rw [Source.upcoming_of_head_ne_eof hkind]
        rfl
      _ = l :: ls := by rw [htoken, hnext, ih]

/-! ### One lexeme in front of a text -/

/-- The text does not go on with a word, a numeral or an operator in front of it. -/
def Delimits (cs : List Char) : Prop :=
  ∀ c ∈ cs.head?, isLetter c = false ∧ isDigit c = false ∧ c ≠ '='

theorem delimits_nil : Delimits [] := by simp [Delimits]

theorem delimits_cons {c : Char} {cs : List Char} (h : c ∈ [' ', '(', ')', ',', ';']) :
    Delimits (c :: cs) := by
  rintro _ ⟨⟩
  simp only [List.mem_cons, List.not_mem_nil, or_false] at h
  rcases h with rfl | rfl | rfl | rfl | rfl <;> decide

/-- The longest beginning of a class ends where the class does. -/
theorem takeWhile_append_delimited {p : Char → Bool} {cs rest : List Char}
    (hcs : ∀ c ∈ cs, p c = true) (hrest : ∀ c ∈ rest.head?, p c = false) :
    (cs ++ rest).takeWhile p = cs := by
  rw [List.takeWhile_append_of_pos hcs]
  cases rest with
  | nil => simp
  | cons c rest => simp [hrest c rfl]

theorem Lexeme.atHead_word {cs rest : List Char} (hne : cs ≠ []) (hcs : ∀ c ∈ cs, isLetter c = true)
    (hrest : ∀ c ∈ rest.head?, isLetter c = false) :
    atHead (cs ++ rest) = ⟨Kind.ofWord (String.ofList cs), cs⟩ := by
  obtain ⟨c, ds, rfl⟩ := List.exists_cons_of_ne_nil hne
  have htake := takeWhile_append_delimited hcs hrest
  rw [List.cons_append] at htake ⊢
  rw [atHead, if_pos (hcs c List.mem_cons_self)]
  simp only [htake]

theorem Lexeme.atHead_numeral {cs rest : List Char} (hne : cs ≠ [])
    (hcs : ∀ c ∈ cs, isDigit c = true) (hrest : ∀ c ∈ rest.head?, isDigit c = false) :
    atHead (cs ++ rest) = ⟨.int, cs⟩ := by
  obtain ⟨c, ds, rfl⟩ := List.exists_cons_of_ne_nil hne
  have htake := takeWhile_append_delimited hcs hrest
  have hc := hcs c List.mem_cons_self
  have hletter : isLetter c = false := by
    rw [Bool.eq_false_iff]
    intro hletter
    simp [isDigit_of_isLetter hletter] at hc
  rw [List.cons_append] at htake ⊢
  rw [atHead, hletter, hc]
  simp only [htake, Bool.false_eq_true, if_false, if_true]

/-- The longest operator is read, so one that could be longer is not followed by an equals sign. -/
theorem Lexeme.atHead_operator {k : Kind} {rest : List Char} (hk : k ∈ Kind.operatorKinds)
    (hrest : k = .assign ∨ k = .bang → rest.head? ≠ some '=') :
    atHead (k.spelling.toList ++ rest) = k.lexeme := by
  cases k with
  | assign | bang =>
    cases rest with
    | nil => rfl
    | cons c rest =>
      have hc : '=' ≠ c := by
        rintro rfl
        exact hrest (by decide) rfl
      simp [atHead, isLetter, isDigit, Char.le_def, Kind.operatorAt?, Kind.operatorKinds, Kind.text,
        Kind.lexeme, Kind.spelling, hc]
  | eq | notEq | plus | minus | asterisk | slash | lt | gt | comma | semicolon | lparen | rparen
  | lbrace | rbrace => rfl
  | _ => exact absurd hk (by decide)

section

variable {rest : List Char} {ls : List Lexeme}

theorem Lexes.name {s : String} (hs : IsName s) (hrest : Delimits rest) (h : Lexes rest ls) :
    Lexes (s.toList ++ rest) (⟨.ident, s.toList⟩ :: ls) := by
  have hident : Kind.ofWord s = .ident := by
    rcases Kind.ofWord_cases s with ⟨-, hident⟩ | hmem
    · exact hident
    · exact absurd (List.mem_map_of_mem hmem) hs.not_keyword
  refine Lexes.lexeme (l := ⟨.ident, s.toList⟩) ?_ hs.ne_nil (by simp) h
  rw [Lexeme.atHead_word hs.ne_nil hs.letters fun c hc => (hrest c hc).1, String.ofList_toList,
    hident]

theorem Lexes.numeral {s : String} (hs : IsDigits s) (hrest : Delimits rest)
    (h : Lexes rest ls) : Lexes (s.toList ++ rest) (⟨.int, s.toList⟩ :: ls) := by
  have hhead := Lexeme.atHead_numeral hs.ne_nil hs.digits fun c hc => (hrest c hc).2.1
  exact Lexes.lexeme (l := ⟨.int, s.toList⟩) hhead hs.ne_nil (by simp) h

/-- The kinds of the keywords. -/
def Kind.words : List Kind := Kind.keywords.map Prod.snd

theorem Lexes.keyword (k : Kind) (cs : List Char) (hk : k ∈ Kind.words ∧ k.spelling.toList = cs)
    (hrest : Delimits rest) (h : Lexes rest ls) : Lexes (cs ++ rest) (k.lexeme :: ls) := by
  obtain ⟨hk, rfl⟩ := hk
  have hspelling : k.spelling.toList ≠ [] ∧ k.spelling.toList.all isLetter = true ∧
      Kind.ofWord k.spelling = k ∧ k ≠ .illegal := by
    revert hk
    cases k <;> decide
  obtain ⟨hne, hletters, hword, hillegal⟩ := hspelling
  rw [List.all_eq_true] at hletters
  refine Lexes.lexeme (l := k.lexeme) ?_ hne hillegal h
  change Lexeme.atHead (k.spelling.toList ++ rest) = _
  rw [Lexeme.atHead_word hne hletters fun c hc => (hrest c hc).1, String.ofList_toList, hword]
  rfl

theorem Lexes.operator (k : Kind) (cs : List Char)
    (hk : k ∈ Kind.operatorKinds ∧ k.spelling.toList = cs)
    (hrest : k = .assign ∨ k = .bang → rest.head? ≠ some '=') (h : Lexes rest ls) :
    Lexes (cs ++ rest) (k.lexeme :: ls) := by
  obtain ⟨hk, rfl⟩ := hk
  refine Lexes.lexeme (l := k.lexeme) (Lexeme.atHead_operator hk hrest) ?_ ?_ h
  · revert hk
    cases k <;> decide
  · rintro rfl
    exact absurd hk (by decide)

theorem Lexes.space (h : Lexes rest ls) : Lexes (' ' :: rest) ls := .blank rfl h

theorem Lexeme.atHead_equals (cs : List Char) :
    (atHead ('=' :: cs)).kind = .assign ∨ (atHead ('=' :: cs)).kind = .eq := by
  by_cases hcs : cs.head? = some '='
  · obtain ⟨ds, rfl⟩ := List.head?_eq_some_iff.1 hcs
    exact .inr rfl
  · have h : atHead ('=' :: cs) = _ := atHead_operator (k := .assign) (by decide) fun _ => hcs
    exact .inl (by rw [h]; rfl)

/-- A text begins with an equals sign only if its first lexeme does. -/
theorem Lexes.head_ne_equals {l : Lexeme} (h : Lexes rest (l :: ls)) (hassign : l.kind ≠ .assign)
    (heq : l.kind ≠ .eq) : rest.head? ≠ some '=' := by
  intro hrest
  obtain ⟨ds, rfl⟩ := List.head?_eq_some_iff.1 hrest
  generalize hcs : '=' :: ds = cs at h
  cases h with
  | blank hc _ =>
    obtain ⟨rfl, rfl⟩ := List.cons.inj hcs
    exact absurd hc (by decide)
  | lexeme hl _ _ _ =>
    rw [← hcs] at hl
    rcases Lexeme.atHead_equals ds with hkind | hkind
    · exact hassign (by rw [← hl, hkind])
    · exact heq (by rw [← hl, hkind])

end

end MonkeyLang
