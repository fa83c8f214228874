import MonkeyLang.Token.Kind

/-!
# Tokens and places

A place is a line and a column, both counted from one in a text and free to be any integer
otherwise. Reading a character moves a place on: a newline starts the next line, and every other
character moves one column. A token is a kind, the text it was read from, and the place of its
first character.
-/

namespace MonkeyLang

/-- A line and a column. -/
structure Place where
  line : Int
  col : Int
  deriving DecidableEq, Repr, Inhabited

namespace Place

/-- The place of the first character of a text. -/
def start : Place := ⟨1, 1⟩

/-- The place right after a character that stands at `p`. -/
def after (p : Place) (c : Char) : Place :=
  if c = '\n' then ⟨p.line + 1, 1⟩ else ⟨p.line, p.col + 1⟩

/-- The place right after a run of characters whose first one stands at `p`. -/
def afterAll (p : Place) (cs : List Char) : Place :=
  cs.foldl after p

@[simp] theorem afterAll_nil (p : Place) : p.afterAll [] = p := rfl

@[simp] theorem afterAll_cons (p : Place) (c : Char) (cs : List Char) :
    p.afterAll (c :: cs) = (p.after c).afterAll cs := rfl

@[simp] theorem afterAll_append (p : Place) (cs ds : List Char) :
    p.afterAll (cs ++ ds) = (p.afterAll cs).afterAll ds :=
  List.foldl_append

/-- Without a newline, a run of characters moves a place by its length along the line. -/
theorem afterAll_of_not_mem {cs : List Char} (h : '\n' ∉ cs) (p : Place) :
    p.afterAll cs = ⟨p.line, p.col + cs.length⟩ := by
  induction cs generalizing p with
  | nil => simp
  | cons c cs ih =>
    have hc : c ≠ '\n' := fun e => h (e ▸ List.mem_cons_self)
    have hcs : '\n' ∉ cs := fun m => h (List.mem_cons_of_mem _ m)
    rw [afterAll_cons, ih hcs]
    simp only [after, hc, if_false, List.length_cons, Place.mk.injEq, true_and]
    omega

end Place

/-- A kind, the text that it was read from (empty at the end of the text), and the place of the
first character. A token that was not read from a text stands at line and column zero. -/
structure Token where
  kind : Kind
  literal : String
  place : Place := ⟨0, 0⟩
  deriving DecidableEq, Repr, Inhabited

namespace Token

/-- The token that stands for the end of a text. -/
def endAt (p : Place) : Token := ⟨.eof, "", p⟩

@[simp] theorem kind_endAt (p : Place) : (endAt p).kind = .eof := rfl

/-- The display form of a token: its kind's name and its text. -/
def summary (t : Token) : String :=
  "Token(" ++ t.kind.name ++ ", " ++ t.literal ++ ")"

end Token

end MonkeyLang
