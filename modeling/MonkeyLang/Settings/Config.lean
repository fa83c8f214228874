/-!
# Parser settings

A numeral must fit a signed integer of a given positive number of bits, and problems are either
collected or make the whole parse fail. Main statement: `admits_iff` says that the numbers admitted
are those up to the largest signed integer; there is no lower bound.
-/

namespace MonkeyLang

/-- The settings of a parse: the width of integers in bits, and whether problems make the parse
fail. -/
structure Config where
  intBits : Nat := 64
  strict : Bool := false
  intBits_pos : 0 < intBits := by decide
  deriving DecidableEq, Repr

instance : Inhabited Config := ⟨{}⟩

/-- The width of integers is positive where nothing is set. -/
theorem Config.defaultWidth_pos : 0 < 64 := by decide

namespace Config

/-- The largest signed integer of the configured width. -/
def maxInt (c : Config) : Nat := Nat.pow 2 (c.intBits - 1) - 1

/-- Whether an integer is no larger than the largest one of the configured width. The power of two
is not computed, so the width may be large. -/
def admits (c : Config) (n : Int) : Bool :=
  n.toNat == 0 || decide (n.toNat.log2 < c.intBits - 1)

/-- The admitted integers are exactly those up to the largest one. -/
theorem admits_iff (c : Config) (n : Int) : c.admits n = true ↔ n ≤ c.maxInt := by
  have hpos : 0 < 2 ^ (c.intBits - 1) := Nat.two_pow_pos _
  by_cases h : n.toNat = 0
  · simp only [admits, h, beq_self_eq_true, Bool.true_or, true_iff, maxInt, Nat.pow_eq]
    omega
  · have hlog := Nat.log2_lt h (k := c.intBits - 1)
    simp only [admits, beq_eq_false_iff_ne.2 h, Bool.false_or, decide_eq_true_eq, hlog, maxInt,
      Nat.pow_eq]
    omega

/-- The display form of settings. -/
def summary (c : Config) : String :=
  "ParserConfig(int_bits=" ++ toString c.intBits ++ ", strict="
    ++ (if c.strict then "True" else "False") ++ ")"

end Config

end MonkeyLang
