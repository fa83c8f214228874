import MonkeyLang.Data.Binary64

/-!
# Structured data

Plain data as settings and outlines use it: scalars, sequences, and mappings that keep the order of
their entries. The keys of a mapping are scalars, and two keys are the same if they are equal as
numbers or as texts; a truth value counts as one or zero. An entry whose key is already there takes
the place of the old value and leaves the old key where it is.
-/

namespace MonkeyLang

/-- Nothing, a truth value, a number, or a text. -/
inductive Scalar where
  | null
  | bool (b : Bool)
  | int (n : Int)
  | float (x : Binary64)
  | text (s : String)
  deriving DecidableEq, Repr

namespace Scalar

/-- The number that a scalar stands for, as an integer over a power of two. -/
def dyadic? : Scalar → Option (Int × Nat)
  | bool b => some (if b then 1 else 0, 0)
  | int n => some (n, 0)
  | float x => x.dyadic?
  | _ => none

/-- Whether two scalars are the same key. Numbers are compared by value, whatever their form; a
value that is no number is not even the same key as itself. -/
def sameKey : Scalar → Scalar → Bool
  | null, null => true
  | text a, text b => a == b
  | float (.infinite a), float (.infinite b) => a == b
  | a, b =>
    match a.dyadic?, b.dyadic? with
    | some (n, i), some (m, j) => n * Nat.pow 2 j == m * Nat.pow 2 i
    | _, _ => false

end Scalar

/-- A scalar, a sequence of values, or a mapping from scalars to values. -/
inductive Value where
  | scalar (s : Scalar)
  | list (items : List Value)
  | mapping (entries : List (Scalar × Value))
  deriving Repr, Inhabited

namespace Value

/-- A text as a value. -/
def ofText (s : String) : Value := .scalar (.text s)

/-- An integer as a value. -/
def ofInt (n : Int) : Value := .scalar (.int n)

/-- A truth value as a value. -/
def ofBool (b : Bool) : Value := .scalar (.bool b)

/-- The entries of a mapping after one more entry. -/
def put (entries : List (Scalar × Value)) (key : Scalar) (value : Value) :
    List (Scalar × Value) :=
  match entries with
  | [] => [(key, value)]
  | (k, v) :: more =>
    if k.sameKey key then (k, value) :: more else (k, v) :: put more key value

/-- The mapping with given entries, in which a later entry replaces the value of an earlier one of
the same key. -/
def ofEntries (entries : List (Scalar × Value)) : Value :=
  .mapping (entries.foldl (fun done e => put done e.1 e.2) [])

end Value

end MonkeyLang
