import MonkeyLang.Data.Value
import MonkeyLang.Data.Decimal
import MonkeyLang.Text.Quoted

/-!
# Display of structured data

The text by which a message shows a value: texts are quoted, truth values and the absent value are
named, and sequences and mappings are written with their parts in order.
-/

namespace MonkeyLang

namespace Scalar

/-- The text that shows a scalar. -/
def display : Scalar → String
  | null => "None"
  | bool true => "True"
  | bool false => "False"
  | int n => toString n
  | float x => x.text
  | text s => Text.quoted s

/-- The text of a scalar on its own, in which a text stands for itself. -/
def plain : Scalar → String
  | text s => s
  | s => s.display

end Scalar

namespace Value

mutual

/-- The text that shows a value. -/
def display : Value → String
  | scalar s => s.display
  | list items => "[" ++ displayItems items ++ "]"
  | mapping entries => "\x7b" ++ displayEntries entries ++ "\x7d"

/-- Values separated by commas. -/
def displayItems : List Value → String
  | [] => ""
  | [value] => value.display
  | value :: more => value.display ++ ", " ++ displayItems more

/-- Entries separated by commas. -/
def displayEntries : List (Scalar × Value) → String
  | [] => ""
  | [(key, value)] => key.display ++ ": " ++ value.display
  | (key, value) :: more =>
    key.display ++ ": " ++ value.display ++ ", " ++ displayEntries more

end

end Value

end MonkeyLang
