import MonkeyLang.Settings.Config
import MonkeyLang.Settings.Error
import MonkeyLang.Parsing.Record

/-!
# Settings from data and from files

Settings are read from a mapping that may give the width of integers and strictness, and nothing
else. Unknown keys are refused before any value is looked at, and the width before strictness. A
settings file is UTF-8 text that holds such a mapping in JSON; every line break counts as one
newline character.
-/

namespace MonkeyLang

namespace Config

/-- Whether a scalar is the key of a setting. -/
def isKey : Scalar → Bool
  | .text s => s == "int_bits" || s == "strict"
  | _ => false

/-- The value of a setting in the entries of a mapping. -/
def setting? (entries : List (Scalar × Value)) (key : String) : Option Value :=
  entries.lookup (.text key)

/-- The width that a value gives. -/
def width (value : Value) : Except SettingsError { n : Nat // 0 < n } :=
  match value with
  | .scalar (.int n) =>
    if h : 0 < n.toNat then .ok ⟨n.toNat, h⟩ else .error (.widthNotPositive n)
  | _ => .error (.widthNotAnInteger value)

/-- The strictness that a value gives. -/
def strictness (value : Value) : Except SettingsError Bool :=
  match value with
  | .scalar (.bool b) => .ok b
  | _ => .error (.strictNotABoolean value)

/-- The keys of a mapping that are no keys of settings, as texts in the order of code points. -/
def unknownKeys (entries : List (Scalar × Value)) : List String :=
  (entries.filterMap fun e => if isKey e.1 then none else some e.1.plain).mergeSort
    fun a b => decide (a ≤ b)

/-- The settings that a value gives. -/
def ofValue : Value → Except SettingsError Config
  | .mapping entries =>
    match unknownKeys entries with
    | [] => do
      let ⟨intBits, intBits_pos⟩ ←
        match setting? entries "int_bits" with
        | some value => width value
        | none => .ok ⟨64, defaultWidth_pos⟩
      let strict ←
        match setting? entries "strict" with
        | some value => strictness value
        | none => .ok false
      .ok { intBits, strict, intBits_pos }
    | keys => .error (.unknownKeys keys)
  | _ => .error .notAMapping

end Config

/-- The files that paths lead to, by what reading the file at a path yields. Which files there are,
and what keeps one of them from being read, is up to the system. -/
structure Folder where
  read : String → Except FileFault (List UInt8)

/-- A text in which every line break is one newline character. -/
def normalizeBreaks : List Char → List Char
  | [] => []
  | '\r' :: '\n' :: cs => '\n' :: normalizeBreaks cs
  | '\r' :: cs => '\n' :: normalizeBreaks cs
  | c :: cs => c :: normalizeBreaks cs

namespace Config

/-- The value that a settings file holds. -/
def readFile (folder : Folder) (path : String) : Except LoadFault Value := do
  let bytes ← (folder.read path).mapError (LoadFault.file path)
  let characters ← (Text.Utf8.decode bytes).mapError LoadFault.encoding
  let text := normalizeBreaks characters
  (Json.read text).mapError (LoadFault.content text)

/-- The settings that a file of a folder gives. -/
def load (folder : Folder) (path : String) : Except SettingsError Config := do
  let value ← (readFile folder path).mapError SettingsError.unreadable
  ofValue value

/-- The records that loading settings leaves: one, unless they were refused. -/
def loadLog (folder : Folder) (path : String) : List Record :=
  match load folder path with
  | .ok config => [.settingsLoaded path config]
  | .error _ => []

end Config

end MonkeyLang
