import MonkeyLang.Data.Display
import MonkeyLang.Data.Json
import MonkeyLang.Text.Utf8

/-!
# Why settings are refused

The causes for which settings are refused, and their wording. Settings that could not be read from a
file name the cause that lies behind: the file, its encoding, or its notation.
-/

namespace MonkeyLang

/-- Why a file cannot be read. -/
inductive FileFault where
  /-- The system does not open it: the number of the error, and what the system says. -/
  | notOpened (number : Nat) (text : String)
  /-- The system opens it, but does not hand out its content. -/
  | notRead (number : Nat) (text : String)
  /-- The path has a null character, so the system is not asked. -/
  | nullCharacter
  deriving DecidableEq, Repr

namespace FileFault

/-- The text of a fault of the file at a path. The path is named if the file was not opened. -/
def message (path : String) : FileFault → String
  | notOpened number text =>
    "[Errno " ++ toString number ++ "] " ++ text ++ ": " ++ Text.quoted path
  | notRead number text => "[Errno " ++ toString number ++ "] " ++ text
  | nullCharacter => "embedded null byte"

end FileFault

/-- Why a settings file does not yield a value. -/
inductive LoadFault where
  | file (path : String) (fault : FileFault)
  | encoding (fault : Text.Utf8.Fault)
  | content (text : List Char) (fault : Json.Fault)
  deriving DecidableEq, Repr

namespace LoadFault

/-- The text of a fault. -/
def message : LoadFault → String
  | file path fault => fault.message path
  | encoding fault => fault.message
  | content text fault => fault.message text

end LoadFault

/-- Why settings are refused. -/
inductive SettingsError where
  /-- The settings are no mapping. -/
  | notAMapping
  /-- The settings have keys that are not known, given by their texts in order. -/
  | unknownKeys (keys : List String)
  /-- The width of integers is no integer. -/
  | widthNotAnInteger (value : Value)
  /-- The width of integers is not positive. -/
  | widthNotPositive (width : Int)
  /-- Strictness is no truth value. -/
  | strictNotABoolean (value : Value)
  /-- The settings file cannot be read. -/
  | unreadable (fault : LoadFault)
  deriving Repr

namespace SettingsError

/-- The text of a refusal. -/
def message : SettingsError → String
  | notAMapping => "Configuration must be a JSON object / dict"
  | unknownKeys _ => "Unknown configuration key(s)"
  | widthNotAnInteger value => "int_bits must be an int, got " ++ value.display
  | widthNotPositive width => "int_bits must be positive, got " ++ toString width
  | strictNotABoolean value => "strict must be a bool, got " ++ value.display
  | unreadable fault => "Failed to load parser config: " ++ fault.message

/-- The particular problems of a refusal: one for each unknown key. -/
def problems : SettingsError → List String
  | unknownKeys keys => keys.map fun key => "'" ++ key ++ "' is not a parser setting"
  | _ => []

/-- The fault of the file behind a refusal. -/
def cause? : SettingsError → Option LoadFault
  | unreadable fault => some fault
  | _ => none

end SettingsError

end MonkeyLang
