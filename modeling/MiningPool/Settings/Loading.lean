import MiningPool.Settings.Checking
import MiningPool.Settings.Reading
import MiningPool.Text.Utf8
import MiningPool.Toml.Document

/-!
# Loading settings

Settings come from the text of a file, and only those that pass the check get through. An error tells which
file it is about.
-/

namespace MiningPool.Settings

/-- Why a text gives no settings. -/
inductive TextError where
  /-- It is not TOML, or some setting is of the wrong kind. -/
  | unreadable
  | flawed (flaw : Flaw)
  deriving DecidableEq, Repr

def TextError.message : TextError → String
  | .unreadable => "Failed to parse TOML"
  | .flawed flaw => flaw.message

def ofText (text : String) : Except TextError Settings :=
  match (Toml.read? text).bind ofValue? with
  | none => .error .unreadable
  | some s =>
    match s.check with
    | .error flaw => .error (.flawed flaw)
    | .ok () => .ok s

/-- What is found at a path. -/
inductive File where
  | missing
  | directory
  | contents (bytes : Bytes)
  deriving DecidableEq, Repr

/-- Why a file gives no settings. -/
inductive FileError where
  | missing
  | directory
  | notText
  | text (e : TextError)
  deriving DecidableEq, Repr

/-- The text of an error about a file. -/
def FileError.message (path : String) : FileError → String
  | .missing => unreadable "No such file or directory (os error 2)"
  | .directory => unreadable "Is a directory (os error 21)"
  | .notText => unreadable "stream did not contain valid UTF-8"
  | .text e => "Invalid configuration in '" ++ path ++ "': " ++ e.message
where
  /-- The text of an error about a file that could not be read. -/
  unreadable (why : String) : String := "Failed to read config file at '" ++ path ++ "': " ++ why

/-- The settings of a file. -/
def ofFile : File → Except FileError Settings
  | .missing => .error .missing
  | .directory => .error .directory
  | .contents bytes =>
    match Utf8.decode? bytes with
    | none => .error .notText
    | some cs => (ofText (String.ofList cs)).mapError .text

end MiningPool.Settings
