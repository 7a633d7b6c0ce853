import MiningPool.Settings.Loading

/-!
# The command line

`--version` wins over everything. Settings come from the file named behind `--config`, which has to be
there, or from the usual file if it is there. A port behind `--port` takes the place of the one in the
settings. Of an option that is given twice the first one counts; what is no option is passed over.
-/

namespace MiningPool.CommandLine

def version : String := "0.3.1"

/-- Where settings are looked for when no file is named. -/
def usualPath : String := "config.toml"

/-- Why the program does not start. -/
inductive Refusal where
  | noConfigValue
  | noPortValue
  | badPort (text : String)
  | badSettings (path : String) (e : Settings.FileError)
  deriving DecidableEq, Repr

def Refusal.message : Refusal → String
  | .noConfigValue => "--config flag requires a value"
  | .noPortValue => "--port flag requires a value"
  | .badPort text => "Invalid port number: " ++ text
  | .badSettings path e => "Failed to load configuration from \"" ++ path ++ "\": " ++ e.message path

inductive Action where
  | showVersion
  | refuse (why : Refusal)
  | serve (s : Settings)
  deriving DecidableEq, Repr

/-- What `--version` shows. -/
def versionText : String := "stratumd version " ++ version

/-- What stands behind the first of some options: nothing if it is not there, and nothing behind it if it
is the last word. -/
def option? (name : String) (args : List String) : Option (Option String) :=
  match args.dropWhile (· != name) with
  | [] => none
  | _ :: rest => some rest.head?

/-- A port: digits, perhaps after a plus sign, that make a number between 1 and 65535. -/
def port? (text : String) : Option Nat :=
  let cs := match text.toList with
    | '+' :: r => r
    | s => s
  match Net.Ip.number? 10 cs.length cs with
  | some (n, []) => if 0 < n ∧ n < 65536 then some n else none
  | _ => none

/-- The settings of a file at a path. -/
def load (path : String) (file : Settings.File) : Except Refusal Settings :=
  (Settings.ofFile file).mapError (.badSettings path)

/-- The one path whose file matters. -/
def path (args : List String) : String :=
  match option? "--config" args with
  | some (some path) => path
  | _ => usualPath

/-- The settings before a port is looked for. -/
def settings (args : List String) (files : String → Settings.File) : Except Refusal Settings :=
  match option? "--config" args with
  | some (some path) => load path (files path)
  | some none => .error .noConfigValue
  | none =>
    match files usualPath with
    | .missing => .ok .standard
    | file => load usualPath file

/-- Settings with the port of the command line. -/
def withPort (args : List String) (s : Settings) : Except Refusal Settings :=
  match option? "--port" args with
  | none => .ok s
  | some none => .error .noPortValue
  | some (some text) =>
    match port? text with
    | some n => .ok { s with port := n }
    | none => .error (.badPort text)

/-- What the program does when it is called with some words and finds some files. -/
def action (args : List String) (files : String → Settings.File) : Action :=
  if args.contains "--version" then .showVersion
  else match (settings args files).bind (withPort args) with
    | .error why => .refuse why
    | .ok s => .serve s

/-- How it is said that the pool could not listen where it should. -/
def bindFailure (s : Settings) : String := "Failed to bind " ++ s.host ++ ":" ++ toString s.port

end MiningPool.CommandLine
