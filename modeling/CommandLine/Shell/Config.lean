import CommandLine.Settings
import CommandLine.Shell.LogLevel
import CommandLine.Toml.Reader

/-!
# Shell configuration

A configuration names a log level, a prompt and, in a table of their own, dispatcher settings. What
is not named has a default; names that are not known are passed over. A choice is named by a text or
by the key of an empty table, as in `[log_level.debug]`.
-/

set_option autoImplicit false

namespace CommandLine.Shell

open Toml

/-- What the shell can be told in a file. -/
structure Config where
  logLevel : LogLevel := .warn
  prompt : String := "> "
  dispatcher : Settings := {}
deriving DecidableEq, Repr, Inhabited

/-- Why the shell could not be set up. -/
inductive SetupError where
  /-- The document is malformed, or a value in it has the wrong type. -/
  | invalidDocument
  | invalidSettings (cause : Refusal)
  /-- A file that is there could not be read. -/
  | unreadable (path : String)
  | unloadable (path : String) (cause : SetupError)
  | unregistered (cause : Refusal)
deriving DecidableEq, Repr

namespace SetupError

/-- The outermost line of an error. -/
def headline : SetupError → String
  | invalidDocument => "Invalid shell configuration"
  | invalidSettings _ => "Invalid dispatcher settings"
  | unreadable path => "Failed to read " ++ path
  | unloadable path _ => "Failed to load " ++ path
  | unregistered _ => "Failed to register shell commands"

/-- The error with its causes, from the outermost on. -/
def message : SetupError → String
  | e@(invalidSettings cause) | e@(unregistered cause) => e.headline ++ ": " ++ cause.message
  | e@(unloadable _ cause) => e.headline ++ ": " ++ cause.message
  | e => e.headline

end SetupError

namespace Config

/-- What stands at a path, read as one type; `absent` if nothing does. -/
def field {β : Type} (d : Document) (path : Path) (read : Entry → Option β) (absent : β) :
    Option β :=
  match d.entryAt? path with
  | none => some absent
  | some entry => read entry

/-- Reads a text. -/
def readText : Entry → Option String
  | .scalar (.text s) => some s
  | _ => none

/-- Reads a whole number that is not negative. -/
def readCount : Entry → Option Nat
  | .scalar (.integer n) => if n < 0 then none else some n.toNat
  | _ => none

/-- Reads the name of a choice: a text, or the key of an empty table that stands alone. -/
def readName (d : Document) (path : Path) : Entry → Option String
  | .scalar (.text s) => some s
  | .table _ => d.loneTable? path
  | _ => none

/-- The choice that a document names at a path; `absent` if it names none. -/
def choice {β : Type} (d : Document) (path : Path) (ofName? : String → Option β) (absent : β) :
    Option β :=
  field d path (fun entry => readName d path entry >>= ofName?) absent

/-- The dispatcher settings of a document. -/
def settingsOf? (d : Document) : Option Settings :=
  match d.entryAt? ["dispatcher"] with
  | some (.scalar _) => none
  | _ => do
    let usual : Settings := {}
    let longPrefix ← field d ["dispatcher", "long_flag_prefix"] readText usual.longPrefix
    let shortPrefix ← field d ["dispatcher", "short_flag_prefix"] readText usual.shortPrefix
    let threshold ← field d ["dispatcher", "permutation_threshold"] readCount usual.threshold
    let policy ← choice d ["dispatcher", "failure_policy"] ReportPolicy.ofName? usual.policy
    pure { longPrefix, shortPrefix, threshold, policy }

/-- The configuration that a document writes. -/
def ofDocument? (d : Document) : Option Config := do
  let usual : Config := {}
  let logLevel ← choice d ["log_level"] LogLevel.ofName? usual.logLevel
  let prompt ← field d ["prompt"] readText usual.prompt
  let dispatcher ← settingsOf? d
  pure { logLevel, prompt, dispatcher }

/-- The configuration that a text writes. -/
def ofText (text : String) : Except SetupError Config :=
  match Document.ofText? text >>= ofDocument? with
  | none => .error .invalidDocument
  | some config =>
    match config.dispatcher.validate with
    | .ok () => .ok config
    | .error e => .error (.invalidSettings e)

/-- What is found at a path. -/
inductive FileStatus where
  | missing
  /-- Something is there that cannot be read as text. -/
  | unreadable
  | found (text : String)

/-- The configuration of a file. A missing file stands for the defaults. -/
def ofFile (path : String) : FileStatus → Except SetupError Config
  | .missing => .ok {}
  | .unreadable => .error (.unreadable path)
  | .found text =>
    match ofText text with
    | .ok config => .ok config
    | .error e => .error (.unloadable path e)

end Config

end CommandLine.Shell
