import CommandLine.Text.Blank
import CommandLine.Text.Lowercase

/-!
# Log levels

How much the shell reports about itself. A level has one name; a second reading forgives case and
surrounding blanks and knows one synonym.
-/

set_option autoImplicit false

namespace CommandLine.Shell

/-- How much is logged, from the least to the most. -/
inductive LogLevel where
  | error
  | warn
  | info
  | debug
  | trace
deriving DecidableEq, Repr, Inhabited

namespace LogLevel

/-- The name of a level. -/
def name : LogLevel → String
  | error => "error"
  | warn => "warn"
  | info => "info"
  | debug => "debug"
  | trace => "trace"

/-- Every level, from the least to the most. -/
def all : List LogLevel := [error, warn, info, debug, trace]

/-- The level with a name. -/
def ofName? (s : String) : Option LogLevel := all.find? fun level => level.name = s

/-- The level that a text names loosely. -/
def ofText? (s : String) : Option LogLevel :=
  let word := Text.lowercase (String.ofList (Text.trim s.toList))
  if word = "warning" then some warn else ofName? word

/-- The level in force: the one asked for, else the one that the environment names, else the one
configured. -/
def resolve (asked : Option LogLevel) (environment : Option String) (configured : LogLevel) :
    LogLevel :=
  (asked <|> environment >>= ofText?).getD configured

theorem ofName?_name (level : LogLevel) : ofName? level.name = some level := by
  cases level <;> rfl

end LogLevel

end CommandLine.Shell
