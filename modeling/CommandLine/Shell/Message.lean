import CommandLine.Rejection
import CommandLine.Settings

/-!
# Messages for users

What the shell prints for a rejection: flags are spelled with the prefixes of the settings, and
places are counted as columns from one.
-/

set_option autoImplicit false

namespace CommandLine.Shell

/-- A list in running text. -/
def enumerated (names : List String) : String := ", ".intercalate names

/-- Why a value is refused. -/
def reasonText : ValueFault → String
  | .choice allowed _ => "expected one of: " ++ enumerated allowed
  | reason => reason.message

/-- What went wrong, without its place. -/
def rejectionText (s : Settings) (r : Rejection) : String :=
  match r.cause with
  | .endOfInput => "Unexpected end of input"
  | .unclosedQuote => "Unclosed quote"
  | .invalidEscape c => "Invalid escape sequence '\\" ++ c.toString ++ "'"
  | .expectedWhitespace => "Expected a space after the argument"
  | .expectedLiteral expected found =>
    if found = "" then "Expected one of: " ++ enumerated expected
    else "Unknown subcommand '" ++ found ++ "'. Expected one of: " ++ enumerated expected
  | .missingArgument name => "Missing argument <" ++ name ++ ">"
  | .invalidValue input reason =>
    let place := match r.node with
      | some node => " for <" ++ node ++ ">"
      | none => ""
    "Invalid value '" ++ input ++ "'" ++ place ++ ": " ++ reasonText reason
  | .unknownFlag name shorthand =>
    "Unknown flag '" ++ (if shorthand then s.shortPrefix else s.longPrefix) ++ name ++ "'"
  | .noPermission => "You do not have permission to do that"
  | .unknownCommand word =>
    if word = "" then "No command given" else "Unknown command '" ++ word ++ "'"
  | .trailingInput word => "Unexpected input '" ++ word ++ "'"

/-- The message of a rejection. -/
def rejectionMessage (s : Settings) (r : Rejection) : String :=
  rejectionText s r ++ " (column " ++ toString (r.position + 1) ++ ")"

end CommandLine.Shell
