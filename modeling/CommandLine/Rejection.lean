import CommandLine.Numeral.Layout
import CommandLine.Text.Quoted

/-!
# Rejections

Why a line of input was not accepted, at which place and at which node. The cause says what
happened; `message` words it for a log, and the position counts bytes of the line in UTF-8.

* `atNode_atNode` — the first attribution is the one that stays.
-/

set_option autoImplicit false

namespace CommandLine

open Numeral Text

/-- Why a type refused the text it read. -/
inductive ValueFault where
  | number
  | integer
  | truth
  | choice (allowed : List String) (caseSensitive : Bool)
  | outOfRange (least greatest : Float)
  | wrongSize (least greatest actual : Nat)
  /-- A reason that a type of the host words itself. -/
  | other (text : String)
deriving DecidableEq

namespace ValueFault

/-- The wording of a reason. -/
def message : ValueFault → String
  | number => "not a number"
  | integer => "not an integer"
  | truth => "not a boolean"
  | choice allowed _ => "expected one of " ++ quotedList allowed
  | outOfRange least greatest =>
    "must be between " ++ Layout.plain.write least ++ " and " ++ Layout.plain.write greatest
  | wrongSize least greatest actual =>
    "length " ++ toString actual ++ " is not between " ++ toString least ++ " and " ++
      toString greatest
  | other text => text

end ValueFault

/-- What went wrong. -/
inductive Cause where
  | endOfInput
  | unclosedQuote
  | invalidEscape (c : Char)
  | expectedWhitespace
  | expectedLiteral (expected : List String) (found : String)
  | missingArgument (name : String)
  | invalidValue (input : String) (reason : ValueFault)
  | unknownFlag (name : String) (shorthand : Bool)
  | noPermission
  | unknownCommand (word : String)
  | trailingInput (word : String)
deriving DecidableEq

namespace Cause

/-- The wording of what went wrong. -/
def message : Cause → String
  | endOfInput => "unexpected end of input"
  | unclosedQuote => "unclosed quote"
  | invalidEscape c => "invalid escape character '" ++ c.toString ++ "'"
  | expectedWhitespace => "expected whitespace to end one argument"
  | expectedLiteral expected found =>
    "expected one of " ++ quotedList expected ++ ", found '" ++ found ++ "'"
  | missingArgument name => "missing argument '" ++ name ++ "'"
  | invalidValue input reason => "invalid value '" ++ input ++ "': " ++ reason.message
  | unknownFlag name shorthand =>
    (if shorthand then "unknown shorthand flag '" else "unknown flag '") ++ name ++ "'"
  | noPermission => "no permission"
  | unknownCommand word => "unknown command '" ++ word ++ "'"
  | trailingInput word => "unexpected trailing input '" ++ word ++ "'"

end Cause

/-- A cause with its place in the line and the node at which it arose, if one is known. -/
structure Rejection where
  cause : Cause
  position : Nat
  node : Option String := none
deriving DecidableEq

namespace Rejection

/-- The rejection attributed to a node, unless it already belongs to one. -/
def atNode (r : Rejection) (name : String) : Rejection :=
  { r with node := r.node <|> some name }

/-- The wording of a rejection with its place. -/
def message (r : Rejection) : String :=
  r.cause.message ++ " (at position " ++ toString r.position ++ ")"

/-- The first attribution is the one that stays. -/
theorem atNode_atNode (r : Rejection) (first second : String) :
    (r.atNode first).atNode second = r.atNode first := by
  cases h : r.node <;> simp [atNode, h]

end Rejection

end CommandLine
