import CommandLine.Numeral.Layout
import CommandLine.Text.Quoted

/-!
# Argument values

What a parameter type makes of a piece of input: a truth value, a whole number, a decimal number or
a text. Whole numbers widen to decimal ones; no other reading crosses from one kind to another.
-/

set_option autoImplicit false

namespace CommandLine

open Numeral Text

/-- The kinds of values that parameters have. -/
inductive Value.Kind where
  | truth
  | integer
  | decimal
  | text
deriving DecidableEq, Repr

/-- A value read from the input or filled in for an omitted parameter. -/
inductive Value where
  | truth (b : Bool)
  | integer (n : Int)
  | decimal (x : Float)
  | text (s : String)
deriving DecidableEq, Inhabited

namespace Value

/-- The kind of a value. -/
def kind : Value → Value.Kind
  | truth _ => .truth
  | integer _ => .integer
  | decimal _ => .decimal
  | text _ => .text

/-- The text of a text value. -/
def asText? : Value → Option String
  | text s => some s
  | _ => none

/-- The number of a whole number. -/
def asInteger? : Value → Option Int
  | integer n => some n
  | _ => none

/-- The number of a decimal number or, widened, of a whole one. -/
def asDecimal? : Value → Option Float
  | decimal x => some x
  | integer n => some (Float.ofInt n)
  | _ => none

/-- The truth value, if it is one. -/
def asTruth? : Value → Option Bool
  | truth b => some b
  | _ => none

/-- The value as plain text. -/
def display : Value → String
  | truth b => if b then "true" else "false"
  | integer n => toString n
  | decimal x => Layout.plain.write x
  | text s => s

/-- The value with its kind, for developers. -/
def inspect : Value → String
  | truth b => "Bool(" ++ (truth b).display ++ ")"
  | integer n => "Integer(" ++ toString n ++ ")"
  | decimal x => "Decimal(" ++ Layout.detailed.write x ++ ")"
  | text s => "Text(" ++ quoted s ++ ")"

/-- One character of a text in exchange format. -/
private def exchangeChar (c : Char) : List Char :=
  if c = '"' || c = '\\' then ['\\', c]
  else if c = '\n' then ['\\', 'n']
  else if c = '\r' then ['\\', 'r']
  else if c = '\t' then ['\\', 't']
  else if c.toNat = 8 then ['\\', 'b']
  else if c.toNat = 12 then ['\\', 'f']
  else if c.toNat < 32 then
    ['\\', 'u', '0', '0', Nat.digitChar (c.toNat / 16), Nat.digitChar (c.toNat % 16)]
  else [c]

/-- The value in exchange format: a bare word, a number or a text between double quotes. -/
def exchange : Value → String
  | truth b => (truth b).display
  | integer n => toString n
  | decimal x => Layout.exchange.write x
  | text s => String.ofList ('"' :: s.toList.flatMap exchangeChar ++ ['"'])

end Value

end CommandLine
