/-!
# Whole numbers

A whole number is written with an optional sign and at least one of the ten basic digits, and is
kept when it fits 64 bits with a sign.
-/

set_option autoImplicit false

namespace CommandLine.Numeral

/-- The least whole number that is kept. -/
def leastInteger : Int := -9223372036854775808

/-- The greatest whole number that is kept. -/
def greatestInteger : Int := 9223372036854775807

/-- Whether a whole number fits 64 bits with a sign. -/
def fitsInteger (n : Int) : Bool := leastInteger ≤ n && n ≤ greatestInteger

/-- The value of a digit. -/
def digitValue (c : Char) : Nat := c.toNat - '0'.toNat

/-- The value of the digits read on after `value`. -/
def digitsValue (value : Nat) (digits : List Char) : Nat :=
  digits.foldl (fun n c => 10 * n + digitValue c) value

/-- The sign at the start of a numeral (negative or not), and what follows it. -/
def splitSign : List Char → Bool × List Char
  | '-' :: cs => (true, cs)
  | '+' :: cs => (false, cs)
  | cs => (false, cs)

/-- The whole number that a text writes: a sign or none, then digits and nothing else. -/
def readWhole? (cs : List Char) : Option Int :=
  let (negative, digits) := splitSign cs
  if digits.isEmpty || !digits.all Char.isDigit then none
  else
    let n : Int := digitsValue 0 digits
    some (if negative then -n else n)

/-- The whole number that a text writes, if it fits. -/
def readInteger? (s : String) : Option Int := (readWhole? s.toList).filter fitsInteger

end CommandLine.Numeral
