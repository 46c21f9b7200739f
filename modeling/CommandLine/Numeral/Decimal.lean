import CommandLine.Numeral.Integer

/-!
# Reading decimal numbers

A decimal number is written with an optional sign and either digits with an optional point and an
optional exponent, or one of the names `inf`, `infinity` and `nan` in any case. The digits on either
side of the point may be missing, but not on both. The result is the double nearest to what is
written.
-/

set_option autoImplicit false

namespace CommandLine.Numeral

/-- An unsigned decimal numeral. -/
inductive Magnitude where
  /-- The number `digits * 10 ^ exponent`. -/
  | finite (digits : Nat) (exponent : Int)
  | infinite
  | undefined
deriving DecidableEq, Repr

/-- The exponent written after the digits: nothing is zero, a mark must be followed by a number. -/
def readExponent? : List Char → Option Int
  | [] => some 0
  | c :: cs => if c = 'e' || c = 'E' then readWhole? cs else none

/-- The digits after the point, if there is one, and what follows them. -/
def splitFraction : List Char → List Char × List Char
  | '.' :: cs => (cs.takeWhile Char.isDigit, cs.dropWhile Char.isDigit)
  | cs => ([], cs)

/-- The numeral that digits, a point and an exponent write. -/
def readPositional? (cs : List Char) : Option Magnitude :=
  let whole := cs.takeWhile Char.isDigit
  let (fraction, rest) := splitFraction (cs.dropWhile Char.isDigit)
  if whole.isEmpty && fraction.isEmpty then none
  else (readExponent? rest).map fun exponent =>
    .finite (digitsValue 0 (whole ++ fraction)) (exponent - fraction.length)

/-- The numeral that a name writes, in any case. -/
def readNamed? (cs : List Char) : Option Magnitude :=
  let name := String.ofList (cs.map Char.toLower)
  if name = "inf" || name = "infinity" then some .infinite
  else if name = "nan" then some .undefined
  else none

/-- The positive infinity. -/
def infinity : Float := 1.0 / 0.0

/-- The value that is no number. -/
def notANumber : Float := 0.0 / 0.0

/-- The number of decimal digits of a natural number; zero has none. -/
def digitCount (n : Nat) : Nat := if n = 0 then 0 else (Nat.toDigits 10 n).length

/-- The double nearest to `digits * 10 ^ exponent`. Beyond 400 places on either side of the point
the value is infinite or zero, whatever the digits, and the power of ten is not worked out. -/
def nearestFloat (digits : Nat) (exponent : Int) : Float :=
  let leading := exponent + digitCount digits
  if digits = 0 || leading < -400 then 0.0
  else if 400 < leading then infinity
  else if exponent < 0 then Float.ofScientific digits true exponent.natAbs
  else Float.ofScientific digits false exponent.natAbs

/-- The double nearest to an unsigned numeral. -/
def Magnitude.toFloat : Magnitude → Float
  | .finite digits exponent => nearestFloat digits exponent
  | .infinite => infinity
  | .undefined => notANumber

/-- The decimal number that a text writes. -/
def readDecimal? (s : String) : Option Float :=
  let (negative, cs) := splitSign s.toList
  (readPositional? cs <|> readNamed? cs).map fun magnitude =>
    if negative then -magnitude.toFloat else magnitude.toFloat

end CommandLine.Numeral
