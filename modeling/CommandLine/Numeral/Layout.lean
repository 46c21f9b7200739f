import CommandLine.Numeral.Shortest

/-!
# Laying out decimal numbers

The digits of a double are those of `Binary.shortest`. A layout decides how they are written: where
positional writing gives way to an exponent, whether a whole number keeps a point, how the exponent
is signed and how the values without digits are called.
-/

set_option autoImplicit false

namespace CommandLine.Numeral

/-- How a decimal number is written. -/
structure Layout where
  /-- The exponents of the leading digit between which writing is positional; `none` is always. -/
  positional : Option (Int × Int)
  /-- Whether a whole number in positional writing ends in `.0`. -/
  keepsPoint : Bool
  /-- Whether a positive exponent carries a sign. -/
  signsExponent : Bool
  /-- Which of two equally near numbers is written. -/
  tie : Tie
  /-- What stands for a value that is no number. -/
  undefined : String
  /-- What stands for the positive infinity. -/
  infinite : String
  /-- What stands for the negative infinity. -/
  negativeInfinite : String

/-- Plain writing: never an exponent, never a needless point. -/
def Layout.plain : Layout :=
  { positional := none, keepsPoint := false, signsExponent := false, tie := .upward
    undefined := "NaN", infinite := "inf", negativeInfinite := "-inf" }

/-- Writing for developers: positional from `1e-4` up to `1e16`, always recognisable as decimal. -/
def Layout.detailed : Layout :=
  { Layout.plain with positional := some (-4, 15), keepsPoint := true }

/-- Writing for data exchange, where values without digits have no spelling of their own. -/
def Layout.exchange : Layout :=
  { positional := some (-5, 15), keepsPoint := true, signsExponent := true, tie := .toEven
    undefined := "null", infinite := "null", negativeInfinite := "null" }

/-- The decimal digits of a natural number. -/
def digitText (n : Nat) : List Char := Nat.toDigits 10 n

/-- Digits with the point where the exponent puts it, zeros filling the gap. -/
def Layout.writePositional (layout : Layout) (s : Scientific) : List Char :=
  let digits := digitText s.digits
  let whole := (digits.length : Int) + s.exponent
  if 0 ≤ s.exponent then
    digits ++ List.replicate s.exponent.toNat '0' ++ if layout.keepsPoint then ['.', '0'] else []
  else if whole ≤ 0 then '0' :: '.' :: List.replicate whole.natAbs '0' ++ digits
  else digits.take whole.toNat ++ '.' :: digits.drop whole.toNat

/-- One digit before the point and the exponent of the leading digit after the rest. -/
def Layout.writeExponent (layout : Layout) (s : Scientific) (leading : Int) : List Char :=
  let digits := digitText s.digits
  let fraction := digits.drop 1
  let sign := if leading < 0 then ['-'] else if layout.signsExponent then ['+'] else []
  digits.take 1 ++ (if fraction.isEmpty then [] else '.' :: fraction) ++
    'e' :: sign ++ digitText leading.natAbs

/-- A decimal number without a sign. -/
def Layout.writeScientific (layout : Layout) (s : Scientific) : List Char :=
  let leading := s.exponent + (digitText s.digits).length - 1
  match layout.positional with
  | none => layout.writePositional s
  | some (least, greatest) =>
    if least ≤ leading && leading ≤ greatest then layout.writePositional s
    else layout.writeExponent s leading

/-- The text of a double. -/
def Layout.write (layout : Layout) (x : Float) : String :=
  let (negative, magnitude) := split x
  let signed (cs : List Char) := String.ofList (if negative then '-' :: cs else cs)
  match magnitude with
  | .undefined => layout.undefined
  | .infinite => if negative then layout.negativeInfinite else layout.infinite
  | .zero => signed (if layout.keepsPoint then ['0', '.', '0'] else ['0'])
  | .finite b => signed (layout.writeScientific (b.shortest layout.tie))

end CommandLine.Numeral
