/-!
# Shortest digits

A finite double is `m * 2 ^ q`. The reals that round to it form an interval around it, ends included
exactly when `m` is even. Among the decimal numbers in that interval the shortest are those with the
fewest digits, and of these the nearest to the double is chosen.

The search goes through the decimal grids of 1, 2, … 17 digits. On each it looks at the two
neighbours of the double: if any point of a grid lies in the interval, so does one of them. All
arithmetic is on natural numbers over one common scale.
-/

set_option autoImplicit false

namespace CommandLine.Numeral

/-- The decimal number `digits * 10 ^ exponent`. -/
structure Scientific where
  digits : Nat
  exponent : Int
deriving DecidableEq, Repr

/-- A finite double without its sign, as `mantissa * 2 ^ exponent`. The gap below it is half the gap
above it when `narrowBelow` holds. -/
structure Binary where
  mantissa : Nat
  exponent : Int
  narrowBelow : Bool
deriving DecidableEq, Repr

/-- Which of two equally near neighbours is chosen. -/
inductive Tie where
  | upward
  | toEven
deriving DecidableEq, Repr

/-- The interval of the reals that round to a double, with the double itself, all as multiples of
`1 / scale`. -/
structure Interval where
  low : Nat
  value : Nat
  high : Nat
  scale : Nat
  closed : Bool

/-- The interval around a double. Four units make one step of the mantissa, so that half a gap and a
quarter of one are whole. -/
def Binary.interval (b : Binary) : Interval :=
  let up := Nat.pow 2 (b.exponent - 2).toNat
  { low := (4 * b.mantissa - if b.narrowBelow then 1 else 2) * up
    value := 4 * b.mantissa * up
    high := (4 * b.mantissa + 2) * up
    scale := Nat.pow 2 (2 - b.exponent).toNat
    closed := b.mantissa % 2 = 0 }

/-- The interval seen on the grid of the multiples of `10 ^ exponent`: one step is `scale` units. -/
def Interval.onGrid (i : Interval) (exponent : Int) : Interval :=
  let up := Nat.pow 10 (-exponent).toNat
  { i with
    low := i.low * up
    value := i.value * up
    high := i.high * up
    scale := i.scale * Nat.pow 10 exponent.toNat }

/-- Whether a grid point, in units, rounds to the double. -/
def Interval.holds (i : Interval) (x : Nat) : Bool :=
  if i.closed then i.low ≤ x && x ≤ i.high else i.low < x && x < i.high

/-- The neighbour of the double on its grid that rounds to it, the nearer one if both do. -/
def Interval.neighbour? (i : Interval) (tie : Tie) : Option Nat :=
  let below := i.value / i.scale
  let above := below + 1
  let belowDistance := i.value - below * i.scale
  let aboveDistance := above * i.scale - i.value
  match i.holds (below * i.scale), i.holds (above * i.scale) with
  | false, false => none
  | true, false => some below
  | false, true => some above
  | true, true =>
    if belowDistance < aboveDistance then some below
    else if aboveDistance < belowDistance then some above
    else match tie with
      | .upward => some above
      | .toEven => if below % 2 = 0 then some below else some above

/-- The exponent of the leading decimal digit of `value / scale`, looked for downward from `top`. -/
def leadingExponent (value scale : Nat) : Nat → Int → Int
  | 0, top => top
  | steps + 1, top =>
    if scale * Nat.pow 10 top.toNat ≤ value * Nat.pow 10 (-top).toNat then top
    else leadingExponent value scale steps (top - 1)

/-- The first grid with a hit, among those of `count` numbers of digits in a row. -/
def Interval.firstHit (i : Interval) (tie : Tie) : Nat → Int → Scientific
  | 0, exponent =>
    let grid := i.onGrid exponent
    ⟨grid.value / grid.scale, exponent⟩
  | count + 1, exponent =>
    match (i.onGrid exponent).neighbour? tie with
    | some digits => ⟨digits, exponent⟩
    | none => i.firstHit tie count (exponent - 1)

/-- A decimal number without zeros at the end of its digits; the work is bounded by `steps`. -/
def Scientific.trim (s : Scientific) : Nat → Scientific
  | 0 => s
  | steps + 1 =>
    if s.digits ≠ 0 && s.digits % 10 = 0 then Scientific.trim ⟨s.digits / 10, s.exponent + 1⟩ steps
    else s

/-- The shortest decimal number that rounds to a double other than zero. -/
def Binary.shortest (b : Binary) (tie : Tie) : Scientific :=
  let i := b.interval
  let leading := leadingExponent i.value i.scale 640 310
  (i.firstHit tie 17 leading).trim 20

/-- A double apart from its sign. -/
inductive Unsigned where
  | zero
  | finite (b : Binary)
  | infinite
  | undefined

/-- How many fractions a double can have at one power: the fraction takes 52 bits. -/
def fractionUnit : Nat := 4503599627370496

/-- A double as its sign (negative or not) and its magnitude, read from its bits. -/
def split (x : Float) : Bool × Unsigned :=
  let bits : Nat := x.toBits.toNat
  let fraction := bits % fractionUnit
  let power := bits / fractionUnit % 2048
  let magnitude :=
    if power = 2047 then if fraction = 0 then Unsigned.infinite else .undefined
    else if power = 0 then
      if fraction = 0 then .zero else .finite ⟨fraction, -1074, false⟩
    else .finite ⟨fractionUnit + fraction, (power : Int) - 1075, fraction = 0 && power ≠ 1⟩
  (bits / fractionUnit / 2048 = 1, magnitude)

end CommandLine.Numeral
