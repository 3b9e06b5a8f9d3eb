import FlowCheck.Text.Numeral

/-! # Double-precision numbers

The non-negative numbers of the 64-bit binary format. Every finite one is a whole number of units of
2^-1074, the least of them, and has at most 53 significant bits; so the count of units says it exactly, and
reading and writing are arithmetic on natural numbers.

`ofRatio` rounds a fraction to the nearest double, a tie to the even one. `decimal` finds the shortest
decimal that rounds to a double. -/

namespace FlowCheck

/-- A non-negative double-precision number. -/
inductive Binary64 where
  /-- The number `units · 2^-1074`. -/
  | finite (units : Nat)
  /-- What a number beyond the largest double is read as. -/
  | infinite
  deriving DecidableEq, Repr, Inhabited

namespace Binary64

/-- How many significant bits a double has at most. -/
def precision : Nat := 53

/-- The number of units in one: `2^1074`. -/
def one : Nat := Nat.pow 2 1074

/-- The first number of units that is too large for a finite double: `2^1024` written in units. -/
def unitLimit : Nat := Nat.pow 2 2098

/-- The number of binary digits of a number; none for zero. -/
def bitLength (n : Nat) : Nat := if n = 0 then 0 else n.log2 + 1

/-- The exponent of the last significant bit of a double near `units` units: doubles there are `2^gapBits`
units apart. -/
def gapBits (units : Nat) : Nat := bitLength units - precision

/-- The quotient rounded to the nearest whole number, a tie to the even neighbour. -/
def roundDiv (num den : Nat) : Nat :=
  let floor := num / den
  let twice := 2 * (num % den)
  if twice < den then floor
  else if den < twice then floor + 1
  else if floor % 2 = 0 then floor else floor + 1

/-- The double nearest to `num / den`. -/
def ofRatio (num den : Nat) : Binary64 :=
  let step := Nat.pow 2 (gapBits (num * one / den))
  let units := roundDiv (num * one) (den * step) * step
  if units < unitLimit then .finite units else .infinite

/-- A decimal grid: its points are the multiples of `scale / shrink`, a power of ten. -/
structure Grid where
  scale : Nat
  shrink : Nat

/-- The grid of the multiples of `10^exponent`. -/
def Grid.ofExponent (exponent : Int) : Grid := ⟨Nat.pow 10 exponent.toNat, Nat.pow 10 (-exponent).toNat⟩

/-- Twice the ends of the interval of numbers that round to a double, in units. The lower half of the interval
is shorter where the double is a power of two, since doubles are closer together below it. -/
def bounds (units : Nat) : Nat × Nat :=
  let gap := Nat.pow 2 (gapBits units)
  let below := if units = Nat.pow 2 (precision - 1) * gap ∧ 1 < gap then gap / 2 else gap
  (2 * units - below, 2 * units + gap)

/-- The point `coefficient` of the grid rounds to the double. The ends of the interval belong to it when the
last significant bit of the double is zero. -/
def hits (units : Nat) (grid : Grid) (coefficient : Nat) : Bool :=
  let ends := bounds units
  let even := units / Nat.pow 2 (gapBits units) % 2 == 0
  let point := 2 * coefficient * grid.scale * one
  let low := ends.1 * grid.shrink
  let high := ends.2 * grid.shrink
  if even then low ≤ point && point ≤ high else low < point && point < high

/-- The point of the grid that rounds to the double and is nearest to it, if a point does. Of two equally
near ones it is the larger. -/
def nearest? (units : Nat) (grid : Grid) : Option Nat :=
  let num := units * grid.shrink
  let den := grid.scale * one
  let floor := num / den
  match hits units grid floor, hits units grid (floor + 1) with
  | true, true => some (if 2 * (num % den) < den then floor else floor + 1)
  | true, false => some floor
  | false, true => some (floor + 1)
  | false, false => none

/-- An exponent `k` with `x < 10^k ≤ 100 · x`, for the double `x` of `units` units. -/
def magnitude (units : Nat) : Int :=
  if one ≤ units then (Text.Numeral.digits (units / one)).length
  else 2 - ((Text.Numeral.digits (one / units)).length : Int)

/-- A decimal `coefficient · 10^exponent`. -/
structure Decimal where
  coefficient : Nat
  exponent : Int
  deriving DecidableEq, Repr

/-- The decimal of fewest digits that rounds to the double: the first of the grids from `10^exponent`
downwards that has a point in the interval, at most `fuel` grids further. -/
def decimalFrom (units : Nat) : (exponent : Int) → (fuel : Nat) → Decimal
  | exponent, 0 => ⟨units * (Grid.ofExponent exponent).shrink / one, exponent⟩
  | exponent, fuel + 1 =>
    match nearest? units (.ofExponent exponent) with
    | some coefficient => ⟨coefficient, exponent⟩
    | none => decimalFrom units (exponent - 1) fuel

/-- The decimal of fewest digits that rounds to the double of `units` units, and of those the nearest.
Seventeen digits are always enough. -/
def decimal (units : Nat) : Decimal := decimalFrom units (magnitude units) 19

/-- A decimal written out with all its places, and with no point when it is whole. -/
def Decimal.text (d : Decimal) : List Char :=
  let places := (-d.exponent).toNat
  let whole := d.coefficient * Nat.pow 10 d.exponent.toNat / Nat.pow 10 places
  if places = 0 then Text.Numeral.digits whole
  else
    let fraction := Text.Numeral.digits (d.coefficient % Nat.pow 10 places)
    Text.Numeral.digits whole ++ '.' :: (List.replicate (places - fraction.length) '0' ++ fraction)

/-- The text of a double: the shortest decimal that reads back, never with an exponent, and `inf` for the
infinite one. -/
def text : Binary64 → List Char
  | .finite units => if units = 0 then ['0'] else (decimal units).text
  | .infinite => ['i', 'n', 'f']

/-- The double nearest to a decimal: the digits before the point and the digits after it. -/
def ofDigits (whole fraction : List Char) : Binary64 :=
  ofRatio (Text.Numeral.value (whole ++ fraction)) (Nat.pow 10 fraction.length)

end Binary64

end FlowCheck
