namespace SlabHeap.Text

/-! Numerals for floating-point numbers: the fewest digits that read back as the same number.

A finite number stands for the interval of reals that round to it. Decimals are compared with the
ends of that interval in exact arithmetic; the coarsest decimal grid with a point in it wins.
-/

/-- A positive binary number `significand` times two to the power `exponent`. -/
structure Binary where
  significand : Nat
  exponent : Int
  /-- The next number below is only half as far away as the next one above. -/
  narrowBelow : Bool
  deriving DecidableEq, Repr

namespace Binary

/-- Reads the bits of a finite number, whatever its sign. -/
def ofBits (bits : UInt64) : Binary :=
  let exponent : Nat := bits.toNat / 0x10000000000000 % 0x800
  let fraction := bits.toNat % 0x10000000000000
  if exponent = 0 then { significand := fraction, exponent := -1074, narrowBelow := false }
  else
    { significand := 0x10000000000000 + fraction
      exponent := (exponent : Int) - 1075
      narrowBelow := fraction = 0 && exponent > 1 }

/-- A bound given in quarters of a step, `quarters` times two to the power `exponent - 2`, as a
fraction. -/
def numerator (number : Binary) (quarters : Nat) : Nat :=
  quarters <<< (number.exponent - 2).toNat

def denominator (number : Binary) : Nat := 1 <<< (2 - number.exponent).toNat

/-- Compares `digits` times ten to the power `scale` with a bound given in quarters of a step. -/
def compareDecimal (number : Binary) (digits : Nat) (scale : Int) (quarters : Nat) : Ordering :=
  compare (digits * Nat.pow 10 scale.toNat * number.denominator)
    (number.numerator quarters * Nat.pow 10 (-scale).toNat)

/-- Whether a decimal rounds to the number. The ends of the interval round to even. -/
def contains (number : Binary) (digits : Nat) (scale : Int) : Bool :=
  let below := if number.narrowBelow then 1 else 2
  let lower := number.compareDecimal digits scale (4 * number.significand - below)
  let upper := number.compareDecimal digits scale (4 * number.significand + 2)
  let ends := number.significand % 2 = 0
  (lower = .gt || (ends && lower = .eq)) && (upper = .lt || (ends && upper = .eq))

/-- How often ten to the power `scale` goes into the number. -/
def floorAt (number : Binary) (scale : Int) : Nat :=
  number.numerator (4 * number.significand) * Nat.pow 10 (-scale).toNat /
    (number.denominator * Nat.pow 10 scale.toNat)

/-- One more than the exponent of the leading decimal digit. -/
def leadingScale (number : Binary) : Int :=
  ((Nat.toDigits 10 (number.floorAt (-400))).length : Int) - 400

/-- The point of a decimal grid that reads back, the nearer one of two; a tie goes up. -/
def onGrid? (number : Binary) (scale : Int) : Option (Nat × Int) :=
  let below := number.floorAt scale
  match number.contains below scale, number.contains (below + 1) scale with
  | true, true =>
      let middle := number.compareDecimal (2 * below + 1) scale (8 * number.significand)
      some (if middle = .gt then below else below + 1, scale)
  | true, false => some (below, scale)
  | false, true => some (below + 1, scale)
  | false, false => none

/-- The shortest decimal that reads back: its digits and its scale. -/
def shortest (number : Binary) : Nat × Int :=
  let leading := number.leadingScale
  let scales := (List.range 17).map fun count => leading - (count + 1 : Nat)
  (scales.findSome? number.onGrid?).getD (number.floorAt (-1074), -1074)

end Binary

/-- Drops final zeros, so that a run of digits stands for its value once. -/
def stripZeros (digits : List Char) : List Char := (digits.reverse.dropWhile (· == '0')).reverse

/-- Lays out digits whose first one has the given exponent. Exponents from -4 to 15 are written
positionally, with at least one digit on each side of the point. -/
def layout (digits : List Char) (exponent : Int) : String :=
  let orZero (part : List Char) := if part.isEmpty then ['0'] else part
  if exponent < -4 ∨ 16 ≤ exponent then
    let fraction := digits.drop 1
    let point := if fraction.isEmpty then "" else "." ++ String.ofList fraction
    String.ofList (digits.take 1) ++ point ++ "e" ++ toString exponent
  else if exponent < 0 then
    "0." ++ String.ofList (List.replicate (-exponent - 1).toNat '0' ++ digits)
  else
    let places := exponent.toNat + 1
    let whole := digits.take places ++ List.replicate (places - digits.length) '0'
    String.ofList whole ++ "." ++ String.ofList (orZero (digits.drop places))

/-- The text of a floating-point number. -/
def shortestFloat (number : Float) : String :=
  let bits := number.toBits
  let sign := if bits.toNat < 0x8000000000000000 then "" else "-"
  if number.isNaN then "NaN"
  else if number.isInf then sign ++ "inf"
  else if bits.toNat % 0x8000000000000000 = 0 then sign ++ "0.0"
  else
    let (digits, scale) := (Binary.ofBits bits).shortest
    let shown := Nat.toDigits 10 digits
    sign ++ layout (stripZeros shown) (scale + shown.length - 1)

end SlabHeap.Text
