/-!
The shortest decimal of a binary number: the fewest digits that read back as the same number and,
among those, the nearest.
-/

namespace BlockFlow.Decimal

/-- The positive binary number `significand * 2 ^ exponent`. -/
structure Binary where
  significand : Nat
  exponent : Int
  deriving DecidableEq, Repr

/-- The decimal `digits * 10 ^ exponent`. -/
structure Digits where
  digits : Nat
  exponent : Int
  deriving DecidableEq, Repr

/-- The smallest significand of a normal number of double precision. -/
def leastNormal : Nat := Nat.pow 2 52

/-- The exponent of the subnormal numbers of double precision. -/
def leastExponent : Int := -1074

/-- Magnitude of a finite number of double precision, read off its bits. -/
def Binary.ofBits (bits : Nat) : Binary :=
  let fraction := bits % leastNormal
  let biased := bits / leastNormal % 2048
  if biased = 0 then ⟨fraction, leastExponent⟩
  else ⟨leastNormal + fraction, biased - 1075⟩

/-- The reals that round to a binary number: everything between `low` and `high` over
`denominator`, the bounds themselves when `closed`. The number itself is `value` over the same
denominator. -/
structure Rounding where
  low : Nat
  value : Nat
  high : Nat
  denominator : Nat
  closed : Bool

/-- A number owns the reals up to half way to its neighbours. The lower neighbour of a power of two
is half as far, and the half way points belong to the number with the even significand. -/
def Binary.rounding (b : Binary) : Rounding :=
  let quarter := b.exponent - 2
  let unit := Nat.pow 2 quarter.toNat
  let below := if b.significand = leastNormal && leastExponent < b.exponent then 1 else 2
  { low := (4 * b.significand - below) * unit
    value := 4 * b.significand * unit
    high := (4 * b.significand + 2) * unit
    denominator := Nat.pow 2 (-quarter).toNat
    closed := b.significand % 2 == 0 }

/-- Measures the same reals in units of `10 ^ p`. -/
def Rounding.scale (r : Rounding) (p : Int) : Rounding :=
  let up := Nat.pow 10 (-p).toNat
  { r with
    low := r.low * up
    value := r.value * up
    high := r.high * up
    denominator := r.denominator * Nat.pow 10 p.toNat }

/-- Whether the whole number `n` is one of the reals. -/
def Rounding.contains (r : Rounding) (n : Nat) : Bool :=
  if r.closed then r.low ≤ n * r.denominator && n * r.denominator ≤ r.high
  else r.low < n * r.denominator && n * r.denominator < r.high

/-- The whole number of the interval nearest to the value, the even one of two equally near. -/
def Rounding.nearest? (r : Rounding) : Option Nat :=
  let below := r.value / r.denominator
  let above := below + 1
  match r.contains below, r.contains above with
  | true, true =>
    let down := r.value - below * r.denominator
    let up := above * r.denominator - r.value
    if down < up || (down == up && below % 2 == 0) then some below else some above
  | true, false => some below
  | false, true => some above
  | false, false => none

/-- The number of decimal digits before the point, negative when zeros follow the point. -/
def Rounding.magnitude (r : Rounding) : Int :=
  ((Nat.toDigits 10 (r.value * Nat.pow 10 400 / r.denominator)).length : Int) - 400

/-- Tries `count` digits, then one digit more, at most `fuel` times. -/
def Rounding.search (r : Rounding) (magnitude : Int) : (fuel count : Nat) → Digits
  | 0, count => ⟨r.value * Nat.pow 10 (count - magnitude).toNat / r.denominator, magnitude - count⟩
  | fuel + 1, count =>
    match (r.scale (magnitude - count)).nearest? with
    | some n => ⟨n, magnitude - count⟩
    | none => r.search magnitude fuel (count + 1)

/-- Drops the zeros at the end of the digits. -/
def Digits.strip (d : Digits) : (fuel : Nat) → Digits
  | 0 => d
  | fuel + 1 =>
    if d.digits % 10 = 0 then Digits.strip ⟨d.digits / 10, d.exponent + 1⟩ fuel else d

/-- The shortest decimal that reads back as `b`, the nearest of the shortest. Seventeen digits
always suffice. -/
def Binary.shortest (b : Binary) : Digits :=
  if b.significand = 0 then ⟨0, 0⟩
  else
    let r := b.rounding
    (r.search r.magnitude 17 1).strip 20

end BlockFlow.Decimal
