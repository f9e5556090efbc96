import BlockFlow.Text.Alphanumeric

/-!
Numbers of JSON texts. A whole number that fits 64 bits stays whole. Every other number is read in
double precision: the digits that fit 64 bits make up the significand, and one power of ten scales
it.
-/

namespace BlockFlow.Json

/-- A number read from its digits. -/
inductive Number where
  | int (value : Int)
  | float (value : Float)

namespace Number

/-- One more than the largest significand. -/
def significandBound : Nat := Nat.pow 2 64

/-- Takes digits into the significand while it stays within 64 bits. Returns the significand, the
number of digits taken, and the digits left. -/
def takeSignificand (significand taken : Nat) : List Char → Nat × Nat × List Char
  | [] => (significand, taken, [])
  | c :: cs =>
    let next := significand * 10 + (c.toNat - 48)
    if significandBound ≤ next then (significand, taken, c :: cs)
    else takeSignificand next (taken + 1) cs

/-- Scales by a power of ten. A result beyond the range is refused, one below it becomes zero. -/
def scale : (fuel : Nat) → Float → Int → Option Float
  | 0, f, _ => some f
  | fuel + 1, f, exponent =>
    if exponent.natAbs ≤ 308 then
      let power := Float.ofScientific 1 false exponent.natAbs
      if 0 ≤ exponent then
        let scaled := f * power
        if scaled.isInf then none else some scaled
      else some (f / power)
    else if f == 0.0 then some f
    else if 0 ≤ exponent then none
    else scale fuel (f / 1e308) (exponent + 308)

/-- The largest power of ten a number may name. -/
def largestPower : Nat := Nat.pow 2 31 - 1

/-- Keeps an exponent within 32 bits. -/
def clampExponent (e : Int) : Int := max (-2147483648) (min 2147483647 e)

/-- Reads a number in double precision from its parts: the digits before and after the point and the
signed power of ten. -/
def readFloat? (negative : Bool) (whole fraction : List Char) (power : Option (Bool × List Char)) :
    Option Float := do
  let (significand, _, dropped) := takeSignificand 0 0 whole
  let (significand, taken, _) := takeSignificand significand 0 fraction
  let exponent : Int := dropped.length - taken
  let sign (f : Float) : Float := if negative then -f else f
  match power with
  | none => (scale 12 (Float.ofNat significand) exponent).map sign
  | some (down, ds) =>
    let p ← Text.natOfDigits? 10 ds
    if largestPower < p then
      if significand ≠ 0 && !down then none else some (sign 0.0)
    else
      let exponent := clampExponent (if down then exponent - p else exponent + p)
      (scale 12 (Float.ofNat significand) exponent).map sign

/-- Reads a number as written. -/
def read? (written : List Char) : Option Number :=
  let (negative, cs) := match written with
    | '-' :: rest => (true, rest)
    | rest => (false, rest)
  let whole := cs.takeWhile Text.isDigit
  let rest := cs.dropWhile Text.isDigit
  let (fraction, rest) := match rest with
    | '.' :: more => (more.takeWhile Text.isDigit, more.dropWhile Text.isDigit)
    | more => ([], more)
  let power := match rest with
    | _ :: '-' :: ds => some (true, ds)
    | _ :: '+' :: ds => some (false, ds)
    | _ :: ds => some (false, ds)
    | [] => none
  do
    let magnitude ← Text.natOfDigits? 10 whole
    if fraction.isEmpty && power.isNone then
      if negative then
        if 0 < magnitude && magnitude ≤ Nat.pow 2 63 then return .int (-(magnitude : Int))
      else if magnitude < significandBound then return .int magnitude
    (readFloat? negative whole fraction power).map .float

end Number

end BlockFlow.Json
