import BlockFlow.Text.Alphanumeric

/-!
Reading decimal fractions. A fraction has an optional sign, digits with at most one point among or
around them, at least one digit, and an optional power of ten.
-/

namespace BlockFlow.Decimal

/-- The number `coefficient * 10 ^ exponent`, negated when `negative`. -/
structure Fraction where
  negative : Bool
  coefficient : Nat
  exponent : Int
  deriving DecidableEq, Repr

/-- Splits off an optional sign; the flag says whether it is a minus. -/
def takeSign : List Char → Bool × List Char
  | '-' :: cs => (true, cs)
  | '+' :: cs => (false, cs)
  | cs => (false, cs)

/-- Reads the power of ten that ends a fraction; an absent one is zero. -/
def readPower? : List Char → Option Int
  | [] => some 0
  | c :: cs =>
    if c = 'e' || c = 'E' then
      let (negative, ds) := takeSign cs
      if ds.all Text.isDigit then
        (Text.natOfDigits? 10 ds).map fun n => if negative then -(n : Int) else n
      else none
    else none

/-- Reads a fraction that takes up the whole text. -/
def Fraction.parse? (cs : List Char) : Option Fraction :=
  let (negative, cs) := takeSign cs
  let whole := cs.takeWhile Text.isDigit
  let rest := cs.dropWhile Text.isDigit
  let (fraction, rest) := match rest with
    | '.' :: more => (more.takeWhile Text.isDigit, more.dropWhile Text.isDigit)
    | other => ([], other)
  do
    let coefficient ← Text.natOfDigits? 10 (whole ++ fraction)
    let power ← readPower? rest
    some ⟨negative, coefficient, power - fraction.length⟩

/-- The nearest number of double precision. Decimals beyond the range are infinite or zero. -/
def Fraction.toFloat (f : Fraction) : Float :=
  let magnitude : Float :=
    if f.coefficient = 0 then 0.0
    else
      let digits : Int := (Text.decimalDigits f.coefficient).length
      if digits + f.exponent > 400 then 1.0 / 0.0
      else if digits + f.exponent < -400 then 0.0
      else Float.ofScientific f.coefficient (f.exponent < 0) f.exponent.natAbs
  if f.negative then -magnitude else magnitude

end BlockFlow.Decimal
