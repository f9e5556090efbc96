import BlockFlow.Decimal.Shortest
import BlockFlow.Text.Alphanumeric

/-!
Written forms of numbers of double precision. A style decides where positional writing ends and how
the special numbers are spelled; the digits are always the shortest that read back.
-/

namespace BlockFlow.Decimal

/-- How a number is written. -/
structure Style where
  /-- The places of the decimal point, counted from the first digit, that are written without an
  exponent: above the first and up to the second. All of them when absent. -/
  positional : Option (Int × Int)
  /-- What stands before a power of ten that is not negative. -/
  powerMark : String
  /-- What follows the last digit of a whole number written without an exponent. -/
  wholeMark : String
  nan : String
  infinity : String
  negativeInfinity : String

/-- Numbers in documents: no exponent from 0.00001 up to 10^16, and whole numbers end in `.0`. -/
def documentStyle : Style := ⟨some (-5, 16), "", ".0", ".nan", ".inf", "-.inf"⟩

/-- Numbers in JSON are written as in documents, but powers of ten have a sign and there are no
special numbers. -/
def jsonStyle : Style := ⟨some (-5, 16), "+", ".0", "null", "null", "null"⟩

/-- Numbers in vector graphics: never an exponent, and whole numbers have no point. -/
def graphicsStyle : Style := ⟨none, "", "", "NaN", "inf", "-inf"⟩

/-- The digits `ds` with the point after the first `point` of them, zeros filling the gaps. -/
def positionalText (ds : List Char) (point : Int) (wholeMark : String) : List Char :=
  if point ≤ 0 then '0' :: '.' :: (List.replicate (-point).toNat '0' ++ ds)
  else if ds.length ≤ point then
    ds ++ List.replicate (point.toNat - ds.length) '0' ++ wholeMark.toList
  else ds.take point.toNat ++ '.' :: ds.drop point.toNat

/-- One digit before the point, the others after it, then the power of ten. -/
def exponentText (ds : List Char) (point : Int) (powerMark : String) : List Char :=
  let power := point - 1
  let sign := if power < 0 then ['-'] else powerMark.toList
  let fraction := if ds.length ≤ 1 then [] else '.' :: ds.drop 1
  ds.take 1 ++ fraction ++ 'e' :: (sign ++ Text.decimalDigits power.natAbs)

/-- Writes the magnitude of a finite number. -/
def Style.magnitude (s : Style) (d : Digits) : List Char :=
  if d.digits = 0 then '0' :: s.wholeMark.toList
  else
    let ds := Text.decimalDigits d.digits
    let point := ds.length + d.exponent
    match s.positional with
    | none => positionalText ds point s.wholeMark
    | some (above, upTo) =>
      if above < point && point ≤ upTo then positionalText ds point s.wholeMark
      else exponentText ds point s.powerMark

/-- Writes a number. -/
def Style.write (s : Style) (x : Float) : List Char :=
  if x.isNaN then s.nan.toList
  else if x.isInf then if x < 0 then s.negativeInfinity.toList else s.infinity.toList
  else
    let bits := x.toBits.toNat
    let sign := if bits / Nat.pow 2 63 = 1 then ['-'] else []
    sign ++ s.magnitude (Binary.ofBits bits).shortest

end BlockFlow.Decimal
