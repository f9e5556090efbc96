import BlockFlow.Decimal.Reader
import BlockFlow.Yaml.Value

/-!
What plain scalars mean: null, a truth value, a number, or else a string.
-/

namespace BlockFlow.Yaml

namespace Plain

/-- The words for null. -/
def isNull (cs : List Char) : Bool :=
  cs = "null".toList || cs = "Null".toList || cs = "NULL".toList || cs = ['~']

/-- The words for truth values. -/
def bool? (cs : List Char) : Option Bool :=
  if cs = "true".toList || cs = "True".toList || cs = "TRUE".toList then some true
  else if cs = "false".toList || cs = "False".toList || cs = "FALSE".toList then some false
  else none

/-- Several digits that start with a zero are no number. -/
def isPadded (cs : List Char) : Bool :=
  let ds := match cs with
    | '-' :: rest => rest
    | '+' :: rest => rest
    | rest => rest
  match ds with
  | '0' :: d :: rest => (d :: rest).all Text.isDigit
  | _ => false

/-- The base that a number in another base starts with, and its digits. -/
def based? : List Char → Option (Nat × List Char)
  | '0' :: 'x' :: ds => some (16, ds)
  | '0' :: 'o' :: ds => some (8, ds)
  | '0' :: 'b' :: ds => some (2, ds)
  | _ => none

/-- Reads the magnitude of an integer within `bound`, in another base or in base ten. -/
def magnitude? (padded : Bool) (bound : Nat) (cs : List Char) : Option Nat :=
  let within (n? : Option Nat) : Option Nat := n?.bind fun n => if n ≤ bound then some n else none
  match (based? cs).bind fun (base, ds) => within (Text.natOfDigits? base ds) with
  | some n => some n
  | none => if padded then none else within (Text.natOfDigits? 10 cs)

/-- Reads an integer from `-least` to `greatest`. -/
def intWithin? (least greatest : Nat) (cs : List Char) : Option Int :=
  let padded := isPadded cs
  let positive := match cs with
    | '+' :: rest => magnitude? padded greatest rest
    | rest => magnitude? padded greatest rest
  match positive, cs with
  | some n, _ => some n
  | none, '-' :: rest => (magnitude? padded least rest).map fun n => -(n : Int)
  | none, _ => none

/-- What an integer may be: one that fits 64 bits, one that only 128 bits hold, or none. -/
inductive Whole where
  | fits (value : Int)
  | tooLarge
  | no

/-- Reads an integer. -/
def whole (cs : List Char) : Whole :=
  match intWithin? (Nat.pow 2 63) (Nat.pow 2 64 - 1) cs with
  | some i => .fits i
  | none => if (intWithin? (Nat.pow 2 127) (Nat.pow 2 128 - 1) cs).isSome then .tooLarge else .no

/-- Reads a float; only a plus sign may be doubled by none. -/
def float? (cs : List Char) : Option Float :=
  let unsigned := match cs with
    | '+' :: rest => rest
    | rest => rest
  let plus := cs.head? = some '+'
  if plus && (unsigned.head? = some '+' || unsigned.head? = some '-') then none
  else if unsigned = ".inf".toList || unsigned = ".Inf".toList || unsigned = ".INF".toList then
    some (1.0 / 0.0)
  else if cs = "-.inf".toList || cs = "-.Inf".toList || cs = "-.INF".toList then
    some (-1.0 / 0.0)
  else if cs = ".nan".toList || cs = ".NaN".toList || cs = ".NAN".toList then some (0.0 / 0.0)
  else
    match Decimal.Fraction.parse? unsigned with
    | some f => if f.toFloat.isFinite then some f.toFloat else none
    | none => none

/-- What a plain scalar means. An integer that only 128 bits hold means nothing. -/
def value? (cs : List Char) : Option Value :=
  if cs.isEmpty || isNull cs then some .null
  else
    match bool? cs with
    | some b => some (.bool b)
    | none =>
      match whole cs with
      | .fits i => some (.int i)
      | .tooLarge => none
      | .no =>
        match if isPadded cs then none else float? cs with
        | some x => some (.float x)
        | none => some (.str (String.ofList cs))

end Plain

end BlockFlow.Yaml
