/-!
The numbers of the canvas. Geometry is the same for all of them; the program draws in double
precision, and exact rationals show what the drawing is meant to be.
-/

namespace BlockFlow

class Scalar (α : Type) extends Add α, Sub α, Mul α, Div α where
  ofNat : Nat → α
  /-- The sum of no numbers. -/
  emptySum : α
  less : α → α → Bool
  lessEq : α → α → Bool
  abs : α → α
  /-- One with the sign of the number. -/
  sign : α → α
  /-- The larger of two numbers. -/
  larger : α → α → α
  /-- The smaller of two numbers. -/
  smaller : α → α → α

namespace Scalar

variable {α : Type} [Scalar α]

/-- Sums up from the left. -/
def sum (xs : List α) : α := xs.foldl (· + ·) emptySum

/-- Keeps a number within bounds, which must not cross. -/
def clamp? (low high x : α) : Option α :=
  if lessEq low high then
    let x := if less x low then low else x
    some (if less high x then high else x)
  else none

end Scalar

/-- In double precision a number that is none counts for nothing in a comparison, and of two zeros
the first is taken. -/
instance : Scalar Float where
  ofNat := Float.ofNat
  emptySum := -0.0
  less x y := x < y
  lessEq x y := x ≤ y
  abs := Float.abs
  sign x := if x.isNaN then x else if x.toBits.toNat / Nat.pow 2 63 = 1 then -1.0 else 1.0
  larger x y := if x.isNaN then y else if x < y then y else x
  smaller x y := if x.isNaN then y else if y < x then y else x

instance : Scalar Rat where
  ofNat n := n
  emptySum := 0
  less x y := x < y
  lessEq x y := x ≤ y
  abs x := if x < 0 then -x else x
  sign x := if x < 0 then -1 else 1
  larger x y := if x < y then y else x
  smaller x y := if y < x then y else x

end BlockFlow
