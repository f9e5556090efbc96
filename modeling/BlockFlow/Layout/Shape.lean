import BlockFlow.Layout.Scalar
import BlockFlow.Decimal.Style

/-!
Points, rectangles and curves.
-/

namespace BlockFlow

structure Point (α : Type) where
  x : α
  y : α
  deriving Inhabited, DecidableEq

structure Rect (α : Type) where
  x : α
  y : α
  width : α
  height : α
  deriving Inhabited, DecidableEq

variable {α : Type} [Scalar α]

namespace Point

def origin : Point α := ⟨Scalar.ofNat 0, Scalar.ofNat 0⟩

/-- Moves a point. -/
def offset (p by_ : Point α) : Point α := ⟨p.x + by_.x, p.y + by_.y⟩

end Point

namespace Rect

def right (r : Rect α) : α := r.x + r.width

def bottom (r : Rect α) : α := r.y + r.height

/-- Moves a rectangle. -/
def moveBy (r : Rect α) (by_ : Point α) : Rect α :=
  ⟨r.x + by_.x, r.y + by_.y, r.width, r.height⟩

/-- The smallest rectangle around both. -/
def union (r s : Rect α) : Rect α :=
  let x := Scalar.smaller r.x s.x
  let y := Scalar.smaller r.y s.y
  ⟨x, y, Scalar.larger r.right s.right - x, Scalar.larger r.bottom s.bottom - y⟩

/-- The rectangle with a margin of `pad` on all sides. -/
def expand (r : Rect α) (pad : α) : Rect α :=
  ⟨r.x - pad, r.y - pad, r.width + Scalar.ofNat 2 * pad, r.height + Scalar.ofNat 2 * pad⟩

end Rect

/-- A cubic curve with its two control points. -/
structure Curve (α : Type) where
  source : Point α
  first : Point α
  second : Point α
  target : Point α
  deriving Inhabited, DecidableEq

namespace Curve

/-- The curve between two points. The control points pull along the longer side of the span, by its
length times `curvature` but no more than `greatest`. -/
def between (source target : Point α) (curvature greatest : α) : Curve α :=
  let dx := target.x - source.x
  let dy := target.y - source.y
  if Scalar.lessEq (Scalar.abs dy) (Scalar.abs dx) then
    let pull := Scalar.smaller (Scalar.abs dx * curvature) greatest
    ⟨source, ⟨source.x + pull, source.y⟩, ⟨target.x - pull, target.y⟩, target⟩
  else
    let pull := Scalar.smaller (Scalar.abs dy * curvature) greatest
    let direction := Scalar.sign dy
    ⟨source, ⟨source.x, source.y + pull * direction⟩, ⟨target.x, target.y - pull * direction⟩,
      target⟩

/-- The curve as a path of vector graphics. -/
def svgPath (c : Curve Float) : String :=
  let point (p : Point Float) : String :=
    String.ofList (Decimal.graphicsStyle.write p.x) ++ " " ++
      String.ofList (Decimal.graphicsStyle.write p.y)
  "M " ++ point c.source ++ " C " ++ point c.first ++ ", " ++ point c.second ++ ", " ++
    point c.target

end Curve

end BlockFlow
