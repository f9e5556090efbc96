import BlockFlow.Layout.Config
import BlockFlow.Layout.Shape

/-!
What part of the canvas the screen shows. A point of the screen is a point of the canvas times the
zoom, moved by the pan.
-/

namespace BlockFlow

variable {α : Type} [Scalar α]

structure Viewport (α : Type) where
  pan : Point α
  zoom : α
  deriving DecidableEq

namespace Viewport

/-- The canvas at its natural size. -/
def natural : Viewport α := ⟨Point.origin, Scalar.ofNat 1⟩

def screenToCanvas (v : Viewport α) (p : Point α) : Point α :=
  ⟨(p.x - v.pan.x) / v.zoom, (p.y - v.pan.y) / v.zoom⟩

def canvasToScreen (v : Viewport α) (p : Point α) : Point α :=
  ⟨p.x * v.zoom + v.pan.x, p.y * v.zoom + v.pan.y⟩

/-- Sets the zoom, kept within its bounds. -/
def setZoom? (c : LayoutConfig α) (v : Viewport α) (zoom : α) : Option (Viewport α) := do
  let zoom ← c.clampZoom? zoom
  some { v with zoom := zoom }

/-- Zooms by a factor around a point of the screen. -/
def zoomAt? (c : LayoutConfig α) (v : Viewport α) (anchor : Point α) (factor : α) :
    Option (Viewport α) := do
  let fixed := v.screenToCanvas anchor
  let v ← v.setZoom? c (v.zoom * factor)
  some { v with pan := ⟨anchor.x - fixed.x * v.zoom, anchor.y - fixed.y * v.zoom⟩ }

def panBy (v : Viewport α) (delta : Point α) : Viewport α := { v with pan := v.pan.offset delta }

/-- Shows a rectangle as large as the screen allows, in its middle. A rectangle without an inside is
not looked for. -/
def fit? (c : LayoutConfig α) (bounds : Rect α) (width height : α) : Option (Viewport α) :=
  if Scalar.lessEq bounds.width (Scalar.ofNat 0) || Scalar.lessEq bounds.height (Scalar.ofNat 0)
  then some natural
  else do
    let zoom ← c.clampZoom? (Scalar.smaller (width / bounds.width) (height / bounds.height))
    let two : α := Scalar.ofNat 2
    some
      { pan := ⟨(width - bounds.width * zoom) / two - bounds.x * zoom,
          (height - bounds.height * zoom) / two - bounds.y * zoom⟩
        zoom := zoom }

end Viewport

end BlockFlow
