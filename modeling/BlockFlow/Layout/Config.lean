import BlockFlow.Layout.Scalar

/-!
The measures of the canvas.
-/

namespace BlockFlow

structure LayoutConfig (α : Type) where
  nodeWidth : α
  headerHeight : α
  inputRowHeight : α
  /-- How many inputs without a reporter a card or a pill shows. -/
  maxPreviewRows : Nat
  pillBaseHeight : α
  pillRowHeight : α
  /-- The gap below a pill, also around the pills inside it. -/
  pillPadding : α
  branchPortHeight : α
  hGap : α
  branchVGap : α
  groupPadding : α
  groupGap : α
  orphanGap : α
  zoomMin : α
  zoomMax : α
  curvature : α
  maxCurveOffset : α
  deriving Inhabited, DecidableEq

namespace LayoutConfig

def standard : LayoutConfig Float :=
  { nodeWidth := 200.0
    headerHeight := 60.0
    inputRowHeight := 22.0
    maxPreviewRows := 4
    pillBaseHeight := 28.0
    pillRowHeight := 20.0
    pillPadding := 8.0
    branchPortHeight := 24.0
    hGap := 80.0
    branchVGap := 40.0
    groupPadding := 40.0
    groupGap := 120.0
    orphanGap := 80.0
    zoomMin := 0.2
    zoomMax := 2.5
    curvature := 0.5
    maxCurveOffset := 120.0 }

/-- The zoom within its bounds, which must not cross. -/
def clampZoom? {α : Type} [Scalar α] (c : LayoutConfig α) (zoom : α) : Option α :=
  Scalar.clamp? c.zoomMin c.zoomMax zoom

end LayoutConfig

end BlockFlow
