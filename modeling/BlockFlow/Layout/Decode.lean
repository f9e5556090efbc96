import BlockFlow.Json.Decode
import BlockFlow.Layout.Geometry
import BlockFlow.Layout.Viewport

/-!
Reading measures, drag offsets and viewports out of JSON.
-/

namespace BlockFlow

open Json

def Point.decode? (s : Source) : Option (Point Float) := do
  match ← s.fields? ["x", "y"] with
  | [x, y] => some ⟨← required? Source.float? x, ← required? Source.float? y⟩
  | _ => none

def Rect.decode? (s : Source) : Option (Rect Float) := do
  match ← s.fields? ["x", "y", "width", "height"] with
  | [x, y, width, height] =>
    some ⟨← required? Source.float? x, ← required? Source.float? y,
      ← required? Source.float? width, ← required? Source.float? height⟩
  | _ => none

def Viewport.decode? (s : Source) : Option (Viewport Float) := do
  match ← s.fields? ["pan", "zoom"] with
  | [pan, zoom] => some ⟨← required? Point.decode? pan, ← required? Source.float? zoom⟩
  | _ => none

/-- Reads drag offsets; there are none where a field is absent. -/
def LayoutOverrides.decode? (s : Source) : Option (LayoutOverrides Float) := do
  match ← s.fields? ["workflows", "nodes"] with
  | [workflows, nodes] =>
    some ⟨← orElse? [] (·.dictionary? Point.decode?) workflows,
      ← orElse? [] (·.dictionary? (·.dictionary? Point.decode?)) nodes⟩
  | _ => none

namespace LayoutConfig

/-- Reads measures; those absent are the standard ones. -/
def decode? (s : Source) : Option (LayoutConfig Float) := do
  let c := standard
  match ← s.fields? ["nodeWidth", "headerHeight", "inputRowHeight", "maxPreviewRows",
      "pillBaseHeight", "pillRowHeight", "pillPadding", "branchPortHeight", "hGap", "branchVGap",
      "groupPadding", "groupGap", "orphanGap", "zoomMin", "zoomMax", "curvature",
      "maxCurveOffset"] with
  | [nodeWidth, headerHeight, inputRowHeight, maxPreviewRows, pillBaseHeight, pillRowHeight,
      pillPadding, branchPortHeight, hGap, branchVGap, groupPadding, groupGap, orphanGap, zoomMin,
      zoomMax, curvature, maxCurveOffset] =>
    some
      { nodeWidth := ← orElse? c.nodeWidth Source.float? nodeWidth
        headerHeight := ← orElse? c.headerHeight Source.float? headerHeight
        inputRowHeight := ← orElse? c.inputRowHeight Source.float? inputRowHeight
        maxPreviewRows := ← orElse? c.maxPreviewRows Source.nat? maxPreviewRows
        pillBaseHeight := ← orElse? c.pillBaseHeight Source.float? pillBaseHeight
        pillRowHeight := ← orElse? c.pillRowHeight Source.float? pillRowHeight
        pillPadding := ← orElse? c.pillPadding Source.float? pillPadding
        branchPortHeight := ← orElse? c.branchPortHeight Source.float? branchPortHeight
        hGap := ← orElse? c.hGap Source.float? hGap
        branchVGap := ← orElse? c.branchVGap Source.float? branchVGap
        groupPadding := ← orElse? c.groupPadding Source.float? groupPadding
        groupGap := ← orElse? c.groupGap Source.float? groupGap
        orphanGap := ← orElse? c.orphanGap Source.float? orphanGap
        zoomMin := ← orElse? c.zoomMin Source.float? zoomMin
        zoomMax := ← orElse? c.zoomMax Source.float? zoomMax
        curvature := ← orElse? c.curvature Source.float? curvature
        maxCurveOffset := ← orElse? c.maxCurveOffset Source.float? maxCurveOffset }
  | _ => none

end LayoutConfig

end BlockFlow
