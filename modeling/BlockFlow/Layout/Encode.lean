import BlockFlow.Document.Encode
import BlockFlow.Layout.Geometry
import BlockFlow.Layout.Viewport

/-!
Geometries, measures and viewports in JSON.
-/

namespace BlockFlow

open Json (ofList)

def Point.toJson (p : Point Float) : Json := .obj [("x", .float p.x), ("y", .float p.y)]

def Rect.toJson (r : Rect Float) : Json :=
  .obj [("x", .float r.x), ("y", .float r.y), ("width", .float r.width),
    ("height", .float r.height)]

def Curve.toJson (c : Curve Float) : Json :=
  .obj [("from", c.source.toJson), ("c1", c.first.toJson), ("c2", c.second.toJson),
    ("to", c.target.toJson)]

def NodeGeometry.toJson (n : NodeGeometry Float) : Json :=
  .obj [("id", .str n.id), ("rect", n.rect.toJson), ("orphan", .bool n.orphan),
    ("inputPort", n.inputPort.toJson), ("outputPort", n.outputPort.toJson),
    ("branchPorts",
      ofList (fun (name, at_) => .obj [("name", .str name), ("at", at_.toJson)]) n.branchPorts)]

def Connection.toJson (c : Connection Float) : Json :=
  .obj [("from", .str c.source), ("to", .str c.target), ("slot", c.slot.toJson),
    ("path", c.path.toJson)]

def WorkflowGeometry.toJson (w : WorkflowGeometry Float) : Json :=
  .obj [("name", .str w.name), ("bounds", w.bounds.toJson), ("offset", w.offset.toJson),
    ("nodes", ofList NodeGeometry.toJson w.nodes),
    ("connections", ofList Connection.toJson w.connections)]

def Geometry.toJson (g : Geometry Float) : Json :=
  .obj [("workflows", ofList WorkflowGeometry.toJson g.workflows)]

def Viewport.toJson (v : Viewport Float) : Json :=
  .obj [("pan", v.pan.toJson), ("zoom", .float v.zoom)]

def LayoutConfig.toJson (c : LayoutConfig Float) : Json :=
  .obj [("nodeWidth", .float c.nodeWidth), ("headerHeight", .float c.headerHeight),
    ("inputRowHeight", .float c.inputRowHeight), ("maxPreviewRows", .ofNat c.maxPreviewRows),
    ("pillBaseHeight", .float c.pillBaseHeight), ("pillRowHeight", .float c.pillRowHeight),
    ("pillPadding", .float c.pillPadding), ("branchPortHeight", .float c.branchPortHeight),
    ("hGap", .float c.hGap), ("branchVGap", .float c.branchVGap),
    ("groupPadding", .float c.groupPadding), ("groupGap", .float c.groupGap),
    ("orphanGap", .float c.orphanGap), ("zoomMin", .float c.zoomMin),
    ("zoomMax", .float c.zoomMax), ("curvature", .float c.curvature),
    ("maxCurveOffset", .float c.maxCurveOffset)]

end BlockFlow
