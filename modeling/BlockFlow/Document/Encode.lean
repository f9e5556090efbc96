import BlockFlow.Document.Basic

/-!
Documents in JSON. A value with a mapping whose keys no member name can stand for has no JSON, and
neither has a document that holds it.
-/

namespace BlockFlow

open Json (ofList ofOption ofStrings)

/-- The value as JSON with the members of all objects sorted. -/
def Yaml.Value.sortedJson? (v : Yaml.Value) : Option Json := v.toJson?.map Json.sorted

def LinkSlot.toJson : LinkSlot → Json
  | .next => .obj [("kind", .str "next")]
  | .branch name => .obj [("kind", .str "branch"), ("name", .str name)]

def InterfaceInput.toJson (i : InterfaceInput) : Json :=
  .obj [("name", .str i.name), ("type", .str i.type), ("required", .bool i.required)]

def Interface.toJson (i : Interface) : Json :=
  .obj [("inputs", ofList InterfaceInput.toJson i.inputs), ("outputs", ofStrings i.outputs)]

namespace InputExpr

mutual

def toJson? : InputExpr → Option Json
  | .literal v => v.sortedJson?.map fun j => .obj [("form", .str "literal"), ("value", j)]
  | .variable name => some (.obj [("form", .str "variable"), ("name", .str name)])
  | .node id => some (.obj [("form", .str "node_ref"), ("id", .str id)])
  | .inline id opcode inputs => (entriesToJson? inputs).map fun js =>
    .obj [("form", .str "inline"), ("id", ofOption .str id), ("opcode", .str opcode),
      ("inputs", .arr js)]
  | .call workflow args => (entriesToJson? args).map fun js =>
    .obj [("form", .str "workflow_call"), ("name", .str workflow), ("args", .arr js)]

/-- Inputs as pairs of a name and a value. -/
def entriesToJson? : Inputs → Option (List Json)
  | [] => some []
  | (key, e) :: rest => do
    let j ← e.toJson?
    let js ← entriesToJson? rest
    some (.arr [.str key, j] :: js)

end

end InputExpr

def NodeDef.toJson? (n : NodeDef) : Option Json := do
  let inputs ← InputExpr.entriesToJson? n.inputs
  some (.obj [("id", .str n.id), ("opcode", .str n.opcode), ("inputs", .arr inputs),
    ("next", ofOption .str n.next),
    ("branches", ofList (fun (name, head) => .arr [.str name, ofOption .str head]) n.branches)])

def Workflow.toJson? (w : Workflow) : Option Json := do
  let vars ← w.vars.mapM fun (name, v) => v.sortedJson?.map fun j => .arr [.str name, j]
  let nodes ← w.nodes.mapM NodeDef.toJson?
  some (.obj [("name", .str w.name), ("interface", w.interface.toJson),
    ("variables", .arr vars), ("nodes", .arr nodes)])

def Document.toJson? (d : Document) : Option Json := do
  let workflows ← d.workflows.mapM Workflow.toJson?
  some (.obj [("workflows", .arr workflows)])

end BlockFlow
