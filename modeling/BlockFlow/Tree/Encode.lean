import BlockFlow.Catalog.Decode
import BlockFlow.Document.Encode
import BlockFlow.Tree.Basic

/-!
Trees in JSON.
-/

namespace BlockFlow

open Json (ofList ofOption)

namespace Resolved

mutual

def toJson : Resolved → Json
  | .literal v => .obj [("type", .str "literal"), ("value", v.sorted)]
  | .variable name => .obj [("type", .str "variable"), ("name", .str name)]
  | .reporter opcode id inputs =>
    .obj [("type", .str "reporter"), ("opcode", .str opcode), ("id", .str id),
      ("inputs", .arr (slotsToJson inputs))]
  | .call workflow args =>
    .obj [("type", .str "workflow_call"), ("name", .str workflow),
      ("args", .arr (slotsToJson args))]

def slotsToJson : Slots → List Json
  | [] => []
  | (name, v) :: rest => .obj [("name", .str name), ("value", v.toJson)] :: slotsToJson rest

end

end Resolved

namespace TreeNode

mutual

def toJson : TreeNode → Json
  | ⟨id, opcode, kind, inputs, children⟩ =>
    .obj [("id", .str id), ("opcode", .str opcode), ("kind", .str kind.name),
      ("inputs", .arr (Resolved.slotsToJson inputs)), ("children", .arr (branchesToJson children))]

def branchesToJson : List (String × List TreeNode) → List Json
  | [] => []
  | (name, nodes) :: rest =>
    .obj [("name", .str name), ("nodes", .arr (chainToJson nodes))] :: branchesToJson rest

def chainToJson : List TreeNode → List Json
  | [] => []
  | n :: rest => n.toJson :: chainToJson rest

end

end TreeNode

def Orphan.toJson (o : Orphan) : Json :=
  .obj [("node", o.node.toJson), ("next", ofOption .str o.next)]

def WorkflowTree.toJson (t : WorkflowTree) : Json :=
  .obj [("name", .str t.name), ("interface", t.interface.toJson),
    ("variables", ofList (fun (name, v) => .arr [.str name, v.sorted]) t.vars),
    ("nodes", .arr (TreeNode.chainToJson t.nodes)), ("orphans", ofList Orphan.toJson t.orphans)]

def Tree.toJson (t : Tree) : Json := .obj [("workflows", ofList WorkflowTree.toJson t.workflows)]

end BlockFlow
