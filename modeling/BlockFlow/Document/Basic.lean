import BlockFlow.Yaml.Value

/-!
Workflow documents. A workflow has an interface, variables and nodes; nodes point at each other and
hold values in their inputs.
-/

namespace BlockFlow

/-- The opcode of the entry node of a workflow. -/
def startOpcode : String := "workflow_start"

/-- The id of the entry node when no node has that opcode. -/
def startId : String := "start"

/-- The pointers of a node. -/
inductive LinkSlot where
  | next
  | branch (name : String)
  deriving DecidableEq, Repr, Inhabited

namespace LinkSlot

def text : LinkSlot → String
  | .next => "next"
  | .branch name => "branch " ++ name

def isBranch : LinkSlot → Bool
  | .next => false
  | .branch _ => true

end LinkSlot

/-- An input of a workflow as a whole. -/
structure InterfaceInput where
  name : String
  type : String
  required : Bool
  deriving DecidableEq, Repr, Inhabited

structure Interface where
  inputs : List InterfaceInput := []
  outputs : List String := []
  deriving DecidableEq, Repr, Inhabited

/-- What an input of a node holds. -/
inductive InputExpr where
  | literal (value : Yaml.Value)
  | variable (name : String)
  /-- A node of the workflow, used as a reporter. -/
  | node (id : String)
  /-- A reporter written in place. -/
  | inline (id : Option String) (opcode : String) (inputs : List (String × InputExpr))
  /-- A call of another workflow. -/
  | call (workflow : String) (args : List (String × InputExpr))
  deriving Inhabited

/-- Inputs or arguments by name. -/
abbrev Inputs := List (String × InputExpr)

/-- The value listed first under a name. -/
def firstOf? {α : Type} (name : String) (entries : List (String × α)) : Option α :=
  (entries.find? (·.1 = name)).map (·.2)

namespace InputExpr

mutual

/-- The nodes referenced anywhere in a value, in reading order. -/
def nodeRefs : InputExpr → List String
  | .node id => [id]
  | .inline _ _ inputs => nodeRefsIn inputs
  | .call _ args => nodeRefsIn args
  | _ => []

def nodeRefsIn : Inputs → List String
  | [] => []
  | (_, e) :: rest => e.nodeRefs ++ nodeRefsIn rest

end

mutual

/-- The ids of the reporters written in place, outer ones first. -/
def inlineIds : InputExpr → List String
  | .inline id _ inputs => id.toList ++ inlineIdsIn inputs
  | .call _ args => inlineIdsIn args
  | _ => []

def inlineIdsIn : Inputs → List String
  | [] => []
  | (_, e) :: rest => e.inlineIds ++ inlineIdsIn rest

end

mutual

/-- The paths of input names under which nodes are referenced, each below `above`. -/
def refPaths (above : List String) : InputExpr → List (List String × String)
  | .node id => [(above, id)]
  | .inline _ _ inputs => refPathsIn above inputs
  | .call _ args => refPathsIn above args
  | _ => []

def refPathsIn (above : List String) : Inputs → List (List String × String)
  | [] => []
  | (key, e) :: rest => e.refPaths (above ++ [key]) ++ refPathsIn above rest

end

mutual

/-- The YAML value that loads as this value. -/
def toYaml : InputExpr → Yaml.Value
  | .literal v => .map [(.str "literal", v)]
  | .variable name => .map [(.str "variable", .str name)]
  | .node id => .map [(.str "node", .str id)]
  | .inline id opcode inputs =>
    let idEntry := id.toList.map fun i => (Yaml.Value.str "id", Yaml.Value.str i)
    let inputsEntry :=
      if inputs.isEmpty then [] else [(Yaml.Value.str "inputs", .map (entriesToYaml inputs []))]
    .map (idEntry ++ (.str "opcode", .str opcode) :: inputsEntry)
  | .call workflow args =>
    let argsEntry :=
      if args.isEmpty then [] else [(Yaml.Value.str "args", .map (entriesToYaml args []))]
    .map ((.str "workflow_call", .str workflow) :: argsEntry)

/-- Adds inputs to the entries of a mapping; of several inputs with one name the last value stays,
at the place of the first. -/
def entriesToYaml : Inputs → List (Yaml.Value × Yaml.Value) → List (Yaml.Value × Yaml.Value)
  | [], done => done
  | (key, e) :: rest, done => entriesToYaml rest (put key e.toYaml done)
where
  put (key : String) (v : Yaml.Value) : List (Yaml.Value × Yaml.Value) →
      List (Yaml.Value × Yaml.Value)
    | [] => [(.str key, v)]
    | (k, old) :: rest => if k.isStr key then (k, v) :: rest else (k, old) :: put key v rest

end

end InputExpr

/-- The mapping of inputs by name. -/
def inputsToYaml (inputs : Inputs) : Yaml.Value := .map (InputExpr.entriesToYaml inputs [])

/-- A node: its opcode, its inputs and its pointers. -/
structure NodeDef where
  id : String
  opcode : String
  inputs : Inputs
  next : Option String
  /-- The head of each branch, absent when the branch is empty. -/
  branches : List (String × Option String)
  deriving Inhabited

namespace NodeDef

def input? (n : NodeDef) (key : String) : Option InputExpr := firstOf? key n.inputs

/-- The head of a branch. -/
def branchHead? (n : NodeDef) (name : String) : Option String := (firstOf? name n.branches).join

def branchNames (n : NodeDef) : List String := n.branches.map (·.1)

/-- The target of a pointer. -/
def target? (n : NodeDef) : LinkSlot → Option String
  | .next => n.next
  | .branch name => n.branchHead? name

/-- The pointers that are set, `next` first and then the branches in order. -/
def pointers (n : NodeDef) : List (LinkSlot × String) :=
  (n.next.toList.map fun t => (LinkSlot.next, t)) ++
    n.branches.filterMap fun (name, head) => head.map fun t => (LinkSlot.branch name, t)

end NodeDef

structure Workflow where
  name : String
  interface : Interface
  vars : List (String × Yaml.Value)
  nodes : List NodeDef
  deriving Inhabited

namespace Workflow

def node? (w : Workflow) (id : String) : Option NodeDef := w.nodes.find? (·.id = id)

def nodeIds (w : Workflow) : List String := w.nodes.map (·.id)

/-- The entry node: the first with the start opcode, or else the one with the start id. -/
def startNode? (w : Workflow) : Option NodeDef :=
  (w.nodes.find? (·.opcode = startOpcode)).or (w.node? startId)

def startId? (w : Workflow) : Option String := w.startNode?.map (·.id)

def valueOf? (w : Workflow) (name : String) : Option Yaml.Value := firstOf? name w.vars

/-- The nodes that a node references in its inputs, in reading order. -/
def reporterRefs (w : Workflow) (id : String) : List String :=
  match w.node? id with
  | some n => InputExpr.nodeRefsIn n.inputs
  | none => []

/-- The input paths under which a node references other nodes. -/
def referencePaths (w : Workflow) (id : String) : List (List String × String) :=
  match w.node? id with
  | some n => InputExpr.refPathsIn [] n.inputs
  | none => []

/-- The target of a pointer of a node. -/
def pointer? (w : Workflow) (id : String) (slot : LinkSlot) : Option String :=
  (w.node? id).bind (·.target? slot)

end Workflow

structure Document where
  workflows : List Workflow
  deriving Inhabited

namespace Document

def workflow? (d : Document) (name : String) : Option Workflow :=
  d.workflows.find? (·.name = name)

/-- Every id in use: those of nodes and of reporters written in place. -/
def allIds (d : Document) : List String :=
  d.workflows.flatMap fun w => w.nodes.flatMap fun n =>
    n.id :: InputExpr.inlineIdsIn n.inputs

end Document

end BlockFlow
