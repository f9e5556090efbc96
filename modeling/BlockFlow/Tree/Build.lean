import BlockFlow.Document.Load
import BlockFlow.LinkGraph
import BlockFlow.Tree.Basic

/-!
Building the tree of a document. The chain of a workflow is walked from its start node; a node that
was placed before ends a walk. Nodes used as reporters count as placed when the chain uses them, and
the nodes that are not placed in the end are the orphans.
-/

namespace BlockFlow

namespace Tree

/-- A YAML value as a literal; one that JSON cannot express becomes null. -/
def literalOf (v : Yaml.Value) : Json :=
  match v.toJson? with
  | some j => j.sorted
  | none => .null

/-- What building the tree of a workflow looks at. -/
structure Scope where
  document : Document
  workflow : Workflow
  catalog : Catalog
  /-- The nodes that pointers lead to from the start node. -/
  chain : List String

/-- Work that collects the ids placed so far. -/
abbrev Placing := StateT (List String) (Except ParseError)

/-- Remembers that a node is placed. -/
def place (id : String) : Placing Unit := modify (id :: ·)

/-- The category of an opcode, which must be in the catalog. -/
def category (s : Scope) (id opcode : String) : Placing Category :=
  match s.catalog.get? opcode with
  | some spec => pure spec.category
  | none => throw (.unknownOpcode id opcode)

mutual

/-- Resolves the value of the input `key` of `owner`. `above` holds the ids of the node and the
reporters around the value, and `follow` resolves the inputs of a referenced node. -/
def resolve (s : Scope) (inChain : Bool) (follow : List String → NodeDef → Placing Slots)
    (above : List String) (owner key : String) : InputExpr → Placing Resolved
  | .literal v => pure (.literal (literalOf v))
  | .variable name => pure (.variable name)
  | .node id => do
    if above.contains id then throw (.cyclicReporter id)
    if inChain && s.chain.contains id then throw (.malformedInput owner (.chainNodeUsed key id))
    match s.workflow.node? id with
    | none => throw (.danglingLink owner id)
    | some n =>
      if inChain then place id
      let _ ← category s n.id n.opcode
      let inputs ← follow (id :: above) n
      pure (.reporter n.opcode n.id inputs)
  | .inline id opcode inputs => do
    let id := id.getD (owner ++ "__" ++ key)
    if above.contains id then throw (.cyclicReporter id)
    let _ ← category s id opcode
    let inputs ← resolveAll s inChain follow (id :: above) id inputs
    pure (.reporter opcode id inputs)
  | .call name args => do
    if (s.document.workflow? name).isNone then throw (.unknownWorkflow owner name)
    let args ← resolveAll s inChain follow above owner args
    pure (.call name args)

def resolveAll (s : Scope) (inChain : Bool) (follow : List String → NodeDef → Placing Slots)
    (above : List String) (owner : String) : Inputs → Placing Slots
  | [] => pure []
  | (key, e) :: rest => do
    let v ← resolve s inChain follow above owner key e
    let more ← resolveAll s inChain follow above owner rest
    pure ((key, v) :: more)

end

/-- Resolves the inputs of a node, following at most `jumps` references in a row. A reference beyond
as many as there are nodes closes a cycle. -/
def resolveInputs (s : Scope) (inChain : Bool) : (jumps : Nat) → List String → NodeDef →
    Placing Slots
  | 0, above, n =>
    resolveAll s inChain (fun _ m => throw (.cyclicReporter m.id)) above n.id n.inputs
  | jumps + 1, above, n =>
    resolveAll s inChain (resolveInputs s inChain jumps) above n.id n.inputs

/-- A node without its branches. -/
def plainNode (s : Scope) (inChain : Bool) (n : NodeDef) : Placing TreeNode := do
  let kind ← category s n.id n.opcode
  let inputs ← resolveInputs s inChain s.workflow.nodes.length [n.id] n
  pure ⟨n.id, n.opcode, kind, inputs, []⟩

/-- A node of the chain with its branches, which `walk` places. A branch must be one of the slots of
the opcode; nodes that control no flow have no branches. -/
def chainNode (s : Scope) (walk : Option String → Placing (List TreeNode)) (n : NodeDef) :
    Placing TreeNode := do
  let node ← plainNode s true n
  if s.catalog.isControlFlow n.opcode then
    let slots := s.catalog.branchSlots n.opcode n.branchNames
    match n.branchNames.find? fun name => !slots.contains name with
    | some name => throw (.unknownBranch n.id name)
    | none =>
      let children ← slots.mapM fun slot => do
        let nodes ← walk (n.branchHead? slot)
        pure (slot, nodes)
      pure { node with children := children }
  else
    match n.branches.find? (·.2.isSome) with
    | some (name, _) => throw (.unknownBranch n.id name)
    | none => pure node

/-- Walks a chain from its head. Each step places a node, so `fuel` need not exceed the number of
nodes. -/
def walkChain (s : Scope) : (fuel : Nat) → Option String → Placing (List TreeNode)
  | _, none => pure []
  | 0, some _ => pure []
  | fuel + 1, some id => do
    if (← get).contains id then return []
    match s.workflow.node? id with
    | none => throw (.danglingLink s.workflow.name id)
    | some n =>
      place id
      let node ← chainNode s (walkChain s fuel) n
      let rest ← walkChain s fuel n.next
      pure (node :: rest)

/-- The nodes that are not placed. -/
def orphans (s : Scope) : List NodeDef → Placing (List Orphan)
  | [] => pure []
  | n :: rest => do
    if (← get).contains n.id then orphans s rest
    else
      let node ← plainNode s false n
      let more ← orphans s rest
      pure (⟨node, n.next⟩ :: more)

/-- Builds the tree of a workflow, placing its nodes. -/
def placeAll (s : Scope) : Placing WorkflowTree := do
  let w := s.workflow
  let nodes ← walkChain s w.nodes.length w.startId?
  let orphans ← orphans s w.nodes
  pure ⟨w.name, w.interface, w.vars.map fun (k, v) => (k, literalOf v), nodes, orphans⟩

/-- The tree of a workflow. A workflow with nodes has a start node. -/
def ofWorkflow (d : Document) (c : Catalog) (w : Workflow) : Except ParseError WorkflowTree := do
  let graph ← LinkGraph.build w
  let chain ← match w.startId? with
    | some start => .ok (graph.reachableFrom start)
    | none => if w.nodes.isEmpty then .ok [] else .error (.missingStart w.name)
  let (tree, _) ← (placeAll ⟨d, w, c, chain⟩).run []
  .ok tree

/-- The tree of a document. -/
def ofDocument (d : Document) (c : Catalog) : Except ParseError Tree := do
  let workflows ← d.workflows.mapM (ofWorkflow d c)
  .ok ⟨workflows⟩

/-- The tree of a text. -/
def parse (c : Catalog) (text : String) : Except ParseError Tree := do
  let d ← Document.load text
  ofDocument d c

end Tree

end BlockFlow
