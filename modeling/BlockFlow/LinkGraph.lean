import BlockFlow.Error
import BlockFlow.Reach

/-!
The graph of the pointers between the nodes of a workflow.
-/

namespace BlockFlow

/-- A pointer that is set. -/
structure Link where
  source : String
  slot : LinkSlot
  target : String
  deriving DecidableEq, Repr

structure LinkGraph where
  ids : List String
  /-- The pointers, node by node in document order. -/
  links : List Link
  deriving DecidableEq, Repr

namespace LinkGraph

/-- Checks the pointers of a node against the ids of the workflow. -/
def nodeLinks (ids : List String) (n : NodeDef) : Except ParseError (List Link) :=
  n.pointers.mapM fun (slot, target) =>
    if ids.contains target then .ok ⟨n.id, slot, target⟩
    else .error (.danglingLink n.id target)

/-- The graph of a workflow, all of whose pointers must name nodes. -/
def build (w : Workflow) : Except ParseError LinkGraph := do
  let links ← w.nodes.mapM (nodeLinks w.nodeIds)
  .ok ⟨w.nodeIds, links.flatten⟩

/-- The pointers into a node with their sources, in document order. -/
def incoming (g : LinkGraph) (id : String) : List (String × LinkSlot) :=
  (g.links.filter (·.target = id)).map fun l => (l.source, l.slot)

/-- The pointers of a node with their targets. -/
def outgoing (g : LinkGraph) (id : String) : List (String × LinkSlot) :=
  (g.links.filter (·.source = id)).map fun l => (l.target, l.slot)

def incomingCount (g : LinkGraph) (id : String) : Nat := (g.incoming id).length

/-- The targets of the pointers of a node. -/
def successors (g : LinkGraph) (id : String) : List String := (g.outgoing id).map (·.1)

/-- Everything that pointers lead to from a node, the node included. -/
def reachableFrom (g : LinkGraph) (id : String) : List String :=
  if g.ids.contains id then Reach.closure g.successors g.ids.length [id] else []

/-- Whether pointers lead from `ancestor` to `id`. Every node leads to itself. -/
def isAncestor (g : LinkGraph) (ancestor id : String) : Bool :=
  g.ids.contains ancestor && g.ids.contains id && (g.reachableFrom ancestor).contains id

/-- What the branches of a node lead to, the node itself left out. -/
def branchDescendants (g : LinkGraph) (id : String) : List String :=
  let heads := ((g.outgoing id).filter (·.2.isBranch)).map (·.1)
  ((heads.flatMap g.reachableFrom).eraseDups).filter (· ≠ id)

end LinkGraph

end BlockFlow
