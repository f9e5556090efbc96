import BlockFlow.LinkGraph

/-!
Where the references of a workflow lead: which nodes are orphans, what goes along with nodes that
are removed, and what nodes need that are moved.
-/

namespace BlockFlow.Workflow

/-- The nodes that any node references in its inputs, as often as they are referenced. -/
def allRefs (w : Workflow) : List String := w.nodes.flatMap fun n => w.reporterRefs n.id

/-- How often a node is referenced. -/
def useCount (w : Workflow) (id : String) : Nat := w.allRefs.count id

/-- Everything that the inputs of nodes lead to through references, the nodes included. -/
def referenceClosure (w : Workflow) (start : List String) : List String :=
  Reach.closure w.reporterRefs w.allRefs.length start

/-- The nodes that neither pointers lead to from the start node nor references from there. -/
def orphanIds (w : Workflow) (g : LinkGraph) : List String :=
  let chain := match w.startId? with
    | some start => g.reachableFrom start
    | none => []
  let reached := w.referenceClosure chain
  w.nodeIds.filter fun id => !reached.contains id

/-- Whether a node outside `gone` references a node. -/
def usedOutside (w : Workflow) (gone : List String) (id : String) : Bool :=
  (w.nodes.filter fun n => !gone.contains n.id).any fun n => (w.reporterRefs n.id).contains id

/-- Lets a reporter go when no pointer leads to it and no node that stays uses it. -/
def release (w : Workflow) (g : LinkGraph) (gone : List String) (id : String) : List String :=
  if gone.contains id || w.usedOutside gone id || 0 < g.incomingCount id then gone
  else gone ++ [id]

/-- Lets go what the nodes in `gone` reference, one after the other. -/
def releaseRefs (w : Workflow) (g : LinkGraph) (gone : List String) : List String :=
  ((gone.flatMap w.reporterRefs).filter fun id => !gone.contains id).foldl (w.release g) gone

/-- Repeats until nothing more goes. -/
def releaseAll (w : Workflow) (g : LinkGraph) : (fuel : Nat) → List String → List String
  | 0, gone => gone
  | fuel + 1, gone =>
    let more := w.releaseRefs g gone
    if more.length = gone.length then gone else releaseAll w g fuel more

/-- What goes with `roots`: the roots, the contents of their branches, and the reporters that no
remaining node uses. In document order. -/
def removalSet (w : Workflow) (g : LinkGraph) (roots : List String) : List String :=
  let start := (roots.flatMap fun id => id :: g.branchDescendants id).eraseDups
  let gone := w.releaseAll g (w.allRefs.length + 1) start
  w.nodeIds.filter gone.contains

/-- The reporters outside `moved` that nodes in `moved` need, directly or through others. In
document order. -/
def sharedReporters (w : Workflow) (moved : List String) : List String :=
  let needed := w.referenceClosure moved
  w.nodeIds.filter fun id => needed.contains id && !moved.contains id

end BlockFlow.Workflow
