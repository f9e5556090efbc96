import BlockFlow.Error
import BlockFlow.Tree.Basic

/-!
Selections that can be lifted out of a workflow: one run of consecutive nodes in one container, the
main chain or a branch, with all or none of what its branches contain.
-/

namespace BlockFlow.Selection

/-- Where a chain node stands: the owner and the name of its branch, absent on the main chain, its
index there, and how deep branches nest around it. -/
structure Placement where
  container : Option (String × String)
  index : Nat
  depth : Nat
  deriving DecidableEq, Repr

mutual

/-- The placements of the nodes of a chain from `index` on, depth first. -/
def placements (container : Option (String × String)) (depth index : Nat) :
    List TreeNode → List (String × Placement)
  | [] => []
  | ⟨id, _, _, _, children⟩ :: rest =>
    (id, ⟨container, index, depth⟩) ::
      (branchPlacements id (depth + 1) children ++ placements container depth (index + 1) rest)

def branchPlacements (owner : String) (depth : Nat) :
    List (String × List TreeNode) → List (String × Placement)
  | [] => []
  | (name, nodes) :: rest =>
    placements (some (owner, name)) depth 0 nodes ++ branchPlacements owner depth rest

end

/-- The nodes of a container. -/
def containerNodes (t : WorkflowTree) : Option (String × String) → List TreeNode
  | none => t.nodes
  | some (owner, branch) =>
    (((t.find? owner).bind fun n => firstOf? branch n.children)).getD []

/-- The shallowest of some placed ids, the first of several. -/
def shallowest? (placed : List (String × Placement)) : Option (String × Placement) :=
  placed.foldl (fun best p =>
    match best with
    | none => some p
    | some b => if p.2.depth < b.2.depth then some p else some b) none

/-- The index of a node in its container. -/
def indexOf (placed : List (String × Placement)) (id : String) : Nat :=
  ((firstOf? id placed).map (·.index)).getD 0

/-- Pairs of neighbours in a list. -/
def neighbours {α : Type} (xs : List α) : List (α × α) := xs.zip (xs.drop 1)

/-- The nodes in the branches of a node. -/
def contents (n : TreeNode) : List String := (n.subtree.drop 1).map (·.id)

/-- What is known of a selection. -/
structure Report where
  /-- The selected nodes of the run, in order. -/
  orderedIds : List String := []
  /-- The selected nodes inside branches of the run. -/
  nestedIds : List String := []
  firstId : Option String := none
  lastId : Option String := none
  predecessorId : Option String := none
  successorId : Option String := none
  faults : List SelectionFault := []
  deriving DecidableEq, Repr

def Report.isValid (r : Report) : Bool := r.faults.isEmpty

/-- The faults of ids that are no chain nodes. -/
def strayFaults (t : WorkflowTree) (placed : List (String × Placement)) (workflow : String)
    (ids : List String) : List SelectionFault :=
  ids.filterMap fun id =>
    if (firstOf? id placed).isSome then none
    else if (t.orphan? id).isSome then some (.orphan id)
    else some (.notFound id workflow)

/-- The fault of a run with the start node. -/
def startFaults (t : WorkflowTree) (run : List TreeNode) : List SelectionFault :=
  match t.nodes.head? with
  | some start => if run.any (·.id = start.id) then [.startSelected start.id] else []
  | none => []

/-- The faults of a run that leaves nodes out. -/
def gapFaults (placed : List (String × Placement)) (run : List TreeNode) : List SelectionFault :=
  (neighbours run).filterMap fun (a, b) =>
    if indexOf placed b.id = indexOf placed a.id + 1 then none else some (.gap a.id b.id)

/-- The faults of selected nodes that are neither in the run nor in its branches. -/
def outsideFaults (placed : List (String × Placement)) (run : List TreeNode)
    (selected : List String) : List SelectionFault :=
  selected.filterMap fun id =>
    if run.any (·.id = id) || (run.flatMap contents).contains id then none
    else
      let (owner, branch) := ((firstOf? id placed).bind (·.container)).getD ("", "")
      some (.outsideRun id branch owner)

/-- The faults of nodes of the run whose branches are selected in part. -/
def partFaults (run : List TreeNode) (selected : List String) : List SelectionFault :=
  (run.filter (·.isControlFlow)).filterMap fun n =>
    let all := contents n
    let picked := all.filter selected.contains
    if 0 < picked.length && picked.length < all.length then some (.partlySelected n.id) else none

/-- Examines the run of a selection of chain nodes, of which `anchor` is the shallowest. -/
def examine (t : WorkflowTree) (placed : List (String × Placement)) (strays : List SelectionFault)
    (selected : List String) (anchor : Placement) : Report :=
  let siblings := containerNodes t anchor.container
  let run := siblings.filter fun n => selected.contains n.id
  { orderedIds := run.map (·.id)
    nestedIds := selected.filter fun id =>
      !run.any (·.id = id) && (run.flatMap contents).contains id
    firstId := run.head?.map (·.id)
    lastId := run.getLast?.map (·.id)
    predecessorId := run.head?.bind fun n =>
      match indexOf placed n.id with
      | 0 => anchor.container.map (·.1)
      | i + 1 => siblings[i]?.map (·.id)
    successorId := run.getLast?.bind fun n => siblings[indexOf placed n.id + 1]?.map (·.id)
    faults := strays ++ startFaults t run ++ gapFaults placed run ++
      outsideFaults placed run selected ++ partFaults run selected }

/-- Examines a selection. All faults are reported, not just the first. -/
def report (tree : Tree) (workflow : String) (ids : List String) : Report :=
  match tree.workflow? workflow with
  | none => { faults := [.workflowNotFound workflow] }
  | some t =>
    if ids.isEmpty then { faults := [.nothingSelected] }
    else
      let placed := placements none 0 0 t.nodes
      let strays := strayFaults t placed workflow ids
      let selected := (ids.filter fun id => (firstOf? id placed).isSome).eraseDups
      match shallowest? (placed.filter fun p => selected.contains p.1) with
      | none => { faults := strays }
      | some (_, anchor) => examine t placed strays selected anchor

end BlockFlow.Selection
