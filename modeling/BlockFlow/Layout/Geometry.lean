import BlockFlow.Layout.Placement

/-!
The geometry of a tree on the canvas. Each workflow is a group of cards, and groups stack. Offsets
from dragging move groups and cards but not what is placed after them.
-/

namespace BlockFlow

variable {α : Type} [Scalar α]

/-- How far workflows and nodes were dragged from their automatic places. -/
structure LayoutOverrides (α : Type) where
  workflows : List (String × Point α) := []
  /-- By workflow and node. -/
  nodes : List (String × List (String × Point α)) := []

namespace LayoutOverrides

def isEmpty (o : LayoutOverrides α) : Bool :=
  o.workflows.isEmpty && o.nodes.all (·.2.isEmpty)

def workflowOffset (o : LayoutOverrides α) (workflow : String) : Point α :=
  (firstOf? workflow o.workflows).getD Point.origin

def nodeOffset (o : LayoutOverrides α) (workflow id : String) : Point α :=
  ((firstOf? workflow o.nodes).bind (firstOf? id)).getD Point.origin

end LayoutOverrides

structure NodeGeometry (α : Type) where
  id : String
  rect : Rect α
  orphan : Bool
  inputPort : Point α
  outputPort : Point α
  /-- Where the branches leave, in slot order. -/
  branchPorts : List (String × Point α)
  deriving DecidableEq

structure Connection (α : Type) where
  source : String
  target : String
  slot : LinkSlot
  path : Curve α
  deriving DecidableEq

structure WorkflowGeometry (α : Type) where
  name : String
  bounds : Rect α
  offset : Point α
  nodes : List (NodeGeometry α)
  connections : List (Connection α)
  deriving DecidableEq

structure Geometry (α : Type) where
  workflows : List (WorkflowGeometry α)
  deriving DecidableEq

namespace NodeGeometry

/-- A card at its final place with its ports: the branches leave at even distances from the bottom
edge. -/
def ofCard (c : LayoutConfig α) (shift : Point α) (card : Card α) : NodeGeometry α :=
  let rect := card.rect.moveBy shift
  let middle := rect.y + c.headerHeight / Scalar.ofNat 2
  let count : α := Scalar.ofNat card.branches.length
  let one : α := Scalar.ofNat 1
  { id := card.id
    rect := rect
    orphan := card.orphan
    inputPort := ⟨rect.x, middle⟩
    outputPort := ⟨rect.right, middle⟩
    branchPorts := card.branches.zipIdx.map fun (name, i) =>
      (name, ⟨rect.x + rect.width * (Scalar.ofNat i + one) / (count + one), rect.bottom⟩) }

/-- Where a pointer leaves the card. -/
def exitOf (n : NodeGeometry α) : LinkSlot → Point α
  | .next => n.outputPort
  | .branch name => (firstOf? name n.branchPorts).getD n.outputPort

end NodeGeometry

mutual

/-- The pointers drawn within a chain: from each node to the heads of its branches and then to the
node behind it. -/
def chainLinks : List TreeNode → List (String × LinkSlot × String)
  | [] => []
  | ⟨id, _, _, _, children⟩ :: rest =>
    let onward := match rest with
      | [] => []
      | m :: _ => [(id, LinkSlot.next, m.id)]
    branchLinks id children ++ onward ++ chainLinks rest

def branchLinks (owner : String) : List (String × List TreeNode) →
    List (String × LinkSlot × String)
  | [] => []
  | (name, nodes) :: rest =>
    let head := match nodes with
      | [] => []
      | m :: _ => [(owner, LinkSlot.branch name, m.id)]
    head ++ chainLinks nodes ++ branchLinks owner rest

end

/-- The pointers drawn in a workflow: those of the chain, and those of orphans to the next node. -/
def WorkflowTree.drawnLinks (t : WorkflowTree) : List (String × LinkSlot × String) :=
  chainLinks t.nodes ++
    t.orphans.filterMap fun o => o.next.map fun target => (o.node.id, LinkSlot.next, target)

/-- The curves of drawn pointers between cards. -/
def connections (c : LayoutConfig α) (nodes : List (NodeGeometry α))
    (links : List (String × LinkSlot × String)) : List (Connection α) :=
  links.filterMap fun (source, slot, target) => do
    let a ← nodes.reverse.find? (·.id = source)
    let b ← nodes.reverse.find? (·.id = target)
    some ⟨source, target, slot,
      Curve.between (a.exitOf slot) b.inputPort c.curvature c.maxCurveOffset⟩

/-- The cards of a workflow at their automatic places below `top`, and the bottom of them all. -/
def baseCards (c : LayoutConfig α) (t : WorkflowTree) (top : α) : List (Card α) × α :=
  let x := c.groupPadding
  let y := top + c.groupPadding
  let (chain, extent) := placeChain c y x ⟨x, y⟩ t.nodes
  let (cards, bottom) :=
    if t.orphans.isEmpty then (chain, extent.bottom)
    else
      let row := extent.bottom + c.orphanGap
      let (orphans, extent) := placeOrphans c row x ⟨x, row⟩ t.orphans
      (chain ++ orphans, extent.bottom)
  (cards, if cards.isEmpty then y + c.headerHeight else bottom)

/-- The rectangle around a group. An empty group is as large as an empty card. -/
def groupBounds (c : LayoutConfig α) (top : α) (offset : Point α) :
    List (NodeGeometry α) → Rect α
  | [] =>
    let card : Rect α := ⟨Scalar.ofNat 0, top, c.nodeWidth, c.headerHeight⟩
    ((card.expand c.groupPadding).moveBy ⟨c.groupPadding, c.groupPadding⟩).moveBy offset
  | n :: rest => ((rest.map (·.rect)).foldl Rect.union n.rect).expand c.groupPadding

/-- The geometry of a workflow whose group starts at height `top`, and the bottom of its automatic
layout. -/
def WorkflowTree.layout (c : LayoutConfig α) (o : LayoutOverrides α) (t : WorkflowTree) (top : α) :
    WorkflowGeometry α × α :=
  let (cards, bottom) := baseCards c t top
  let offset := o.workflowOffset t.name
  let nodes := cards.map fun card =>
    NodeGeometry.ofCard c (offset.offset (o.nodeOffset t.name card.id)) card
  ({ name := t.name
     bounds := groupBounds c top offset nodes
     offset := offset
     nodes := nodes
     connections := connections c nodes t.drawnLinks }, bottom)

/-- Lays out workflows from height `top` on. -/
def layoutFrom (c : LayoutConfig α) (o : LayoutOverrides α) (top : α) :
    List WorkflowTree → List (WorkflowGeometry α)
  | [] => []
  | t :: rest =>
    let (geometry, bottom) := t.layout c o top
    geometry :: layoutFrom c o (bottom + c.groupPadding + c.groupGap) rest

/-- The geometry of a tree. -/
def Tree.layout (c : LayoutConfig α) (o : LayoutOverrides α) (t : Tree) : Geometry α :=
  ⟨layoutFrom c o (Scalar.ofNat 0) t.workflows⟩

end BlockFlow
