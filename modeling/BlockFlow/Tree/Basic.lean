import BlockFlow.Catalog.Basic
import BlockFlow.Document.Basic

/-!
The tree of a document: the chain of each workflow with its branches, the values of all inputs with
their reporters in place, and the orphans, which nothing leads to.
-/

namespace BlockFlow

/-- The value of an input with all references followed. -/
inductive Resolved where
  | literal (value : Json)
  | variable (name : String)
  | reporter (opcode id : String) (inputs : List (String × Resolved))
  | call (workflow : String) (args : List (String × Resolved))
  deriving Inhabited

/-- Inputs or arguments with their values. -/
abbrev Slots := List (String × Resolved)

namespace Resolved

def isReporter : Resolved → Bool
  | .reporter _ _ _ => true
  | _ => false

/-- The inputs or arguments of a value. -/
def slots : Resolved → Slots
  | .reporter _ _ inputs => inputs
  | .call _ args => args
  | _ => []

/-- The string, when the value is a literal string. -/
def str? : Resolved → Option String
  | .literal (.str s) => some s
  | _ => none

mutual

/-- The ids of all reporters in a value, inner ones first. -/
def reporterIds : Resolved → List String
  | .reporter _ id inputs => reporterIdsIn inputs ++ [id]
  | .call _ args => reporterIdsIn args
  | _ => []

def reporterIdsIn : Slots → List String
  | [] => []
  | (_, v) :: rest => v.reporterIds ++ reporterIdsIn rest

end

mutual

/-- The variables read in a value, in reading order. -/
def variableRefs : Resolved → List String
  | .variable name => [name]
  | .reporter _ _ inputs => variableRefsIn inputs
  | .call _ args => variableRefsIn args
  | .literal _ => []

def variableRefsIn : Slots → List String
  | [] => []
  | (_, v) :: rest => v.variableRefs ++ variableRefsIn rest

end

end Resolved

structure TreeNode where
  id : String
  opcode : String
  kind : Category
  inputs : Slots
  /-- The branches with their chains, in slot order. -/
  children : List (String × List TreeNode)
  deriving Inhabited

namespace TreeNode

def isControlFlow (n : TreeNode) : Bool := n.kind = .controlFlow

def input? (n : TreeNode) (name : String) : Option Resolved := firstOf? name n.inputs

def branchNames (n : TreeNode) : List String := n.children.map (·.1)

mutual

/-- A node and everything in its branches, depth first. -/
def subtree : TreeNode → List TreeNode
  | ⟨id, opcode, kind, inputs, children⟩ =>
    ⟨id, opcode, kind, inputs, children⟩ :: branchNodes children

def branchNodes : List (String × List TreeNode) → List TreeNode
  | [] => []
  | (_, nodes) :: rest => chainNodes nodes ++ branchNodes rest

/-- The nodes of a chain with everything in their branches. -/
def chainNodes : List TreeNode → List TreeNode
  | [] => []
  | n :: rest => n.subtree ++ chainNodes rest

end

end TreeNode

/-- A node that nothing leads to, with its own pointer to the next node. -/
structure Orphan where
  node : TreeNode
  next : Option String
  deriving Inhabited

structure WorkflowTree where
  name : String
  interface : Interface
  vars : List (String × Json)
  /-- The main chain, the start node first. -/
  nodes : List TreeNode
  orphans : List Orphan
  deriving Inhabited

namespace WorkflowTree

/-- The nodes of the chain, those in branches included, depth first. -/
def chainNodes (t : WorkflowTree) : List TreeNode := TreeNode.chainNodes t.nodes

/-- The chain node with the given id. -/
def find? (t : WorkflowTree) (id : String) : Option TreeNode := t.chainNodes.find? (·.id = id)

def orphan? (t : WorkflowTree) (id : String) : Option Orphan := t.orphans.find? (·.node.id = id)

def orphanIds (t : WorkflowTree) : List String := t.orphans.map (·.node.id)

/-- The ids of the chain nodes, each before those of the reporters in its inputs. -/
def reachableIds (t : WorkflowTree) : List String :=
  t.chainNodes.flatMap fun n => n.id :: n.inputs.flatMap fun (_, v) => v.reporterIds

end WorkflowTree

structure Tree where
  workflows : List WorkflowTree
  deriving Inhabited

def Tree.workflow? (t : Tree) (name : String) : Option WorkflowTree :=
  t.workflows.find? (·.name = name)

end BlockFlow
