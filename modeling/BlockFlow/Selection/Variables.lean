import BlockFlow.Tree.Basic

/-!
The variables that a selection of chain nodes reads and writes. Reads are references anywhere in the
inputs of a node; writes are the names held by the assigning input of its opcode.
-/

namespace BlockFlow.Selection

/-- The variables that a node reads, in reading order. -/
def reads (n : TreeNode) : List String := n.inputs.flatMap fun (_, v) => v.variableRefs

/-- The variable that a node writes. -/
def writes? (c : Catalog) (n : TreeNode) : Option String := do
  let spec ← c.get? n.opcode
  let param ← spec.assigns
  let value ← n.input? param
  let name ← value.str?
  if name.isEmpty then none else some name

/-- The variables of a selection. -/
structure Variables where
  /-- Read before any write in the selection. -/
  inputs : List String := []
  /-- Written in the selection and read outside. -/
  outputs : List String := []
  /-- Written in the selection and used nowhere else. -/
  locals : List String := []
  deriving DecidableEq, Repr

/-- Adds a name that is not there yet. -/
def addNew (names : List String) (name : String) : List String :=
  if names.contains name then names else names ++ [name]

/-- Goes through nodes in order and collects the names read before they are written, and the names
written. -/
def flow (c : Catalog) : (inputs written : List String) → List TreeNode →
    List String × List String
  | inputs, written, [] => (inputs, written)
  | inputs, written, n :: rest =>
    let inputs := ((reads n).filter fun name => !written.contains name).foldl addNew inputs
    let written := (writes? c n).toList.foldl addNew written
    flow c inputs written rest

/-- The variables of the selected chain nodes and of everything in their branches. -/
def usage (tree : Tree) (c : Catalog) (workflow : String) (ids : List String) : Variables :=
  match tree.workflow? workflow with
  | none => {}
  | some t =>
    let members := ids.flatMap fun id =>
      ((t.find? id).map (·.subtree.map (·.id))).getD []
    let (inside, outside) := t.chainNodes.partition fun n => members.contains n.id
    let (inputs, written) := flow c [] [] inside
    let readOutside := outside.flatMap reads ++ t.orphans.flatMap fun o => reads o.node
    { inputs := inputs
      outputs := written.filter readOutside.contains
      locals := written.filter fun name => !readOutside.contains name && !inputs.contains name }

end BlockFlow.Selection
