import BlockFlow.Edit.Draft
import BlockFlow.References

/-!
Finding the inputs of nodes along paths of names, and changing what they hold.
-/

namespace BlockFlow

namespace Outline

/-- The line of the inputs or arguments of the block at a line. -/
def slotsLine? (o : Outline) (i : Nat) : Option Nat := (o.find? i "inputs").or (o.find? i "args")

end Outline

namespace Workflow

/-- The inputs below a value. References are followed. -/
def inputsBelow (w : Workflow) : InputExpr → Inputs
  | .inline _ _ inputs => inputs
  | .call _ args => args
  | .node id => ((w.node? id).map (·.inputs)).getD []
  | _ => []

/-- The value among inputs along a path. -/
def valueAlong? (w : Workflow) : Inputs → List String → Option InputExpr
  | _, [] => none
  | inputs, [key] => firstOf? key inputs
  | inputs, key :: rest => do
    let e ← firstOf? key inputs
    w.valueAlong? (w.inputsBelow e) rest

/-- The value along a path of input names of a node. -/
def valueAt? (w : Workflow) (id : String) (path : List String) : Option InputExpr := do
  let n ← w.node? id
  w.valueAlong? n.inputs path

end Workflow

namespace Draft

/-- Where an input stands: the line of the inputs around it, its name, and the opcode that has it,
empty for a call. -/
structure InputPlace where
  container : Nat
  key : String
  opcode : String
  deriving DecidableEq, Repr

/-- The block in which the inputs below an input are, and its opcode. References are followed. -/
def enter (d : Draft) (w : Workflow) (missing : EditError) (slot : Nat) :
    Except EditError (Nat × String) :=
  let o := d.outline
  match o.find? slot "node" with
  | some reference =>
    match o.scalar? reference with
    | none => .error missing
    | some target => do
      let block ← d.nodeLine w.name target
      .ok (block, ((w.node? target).map (·.opcode)).getD "")
  | none =>
    match o.find? slot "opcode" with
    | some opcode => .ok (slot, (o.scalar? opcode).getD "")
    | none => if (o.find? slot "workflow_call").isSome then .ok (slot, "") else .error missing

/-- Finds an input along a path from the block at a line. -/
def inputFrom (d : Draft) (w : Workflow) (node : String) : (block : Nat) → (opcode : String) →
    List String → Except EditError InputPlace
  | _, _, [] => .error (.targetInputNotFound node "")
  | block, opcode, key :: rest =>
    let missing : EditError := .targetInputNotFound node key
    match d.outline.slotsLine? block with
    | none => .error missing
    | some container =>
      match d.outline.find? container key with
      | none => .error missing
      | some slot =>
        if rest.isEmpty then .ok ⟨container, key, opcode⟩
        else do
          let (block, opcode) ← d.enter w missing slot
          d.inputFrom w node block opcode rest

/-- Finds an input of a node along a path. -/
def inputPlace (d : Draft) (w : Workflow) (node : String) (path : List String) :
    Except EditError InputPlace :=
  if path.isEmpty then .error (.targetInputNotFound node "")
  else do
    let block ← d.nodeLine w.name node
    let n ← Draft.node w node
    d.inputFrom w node block n.opcode path

/-- The default of the input at a place. -/
def defaultAt (d : Draft) (p : InputPlace) : Yaml.Value :=
  defaultLiteral (((d.catalog.get? p.opcode).bind (·.inputType? p.key)).getD "str")

/-- Puts the default literal of its type into an input. -/
def resetInput (d : Draft) (w : Workflow) (node : String) (path : List String) :
    Except EditError Draft := do
  let p ← d.inputPlace w node path
  .ok (d.withOutline
    (d.outline.setBlock p.container p.key [Outline.literalLine (d.defaultAt p)]))

/-- Puts a reference to a node into an input. -/
def setReference (d : Draft) (w : Workflow) (node : String) (path : List String)
    (target : String) : Except EditError Draft := do
  let p ← d.inputPlace w node path
  .ok (d.withOutline (d.outline.setBlock p.container p.key
    [Outline.keyed "node".toList (Outline.renderString target)]))

/-- Resets the inputs of the nodes outside `gone` that reference nodes in `gone`. -/
def resetReferences (d : Draft) (w : Workflow) (gone : List String) : Except EditError Draft :=
  (w.nodeIds.filter fun id => !gone.contains id).foldlM (fun d id =>
    ((w.referencePaths id).filter fun p => gone.contains p.2).foldlM
      (fun d (path, _) => d.resetInput w id path) d) d

/-- Removes the node of a reporter that an input referenced, unless something else needs it. -/
def dropReporter (d : Draft) (w : Workflow) (id : String) : Except EditError Draft := do
  let g ← graph w
  if w.useCount id ≤ 1 && g.incomingCount id = 0 && (w.node? id).isSome then
    d.removeNodes w.name (w.removalSet g [id])
  else .ok d

/-- Puts a default literal into an input. A node that was referenced there and nowhere else goes. -/
def deleteReporter (d : Draft) (workflow parent : String) (path : List String) :
    Except EditError Draft := do
  let w ← d.workflow workflow
  let _ ← node w parent
  let cleared ← d.resetInput w parent path
  match w.valueAt? parent path with
  | some (.node id) => cleared.dropReporter w id
  | _ => .ok cleared

end Draft

end BlockFlow
