import BlockFlow.Edit.Input
import BlockFlow.Edit.Insertion
import BlockFlow.Edit.Workflows
import BlockFlow.Selection.Run
import BlockFlow.Selection.Variables
import BlockFlow.Tree.Build

/-!
Lifting a run of nodes out of its workflow into one of its own, with a call in its place.
-/

namespace BlockFlow

structure Extraction where
  workflow : String
  nodeIds : List String
  /-- The name of the workflow that is made. -/
  newName : String
  /-- Its interface. When absent, what the run reads and writes. -/
  interface : Option Interface := none
  deriving DecidableEq, Repr, Inhabited

/-- The interface that the variables of a run ask for. -/
def Selection.Variables.interface (v : Selection.Variables) : Interface :=
  ⟨v.inputs.map fun name => ⟨name, "any", true⟩, v.outputs⟩

/-- The opcode and the inputs of the call of a workflow: its result goes to a variable when there is
exactly one output. -/
def callInputs (workflow : String) (interface : Interface) : String × Inputs :=
  let call := InputExpr.call workflow
    (interface.inputs.map fun input => (input.name, .variable input.name))
  match interface.outputs with
  | [output] => ("data_set_variable", [("VARIABLE", .literal (.str output)), ("VALUE", call)])
  | _ => ("workflow_call", [("CALL", call)])

/-- The lines of the node that calls a workflow. -/
def callNodeLines (id workflow : String) (interface : Interface) (next : Option String) :
    List Line :=
  let (opcode, inputs) := callInputs workflow interface
  Outline.nested id
    (Outline.field "opcode" (.str opcode) ++ Outline.field "inputs" (inputsToYaml inputs) ++
      next.toList.flatMap fun id => Outline.field "next" (.str id))

/-- The lines of the node that returns the outputs of a workflow: the only one, or all by name. -/
def returnNodeLines (id : String) (outputs : List String) : List Line :=
  let result := match outputs with
    | [output] => InputExpr.variable output
    | _ => .inline none "data_dict_create" (outputs.map fun name => (name, .variable name))
  unlinkedNodeLines id "workflow_return" [("VALUE", result)]

namespace Draft

/-- The lines of a node, moved to column 0. -/
def liftedNode (d : Draft) (workflow id : String) : Except EditError (List Line) := do
  let s ← d.nodeSpan workflow id
  .ok (Line.reindent 0 (d.outline.slice s.start s.stop))

/-- The lines of a node under another id. -/
def copiedNode (d : Draft) (workflow id copy : String) : Except EditError (List Line) := do
  match ← d.liftedNode workflow id with
  | [] => .ok []
  | _ :: rest => .ok ((Outline.renderString copy ++ [':']) :: rest)

/-- Ids for copies of nodes. -/
def copyIds (d : Draft) : List String → IdSource → List (String × String) × IdSource
  | [], s => ([], s)
  | id :: rest, s =>
    let (copy, s) := s.take d.document id
    let (copies, s) := d.copyIds rest s
    ((id, copy) :: copies, s)

/-- The nodes of a workflow along with copies of some of them, as another workflow. -/
def copyScope (w : Workflow) (name : String) (copies : List (String × String)) : Workflow :=
  let copied := copies.filterMap fun (id, copy) => (w.node? id).map fun n => { n with id := copy }
  { w with name := name, nodes := w.nodes ++ copied }

/-- Points the references of the nodes `owners` in a new workflow to the copies. -/
def relinkCopies (d : Draft) (scope : Workflow) (owners : List String)
    (copies : List (String × String)) : Except EditError Draft :=
  owners.foldlM (fun d owner =>
    (scope.referencePaths owner).foldlM (fun d (path, id) =>
      match firstOf? id copies.reverse with
      | some copy => d.setReference scope owner path copy
      | none => .ok d) d) d

/-- Clears the `next` pointers that copies took over. -/
def unlinkCopies (d : Draft) (w : Workflow) (name : String) (copies : List (String × String)) :
    Except EditError Draft :=
  copies.foldlM (fun d (id, copy) =>
    if (w.pointer? id .next).isSome then d.setPointer name copy .next none else .ok d) d

/-- The pointer of the predecessor that leads to the head of a run. -/
def entrySlot (g : LinkGraph) (predecessor head : String) : LinkSlot :=
  (((g.incoming head).find? (·.1 = predecessor)).map (·.2)).getD .next

/-- Lifts a run out of its workflow. The reporters that it shares with nodes that stay are
copied. -/
def extract (d : Draft) (args : Extraction) : Except EditError (Draft × String) := do
  let w ← d.workflow args.workflow
  let tree ← (Tree.ofDocument d.document d.catalog).mapError EditError.document
  let run := Selection.report tree args.workflow args.nodeIds
  if !run.isValid then .error (.invalidChain run.faults)
  else if (d.document.workflow? args.newName).isSome then .error (.nameCollision args.newName)
  else match run.firstId, run.lastId, run.predecessorId with
  | some head, some last, some predecessor => do
    let usage := Selection.usage tree d.catalog args.workflow args.nodeIds
    let interface := args.interface.getD usage.interface
    let locals := usage.locals.map fun name => (name, (w.valueOf? name).getD .null)
    let g ← graph w
    let moved := w.removalSet g run.orderedIds
    let blocks ← moved.mapM (d.liftedNode w.name)
    let (copies, ids) := d.copyIds (w.sharedReporters moved) {}
    let copied ← copies.mapM fun (id, copy) => d.copiedNode w.name id copy
    let (call, ids) := ids.take d.document "call"
    let slot := entrySlot g predecessor head
    let d ← d.clearInto g w.name moved (· = (predecessor, slot))
    let d ← d.resetReferences w moved
    let d ← d.insertNode w.name (some predecessor)
      (callNodeLines call args.newName interface run.successorId)
    let d ← d.setPointer w.name predecessor slot (some call)
    let d ← d.removeNodes w.name moved
    let return? := if interface.outputs.isEmpty then none
      else some (ids.take d.document "workflow_return").1
    let nodes := startNodeLines (some head) ++ blocks.flatten ++ copied.flatten ++
      return?.toList.flatMap fun id => returnNodeLines id interface.outputs
    let item ← d.workflowLine w.name
    let d := d.withOutline (d.outline.insertWorkflow (some item)
      (Outline.workflowLines args.newName interface locals nodes))
    let d ← d.setPointer args.newName last .next return?
    let d ← d.relinkCopies (copyScope w args.newName copies) (moved ++ copies.map (·.2)) copies
    let d ← d.unlinkCopies w args.newName copies
    .ok (d, call)
  | _, _, _ => .error (.invalidChain [.noPredecessor])

end Draft

end BlockFlow
