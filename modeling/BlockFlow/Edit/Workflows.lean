import BlockFlow.Edit.Interface
import BlockFlow.Edit.Variables

/-!
Creating, renaming and removing workflows.
-/

namespace BlockFlow

namespace Line

/-- The entries with the value of the first key called `name` replaced. -/
def replaceValue (name : String) (v : Yaml.Value) :
    List (Yaml.Value × Yaml.Value) → List (Yaml.Value × Yaml.Value)
  | [] => []
  | (key, old) :: rest =>
    if key.isStr name then (key, v) :: rest else (key, old) :: replaceValue name v rest

/-- Renames the workflow in `workflow_call: old`, or in a call written in one flow behind a key,
which is then written as JSON. -/
def renameCall (old new : String) (l : Line) : Line :=
  let depth := l.indent?.getD 0
  match l.key? with
  | none => l
  | some key =>
    if key = "workflow_call".toList then
      if l.scalar? = some old.toList then
        deeper depth (Outline.keyed "workflow_call".toList (Outline.renderString new))
      else l
    else match l.flowMapping? with
      | none => l
      | some entries =>
        if (Yaml.Value.lookup "workflow_call" entries).any (·.isStr old) then
          match (Yaml.Value.map (replaceValue "workflow_call" (.str new) entries)).toJson? with
          | some flow => deeper depth (Outline.keyed (Outline.renderChars key) flow.render)
          | none => l
        else l

end Line

namespace Outline

/-- The lines of a list under a key, on one line when it has no items. -/
def listLines (key : String) (items : List (List Line)) : List Line :=
  if items.isEmpty then [keyed (renderString key) "[]".toList] else nested key items.flatten

/-- The lines of the interface of a workflow. -/
def interfaceLines (i : Interface) : List Line :=
  nested "interface"
    (listLines "inputs" (i.inputs.map InterfaceInput.itemLines) ++
      listLines "outputs" (i.outputs.map fun name => [outputLine name]))

/-- The lines of the variables of a workflow. -/
def variablesLines (vars : List (String × Yaml.Value)) : List Line :=
  if vars.isEmpty then [keyed "variables".toList "\x7b\x7d".toList]
  else nested "variables" (vars.flatMap fun (name, v) => field name v)

/-- The lines of a workflow as an item, given those of its nodes. -/
def workflowLines (name : String) (interface : Interface)
    (vars : List (String × Yaml.Value)) (nodes : List Line) : List Line :=
  ('-' :: ' ' :: keyed "name".toList (renderString name)) ::
    (interfaceLines interface ++ variablesLines vars ++ ["nodes:".toList]).map (·.deeper 2) ++
    Line.indentAll 4 nodes

/-- The line of the list of workflows with nothing behind its key, which is added when there is
none. -/
def ensureWorkflows (o : Outline) : Outline × Nat :=
  let (o, root) := match o.workflowsLine? with
    | some root => (o, root)
    | none => (o.insert o.size ["workflows:".toList], o.size)
  (if (o.value root).isEmpty then o else o.setLine root "workflows:".toList, root)

/-- Puts an item, given from column 0, behind another one in the list of workflows, or behind
all. -/
def insertWorkflow (o : Outline) (after : Option Nat) (item : List Line) : Outline :=
  let (o, root) := o.ensureWorkflows
  o.insert (o.blockEnd (after.getD root)) (Line.indentAll (o.itemDepth root 2) item)

end Outline

/-- The lines of a start node. -/
def startNodeLines (next : Option String) : List Line :=
  Outline.nested startId
    (Outline.field "opcode" (.str startOpcode) ++
      next.toList.flatMap fun id => Outline.field "next" (.str id))

namespace Draft

/-- Adds a workflow with a start node only, behind all others. -/
def createWorkflow (d : Draft) (name : String) : Except EditError Draft :=
  if (d.document.workflow? name).isSome then .error (.nameCollision name)
  else
    let item := Outline.workflowLines name {} [] (startNodeLines none)
    .ok (d.withOutline (d.outline.insertWorkflow none item))

/-- Renames a workflow and all calls of it. -/
def renameWorkflow (d : Draft) (old new : String) : Except EditError Draft := do
  let _ ← d.workflow old
  if old = new then .ok d
  else if (d.document.workflow? new).isSome then .error (.nameCollision new)
  else
    let i ← d.workflowLine old
    let o := d.outline.setScalar i "name" (Outline.renderString new)
    .ok (d.withOutline (o.mapLines 0 o.size (·.renameCall old new)))

/-- Removes a workflow. Calls of it stay. -/
def deleteWorkflow (d : Draft) (name : String) : Except EditError Draft := do
  let s ← d.workflowSpan name
  .ok (d.withOutline (d.outline.remove s.start s.stop))

end Draft

end BlockFlow
