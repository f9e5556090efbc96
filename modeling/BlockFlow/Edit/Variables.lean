import BlockFlow.Edit.Draft

/-!
Editing the variables of a workflow.
-/

namespace BlockFlow

namespace Line

/-- Renames the variable in `variable: old`, or in `key: {variable: old}`. -/
def renameVariable (old new : String) (l : Line) : Line :=
  let depth := l.indent?.getD 0
  match l.key? with
  | none => l
  | some key =>
    if key = "variable".toList then
      if l.scalar? = some old.toList then
        deeper depth (Outline.keyed "variable".toList (Outline.renderString new))
      else l
    else match l.flowMapping? with
      | some [(.str "variable", .str name)] =>
        if name = old then
          let flow := "\x7bvariable: ".toList ++ Outline.renderString new ++ "\x7d".toList
          deeper depth (Outline.keyed (Outline.renderChars key) flow)
        else l
      | _ => l

end Line

namespace Outline

/-- Changes each line from `start` up to `stop` by itself. -/
def mapLines (o : Outline) (start stop : Nat) (f : Line → Line) : Outline :=
  o.splice start stop ((o.slice start stop).map f)

end Outline

namespace Draft

/-- The line of the variables of a workflow. -/
def variablesLine (d : Draft) (workflow : String) : Except EditError (Draft × Nat) := do
  let i ← d.workflowLine workflow
  let (o, vars) := d.outline.ensureBlock i "variables"
  .ok (d.withOutline o, vars)

/-- Puts a value under the name of a variable. -/
def writeVariable (d : Draft) (workflow name : String) (v : Yaml.Value) :
    Except EditError Draft := do
  let (d, vars) ← d.variablesLine workflow
  .ok (d.withOutline (d.outline.setValue vars name v))

def addVariable (d : Draft) (workflow name : String) (v : Yaml.Value) :
    Except EditError Draft := do
  let w ← d.workflow workflow
  if (w.valueOf? name).isSome then .error (.nameCollision name)
  else d.writeVariable workflow name v

def updateVariable (d : Draft) (workflow name : String) (v : Yaml.Value) :
    Except EditError Draft := do
  let w ← d.workflow workflow
  if (w.valueOf? name).isNone then .error (.variableNotFound name)
  else d.writeVariable workflow name v

/-- Whether the assigning input of a node holds a name, and which input that is. -/
def assignedInput? (d : Draft) (n : NodeDef) (name : String) : Option String := do
  let spec ← d.catalog.get? n.opcode
  let param ← spec.assigns
  match n.input? param with
  | some (.literal (.str held)) => if held = name then some param else none
  | _ => none

/-- Writes a name into the assigning inputs that hold `old`. -/
def reassign (d : Draft) (w : Workflow) (old new : String) : Except EditError Draft :=
  w.nodes.foldlM (fun d n =>
    match d.assignedInput? n old with
    | none => .ok d
    | some param => do
      let i ← d.nodeLine w.name n.id
      let (o, inputs) := d.outline.ensureBlock i "inputs"
      .ok (d.withOutline (o.setBlock inputs param [Outline.literalLine (.str new)]))) d

/-- Renames a variable where it is declared, where it is read and where it is written. -/
def renameVariable (d : Draft) (workflow old new : String) : Except EditError Draft := do
  let w ← d.workflow workflow
  if (w.valueOf? old).isNone then .error (.variableNotFound old)
  else if old = new then .ok d
  else if (w.valueOf? new).isSome then .error (.nameCollision new)
  else
    let (d, vars) ← d.variablesLine workflow
    let o := match d.outline.find? vars old with
      | some i => d.outline.renameKey i new
      | none => d.outline
    let d := d.withOutline o
    let s ← d.workflowSpan workflow
    let d := d.withOutline (o.mapLines s.start s.stop (·.renameVariable old new))
    d.reassign w old new

/-- Removes a variable. What refers to it stays. -/
def deleteVariable (d : Draft) (workflow name : String) : Except EditError Draft := do
  let w ← d.workflow workflow
  if (w.valueOf? name).isNone then .error (.variableNotFound name)
  else
    let (d, vars) ← d.variablesLine workflow
    .ok (d.withOutline ((d.outline.removeEntry vars name).collapse vars "\x7b\x7d".toList))

end Draft

end BlockFlow
