import BlockFlow.Edit.Draft

/-!
Editing the interface of a workflow.
-/

namespace BlockFlow

/-- The lines of an interface input as an item. -/
def InterfaceInput.itemLines (i : InterfaceInput) : List Line :=
  ['-' :: ' ' :: Outline.keyed "name".toList (Outline.renderString i.name),
    ' ' :: ' ' :: Outline.keyed "type".toList (Outline.renderString i.type),
    ' ' :: ' ' :: Outline.keyed "required".toList (Yaml.Value.boolText i.required).toList]

/-- The line of an interface output as an item. -/
def outputLine (name : String) : Line := '-' :: ' ' :: Outline.renderString name

namespace Outline

/-- What an item is called: by its entry `name`, or by the scalar it is. -/
def itemName? (o : Outline) (item : Nat) : Option String :=
  ((o.find? item "name").bind o.scalar?).or ((o.line item).itemScalar?.map String.ofList)

/-- The first item of the list at a line with the given name. -/
def findItem? (o : Outline) (list : Nat) (name : String) : Option Nat :=
  (o.items list).find? fun item => o.itemName? item = some name

/-- How deep the items of the list at a line stand. -/
def itemDepth (o : Outline) (list : Nat) (otherwise : Nat) : Nat :=
  ((o.items list).head?.bind fun item => (o.line item).indent?).getD otherwise

/-- Puts an item, given from column 0, behind those of the list at a line. -/
def appendItem (o : Outline) (list : Nat) (item : List Line) : Outline :=
  o.insert (o.blockEnd list) (Line.indentAll (o.itemDepth list (o.depth list + 2)) item)

end Outline

namespace Draft

/-- The line of a list of the interface of a workflow. -/
def interfaceList (d : Draft) (workflow list : String) : Except EditError (Draft × Nat) := do
  let i ← d.workflowLine workflow
  let (o, interface) := d.outline.ensureBlock i "interface"
  let (o, line) := o.ensureBlock interface list
  .ok (d.withOutline o, line)

/-- The line of a list of the interface, and of its item with the given name. -/
def interfaceItem (d : Draft) (workflow list name : String) :
    Except EditError (Draft × Nat × Nat) := do
  let (d, line) ← d.interfaceList workflow list
  match d.outline.findItem? line name with
  | some item => .ok (d, line, item)
  | none => .error (.interfaceEntryNotFound name)

def addInterfaceInput (d : Draft) (workflow : String) (input : InterfaceInput) :
    Except EditError Draft := do
  let w ← d.workflow workflow
  if w.interface.inputs.any (·.name = input.name) then .error (.nameCollision input.name)
  else
    let (d, list) ← d.interfaceList workflow "inputs"
    .ok (d.withOutline (d.outline.appendItem list input.itemLines))

def updateInterfaceInput (d : Draft) (workflow name : String) (input : InterfaceInput) :
    Except EditError Draft := do
  let w ← d.workflow workflow
  let has (name : String) := w.interface.inputs.any (·.name = name)
  if !has name then .error (.interfaceEntryNotFound name)
  else if input.name ≠ name && has input.name then .error (.nameCollision input.name)
  else
    let (d, _, item) ← d.interfaceItem workflow "inputs" name
    let s := d.outline.span item
    .ok (d.withOutline
      (d.outline.splice s.start s.stop (Line.indentAll s.indent input.itemLines)))

def addInterfaceOutput (d : Draft) (workflow name : String) : Except EditError Draft := do
  let w ← d.workflow workflow
  if w.interface.outputs.contains name then .error (.nameCollision name)
  else
    let (d, list) ← d.interfaceList workflow "outputs"
    .ok (d.withOutline (d.outline.appendItem list [outputLine name]))

/-- Removes an item of a list of the interface. -/
def removeInterfaceItem (d : Draft) (workflow list name : String) : Except EditError Draft := do
  let (d, line, item) ← d.interfaceItem workflow list name
  let o := d.outline.remove item (d.outline.blockEnd item)
  .ok (d.withOutline (o.collapse line "[]".toList))

def removeInterfaceInput (d : Draft) (workflow name : String) : Except EditError Draft := do
  let w ← d.workflow workflow
  if w.interface.inputs.any (·.name = name) then d.removeInterfaceItem workflow "inputs" name
  else .error (.interfaceEntryNotFound name)

def removeInterfaceOutput (d : Draft) (workflow name : String) : Except EditError Draft := do
  let w ← d.workflow workflow
  if w.interface.outputs.contains name then d.removeInterfaceItem workflow "outputs" name
  else .error (.interfaceEntryNotFound name)

end Draft

end BlockFlow
