import BlockFlow.Edit.Deletion
import BlockFlow.Edit.Inlining
import BlockFlow.Edit.Lifting
import BlockFlow.Edit.Numbered

/-!
The edits of a document and what they do to its text.
-/

namespace BlockFlow

inductive Edit where
  | addNode (args : NewNode)
  | deleteNode (workflow node : String)
  | duplicateNode (workflow node : String)
  | connect (workflow source : String) (slot : LinkSlot) (target : String)
  | disconnect (workflow source : String) (slot : LinkSlot)
  | convertOrphan (workflow orphan target input : String)
  | deleteReporter (workflow node : String) (path : List String)
  | addVariable (workflow name : String) (value : Yaml.Value)
  | updateVariable (workflow name : String) (value : Yaml.Value)
  | renameVariable (workflow old new : String)
  | deleteVariable (workflow name : String)
  | addInterfaceInput (workflow : String) (input : InterfaceInput)
  | updateInterfaceInput (workflow name : String) (input : InterfaceInput)
  | removeInterfaceInput (workflow name : String)
  | addInterfaceOutput (workflow name : String)
  | removeInterfaceOutput (workflow name : String)
  | addBranch (workflow node : String)
  | removeBranch (workflow node branch : String)
  | addInput (workflow node : String)
  | removeInput (workflow node input : String)
  | createWorkflow (name : String)
  | renameWorkflow (old new : String)
  | deleteWorkflow (name : String)
  | extract (args : Extraction)
  deriving Inhabited

namespace Edit

/-- What is wrong with an edit whatever the text. -/
def check (c : Catalog) : Edit → Except EditError Unit
  | .addNode args =>
    if (c.get? args.opcode).isSome then .ok () else .error (.unknownOpcode args.opcode)
  | _ => .ok ()

/-- Carries out an edit, and gives the id of the node it makes, if any. -/
def run : Edit → Draft → Except EditError (Draft × Option String)
  | .addNode args, d => made (d.addNode args)
  | .deleteNode workflow node, d => changed (d.deleteNode workflow node)
  | .duplicateNode workflow node, d => made (d.duplicateNode workflow node)
  | .connect workflow source slot target, d => changed (d.connect workflow source slot target)
  | .disconnect workflow source slot, d => changed (d.disconnect workflow source slot)
  | .convertOrphan workflow orphan target input, d =>
    changed (d.convertOrphan workflow orphan target input)
  | .deleteReporter workflow node path, d => changed (d.deleteReporter workflow node path)
  | .addVariable workflow name value, d => changed (d.addVariable workflow name value)
  | .updateVariable workflow name value, d => changed (d.updateVariable workflow name value)
  | .renameVariable workflow old new, d => changed (d.renameVariable workflow old new)
  | .deleteVariable workflow name, d => changed (d.deleteVariable workflow name)
  | .addInterfaceInput workflow input, d => changed (d.addInterfaceInput workflow input)
  | .updateInterfaceInput workflow name input, d =>
    changed (d.updateInterfaceInput workflow name input)
  | .removeInterfaceInput workflow name, d => changed (d.removeInterfaceInput workflow name)
  | .addInterfaceOutput workflow name, d => changed (d.addInterfaceOutput workflow name)
  | .removeInterfaceOutput workflow name, d => changed (d.removeInterfaceOutput workflow name)
  | .addBranch workflow node, d => changed (d.addBranch workflow node)
  | .removeBranch workflow node branch, d => changed (d.removeBranch workflow node branch)
  | .addInput workflow node, d => changed (d.addInput workflow node)
  | .removeInput workflow node input, d => changed (d.removeInput workflow node input)
  | .createWorkflow name, d => (d.createWorkflow name).map fun d => (d, some startId)
  | .renameWorkflow old new, d => changed (d.renameWorkflow old new)
  | .deleteWorkflow name, d => changed (d.deleteWorkflow name)
  | .extract args, d => made (d.extract args)
where
  made (r : Except EditError (Draft × String)) : Except EditError (Draft × Option String) :=
    r.map fun (d, id) => (d, some id)
  changed (r : Except EditError Draft) : Except EditError (Draft × Option String) :=
    r.map fun d => (d, none)

/-- Applies an edit to the characters of a text. -/
def applyChars (c : Catalog) (e : Edit) (cs : List Char) : Except EditError Edited := do
  e.check c
  let d ← Draft.ofChars c cs
  let (d, id) ← e.run d
  d.finish id

/-- Applies an edit to a text. -/
def apply (c : Catalog) (e : Edit) (text : String) : Except EditError Edited :=
  e.applyChars c text.toList

end Edit

/-- The block of a node, or of a workflow when no node is given. -/
def locate (c : Catalog) (text workflow : String) (node : Option String) :
    Except EditError Span := do
  let d ← Draft.ofChars c text.toList
  match node with
  | some id => d.nodeSpan workflow id
  | none => d.workflowSpan workflow

end BlockFlow
