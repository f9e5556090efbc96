import BlockFlow.Edit.Input
import BlockFlow.Edit.Pointer

/-!
Moving orphans into inputs.
-/

namespace BlockFlow

namespace Workflow

mutual

/-- A value with references to orphans replaced by these orphans, where nothing else uses them and
they have not been taken in before. `take` writes such an orphan in place. The ids in `taken` are
those taken in so far. -/
def inlineValue (w : Workflow) (orphans : List String)
    (take : String → List String → InputExpr × List String) :
    InputExpr → List String → InputExpr × List String
  | .node id, taken =>
    if orphans.contains id && !taken.contains id && w.useCount id = 1 then take id taken
    else (.node id, taken)
  | .inline id opcode inputs, taken =>
    let (inputs, taken) := w.inlineEntries orphans take inputs taken
    (.inline id opcode inputs, taken)
  | .call workflow args, taken =>
    let (args, taken) := w.inlineEntries orphans take args taken
    (.call workflow args, taken)
  | e, taken => (e, taken)

def inlineEntries (w : Workflow) (orphans : List String)
    (take : String → List String → InputExpr × List String) :
    Inputs → List String → Inputs × List String
  | [], taken => ([], taken)
  | (key, e) :: rest, taken =>
    let (e, taken) := w.inlineValue orphans take e taken
    let (rest, taken) := w.inlineEntries orphans take rest taken
    ((key, e) :: rest, taken)

end

/-- Writes an orphan in place, with at most `jumps` others inside each other, and adds the orphans
taken in to `taken`. No orphan is taken in twice, so as many jumps as there are nodes are enough. -/
def inlineOrphan (w : Workflow) (orphans : List String) :
    (jumps : Nat) → String → List String → InputExpr × List String
  | 0, id, taken => (.node id, taken)
  | jumps + 1, id, taken =>
    match w.node? id with
    | none => (.node id, taken ++ [id])
    | some n =>
      let (inputs, taken) :=
        w.inlineEntries orphans (w.inlineOrphan orphans jumps) n.inputs (taken ++ [id])
      (.inline (some id) n.opcode inputs, taken)

end Workflow

namespace Draft

/-- Moves an orphan into an input of another node, along with the orphans that only it uses. Other
inputs that reference what is moved get default literals. -/
def convertOrphan (d : Draft) (workflow orphan target input : String) :
    Except EditError Draft := do
  let w ← d.workflow workflow
  let g ← graph w
  let _ ← node w orphan
  let orphans := w.orphanIds g
  if !orphans.contains orphan then .error (.notAnOrphan orphan)
  else
    let t ← node w target
    let accepted := (d.catalog.get? t.opcode).any (·.acceptsInput input)
    if !accepted && (t.input? input).isNone then .error (.targetInputNotFound target input)
    else
      let (e, moved) := w.inlineOrphan orphans (w.nodes.length + 1) orphan []
      if moved.contains target then .error (.wouldCreateCycle orphan target)
      else
        let d ← d.resetReferences w moved
        let i ← d.nodeLine workflow target
        let (o, inputs) := d.outline.ensureBlock i "inputs"
        let d := d.withOutline (o.setBlock inputs input (Outline.valueLines e.toYaml))
        let d ← d.clearInto g workflow moved fun _ => false
        d.removeNodes workflow moved

end Draft

end BlockFlow
