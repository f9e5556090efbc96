import BlockFlow.Edit.Input
import BlockFlow.Edit.Pointer

/-!
Removing nodes.
-/

namespace BlockFlow.Draft

/-- Removes a node with the contents of its branches and the reporters that only it uses. What led
to the node leads to its successor then. -/
def deleteNode (d : Draft) (workflow id : String) : Except EditError Draft := do
  let w ← d.workflow workflow
  let n ← node w id
  if n.opcode = startOpcode || w.startId? = some id then .error (.protectedNode id)
  else
    let g ← graph w
    let gone := w.removalSet g [id]
    let d ← gone.foldlM (fun d target =>
      d.setPointers workflow ((g.incoming target).filter fun p => !gone.contains p.1)
        (if target = id then n.next else none)) d
    let d ← d.resetReferences w gone
    d.removeNodes workflow gone

end BlockFlow.Draft
