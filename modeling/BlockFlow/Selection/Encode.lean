import BlockFlow.Selection.Run
import BlockFlow.Selection.Variables

/-!
What is known of a selection, in JSON.
-/

namespace BlockFlow.Selection

open Json (ofOption ofStrings)

def Report.toJson (r : Report) : Json :=
  .obj [("isValid", .bool r.isValid), ("orderedNodeIds", ofStrings r.orderedIds),
    ("nestedIds", ofStrings r.nestedIds), ("firstId", ofOption .str r.firstId),
    ("lastId", ofOption .str r.lastId), ("predecessorId", ofOption .str r.predecessorId),
    ("successorId", ofOption .str r.successorId),
    ("errors", ofStrings (r.faults.map SelectionFault.message))]

def Variables.toJson (v : Variables) : Json :=
  .obj [("inputs", ofStrings v.inputs), ("outputs", ofStrings v.outputs),
    ("locals", ofStrings v.locals)]

end BlockFlow.Selection
