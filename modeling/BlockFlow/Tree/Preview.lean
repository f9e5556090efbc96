import BlockFlow.Tree.Basic

/-!
Previews of values on one line.
-/

namespace BlockFlow.Resolved

/-- The number of characters of a short preview. -/
def shortLength : Nat := 24

/-- A literal as shown: strings between quotes as they are, other values as compact JSON. -/
def literalPreview : Json → String
  | .str s => "\"" ++ s ++ "\""
  | j => j.compact

mutual

/-- The full preview, reporters inside included. -/
def longPreview : Resolved → String
  | .literal v => literalPreview v
  | .variable name => "$" ++ name
  | .reporter opcode _ inputs => opcode ++ "(" ++ ", ".intercalate (slotPreviews inputs) ++ ")"
  | .call workflow args =>
    "call " ++ workflow ++ "(" ++ ", ".intercalate (slotPreviews args) ++ ")"

def slotPreviews : Slots → List String
  | [] => []
  | (name, v) :: rest => (name ++ ": " ++ v.longPreview) :: slotPreviews rest

end

/-- Cuts a text to `limit` characters, the last of which is then an ellipsis. -/
def truncate (text : String) (limit : Nat) : String :=
  let cs := text.toList
  if cs.length ≤ limit then text else String.ofList (cs.take (limit - 1) ++ ['…'])

/-- A preview of at most `limit` characters, without what is inside reporters and calls. -/
def shortPreview (v : Resolved) (limit : Nat) : String :=
  let full := match v with
    | .reporter opcode _ _ => opcode ++ "(…)"
    | .call workflow _ => "call " ++ workflow ++ "(…)"
    | v => v.longPreview
  truncate full limit

end BlockFlow.Resolved
