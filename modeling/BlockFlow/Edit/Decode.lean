import BlockFlow.Edit.Lifting
import BlockFlow.Json.Decode

/-!
Reading the arguments of edits out of JSON.
-/

namespace BlockFlow

open Json

/-- Reads the name of a kind: the name, or an object whose only member, of that name, is null. -/
def kindName? : Source → Option String
  | .str (some name) => some name
  | .obj [(some name, .null)] => some name
  | _ => none

/-- The pointer of a kind. Branches have a name, and nothing else has. -/
def LinkSlot.ofKind? (kind : String) : Option Source → Option LinkSlot
  | none => if kind = "next" then some .next else none
  | some .null => if kind = "next" then some .next else none
  | some (.str (some name)) => if kind = "branch" then some (.branch name) else none
  | _ => none

/-- Reads a pointer: an object with a kind and perhaps a name, or the array of both. -/
def LinkSlot.decode? : Source → Option LinkSlot
  | .obj members => do
    let members ← members.mapM fun (key, value) => key.map fun k => (k, value)
    match Source.valuesOf members "kind", Source.valuesOf members "name" with
    | [kind], [] => ofKind? (← kindName? kind) none
    | [kind], [name] => ofKind? (← kindName? kind) (some name)
    | _, _ => none
  | .arr [kind, name] => do ofKind? (← kindName? kind) (some name)
  | _ => none

/-- Reads a pointer with the node that has it. -/
def insertionPoint? (s : Source) : Option (String × LinkSlot) := do
  match ← s.fields? ["nodeId", "slot"] with
  | [id, slot] => some (← required? Source.str? id, ← required? LinkSlot.decode? slot)
  | _ => none

def NewNode.decode? (s : Source) : Option NewNode := do
  match ← s.fields? ["workflow", "opcode", "after", "successor"] with
  | [workflow, opcode, after, successor] =>
    some
      { workflow := ← required? Source.str? workflow
        opcode := ← required? Source.str? opcode
        after := ← orElse? none (·.nullable? insertionPoint?) after
        successor := ← orElse? none (·.nullable? Source.str?) successor }
  | _ => none

def InterfaceInput.decode? (s : Source) : Option InterfaceInput := do
  match ← s.fields? ["name", "type", "required"] with
  | [name, type, required] =>
    some ⟨← required? Source.str? name, ← orElse? "any" Source.str? type,
      ← orElse? false Source.bool? required⟩
  | _ => none

def Interface.decode? (s : Source) : Option Interface := do
  match ← s.fields? ["inputs", "outputs"] with
  | [inputs, outputs] =>
    some ⟨← orElse? [] (·.list? InterfaceInput.decode?) inputs,
      ← orElse? [] (·.list? Source.str?) outputs⟩
  | _ => none

def Extraction.decode? (s : Source) : Option Extraction := do
  match ← s.fields? ["workflow", "nodeIds", "newName", "interface"] with
  | [workflow, nodeIds, newName, interface] =>
    some
      { workflow := ← required? Source.str? workflow
        nodeIds := ← required? (·.list? Source.str?) nodeIds
        newName := ← required? Source.str? newName
        interface := ← orElse? none (·.nullable? Interface.decode?) interface }
  | _ => none

end BlockFlow
