import BlockFlow.Error
import BlockFlow.Yaml.Load

/-!
Loading workflow documents. A fault is reported against the node that has it.
-/

namespace BlockFlow

open Yaml (Value)

namespace Document

/-- The name that a scalar key stands for. -/
def keyName (owner : String) : Value → Except ParseError String
  | .str s => .ok s
  | .int i => .ok (Value.intText i)
  | .float x => .ok (Value.floatText x)
  | .bool b => .ok (Value.boolText b)
  | _ => .error (.malformedInput owner .keyNoScalar)

/-- The value of a key; a null counts as absent. -/
def field? (name : String) (entries : List (Value × Value)) : Option Value :=
  match Value.lookup name entries with
  | some .null => none
  | v => v

/-- The id of a reporter written in place. -/
def inlineId (owner key : String) (entries : List (Value × Value)) :
    Except ParseError (Option String) :=
  match field? "id" entries with
  | none => .ok none
  | some (.str id) => .ok (some id)
  | some _ => .error (.malformedInput owner (.idNoString key))

mutual

/-- Loads the value of the input `key` of `owner`. A mapping is told by the first of its keys in the
order literal, variable, node, workflow call, opcode; a scalar is a literal. -/
def loadValue (owner key : String) : Value → Except ParseError InputExpr
  | .map entries =>
    match Value.lookup "literal" entries with
    | some v => .ok (.literal v)
    | none =>
    match Value.lookup "variable" entries with
    | some (.str name) => .ok (.variable name)
    | some _ => .error (.malformedInput owner (.variableNoString key))
    | none =>
    match Value.lookup "node" entries with
    | some (.str id) => .ok (.node id)
    | some _ => .error (.malformedInput owner (.referenceNoString key))
    | none =>
    match Value.lookup "workflow_call" entries with
    | some (.str name) => do
      let args ← loadSection owner "args" entries
      .ok (.call name args)
    | some _ => .error (.malformedInput owner (.callUnnamed key))
    | none =>
    match Value.lookup "opcode" entries with
    | some (.str opcode) => do
      let id ← inlineId owner key entries
      let inputs ← loadSection (id.getD owner) "inputs" entries
      .ok (.inline id opcode inputs)
    | some _ => .error (.malformedInput owner (.opcodeNoString key))
    | none => .error (.malformedInput owner (.valueUnrecognized key))
  | .seq _ => .error (.malformedInput owner (.inputList key))
  | v => .ok (.literal v)

/-- Loads the inputs under the first entry called `name`; there are none when it is absent or
null. -/
def loadSection (owner name : String) : List (Value × Value) → Except ParseError Inputs
  | [] => .ok []
  | (k, .map entries) :: rest =>
    if k.isStr name then loadInputs owner entries else loadSection owner name rest
  | (k, .null) :: rest => if k.isStr name then .ok [] else loadSection owner name rest
  | (k, _) :: rest =>
    if k.isStr name then .error (.malformedInput owner .inputsNoMapping)
    else loadSection owner name rest

def loadInputs (owner : String) : List (Value × Value) → Except ParseError Inputs
  | [] => .ok []
  | (k, v) :: rest => do
    let key ← keyName owner k
    let value ← loadValue owner key v
    let more ← loadInputs owner rest
    .ok ((key, value) :: more)

end

/-- Loads a pointer. Null and the empty string point nowhere. -/
def loadPointer (node field : String) : Option Value → Except ParseError (Option String)
  | none => .ok none
  | some .null => .ok none
  | some (.str s) => .ok (if s.isEmpty then none else some s)
  | some _ => .error (.malformedInput node (.noNodeId field))

/-- Loads the heads of the branches of a node. -/
def loadBranches (node : String) (entries : List (Value × Value)) :
    Except ParseError (List (String × Option String)) :=
  entries.mapM fun (k, v) => do
    let name ← keyName node k
    let head ← loadPointer node name (some v)
    .ok (name, head)

/-- Loads the entry of the node `id`. -/
def loadNode (id : String) : Value → Except ParseError NodeDef
  | .map entries => do
    let opcode ← match Value.lookup "opcode" entries with
      | some (.str opcode) =>
        if opcode.isEmpty then .error (.malformedInput id .opcodeMissing) else .ok opcode
      | _ => .error (.malformedInput id .opcodeMissing)
    let inputs ← loadSection id "inputs" entries
    let next ← loadPointer id "next" (Value.lookup "next" entries)
    let branches ← match field? "branches" entries with
      | none => .ok []
      | some (.map heads) => loadBranches id heads
      | some _ => .error (.malformedInput id .branchesNoMapping)
    .ok ⟨id, opcode, inputs, next, branches⟩
  | _ => .error (.malformedInput id .entryNoMapping)

/-- Reads a string under any tags. -/
def string? (v : Value) : Option String :=
  match v.untagged with
  | .str s => some s
  | _ => none

/-- Reads a truth value under any tags. -/
def bool? (v : Value) : Option Bool :=
  match v.untagged with
  | .bool b => some b
  | _ => none

/-- The value of the only entry whose key reads as `name`. -/
def onlyField? (name : String) (entries : List (String × Value)) : Option (Option Value) :=
  match entries.filter (·.1 = name) with
  | [] => some none
  | [(_, v)] => some (some v)
  | _ => none

/-- Reads an interface input, a mapping. -/
def interfaceInput? (v : Value) : Option InterfaceInput :=
  match v.untagged with
  | .map entries => do
    let entries ← entries.mapM fun (k, v) => (string? k).map fun k => (k, v)
    let name ← (← onlyField? "name" entries).bind string?
    let type ← match ← onlyField? "type" entries with
      | none => some "any"
      | some v => string? v
    let required ← match ← onlyField? "required" entries with
      | none => some false
      | some v => bool? v
    some ⟨name, type, required⟩
  | _ => none

/-- Reads a list; an absent one is empty. -/
def listOf? {α : Type} (item? : Value → Option α) : Option Value → Option (List α)
  | none => some []
  | some v =>
    match v.untagged with
    | .seq items => items.mapM item?
    | .null => some []
    | _ => none

/-- Loads the interface of a workflow. -/
def loadInterface (workflow : String) : Option Value → Except ParseError Interface
  | none => .ok {}
  | some (.map entries) => do
    let inputs ← match listOf? interfaceInput? (field? "inputs" entries) with
      | some inputs => .ok inputs
      | none => .error (.invalidDocument (.interfaceInputs workflow))
    let outputs ← match listOf? string? (field? "outputs" entries) with
      | some outputs => .ok outputs
      | none => .error (.invalidDocument (.interfaceOutputs workflow))
    .ok ⟨inputs, outputs⟩
  | some _ => .error (.invalidDocument (.interfaceNoMapping workflow))

/-- Loads the variables of a workflow. -/
def loadVariables (workflow : String) : Option Value → Except ParseError (List (String × Value))
  | none => .ok []
  | some (.map entries) =>
    entries.mapM fun (k, v) => do
      let name ← keyName workflow k
      .ok (name, v)
  | some _ => .error (.invalidDocument (.variablesNoMapping workflow))

/-- Loads the nodes of a workflow. -/
def loadNodes (workflow : String) : Option Value → Except ParseError (List NodeDef)
  | none => .ok []
  | some (.map entries) =>
    entries.mapM fun (k, v) => do
      let id ← keyName workflow k
      loadNode id v
  | some _ => .error (.invalidDocument (.nodesNoMapping workflow))

/-- Loads a workflow. -/
def loadWorkflow : Value → Except ParseError Workflow
  | .map entries => do
    let name ← match Value.lookup "name" entries with
      | some (.str name) =>
        if name.isEmpty then .error (.invalidDocument .workflowUnnamed) else .ok name
      | _ => .error (.invalidDocument .workflowUnnamed)
    let interface ← loadInterface name (field? "interface" entries)
    let vars ← loadVariables name (field? "variables" entries)
    let nodes ← loadNodes name (field? "nodes" entries)
    .ok ⟨name, interface, vars, nodes⟩
  | _ => .error (.invalidDocument .workflowNoMapping)

/-- Loads workflows behind those in `done`; their names differ. -/
def loadWorkflows (done : List Workflow) : List Value → Except ParseError (List Workflow)
  | [] => .ok done
  | item :: rest => do
    let w ← loadWorkflow item
    if done.any (·.name = w.name) then .error (.duplicateWorkflow w.name)
    else loadWorkflows (done ++ [w]) rest

/-- Loads a document from its value. A null, and a mapping without workflows, is the empty
document. -/
def ofValue : Value → Except ParseError Document
  | .null => .ok ⟨[]⟩
  | .map entries =>
    match field? "workflows" entries with
    | none => .ok ⟨[]⟩
    | some (.seq items) => do
      let workflows ← loadWorkflows [] items
      .ok ⟨workflows⟩
    | some _ => .error (.invalidDocument .workflowsNoList)
  | _ => .error (.invalidDocument .topLevelNoMapping)

/-- Loads a document from its characters. -/
def ofChars (cs : List Char) : Except ParseError Document :=
  match Yaml.load? cs with
  | some v => ofValue v
  | none => .error (.invalidDocument .unreadable)

/-- Loads a document from its text. -/
def load (text : String) : Except ParseError Document := ofChars text.toList

end Document

end BlockFlow
