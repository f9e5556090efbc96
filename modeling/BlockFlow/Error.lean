import BlockFlow.Document.Basic

/-!
What can be wrong with a document, with a selection of nodes, and with an edit, and how each is
reported.
-/

namespace BlockFlow

/-- Why a text is no workflow document. -/
inductive DocumentFault where
  | unreadable
  | topLevelNoMapping
  | workflowsNoList
  | workflowNoMapping
  | workflowUnnamed
  | interfaceNoMapping (workflow : String)
  | interfaceInputs (workflow : String)
  | interfaceOutputs (workflow : String)
  | variablesNoMapping (workflow : String)
  | nodesNoMapping (workflow : String)
  deriving DecidableEq, Repr

def DocumentFault.message : DocumentFault → String
  | .unreadable => "Failed to parse document"
  | .topLevelNoMapping => "top level must be a mapping with a 'workflows' list"
  | .workflowsNoList => "'workflows' must be a list"
  | .workflowNoMapping => "each workflow must be a mapping"
  | .workflowUnnamed => "workflow is missing a 'name'"
  | .interfaceNoMapping w => "interface of workflow '" ++ w ++ "' must be a mapping"
  | .interfaceInputs w => "interface inputs of workflow '" ++ w ++ "'"
  | .interfaceOutputs w => "interface outputs of workflow '" ++ w ++ "'"
  | .variablesNoMapping w => "variables of workflow '" ++ w ++ "' must be a mapping"
  | .nodesNoMapping w => "nodes of workflow '" ++ w ++ "' must be a mapping"

/-- What is wrong with the entry of a node. -/
inductive NodeFault where
  | entryNoMapping
  | opcodeMissing
  | inputsNoMapping
  | branchesNoMapping
  | noNodeId (field : String)
  | keyNoScalar
  | inputList (key : String)
  | variableNoString (key : String)
  | referenceNoString (key : String)
  | callUnnamed (key : String)
  | opcodeNoString (key : String)
  | idNoString (key : String)
  | valueUnrecognized (key : String)
  /-- The input uses a node that is reached through pointers. -/
  | chainNodeUsed (key id : String)
  deriving DecidableEq, Repr

def NodeFault.message : NodeFault → String
  | .entryNoMapping => "node entry must be a mapping"
  | .opcodeMissing => "missing 'opcode'"
  | .inputsNoMapping => "'inputs' must be a mapping"
  | .branchesNoMapping => "'branches' must be a mapping"
  | .noNodeId field => "'" ++ field ++ "' must be a node id"
  | .keyNoScalar => "mapping keys must be scalars"
  | .inputList key => "input '" ++ key ++ "' must be a scalar or a value block"
  | .variableNoString key => "input '" ++ key ++ "' has a non-string variable name"
  | .referenceNoString key => "input '" ++ key ++ "' has a non-string node reference"
  | .callUnnamed key => "input '" ++ key ++ "' names no workflow"
  | .opcodeNoString key => "reporter in input '" ++ key ++ "' has a non-string opcode"
  | .idNoString key => "reporter in input '" ++ key ++ "' has a non-string id"
  | .valueUnrecognized key => "input '" ++ key ++ "' has an unrecognized value block"
  | .chainNodeUsed key id => "input '" ++ key ++ "' uses chain node '" ++ id ++ "' as a reporter"

/-- Why a text has no tree. -/
inductive ParseError where
  | invalidDocument (fault : DocumentFault)
  | duplicateWorkflow (name : String)
  | missingStart (workflow : String)
  | unknownOpcode (node opcode : String)
  | danglingLink (node target : String)
  | cyclicReporter (node : String)
  | malformedInput (node : String) (fault : NodeFault)
  | unknownBranch (node branch : String)
  | unknownWorkflow (node workflow : String)
  deriving DecidableEq, Repr

namespace ParseError

def kind : ParseError → String
  | .invalidDocument _ => "InvalidDocument"
  | .duplicateWorkflow _ => "DuplicateWorkflow"
  | .missingStart _ => "MissingStart"
  | .unknownOpcode _ _ => "UnknownOpcode"
  | .danglingLink _ _ => "DanglingLink"
  | .cyclicReporter _ => "CyclicReporter"
  | .malformedInput _ _ => "MalformedInput"
  | .unknownBranch _ _ => "UnknownBranch"
  | .unknownWorkflow _ _ => "UnknownWorkflow"

def code : ParseError → String
  | .invalidDocument _ => "P001"
  | .duplicateWorkflow _ => "P002"
  | .missingStart _ => "P003"
  | .unknownOpcode _ _ => "P004"
  | .danglingLink _ _ => "P005"
  | .cyclicReporter _ => "P006"
  | .malformedInput _ _ => "P007"
  | .unknownBranch _ _ => "P008"
  | .unknownWorkflow _ _ => "P009"

/-- The node that the error is about. -/
def nodeId? : ParseError → Option String
  | .invalidDocument _ => none
  | .duplicateWorkflow _ => none
  | .missingStart _ => none
  | .unknownOpcode node _ => some node
  | .danglingLink node _ => some node
  | .cyclicReporter node => some node
  | .malformedInput node _ => some node
  | .unknownBranch node _ => some node
  | .unknownWorkflow node _ => some node

def message : ParseError → String
  | .invalidDocument fault => "Document is not a valid workflow document: " ++ fault.message
  | .duplicateWorkflow name => "Workflow '" ++ name ++ "' is defined more than once"
  | .missingStart workflow => "Workflow '" ++ workflow ++ "' has no start node"
  | .unknownOpcode node opcode => "Node '" ++ node ++ "' uses unknown opcode '" ++ opcode ++ "'"
  | .danglingLink node target => "Node '" ++ node ++ "' links to missing node '" ++ target ++ "'"
  | .cyclicReporter node => "Reporter '" ++ node ++ "' references one of its own ancestors"
  | .malformedInput node fault => "Node '" ++ node ++ "' is malformed: " ++ fault.message
  | .unknownBranch node branch =>
    "Node '" ++ node ++ "' has branch '" ++ branch ++ "' which its opcode does not define"
  | .unknownWorkflow node workflow =>
    "Node '" ++ node ++ "' calls unknown workflow '" ++ workflow ++ "'"

end ParseError

/-- Why a selection is no run that can be lifted out of its workflow. -/
inductive SelectionFault where
  | workflowNotFound (workflow : String)
  | nothingSelected
  | orphan (id : String)
  | notFound (id workflow : String)
  | startSelected (id : String)
  | gap (before after : String)
  | outsideRun (id branch owner : String)
  | partlySelected (owner : String)
  | noPredecessor
  deriving DecidableEq, Repr

def SelectionFault.message : SelectionFault → String
  | .workflowNotFound w => "Workflow '" ++ w ++ "' not found"
  | .nothingSelected => "No nodes selected"
  | .orphan id => "Node '" ++ id ++ "' is an orphan and not part of the chain"
  | .notFound id w => "Node '" ++ id ++ "' not found in workflow '" ++ w ++ "'"
  | .startSelected id => "Start node '" ++ id ++ "' cannot be extracted: it has no predecessor"
  | .gap before after =>
    "Selection is not contiguous: gap between '" ++ before ++ "' and '" ++ after ++ "'"
  | .outsideRun id branch owner =>
    "Branch leakage: '" ++ id ++ "' sits in branch " ++ branch ++ " of '" ++ owner ++
      "', outside the selected run"
  | .partlySelected owner =>
    "Branch leakage: branch contents of '" ++ owner ++ "' are only partly selected"
  | .noPredecessor => "Selection has no predecessor"

/-- The numbered things of a node. -/
inductive NumberedKind where
  | branches
  | inputs
  deriving DecidableEq, Repr

def NumberedKind.text : NumberedKind → String
  | .branches => "branches"
  | .inputs => "inputs"

/-- Why an edit fails. The text stays as it is then. -/
inductive EditError where
  | document (cause : ParseError)
  | workflowNotFound (name : String)
  | nodeNotFound (workflow node : String)
  | targetInputNotFound (node input : String)
  | wouldCreateCycle (source target : String)
  | linkNotFound (node : String) (slot : LinkSlot)
  | unknownBranch (node branch : String)
  | unknownOpcode (opcode : String)
  | notAnOrphan (node : String)
  | protectedNode (node : String)
  | nameCollision (name : String)
  | variableNotFound (name : String)
  | interfaceEntryNotFound (name : String)
  | notDynamic (node : String) (what : NumberedKind)
  | minimumSlots (node : String) (what : NumberedKind) (least : Nat)
  | invalidChain (faults : List SelectionFault)
  | corrupted (cause : ParseError)
  deriving DecidableEq, Repr

namespace EditError

def kind : EditError → String
  | .document _ => "Document"
  | .workflowNotFound _ => "WorkflowNotFound"
  | .nodeNotFound _ _ => "NodeNotFound"
  | .targetInputNotFound _ _ => "TargetInputNotFound"
  | .wouldCreateCycle _ _ => "WouldCreateCycle"
  | .linkNotFound _ _ => "LinkNotFound"
  | .unknownBranch _ _ => "UnknownBranch"
  | .unknownOpcode _ => "UnknownOpcode"
  | .notAnOrphan _ => "NotAnOrphan"
  | .protectedNode _ => "ProtectedNode"
  | .nameCollision _ => "NameCollision"
  | .variableNotFound _ => "VariableNotFound"
  | .interfaceEntryNotFound _ => "InterfaceEntryNotFound"
  | .notDynamic _ _ => "NotDynamic"
  | .minimumSlots _ _ _ => "MinimumSlots"
  | .invalidChain _ => "InvalidChain"
  | .corrupted _ => "Corrupted"

def code : EditError → String
  | .document _ => "E001"
  | .workflowNotFound _ => "E002"
  | .nodeNotFound _ _ => "E003"
  | .targetInputNotFound _ _ => "E004"
  | .wouldCreateCycle _ _ => "E005"
  | .linkNotFound _ _ => "E006"
  | .unknownBranch _ _ => "E007"
  | .unknownOpcode _ => "E008"
  | .notAnOrphan _ => "E009"
  | .protectedNode _ => "E010"
  | .nameCollision _ => "E011"
  | .variableNotFound _ => "E012"
  | .interfaceEntryNotFound _ => "E013"
  | .notDynamic _ _ => "E014"
  | .minimumSlots _ _ _ => "E015"
  | .invalidChain _ => "E016"
  | .corrupted _ => "E017"

/-- The node that the error is about. -/
def nodeId? : EditError → Option String
  | .document cause => cause.nodeId?
  | .nodeNotFound _ node => some node
  | .targetInputNotFound node _ => some node
  | .wouldCreateCycle source _ => some source
  | .linkNotFound node _ => some node
  | .unknownBranch node _ => some node
  | .notAnOrphan node => some node
  | .protectedNode node => some node
  | .notDynamic node _ => some node
  | .minimumSlots node _ _ => some node
  | _ => none

def message : EditError → String
  | .document cause => "Document could not be loaded: " ++ cause.message
  | .workflowNotFound name => "Workflow '" ++ name ++ "' not found"
  | .nodeNotFound workflow node =>
    "Node '" ++ node ++ "' not found in workflow '" ++ workflow ++ "'"
  | .targetInputNotFound node input => "Node '" ++ node ++ "' has no input '" ++ input ++ "'"
  | .wouldCreateCycle source target =>
    "Linking '" ++ source ++ "' to '" ++ target ++ "' would create a cycle"
  | .linkNotFound node slot =>
    "Node '" ++ node ++ "' has nothing connected on '" ++ slot.text ++ "'"
  | .unknownBranch node branch => "Node '" ++ node ++ "' has no branch '" ++ branch ++ "'"
  | .unknownOpcode opcode => "Unknown opcode '" ++ opcode ++ "'"
  | .notAnOrphan node => "Node '" ++ node ++ "' is not an orphan"
  | .protectedNode node => "Node '" ++ node ++ "' cannot be removed"
  | .nameCollision name => "'" ++ name ++ "' already exists"
  | .variableNotFound name => "Variable '" ++ name ++ "' not found"
  | .interfaceEntryNotFound name => "Interface entry '" ++ name ++ "' not found"
  | .notDynamic node what => "Node '" ++ node ++ "' has no dynamic " ++ what.text
  | .minimumSlots node what least =>
    "Node '" ++ node ++ "' must keep at least " ++ String.ofList (Text.decimalDigits least) ++
      " " ++ what.text
  | .invalidChain faults =>
    "Selection cannot be extracted: " ++ "; ".intercalate (faults.map SelectionFault.message)
  | .corrupted cause => "Edit produced an unreadable document: " ++ cause.message

/-- The messages shown to the user: one for each fault of a selection. -/
def messages : EditError → List String
  | .invalidChain faults => faults.map SelectionFault.message
  | e => [e.message]

end EditError

end BlockFlow
