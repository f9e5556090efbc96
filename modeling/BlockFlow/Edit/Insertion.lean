import BlockFlow.Edit.Pointer
import BlockFlow.FreshId

/-!
Adding and copying nodes.
-/

namespace BlockFlow

/-- A node to be added. -/
structure NewNode where
  workflow : String
  opcode : String
  /-- The pointer that shall lead to it. When absent, the end of the main chain. -/
  after : Option (String × LinkSlot) := none
  /-- The node it shall lead to. When absent, the one that the pointer led to. -/
  successor : Option String := none
  deriving DecidableEq, Repr, Inhabited

namespace Workflow

/-- The last node that `next` pointers lead to from a node, before they come to a node again. -/
def lastFrom (w : Workflow) : (fuel : Nat) → (seen : List String) → String → String
  | 0, _, id => id
  | fuel + 1, seen, id =>
    match (w.node? id).bind (·.next) with
    | none => id
    | some next => if seen.contains next then id else lastFrom w fuel (next :: seen) next

/-- The last node of the main chain. The walk ends at an id that is no node, or comes to a node
again, after as many steps as there are nodes. -/
def chainEnd? (w : Workflow) : Option String :=
  w.startId?.map fun start => w.lastFrom w.nodes.length [start] start

end Workflow

/-- The lines of a new node: its inputs hold default literals. -/
def OpcodeSpec.nodeLines (spec : OpcodeSpec) (id : String) (successor : Option String) :
    List Line :=
  let declared := spec.params.map fun p => (p.name, p.type)
  let numbered := match spec.numberedInputs with
    | some n => (List.range n.least).map fun i => (numberedName n.stem (i + 1), n.type)
    | none => []
  let inputs := (declared ++ numbered).flatMap fun (name, type) =>
    Outline.nested name (Outline.field "literal" (defaultLiteral type))
  Outline.nested id
    (Outline.field "opcode" (.str spec.opcode) ++
      (if inputs.isEmpty then [] else Outline.nested "inputs" inputs) ++
      successor.toList.flatMap fun next => Outline.field "next" (.str next))

namespace InputExpr

mutual

/-- The value with new ids for the reporters written in place that have one, outer ones first. -/
def withNewIds (d : Document) : InputExpr → IdSource → InputExpr × IdSource
  | .inline id opcode inputs, s =>
    let (id, s) := match id with
      | none => (none, s)
      | some _ =>
        let (id, s) := s.take d opcode
        (some id, s)
    let (inputs, s) := entriesWithNewIds d inputs s
    (.inline id opcode inputs, s)
  | .call workflow args, s =>
    let (args, s) := entriesWithNewIds d args s
    (.call workflow args, s)
  | e, s => (e, s)

def entriesWithNewIds (d : Document) : Inputs → IdSource → Inputs × IdSource
  | [], s => ([], s)
  | (key, e) :: rest, s =>
    let (e, s) := e.withNewIds d s
    let (rest, s) := entriesWithNewIds d rest s
    ((key, e) :: rest, s)

end

end InputExpr

/-- The lines of a node without pointers. -/
def unlinkedNodeLines (id opcode : String) (inputs : Inputs) : List Line :=
  Outline.nested id
    (Outline.field "opcode" (.str opcode) ++
      if inputs.isEmpty then [] else Outline.field "inputs" (inputsToYaml inputs))

namespace Draft

/-- The pointer that shall lead to a new node. -/
def insertionPoint (d : Draft) (w : Workflow) (args : NewNode) :
    Except EditError (Option (String × LinkSlot)) :=
  match args.after with
  | none => .ok (w.chainEnd?.map fun id => (id, LinkSlot.next))
  | some (id, slot) => do
    let n ← node w id
    d.checkSlot n slot
    .ok (some (id, slot))

/-- Adds a node between the target of a pointer and what that pointer led to. -/
def addNode (d : Draft) (args : NewNode) : Except EditError (Draft × String) :=
  match d.catalog.get? args.opcode with
  | none => .error (.unknownOpcode args.opcode)
  | some spec => do
    let w ← d.workflow args.workflow
    let point ← d.insertionPoint w args
    args.successor.toList.forM fun id => (node w id).map fun _ => ()
    let successor := args.successor.or (point.bind fun (id, slot) => w.pointer? id slot)
    let (id, _) := IdSource.take {} d.document args.opcode
    let d ← d.insertNode w.name (point.map (·.1)) (spec.nodeLines id successor)
    let d ← d.setPointers w.name point.toList (some id)
    .ok (d, id)

/-- Copies a node, without its pointers, right behind it. -/
def duplicateNode (d : Draft) (workflow id : String) : Except EditError (Draft × String) := do
  let w ← d.workflow workflow
  let n ← node w id
  if n.opcode = startOpcode then .error (.protectedNode id)
  else
    let (copy, ids) := IdSource.take {} d.document n.opcode
    let (inputs, _) := InputExpr.entriesWithNewIds d.document n.inputs ids
    let d ← d.insertNode workflow (some id) (unlinkedNodeLines copy n.opcode inputs)
    .ok (d, copy)

end Draft

end BlockFlow
