import BlockFlow.Catalog.Basic
import BlockFlow.Document.Load
import BlockFlow.LinkGraph
import BlockFlow.Outline.Change

/-!
A document while it is edited: what it was before the edit, and its outline as changed so far.
Blocks are looked up anew for each change, because lines move.
-/

namespace BlockFlow

structure Draft where
  catalog : Catalog
  /-- The document before the edit. -/
  document : Document
  outline : Outline
  deriving Inhabited

/-- What an edit leaves: the text, and the id of the node it made. -/
structure Edited where
  text : String
  nodeId : Option String
  deriving DecidableEq, Repr

namespace Draft

def ofChars (c : Catalog) (cs : List Char) : Except EditError Draft :=
  match Document.ofChars cs with
  | .ok d => .ok ⟨c, d, Outline.ofChars cs⟩
  | .error e => .error (.document e)

/-- The edited text, which must still be a document. -/
def finish (d : Draft) (nodeId : Option String) : Except EditError Edited :=
  let cs := d.outline.toChars
  match Document.ofChars cs with
  | .ok _ => .ok ⟨String.ofList cs, nodeId⟩
  | .error e => .error (.corrupted e)

def workflow (d : Draft) (name : String) : Except EditError Workflow :=
  match d.document.workflow? name with
  | some w => .ok w
  | none => .error (.workflowNotFound name)

/-- A node of a workflow. -/
def node (w : Workflow) (id : String) : Except EditError NodeDef :=
  match w.node? id with
  | some n => .ok n
  | none => .error (.nodeNotFound w.name id)

/-- The graph of a workflow. -/
def graph (w : Workflow) : Except EditError LinkGraph :=
  match LinkGraph.build w with
  | .ok g => .ok g
  | .error e => .error (.document e)

/-- The item of a workflow in the outline. -/
def workflowLine (d : Draft) (name : String) : Except EditError Nat :=
  match d.outline.workflowLine? name with
  | some i => .ok i
  | none => .error (.workflowNotFound name)

/-- The block of a workflow. -/
def workflowSpan (d : Draft) (name : String) : Except EditError Span := do
  let i ← d.workflowLine name
  .ok (d.outline.span i)

/-- The block of a node. -/
def nodeSpan (d : Draft) (workflow id : String) : Except EditError Span := do
  let i ← d.workflowLine workflow
  match d.outline.nodeSpan? i id with
  | some s => .ok s
  | none => .error (.nodeNotFound workflow id)

def nodeLine (d : Draft) (workflow id : String) : Except EditError Nat := do
  let s ← d.nodeSpan workflow id
  .ok s.start

/-- The draft with another outline. -/
def withOutline (d : Draft) (o : Outline) : Draft := { d with outline := o }

/-- Puts the block of a node, given from column 0, behind that of another node or behind all. -/
def insertNode (d : Draft) (workflow : String) (after : Option String) (block : List Line) :
    Except EditError Draft :=
  match after with
  | some id => do
    let s ← d.nodeSpan workflow id
    .ok (d.withOutline (d.outline.insert s.stop (Line.indentAll s.indent block)))
  | none => do
    let i ← d.workflowLine workflow
    let (o, nodes) := d.outline.ensureBlock i "nodes"
    .ok (d.withOutline
      (o.insert (o.blockEnd nodes) (Line.indentAll (o.entryDepth nodes) block)))

/-- Removes the blocks of nodes. -/
def removeNodes (d : Draft) (workflow : String) (ids : List String) : Except EditError Draft :=
  ids.foldlM (fun d id => do
    let s ← d.nodeSpan workflow id
    .ok (d.withOutline (d.outline.removeBlock s))) d

end Draft

end BlockFlow
