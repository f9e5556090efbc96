import BlockFlow.Catalog.Builtin
import BlockFlow.Edit
import BlockFlow.Edit.Decode
import BlockFlow.Layout.Decode
import BlockFlow.Layout.Encode
import BlockFlow.Selection.Encode
import BlockFlow.Tree.Encode
import BlockFlow.Tree.Preview

/-!
What a user interface asks of the library. Structured arguments come as JSON text, and answers tell
all problems in one form. The catalog is the one built in.
-/

namespace BlockFlow.Frontend

open Json (Source ofList ofOption)

/-- The kind of work in which a problem arose. -/
inductive Phase where
  | parse
  | edit
  deriving DecidableEq, Repr

def Phase.text : Phase → String
  | .parse => "Parse"
  | .edit => "Edit"

/-- A problem as told to the user. -/
structure Problem where
  code : String
  phase : Phase
  message : String
  nodeId : Option String
  deriving DecidableEq, Repr

namespace Problem

/-- The problem of an argument that is not the JSON it should be. -/
def ofArgument (what : String) : Problem :=
  ⟨"P001", .parse, "Failed to parse " ++ what ++ " JSON", none⟩

def ofParse (e : ParseError) : Problem := ⟨e.code, .parse, e.message, e.nodeId?⟩

/-- The problems of an edit, one for each message. -/
def ofEdit (e : EditError) : List Problem :=
  let phase := match e with
    | .document _ => Phase.parse
    | _ => Phase.edit
  e.messages.map fun message => ⟨e.code, phase, message, e.nodeId?⟩

def toJson (p : Problem) : Json :=
  .obj [("code", .str p.code), ("phase", .str p.phase.text), ("message", .str p.message),
    ("nodeId", ofOption .str p.nodeId)]

end Problem

/-- The outcome of an edit. When it fails, the text is the one before. -/
structure Outcome where
  success : Bool
  text : String
  nodeId : Option String := none
  problems : List Problem := []
  deriving DecidableEq, Repr

def Outcome.toJson (o : Outcome) : Json :=
  .obj ([("success", .bool o.success), ("text", .str o.text)] ++
    (o.nodeId.toList.map fun id => ("nodeId", Json.str id)) ++
    [("errors", ofList Problem.toJson o.problems)])

/-- The answer to a question, or what stands in its way. -/
abbrev Answer (α : Type) := Except (List Problem) α

def Answer.toJson {α : Type} (encode : α → Json) : Answer α → Json
  | .ok a => .obj [("status", .str "success"), ("data", encode a)]
  | .error problems => .obj [("status", .str "errors"), ("data", ofList Problem.toJson problems)]

/-- Reads an argument. -/
def argument {α : Type} (what : String) (decode : Source → Option α) (json : String) :
    Except Problem α :=
  match (Source.parse? json.toList).bind decode with
  | some a => .ok a
  | none => .error (.ofArgument what)

/-- Reads an argument that may be left blank. -/
def blankOr {α : Type} (fallback : α) (what : String) (decode : Source → Option α)
    (json : String) : Answer α :=
  if (Text.trim json.toList).isEmpty then .ok fallback
  else (argument what decode json).mapError fun p => [p]

def tree (text : String) : Answer Tree :=
  (Tree.parse Catalog.builtin text).mapError fun e => [.ofParse e]

/-- The geometry of a text, with drag offsets and measures given as JSON. -/
def layout (text overrides config : String) : Answer (Geometry Float) := do
  let o ← blankOr {} "layout overrides" LayoutOverrides.decode? overrides
  let c ← blankOr LayoutConfig.standard "layout config" LayoutConfig.decode? config
  let t ← tree text
  .ok (t.layout c o)

/-- Examines a selection given as a JSON list of ids. -/
def validate (text workflow ids : String) : Answer Selection.Report := do
  let ids ← (argument "node ids" (·.list? Source.str?) ids).mapError fun p => [p]
  let t ← tree text
  .ok (Selection.report t workflow ids)

/-- Applies an edit. -/
def edit (text : String) (e : Edit) : Outcome :=
  match e.apply Catalog.builtin text with
  | .ok r => ⟨true, r.text, r.nodeId, []⟩
  | .error e => ⟨false, text, none, Problem.ofEdit e⟩

/-- Applies an edit that depends on an argument. -/
def editWith {α : Type} (text : String) (arg : Except Problem α) (make : α → Edit) : Outcome :=
  match arg with
  | .ok a => edit text (make a)
  | .error p => ⟨false, text, none, [p]⟩

def addNode (text args : String) : Outcome :=
  editWith text (argument "node" NewNode.decode? args) .addNode

/-- Clears an input along a path given as a JSON list of names. -/
def deleteReporter (text workflow node path : String) : Outcome :=
  editWith text (argument "input path" (·.list? Source.str?) path) (.deleteReporter workflow node)

def extract (text args : String) : Outcome :=
  editWith text (argument "extraction" Extraction.decode? args) .extract

/-- The pointer of a branch, or `next` when no branch is given. -/
def slotOf : Option String → LinkSlot
  | some name => .branch name
  | none => .next

end BlockFlow.Frontend
