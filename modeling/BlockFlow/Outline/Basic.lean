import BlockFlow.Outline.Line

/-!
A document as an outline of lines. A block is a line with the deeper lines below it; blank lines and
comments between them belong to it too, and so do the items of a list that stand no deeper than
their key. What a document holds is found from these blocks alone.
-/

namespace BlockFlow

structure Outline where
  lines : List Line
  /-- Whether the last line is ended. -/
  ended : Bool
  deriving DecidableEq, Repr, Inhabited

/-- Where a block stands: its lines from `start` up to `stop`, and its depth. -/
structure Span where
  start : Nat
  stop : Nat
  indent : Nat
  deriving DecidableEq, Repr

namespace Outline

def ofChars (cs : List Char) : Outline := ⟨Text.lines cs, Text.isEnded cs⟩

def toChars (o : Outline) : List Char :=
  if o.lines.isEmpty then []
  else Text.joinLines o.lines ++ if o.ended then ['\n'] else []

def size (o : Outline) : Nat := o.lines.length

def line (o : Outline) (i : Nat) : Line := o.lines.getD i []

/-- The lines from `start` up to `stop`. -/
def slice (o : Outline) (start stop : Nat) : List Line := (o.lines.drop start).take (stop - start)

/-- How deep a line stands, 0 for lines without content. -/
def depth (o : Outline) (i : Nat) : Nat := (o.line i).indent?.getD 0

/-- How many of the lines below a line at depth `base` belong to its block. Blank lines and comments
belong to it when a line with content behind them does. -/
def reach (base : Nat) (item : Bool) : List Line → Nat
  | [] => 0
  | l :: rest =>
    match l.indent? with
    | none =>
      match reach base item rest with
      | 0 => 0
      | n + 1 => n + 2
    | some d =>
      if base < d || (d = base && !item && l.isItem) then reach base item rest + 1 else 0

/-- The end of the block of a line. -/
def blockEnd (o : Outline) (i : Nat) : Nat :=
  match (o.line i).indent? with
  | none => i + 1
  | some base => i + 1 + reach base (o.line i).isItem (o.lines.drop (i + 1))

/-- The lines of a block below its first one. -/
def body (o : Outline) (i : Nat) : List Line := o.slice (i + 1) (o.blockEnd i)

/-- The lines of a block below its first one, with their indices. -/
def numberedBody (o : Outline) (i : Nat) : List (Line × Nat) := (o.body i).zipIdx (i + 1)

/-- The first line with content. -/
def firstContent? (ls : List Line) : Option Line := ls.find? (·.indent?.isSome)

/-- How deep the first line with content below `i` stands. -/
def bodyDepth? (o : Outline) (i : Nat) : Option Nat := (o.body i).findSome? (·.indent?)

/-- The depth of new entries below a line. -/
def entryDepth (o : Outline) (i : Nat) : Nat :=
  let base := o.depth i
  if (o.line i).isItem then base + 2
  else match firstContent? (o.body i) with
    | none => base + 2
    | some l =>
      let d := l.indent?.getD 0
      if base < d && !l.isItem then d else base + 2

/-- The entries at depth `column` among numbered lines. -/
def entriesAt (column : Nat) (ls : List (Line × Nat)) : List (Nat × Line) :=
  ls.filterMap fun (l, i) =>
    if l.indent? = some column && !l.isItem then l.key?.map fun key => (i, key) else none

/-- The entries right below a line, with their lines. The first entry of an item stands on its own
line. -/
def entries (o : Outline) (i : Nat) : List (Nat × Line) :=
  let l := o.line i
  if l.isItem then
    (l.itemKey?.map fun key => (i, key)).toList ++ entriesAt (o.depth i + 2) (o.numberedBody i)
  else match o.bodyDepth? i with
    | none => []
    | some column => entriesAt column (o.numberedBody i)

/-- The line of an entry right below a line. -/
def find? (o : Outline) (i : Nat) (key : String) : Option Nat :=
  ((o.entries i).find? (·.2 = key.toList)).map (·.1)

/-- The line of an entry right below a line, other than that line itself. -/
def findBelow? (o : Outline) (i : Nat) (key : String) : Option Nat :=
  (o.find? i key).filter (· ≠ i)

/-- The items of the list below a line. -/
def items (o : Outline) (i : Nat) : List Nat :=
  match o.bodyDepth? i with
  | none => []
  | some column => (o.numberedBody i).filterMap fun (l, j) =>
    if l.indent? = some column && l.isItem then some j else none

/-- The value behind the key of a line, empty when there is none. -/
def value (o : Outline) (i : Nat) : Line := (o.line i).value?.getD []

/-- The scalar behind the key of a line. -/
def scalar? (o : Outline) (i : Nat) : Option String := (o.line i).scalar?.map String.ofList

/-- The line of the list of workflows. -/
def workflowsLine? (o : Outline) : Option Nat :=
  o.lines.findIdx? fun l => l.indent? = some 0 && l.key? = some "workflows".toList

/-- The items of the list of workflows that have a name. -/
def workflowItems (o : Outline) : List (Nat × String) :=
  match o.workflowsLine? with
  | none => []
  | some root => (o.items root).filterMap fun item => do
    let i ← o.find? item "name"
    let name ← o.scalar? i
    some (item, name)

/-- The item of a workflow. -/
def workflowLine? (o : Outline) (name : String) : Option Nat :=
  (o.workflowItems.find? (·.2 = name)).map (·.1)

/-- The block of a line. -/
def span (o : Outline) (i : Nat) : Span := ⟨i, o.blockEnd i, o.depth i⟩

/-- The block of a node of the workflow whose item is at `item`. -/
def nodeSpan? (o : Outline) (item : Nat) (id : String) : Option Span := do
  let nodes ← o.find? item "nodes"
  let i ← o.find? nodes id
  some (o.span i)

end Outline

end BlockFlow
