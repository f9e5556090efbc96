import BlockFlow.Outline.Basic
import BlockFlow.Outline.Write

/-!
Changes of an outline. Each replaces some lines and leaves all others as they are.
-/

namespace BlockFlow.Outline

/-- Replaces the lines from `start` up to `stop`. -/
def splice (o : Outline) (start stop : Nat) (ls : List Line) : Outline :=
  { o with lines := o.lines.take start ++ ls ++ o.lines.drop stop }

def insert (o : Outline) (i : Nat) (ls : List Line) : Outline := o.splice i i ls

def remove (o : Outline) (start stop : Nat) : Outline := o.splice start stop []

def setLine (o : Outline) (i : Nat) (l : Line) : Outline := { o with lines := o.lines.set i l }

/-- The line `key: text` at a depth. -/
def entryLine (depth : Nat) (key : String) (text : Line) : Line :=
  (keyed (renderString key) text).deeper depth

/-- The line of a key without a value, at a depth. -/
def keyLine (depth : Nat) (key : String) : Line := (renderString key ++ [':']).deeper depth

/-- Puts a scalar under a key of the block at `i`, in place of the value it had. -/
def setScalar (o : Outline) (i : Nat) (key : String) (text : Line) : Outline :=
  match o.find? i key with
  | some j =>
    if j = i then
      o.setLine i (Line.deeper (o.depth i) ('-' :: ' ' :: keyed (renderString key) text))
    else o.splice j (o.blockEnd j) [entryLine (o.depth j) key text]
  | none => o.insert (o.blockEnd i) [entryLine (o.entryDepth i) key text]

/-- Puts lines, given from column 0, under a key of the block at `i`, in place of the value it
had. -/
def setBlock (o : Outline) (i : Nat) (key : String) (below : List Line) : Outline :=
  match o.findBelow? i key with
  | some j =>
    let d := o.depth j
    o.splice j (o.blockEnd j) (keyLine d key :: Line.indentAll (d + 2) below)
  | none =>
    let d := o.entryDepth i
    o.insert (o.blockEnd i) (keyLine d key :: Line.indentAll (d + 2) below)

/-- Puts a value under a key of the block at `i`. -/
def setValue (o : Outline) (i : Nat) (key : String) (v : Yaml.Value) : Outline :=
  match inline? v with
  | some text => o.setScalar i key text
  | none => o.setBlock i key (valueLines v)

/-- Gives an entry another key. -/
def renameKey (o : Outline) (i : Nat) (key : String) : Outline :=
  let dash := if (o.line i).isItem then ['-', ' '] else []
  let value := o.value i
  let entry := if value.isEmpty then renderString key ++ [':'] else keyed (renderString key) value
  o.setLine i (Line.deeper (o.depth i) (dash ++ entry))

/-- Removes an entry of the block at `i`. -/
def removeEntry (o : Outline) (i : Nat) (key : String) : Outline :=
  match o.findBelow? i key with
  | some j => o.remove j (o.blockEnd j)
  | none => o

/-- The lines of a collection that was written behind its key; anything else is dropped. -/
def expanded (written : Line) : List Line :=
  match Yaml.load? written with
  | some (.map entries) => mappingLines entries
  | some (.seq items) => sequenceLines items
  | _ => []

/-- The line of an entry of the block at `i` with nothing behind its key. It is added when it is
missing, and a collection behind the key moves below it. -/
def ensureBlock (o : Outline) (i : Nat) (key : String) : Outline × Nat :=
  match o.findBelow? i key with
  | some j =>
    let written := o.value j
    if written.isEmpty then (o, j)
    else
      let d := o.depth j
      (o.splice j (j + 1) (keyLine d key :: Line.indentAll (d + 2) (expanded written)), j)
  | none =>
    let i' := o.blockEnd i
    (o.insert i' [keyLine (o.entryDepth i) key], i')

/-- Writes an empty collection behind the key of an entry that nothing is left of. -/
def collapse (o : Outline) (i : Nat) (empty : Line) : Outline :=
  if o.blockEnd i = i + 1 && (o.value i).isEmpty then
    match (o.line i).key? with
    | some key => o.setLine i ((keyed (renderChars key) empty).deeper (o.depth i))
    | none => o
  else o

/-- Removes a block, and one of two blank lines that would meet. -/
def removeBlock (o : Outline) (s : Span) : Outline :=
  let isBlankLine (i : Nat) := (Text.trim (o.line i)).isEmpty
  if 0 < s.start && isBlankLine (s.start - 1) && s.stop < o.size && isBlankLine s.stop then
    o.remove s.start (s.stop + 1)
  else o.remove s.start s.stop

end BlockFlow.Outline
