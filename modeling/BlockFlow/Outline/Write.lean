import BlockFlow.Outline.Line
import BlockFlow.Text.Alphanumeric
import BlockFlow.Text.Quoted
import BlockFlow.Yaml.Tagged

/-!
Written form of values as blocks of lines: an entry a line, and collections that are not empty below
their key, two columns deeper. The lines stand at column 0.
-/

namespace BlockFlow.Outline

open Yaml (Value)

/-- The characters that a string written without quotes may have. -/
def isPlainChar (c : Char) : Bool :=
  Text.isAlphanumeric c || c = '_' || c = '-' || c = '.' || c = '/' || c = ' '

/-- Whether a text, written without quotes, is read as the string of the same characters. -/
def isPlain (cs : List Char) : Bool :=
  !cs.isEmpty && cs.head? ≠ some ' ' && cs.head? ≠ some '-' && cs.getLast? ≠ some ' ' &&
    cs.all isPlainChar && (Yaml.load? cs).any (·.isStr (String.ofList cs))

/-- A string without quotes where that is safe, and between quotes elsewhere. -/
def renderChars (cs : List Char) : Line := if isPlain cs then cs else Text.Quoted.encode cs

def renderString (s : String) : Line := renderChars s.toList

/-- The value on the line of its key; absent when it needs lines of its own. -/
def inline? : Value → Option Line
  | .null => some "null".toList
  | .bool b => some (Value.boolText b).toList
  | .int i => some (Value.intText i).toList
  | .float x => some (Value.floatText x).toList
  | .str s => some (renderString s)
  | .seq [] => some "[]".toList
  | .map [] => some "\x7b\x7d".toList
  | .tagged tag v => Yaml.Tagged.render? (.tagged tag v)
  | _ => none

/-- The value on one line, null when it does not fit. -/
def inlineOrNull (v : Value) : Line := (inline? v).getD "null".toList

/-- The key of an entry: strings as such, and other keys as the string of their text. -/
def renderKey : Value → Line
  | .str s => renderString s
  | key => renderChars ((inline? key).getD [])

/-- The line `key: text`. -/
def keyed (key text : Line) : Line := key ++ ':' :: ' ' :: text

/-- The lines of an entry whose value takes the lines `below` when it does not fit behind the
key. -/
def entryLines (key : Line) (v : Value) (below : List Line) : List Line :=
  match inline? v with
  | some text => [keyed key text]
  | none => (key ++ [':']) :: below.map (·.deeper 2)

/-- The lines of an item whose value takes the lines `below` when it does not fit behind the
dash. -/
def itemLines (v : Value) (below : List Line) : List Line :=
  match inline? v with
  | some text => ['-' :: ' ' :: text]
  | none =>
    match below with
    | [] => []
    | first :: rest => ('-' :: ' ' :: first) :: rest.map (·.deeper 2)

mutual

/-- The lines of a value by itself. -/
def valueLines : Value → List Line
  | .map entries => mappingLines entries
  | .seq items => sequenceLines items
  | v => [inlineOrNull v]

def mappingLines : List (Value × Value) → List Line
  | [] => []
  | (key, v) :: rest => entryLines (renderKey key) v (valueLines v) ++ mappingLines rest

def sequenceLines : List Value → List Line
  | [] => []
  | v :: rest => itemLines v (valueLines v) ++ sequenceLines rest

end

/-- The lines of an entry. -/
def field (key : String) (v : Value) : List Line :=
  entryLines (renderString key) v (valueLines v)

/-- The lines of a key with other lines below it. -/
def nested (key : String) (below : List Line) : List Line :=
  (renderString key ++ [':']) :: below.map (·.deeper 2)

/-- The lines of the entry `literal` with a value of one line. -/
def literalLine (v : Value) : Line := keyed "literal".toList (inlineOrNull v)

end BlockFlow.Outline
