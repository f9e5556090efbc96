import BlockFlow.Outline.Write
import BlockFlow.Yaml.Token

/-!
Values written in block style: an entry or an item a line, and what is inside a collection two
columns deeper. Scalars, and collections that are empty, stand behind their key or dash.
-/

namespace BlockFlow

open Yaml (Value Token)

namespace Form

/-- The characters of scalars without quotes. -/
def isTextChar (c : Char) : Bool :=
  Yaml.isAllowed c && (c = ' ' || !Text.isBlank c) && c ≠ ':' && c ≠ '#' &&
    c ≠ Char.ofNat 0xFEFF

/-- Whether a scalar without quotes is read whole. -/
def isPlainText : List Char → Bool
  | [] => false
  | c :: rest =>
    (!Yaml.Scanner.isIndicator c || (c = '-' && !Yaml.startsBlank rest)) && c ≠ ' ' &&
      (c :: rest).getLast? ≠ some ' ' && (c :: rest).all isTextChar &&
      (c :: rest).take 3 ≠ ['-', '-', '-'] && (c :: rest).take 3 ≠ ['.', '.', '.'] &&
      (Yaml.Plain.value? (c :: rest)).isSome

/-- The characters that are read back from between quotes. -/
def isQuotable (c : Char) : Bool := c.toNat < 32 || (Yaml.isAllowed c && !Yaml.isBreak c)

/-- Whether a key is a string when it stands before a colon without quotes. -/
def isKey (key : String) : Bool :=
  Outline.isPlain key.toList && key.toList.all Yaml.isAllowed && key.toList.head? ≠ some '.' &&
    (Yaml.Plain.value? key.toList).any (·.isStr key) && Text.byteWidth key.toList ≤ 1024

/-- The words that edits look for and write by themselves. -/
def ownWords : List String :=
  ["workflows", "name", "interface", "inputs", "outputs", "variables", "nodes", "start", "opcode",
    "workflow_start", "next", "branches", "literal", "variable"]

/-- They stand without quotes. -/
theorem isKey_ownWord {k : String} (h : k ∈ ownWords) : isKey k := by
  have hall : ∀ k ∈ ownWords, isKey k := by decide +kernel
  exact hall k h

/-- A scalar or an empty collection. -/
inductive Leaf where
  | plain (text : Line)
  | quoted (text : List Char)
  | noItems
  | noEntries
  deriving DecidableEq

namespace Leaf

def text : Leaf → Line
  | plain cs => cs
  | quoted cs => Text.Quoted.encode cs
  | noItems => ['[', ']']
  | noEntries => ['{', '}']

def value : Leaf → Value
  | plain cs => (Yaml.Plain.value? cs).getD .null
  | quoted cs => .str (String.ofList cs)
  | noItems => .seq []
  | noEntries => .map []

def tokens : Leaf → List Token
  | plain cs => [.scalar true cs]
  | quoted cs => [.scalar false cs]
  | noItems => [.flowSequenceStart, .flowSequenceEnd]
  | noEntries => [.flowMappingStart, .flowMappingEnd]

def isSound : Leaf → Bool
  | plain cs => isPlainText cs
  | quoted cs => cs.all isQuotable
  | noItems => true
  | noEntries => true

def height : Leaf → Nat
  | plain _ => 0
  | quoted _ => 0
  | noItems => 1
  | noEntries => 1

end Leaf

end Form

/-- A value as it is written. -/
inductive Form where
  | leaf (l : Form.Leaf)
  /-- Nothing at all, which is null. -/
  | bare
  | map (entries : List (String × Form))
  | seq (items : List Form)

namespace Form

/-- The lines of an entry, given those inside its value. -/
def entryLines (key : String) (f : Form) (inside : List Line) : List Line :=
  match f with
  | leaf l => [Outline.keyed key.toList l.text]
  | _ => (key.toList ++ [':']) :: inside.map (·.deeper 2)

/-- The lines of an item, given those inside it. -/
def itemLines (f : Form) (inside : List Line) : List Line :=
  match f, inside with
  | leaf l, _ => ['-' :: ' ' :: l.text]
  | _, [] => [['-']]
  | _, first :: rest => ('-' :: ' ' :: first) :: rest.map (·.deeper 2)

mutual

def lines : Form → List Line
  | leaf l => [l.text]
  | bare => []
  | map entries => mappingLines entries
  | seq items => sequenceLines items

def mappingLines : List (String × Form) → List Line
  | [] => []
  | (key, f) :: rest => entryLines key f f.lines ++ mappingLines rest

def sequenceLines : List Form → List Line
  | [] => []
  | f :: rest => itemLines f f.lines ++ sequenceLines rest

end

mutual

/-- What the written value is. -/
def value : Form → Value
  | leaf l => l.value
  | bare => .null
  | map entries => .map (entryValues entries)
  | seq items => .seq (itemValues items)

def entryValues : List (String × Form) → List (Value × Value)
  | [] => []
  | (key, f) :: rest => (.str key, f.value) :: entryValues rest

def itemValues : List Form → List Value
  | [] => []
  | f :: rest => f.value :: itemValues rest

end

mutual

/-- How deep collections are nested. -/
def height : Form → Nat
  | leaf l => l.height
  | bare => 0
  | map entries => entriesHeight entries + 1
  | seq items => itemsHeight items + 1

def entriesHeight : List (String × Form) → Nat
  | [] => 0
  | (_, f) :: rest => max f.height (entriesHeight rest)

def itemsHeight : List Form → Nat
  | [] => 0
  | f :: rest => max f.height (itemsHeight rest)

end

mutual

def tokens : Form → List Token
  | leaf l => l.tokens
  | bare => []
  | map entries => .blockMappingStart :: (entryTokens entries ++ [.blockEnd])
  | seq items => .blockSequenceStart :: (itemTokens items ++ [.blockEnd])

def entryTokens : List (String × Form) → List Token
  | [] => []
  | (key, f) :: rest => .key :: .scalar true key.toList :: .value :: (f.tokens ++ entryTokens rest)

def itemTokens : List Form → List Token
  | [] => []
  | f :: rest => .blockEntry :: (f.tokens ++ itemTokens rest)

end

mutual

/-- Whether a written value is read back: scalars and keys are read whole, keys are distinct, and
collections that span lines are not empty. -/
def isSound : Form → Bool
  | leaf l => l.isSound
  | bare => true
  | map entries => !entries.isEmpty && decide (entries.map (·.1)).Nodup && entriesSound entries
  | seq items => !items.isEmpty && itemsSound items

def entriesSound : List (String × Form) → Bool
  | [] => true
  | (key, f) :: rest => isKey key && f.isSound && entriesSound rest

def itemsSound : List Form → Bool
  | [] => true
  | f :: rest => f.isSound && itemsSound rest

end

end Form

end BlockFlow
