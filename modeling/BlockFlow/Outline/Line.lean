import BlockFlow.Text.Blank
import BlockFlow.Text.Lines
import BlockFlow.Yaml.Load

/-!
What one line of a document says by itself: how deep it stands, whether it is an item of a list, and
its key and value.
-/

namespace BlockFlow

abbrev Line := List Char

namespace Line

/-- The depth of a line in bytes. Empty lines and comments have none. -/
def indent? (l : Line) : Option Nat :=
  match Text.trimStart l with
  | [] => none
  | '#' :: _ => none
  | _ => some (Text.byteWidth (l.takeWhile Text.isBlank))

/-- Whether a text without blanks at the front starts an item. -/
def startsItem : Line → Bool
  | ['-'] => true
  | '-' :: ' ' :: _ => true
  | _ => false

/-- Whether the line is an item of a list. -/
def isItem (l : Line) : Bool := startsItem (Text.trimStart l)

/-- Splits `"key": value`, with either quote. Nothing inside the quotes is escaped. -/
def quotedPair? (quote : Char) (rest : Line) : Option (Line × Line) := do
  let (key, rest) ← Text.splitFirst? [quote] rest
  let value ← Text.dropStem? [':'] rest
  some (key, Text.trim value)

/-- Splits around the first colon that a space follows, or else before one at the end. -/
def splitColon? (l : Line) : Option (Line × Line) :=
  match Text.splitFirst? [':', ' '] l with
  | some parts => some parts
  | none => if l.getLast? = some ':' then some (l.dropLast, []) else none

/-- Splits `key: value`. Flow collections, comments and items are no entries. -/
def pair? (l : Line) : Option (Line × Line) :=
  match l with
  | [] => none
  | '"' :: rest => quotedPair? '"' rest
  | '\'' :: rest => quotedPair? '\'' rest
  | '{' :: _ => none
  | '[' :: _ => none
  | '#' :: _ => none
  | _ =>
    if startsItem l then none
    else do
      let (key, value) ← splitColon? l
      let key := Text.trimEnd key
      if key.isEmpty then none else some (key, Text.trim value)

/-- Cuts a comment off a value. A quoted value has none. -/
def dropComment (value : Line) : Line :=
  match value with
  | '"' :: _ => value
  | '\'' :: _ => value
  | _ =>
    match Text.splitFirst? [' ', '#'] value with
    | some (value, _) => Text.trimEnd value
    | none => value

/-- The key of an entry. -/
def key? (l : Line) : Option Line := (pair? (Text.trimStart l)).map (·.1)

/-- The key of the entry that stands on the line of an item. -/
def itemKey? (l : Line) : Option Line :=
  (pair? (Text.trimStart ((Text.trimStart l).drop 1))).map (·.1)

/-- The value as written behind the key, also on the line of an item. -/
def value? (l : Line) : Option Line :=
  let entry := Text.trimStart l
  let entry := (Text.dropStem? ['-', ' '] entry).getD entry
  (pair? entry).map fun (_, value) => dropComment value

/-- The scalar behind the key as text; absent when there is none or it is null. What is no scalar
stays as written. -/
def scalar? (l : Line) : Option Line := do
  let written ← l.value?
  if written.isEmpty then none
  else match Yaml.load? written with
    | some .null => none
    | some (.str s) => some s.toList
    | some (.int i) => some (Yaml.Value.intText i).toList
    | some (.float x) => some (Yaml.Value.floatText x).toList
    | some (.bool b) => some (Yaml.Value.boolText b).toList
    | _ => some written

/-- The string or number that an item holds, as text. -/
def itemScalar? (l : Line) : Option Line := do
  let written ← Text.dropStem? ['-'] (Text.trimStart l)
  match Yaml.load? (dropComment (Text.trim written)) with
  | some (.str s) => some s.toList
  | some (.int i) => some (Yaml.Value.intText i).toList
  | some (.float x) => some (Yaml.Value.floatText x).toList
  | _ => none

/-- The mapping written behind the key in one flow. -/
def flowMapping? (l : Line) : Option (List (Yaml.Value × Yaml.Value)) := do
  let written ← l.value?
  if written.head? ≠ some '{' then none
  else match Yaml.load? written with
    | some (.map entries) => some entries
    | _ => none

/-- The line `by_` columns deeper. -/
def deeper (by_ : Nat) (l : Line) : Line := Text.spaces by_ ++ l

/-- Moves lines to the right; empty lines stay empty. -/
def indentAll (by_ : Nat) (ls : List Line) : List Line :=
  ls.map fun l => if l.isEmpty then l else l.deeper by_

/-- How deep the first line with anything on it stands. -/
def depthOf : List Line → Nat
  | [] => 0
  | l :: rest =>
    if (Text.trimStart l).isEmpty then depthOf rest
    else Text.byteWidth (l.takeWhile Text.isBlank)

/-- Moves a block so that its first line stands at the given column. Lines that stand before that
one come to the same column, and blank lines become empty. -/
def reindent (column : Nat) (ls : List Line) : List Line :=
  let base := depthOf ls
  ls.map fun l =>
    let content := Text.trimStart l
    if content.isEmpty then []
    else deeper (column + (Text.byteWidth (l.takeWhile Text.isBlank) - base)) content

end Line

end BlockFlow
