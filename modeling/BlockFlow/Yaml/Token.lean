/-!
The tokens of YAML. Indentation shows as start and end tokens.
-/

namespace BlockFlow.Yaml

/-- The characters of a tag, absent where an escape spells none. -/
abbrev Tag := List (Option Char)

inductive Token where
  | version (major minor : Nat)
  /-- A tag shorthand: `handle` stands for `stem`. -/
  | shorthand (handle : List Char) (stem : Tag)
  | documentStart
  | documentEnd
  | blockSequenceStart
  | blockMappingStart
  | blockEnd
  | flowSequenceStart
  | flowSequenceEnd
  | flowMappingStart
  | flowMappingEnd
  | blockEntry
  | flowEntry
  | key
  | value
  | alias (name : List Char)
  | anchor (name : List Char)
  /-- A tag: what it is behind its handle. -/
  | tag (handle : List Char) (rest : Tag)
  | scalar (plain : Bool) (text : List Char)
  deriving DecidableEq, Repr, Inhabited

end BlockFlow.Yaml
