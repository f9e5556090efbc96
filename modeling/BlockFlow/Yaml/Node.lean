import BlockFlow.Yaml.Scanner

/-!
The nodes of a YAML document: scalars, sequences and mappings with their tags, and the places that
stand for another node. Anchors are numbered; a place names the number of its anchor.
-/

namespace BlockFlow.Yaml

inductive Node where
  | alias (anchor : Nat)
  | scalar (anchor : Option Nat) (tag : Option Tag) (plain : Bool) (text : List Char)
  | seq (anchor : Option Nat) (tag : Option Tag) (items : List Node)
  | map (anchor : Option Nat) (tag : Option Tag) (entries : List (Node × Node))
  deriving Inhabited

namespace Node

/-- What is left of a document while its nodes are read. -/
structure Reading where
  tokens : List Token
  /-- The number that each anchor name stands for, the latest first. -/
  anchors : List (List Char × Nat)
  /-- What tag handles stand for. -/
  handles : List (List Char × Tag)

abbrev Read := StateT Reading Option

/-- The token ahead. -/
def peek : Read (Option Token) := do return (← get).tokens.head?

/-- Goes past the token ahead. -/
def advance : Read Unit := modify fun r => { r with tokens := r.tokens.drop 1 }

/-- Gives the anchor the number of names so far. A name that is used again does not count again, so
a later name may take the number of an earlier one. -/
def register (name : List Char) : Read Nat := do
  let r ← get
  let number := (r.anchors.map (·.1)).eraseDups.length
  set { r with anchors := (name, number) :: r.anchors }
  return number

/-- The number of the anchor of that name. -/
def anchorNumber (name : List Char) : Read Nat := do
  match (← get).anchors.lookup name with
  | some number => return number
  | none => failure

/-- Puts together the tag of a handle and what is behind it. -/
def resolveTag (handle : List Char) (rest : Tag) : Read Tag := do
  if handle.isEmpty then return rest
  match (← get).handles.lookup handle with
  | some stem => return stem ++ rest
  | none => failure

/-- Reads an anchor, when one is ahead. -/
def readAnchor : Read (Option (List Char)) := do
  match ← peek with
  | some (.anchor name) => advance; return some name
  | _ => return none

/-- Reads a tag, when one is ahead. -/
def readTag : Read (Option (List Char × Tag)) := do
  match ← peek with
  | some (.tag handle rest) => advance; return some (handle, rest)
  | _ => return none

/-- The scalar that stands where nothing is written. -/
def empty : Node := .scalar none none true []

/-- Where a node stands: whether block collections may follow, and whether the entries of a
sequence may follow without indentation. -/
inductive Position where
  | flow
  | block
  | entry
  deriving DecidableEq

mutual

/-- Reads a node. -/
def read : (fuel : Nat) → Position → Read Node
  | 0, _ => failure
  | fuel + 1, position => do
    match ← peek with
    | some (.alias name) => advance; return .alias (← anchorNumber name)
    | _ =>
    let early ← readAnchor
    let tag ← readTag
    let name ← if early.isNone then readAnchor else pure early
    let tag ← tag.mapM fun (handle, rest) => resolveTag handle rest
    let ahead ← peek
    let number ← name.mapM register
    match ahead, position with
    | some .blockEntry, .entry => return .seq number tag (← readUnindented fuel)
    | some (.scalar plain text), _ => advance; return .scalar number tag plain text
    | some .flowSequenceStart, _ => advance; return .seq number tag (← readFlowSequence fuel true)
    | some .flowMappingStart, _ => advance; return .map number tag (← readFlowMapping fuel true)
    | some .blockSequenceStart, .block | some .blockSequenceStart, .entry =>
      advance; return .seq number tag (← readBlockSequence fuel)
    | some .blockMappingStart, .block | some .blockMappingStart, .entry =>
      advance; return .map number tag (← readBlockMapping fuel)
    | _, _ =>
      if name.isSome || tag.isSome then return .scalar number tag true [] else failure

/-- Reads a node unless one of the given tokens is ahead. -/
def readUnless : (fuel : Nat) → Position → List Token → Read Node
  | 0, _, _ => failure
  | fuel + 1, position, stops => do
    match ← peek with
    | some t => if stops.contains t then return empty else read fuel position
    | none => failure

def readBlockSequence : (fuel : Nat) → Read (List Node)
  | 0 => failure
  | fuel + 1 => do
    match ← peek with
    | some .blockEntry =>
      advance
      let item ← readUnless fuel .block [.blockEntry, .blockEnd]
      return item :: (← readBlockSequence fuel)
    | some .blockEnd => advance; return []
    | _ => failure

def readUnindented : (fuel : Nat) → Read (List Node)
  | 0 => failure
  | fuel + 1 => do
    match ← peek with
    | some .blockEntry =>
      advance
      let item ← readUnless fuel .block [.blockEntry, .key, .value, .blockEnd]
      return item :: (← readUnindented fuel)
    | _ => return []

def readBlockMapping : (fuel : Nat) → Read (List (Node × Node))
  | 0 => failure
  | fuel + 1 => do
    match ← peek with
    | some .key =>
      advance
      let key ← readUnless fuel .entry [.key, .value, .blockEnd]
      let value ← match ← peek with
        | some .value => advance; readUnless fuel .entry [.key, .value, .blockEnd]
        | _ => pure empty
      return (key, value) :: (← readBlockMapping fuel)
    | some .blockEnd => advance; return []
    | _ => failure

/-- Reads the rest of a flow sequence. A pair without braces is a mapping of its own; where such a
pair has no key, the token ahead counts as its colon. -/
def readFlowSequence : (fuel : Nat) → (first : Bool) → Read (List Node)
  | 0, _ => failure
  | fuel + 1, first => do
    match ← peek with
    | some .flowSequenceEnd => advance; return []
    | ahead =>
      if !first then
        if ahead = some .flowEntry then advance else failure
      match ← peek with
      | some .flowSequenceEnd => advance; return []
      | some .key =>
        advance
        let key ← match ← peek with
          | some .value | some .flowEntry | some .flowSequenceEnd => advance; pure empty
          | _ => read fuel .flow
        let value ← match ← peek with
          | some .value => advance; readUnless fuel .flow [.flowEntry, .flowSequenceEnd]
          | _ => pure empty
        return .map none none [(key, value)] :: (← readFlowSequence fuel false)
      | _ =>
        let item ← read fuel .flow
        return item :: (← readFlowSequence fuel false)

def readFlowMapping : (fuel : Nat) → (first : Bool) → Read (List (Node × Node))
  | 0, _ => failure
  | fuel + 1, first => do
    match ← peek with
    | some .flowMappingEnd => advance; return []
    | ahead =>
      if !first then
        if ahead = some .flowEntry then advance else failure
      match ← peek with
      | some .flowMappingEnd => advance; return []
      | some .key =>
        advance
        let key ← readUnless fuel .flow [.value, .flowEntry, .flowMappingEnd]
        let value ← match ← peek with
          | some .value => advance; readUnless fuel .flow [.flowEntry, .flowMappingEnd]
          | _ => pure empty
        return (key, value) :: (← readFlowMapping fuel false)
      | _ =>
        let key ← read fuel .flow
        return (key, empty) :: (← readFlowMapping fuel false)

end

/-- Reads the directives before a document. Each may name a version or a handle once. -/
def readDirectives : (fuel : Nat) → (versioned : Bool) → Read Unit
  | 0, _ => failure
  | fuel + 1, versioned => do
    match ← peek with
    | some (.version major minor) =>
      if versioned || major ≠ 1 || (minor ≠ 1 && minor ≠ 2) then failure
      advance
      readDirectives fuel true
    | some (.shorthand handle stem) =>
      let r ← get
      if (r.handles.lookup handle).isSome then failure
      set { r with handles := r.handles ++ [(handle, stem)] }
      advance
      readDirectives fuel versioned
    | _ => return ()

/-- The handles that need no directive. A directive takes precedence over them. -/
def standardHandles : List (List Char × Tag) :=
  [(['!'], [some '!']), (['!', '!'], "tag:yaml.org,2002:".toList.map some)]

/-- Reads the only document of a text; a text without any has the empty node. -/
def readDocument (fuel : Nat) : Read Node := do
  match ← peek with
  | none => return empty
  | ahead =>
    let explicit := match ahead with
      | some (.version _ _) | some (.shorthand _ _) | some .documentStart => true
      | _ => false
    if explicit then
      readDirectives fuel false
      if (← peek) = some .documentStart then advance else failure
    modify fun r => { r with handles := r.handles ++ standardHandles }
    let node ← match explicit, ← peek with
      | true, none | true, some (.version _ _) | true, some (.shorthand _ _)
      | true, some .documentStart | true, some .documentEnd => pure empty
      | _, _ => read fuel .block
    modify fun r => { r with tokens := r.tokens.dropWhile (· = .documentEnd) }
    match ← peek with
    | none => return node
    | some _ => failure

/-- The document that the tokens spell. -/
def ofTokens? (tokens : List Token) : Option Node :=
  ((readDocument (4 * tokens.length + 8)).run ⟨tokens, [], []⟩).map (·.1)

end Node

end BlockFlow.Yaml
