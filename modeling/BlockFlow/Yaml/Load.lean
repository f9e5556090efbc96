import BlockFlow.Yaml.Node
import BlockFlow.Yaml.Plain

/-!
The value of a YAML document. Tags of the core schema fix the kind of a scalar, tags with a single
mark stay in the value, and other tags only keep scalars strings. Collections nest at most 128 deep,
keys are distinct, and aliases may not be followed more than a hundred times as often as the
document has parts.
-/

namespace BlockFlow.Yaml

namespace Node

mutual

/-- The parts of a node: a scalar or an alias is one, a collection adds its start and its end. -/
def size : Node → Nat
  | .alias _ => 1
  | .scalar _ _ _ _ => 1
  | .seq _ _ items => itemsSize items + 2
  | .map _ _ entries => entriesSize entries + 2

def itemsSize : List Node → Nat
  | [] => 0
  | n :: rest => n.size + itemsSize rest

def entriesSize : List (Node × Node) → Nat
  | [] => 0
  | (k, v) :: rest => k.size + v.size + entriesSize rest

end

mutual

/-- The anchored nodes with their numbers, in order. -/
def anchored : Node → List (Nat × Node)
  | .alias _ => []
  | .scalar a t p text => (a.map fun n => (n, .scalar a t p text)).toList
  | .seq a t items => (a.map fun n => (n, .seq a t items)).toList ++ itemsAnchored items
  | .map a t entries => (a.map fun n => (n, .map a t entries)).toList ++ entriesAnchored entries

def itemsAnchored : List Node → List (Nat × Node)
  | [] => []
  | n :: rest => n.anchored ++ itemsAnchored rest

def entriesAnchored : List (Node × Node) → List (Nat × Node)
  | [] => []
  | (k, v) :: rest => k.anchored ++ v.anchored ++ entriesAnchored rest

end

/-- The tag of the core schema with the given name. -/
def coreTag (name : String) : Tag := ("tag:yaml.org,2002:" ++ name).toList.map some

/-- The name of a tag with a single mark; only those stay in the value, if all their escapes spell
characters. A mark alone is its own name. -/
def keptTag? : Option Tag → Option (List Char)
  | some [some '!'] => some ['!']
  | some (some '!' :: name) => name.mapM id
  | _ => none

/-- The name under which a kept tag is known: a further mark is dropped unless it stands alone. -/
def tagName (name : List Char) : String :=
  match name with
  | '!' :: c :: rest => String.ofList (c :: rest)
  | other => String.ofList other

/-- What a scalar means. Behind a kept tag (`kept`) its own tag no longer counts. -/
def scalarValue? (kept : Bool) (tag : Option Tag) (plain : Bool) (text : List Char) :
    Option Value :=
  let str : Value := .str (String.ofList text)
  match if kept then none else tag with
  | none => if plain then Plain.value? text else some str
  | some t =>
    if t = coreTag "bool" then (Plain.bool? text).map .bool
    else if t = coreTag "int" then
      match Plain.whole text with
      | .fits i => some (.int i)
      | _ => none
    else if t = coreTag "float" then (Plain.float? text).map .float
    else if t = coreTag "null" then if Plain.isNull text then some .null else none
    else
      if t.head? = some (some '!') && plain then Plain.value? text else some str

/-- The anchored nodes of a document, and how many aliases may be followed in all. -/
structure Scope where
  anchored : List (Nat × Node)
  aliasLimit : Nat

/-- The node that an alias stands for: the last one with the number of its anchor. -/
def Scope.target? (s : Scope) (number : Nat) : Option Node :=
  (s.anchored.reverse.lookup number)

/-- Work that counts the aliases followed. -/
abbrev Work := StateT Nat Option

/-- The node itself or, when it is an alias, the node it stands for; the flag tells which. -/
def follow (s : Scope) : Node → Work (Bool × Node)
  | .alias number => do
    let count := (← get) + 1
    if s.aliasLimit < count then failure
    set count
    match s.target? number with
    | some n => return (true, n)
    | none => failure
  | n => return (false, n)

/-- Adds an entry whose key is new. -/
def checkNew? (entries : List (Value × Value)) (key : Value) : Option Unit :=
  if entries.any fun (k, _) => k.same key then none else some ()

/-- The value of a node, with at most `depth` collections around each of its parts. `kept` tells
that the node stands directly behind a kept tag, whose keys lose their own tags. -/
def value (s : Scope) : (depth : Nat) → (kept : Bool) → Node → Work Value
  | depth, kept, node => do
    let (aliased, node) ← follow s node
    let kept := kept && !aliased
    let tag := match node with
      | .scalar _ t _ _ => t
      | .seq _ t _ => t
      | .map _ t _ => t
      | .alias _ => none
    let name := if kept then none else keptTag? tag
    let behind := kept || name.isSome
    let inner ← match node with
      | .alias _ => failure
      | .scalar _ t plain text =>
        StateT.lift (scalarValue? behind t plain text)
      | .seq _ _ items =>
        match depth with
        | 0 => failure
        | depth + 1 => do
          let values ← items.mapM fun item => value s depth false item
          pure (.seq values)
      | .map _ _ entries =>
        match depth with
        | 0 => failure
        | depth + 1 => do
          let values ← entries.foldlM (fun done (k, v) => do
            let key ← value s depth behind k
            let _ ← StateT.lift (checkNew? done key)
            let value ← value s depth false v
            pure (done ++ [(key, value)])) []
          pure (.map values)
    return match name with
      | some name => .tagged (tagName name) inner
      | none => inner

/-- The value of a document. -/
def toValue? (n : Node) : Option Value :=
  ((n.value ⟨n.anchored, n.size * 100⟩ 128 false).run 0).map (·.1)

end Node

/-- Reads the only document of a text. -/
def load? (cs : List Char) : Option Value := do
  let tokens ← tokens? cs
  let node ← Node.ofTokens? tokens
  node.toValue?

end BlockFlow.Yaml
