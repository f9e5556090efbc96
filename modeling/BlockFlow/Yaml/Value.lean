import BlockFlow.Json.Value

/-!
YAML values. Mappings keep their entries in order and have each key once.
-/

namespace BlockFlow.Yaml

inductive Value where
  | null
  | bool (value : Bool)
  | int (value : Int)
  | float (value : Float)
  | str (value : String)
  | seq (items : List Value)
  | map (entries : List (Value × Value))
  | tagged (tag : String) (value : Value)
  deriving Inhabited

namespace Value

/-- Floats are the same when they are equal or both not a number. -/
def sameFloat (x y : Float) : Bool := x == y || (x.isNaN && y.isNaN)

mutual

/-- Whether two values are the same. The order of the entries of mappings does not matter. -/
def same : Value → Value → Bool
  | .null, .null => true
  | .bool a, .bool b => a == b
  | .int a, .int b => a == b
  | .float a, .float b => sameFloat a b
  | .str a, .str b => a == b
  | .seq as, .seq bs => sameItems as bs
  | .map as, .map bs => as.length == bs.length && sameEntries as bs
  | .tagged t a, .tagged u b => t == u && same a b
  | _, _ => false

def sameItems : List Value → List Value → Bool
  | [], [] => true
  | a :: as, b :: bs => same a b && sameItems as bs
  | _, _ => false

/-- Whether every entry of the first mapping is one of the second. -/
def sameEntries : List (Value × Value) → List (Value × Value) → Bool
  | [], _ => true
  | (k, v) :: rest, bs =>
    bs.any (fun (k', v') => same k k' && same v v') && sameEntries rest bs

end

/-- The value of a string key. -/
def lookup (name : String) : List (Value × Value) → Option Value
  | [] => none
  | (.str key, value) :: rest => if key = name then some value else lookup name rest
  | _ :: rest => lookup name rest

/-- The value of a key in a mapping. -/
def get? (v : Value) (name : String) : Option Value :=
  match v with
  | .map entries => lookup name entries
  | _ => none

/-- Whether this is the given string. -/
def isStr (name : String) : Value → Bool
  | .str s => s = name
  | _ => false

/-- The value with all tags taken off its outside. -/
def untagged : Value → Value
  | .tagged _ v => v.untagged
  | v => v

/-- An integer as written in documents. -/
def intText (i : Int) : String := String.ofList (Json.intText i)

/-- A float as written in documents. -/
def floatText (x : Float) : String := String.ofList (Decimal.documentStyle.write x)

def boolText (b : Bool) : String := if b then "true" else "false"

/-- A scalar key as the member name of a JSON object. -/
def memberName? : Value → Option String
  | .str s => some s
  | .int i => some (intText i)
  | .bool b => some (boolText b)
  | .float x => if x.isFinite then some (String.ofList (Decimal.jsonStyle.write x)) else none
  | _ => none

mutual

/-- The value as JSON; absent when a mapping has a key that no member name can stand for. A tag is
the only member of an object, and numbers that JSON lacks are null. -/
def toJson? : Value → Option Json
  | .null => some .null
  | .bool b => some (.bool b)
  | .int i => some (.int i)
  | .float x => some (if x.isFinite then .float x else .null)
  | .str s => some (.str s)
  | .seq items => (itemsToJson? items).map .arr
  | .map entries => (entriesToJson? entries).map .obj
  | .tagged tag v => v.toJson?.map fun j => .obj [("!" ++ tag, j)]

def itemsToJson? : List Value → Option (List Json)
  | [] => some []
  | item :: rest => do
    let j ← item.toJson?
    let js ← itemsToJson? rest
    some (j :: js)

def entriesToJson? : List (Value × Value) → Option (List (String × Json))
  | [] => some []
  | (key, value) :: rest => do
    let name ← key.memberName?
    let j ← value.toJson?
    let js ← entriesToJson? rest
    some ((name, j) :: js)

end

end Value

end BlockFlow.Yaml

namespace BlockFlow.Json

mutual

/-- Sorts the members of all objects; of several members with one key the last stays. -/
def sorted : Json → Json
  | .arr items => .arr (sortedItems items)
  | .obj members => sortedObject (sortedMembers members)
  | j => j

def sortedItems : List Json → List Json
  | [] => []
  | item :: rest => item.sorted :: sortedItems rest

def sortedMembers : List (String × Json) → List (String × Json)
  | [] => []
  | (key, value) :: rest => (key, value.sorted) :: sortedMembers rest

end

end BlockFlow.Json
