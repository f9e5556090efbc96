import BlockFlow.Json.Source
import BlockFlow.Json.Number
import BlockFlow.Json.Value

/-!
Reading records out of JSON. A record is an object, or the array of its fields in order. Members
with other names are passed over; a field written twice is refused, and so is null where a value is
required. A source that is passed over may hold numbers and strings that nothing could read.
-/

namespace BlockFlow.Json

namespace Source

/-- Reads a string. -/
def str? : Source → Option String
  | .str meant => meant
  | _ => none

/-- Reads a truth value. -/
def bool? : Source → Option Bool
  | .bool b => some b
  | _ => none

/-- Reads a natural number below 2^64. -/
def nat? : Source → Option Nat
  | .number written =>
    match Number.read? written with
    | some (.int i) => if 0 ≤ i then some i.toNat else none
    | _ => none
  | _ => none

/-- Reads a number of double precision; a whole number will do. -/
def float? : Source → Option Float
  | .number written =>
    match Number.read? written with
    | some (.int i) => some (Float.ofInt i)
    | some (.float x) => some x
    | none => none
  | _ => none

/-- Reads a value that may be null. -/
def nullable? {α : Type} (decode : Source → Option α) : Source → Option (Option α)
  | .null => some none
  | s => (decode s).map some

/-- Reads the items of an array. -/
def list? {α : Type} (decode : Source → Option α) : Source → Option (List α)
  | .arr items => items.mapM decode
  | _ => none

/-- Of several entries with one key the last stays. -/
def lastOfEach {α : Type} : List (String × α) → List (String × α)
  | [] => []
  | (key, value) :: rest =>
    if rest.any (·.1 = key) then lastOfEach rest else (key, value) :: lastOfEach rest

/-- Reads an object as a dictionary, in which the last of several values of a key counts. -/
def dictionary? {α : Type} (decode : Source → Option α) : Source → Option (List (String × α))
  | .obj members => do
    let entries ← members.mapM fun (key, value) => do
      let k ← key
      let v ← decode value
      some (k, v)
    some (lastOfEach entries)
  | _ => none

/-- The values of the member called `name`. -/
def valuesOf (members : List (String × Source)) (name : String) : List Source :=
  members.filterMap fun (key, value) => if key = name then some value else none

/-- Lays out the fields called `names`, absent ones included. -/
def fields? (names : List String) : Source → Option (List (Option Source))
  | .obj members => do
    let members ← members.mapM fun (key, value) => key.map fun k => (k, value)
    names.mapM fun name =>
      match valuesOf members name with
      | [] => some none
      | [value] => some (some value)
      | _ => none
  | .arr items =>
    if items.length ≤ names.length then
      some (items.map some ++ List.replicate (names.length - items.length) none)
    else none
  | _ => none

end Source

/-- Reads a field that must be there. -/
def required? {α : Type} (decode : Source → Option α) (field : Option Source) : Option α :=
  field.bind decode

/-- Reads a field that has the given value when it is absent. -/
def orElse? {α : Type} (fallback : α) (decode : Source → Option α) :
    Option Source → Option α
  | none => some fallback
  | some s => decode s

mutual

/-- Whether a value can be read in full, nested at most `depth` levels. -/
def Source.readable (depth : Nat) : Source → Bool
  | .number written => (Number.read? written).isSome
  | .str meant => meant.isSome
  | .arr items => 0 < depth && itemsReadable (depth - 1) items
  | .obj members => 0 < depth && membersReadable (depth - 1) members
  | _ => true

def itemsReadable (depth : Nat) : List Source → Bool
  | [] => true
  | item :: rest => item.readable depth && itemsReadable depth rest

def membersReadable (depth : Nat) : List (Option String × Source) → Bool
  | [] => true
  | (key, value) :: rest => key.isSome && value.readable depth && membersReadable depth rest

end

end BlockFlow.Json
