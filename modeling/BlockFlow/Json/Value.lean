import BlockFlow.Decimal.Style
import BlockFlow.Text.Quoted

/-!
JSON values and their compact written form. The members of an object keep the order in which they
are listed.
-/

namespace BlockFlow

inductive Json where
  | null
  | bool (value : Bool)
  | int (value : Int)
  | float (value : Float)
  | str (value : String)
  | arr (items : List Json)
  | obj (members : List (String × Json))
  deriving Inhabited

namespace Json

/-- The value, or null when there is none. -/
def ofOption {α : Type} (encode : α → Json) : Option α → Json
  | none => .null
  | some a => encode a

/-- A list of values. -/
def ofList {α : Type} (encode : α → Json) (items : List α) : Json := .arr (items.map encode)

/-- A list of strings. -/
def ofStrings (items : List String) : Json := ofList .str items

/-- A natural number. -/
def ofNat (n : Nat) : Json := .int n

/-- Puts `key` with its value among members sorted by key; a member with that key is replaced. -/
def insertSorted (key : String) (value : Json) : List (String × Json) → List (String × Json)
  | [] => [(key, value)]
  | (k, v) :: rest =>
    if key < k then (key, value) :: (k, v) :: rest
    else if key = k then (key, value) :: rest
    else (k, v) :: insertSorted key value rest

/-- An object whose members are sorted by key; of several members with one key the last stays. -/
def sortedObject (members : List (String × Json)) : Json :=
  .obj (members.foldl (fun sorted (key, value) => insertSorted key value sorted) [])

/-- The digits of an integer, behind a minus when it is negative. -/
def intText (i : Int) : List Char :=
  if i < 0 then '-' :: Text.decimalDigits i.natAbs else Text.decimalDigits i.natAbs

/-- Puts commas between written parts. -/
def commaSeparated : List (List Char) → List Char
  | [] => []
  | [part] => part
  | part :: rest => part ++ ',' :: commaSeparated rest

mutual

/-- Writes a value without any white space. -/
def render : Json → List Char
  | .null => "null".toList
  | .bool true => "true".toList
  | .bool false => "false".toList
  | .int i => intText i
  | .float x => Decimal.jsonStyle.write x
  | .str s => Text.Quoted.encode s.toList
  | .arr items => '[' :: (commaSeparated (renderItems items) ++ [']'])
  | .obj members => '{' :: (commaSeparated (renderMembers members) ++ ['}'])

def renderItems : List Json → List (List Char)
  | [] => []
  | item :: rest => item.render :: renderItems rest

def renderMembers : List (String × Json) → List (List Char)
  | [] => []
  | (key, value) :: rest =>
    (Text.Quoted.encode key.toList ++ ':' :: value.render) :: renderMembers rest

end

/-- The compact written form. -/
def compact (j : Json) : String := String.ofList j.render

end Json

end BlockFlow
