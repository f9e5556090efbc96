import BlockFlow.Catalog.Builtin
import BlockFlow.Json.Decode

/-!
Catalogs and their entries in JSON.
-/

namespace BlockFlow

open Json

/-- The name of a category. -/
def Category.name : Category → String
  | .controlFlow => "control_flow"
  | .data => "data"
  | .io => "io"
  | .operator => "operator"
  | .workflowOp => "workflow_op"
  | .generic => "generic"

/-- The category with the given name. -/
def Category.ofName? (name : String) : Option Category :=
  [.controlFlow, .data, .io, .operator, .workflowOp, .generic].find? (·.name = name)

/-- A category is its name, or an object whose only member, of that name, is null. -/
def Category.decode? : Source → Option Category
  | .str (some name) => ofName? name
  | .obj [(some name, .null)] => ofName? name
  | _ => none

def Param.decode? (s : Source) : Option Param := do
  match ← s.fields? ["name", "type", "required"] with
  | [name, type, required] =>
    some ⟨← required? Source.str? name, ← required? Source.str? type,
      ← orElse? false Source.bool? required⟩
  | _ => none

def strings? (s : Source) : Option (List String) := s.list? Source.str?

/-- The fields of the branches of a kind, in order. -/
def BranchSlots.ofFields? (kind : String) (fields : Source) : Option BranchSlots :=
  match kind with
  | "fixed" => do
    match ← fields.fields? ["names"] with
    | [names] => some (.fixed (← required? strings? names))
    | _ => none
  | "dynamic" => do
    match ← fields.fields? ["leading", "prefix", "min", "trailing"] with
    | [leading, stem, least, trailing] =>
      some (.numbered (← orElse? [] strings? leading) (← required? Source.str? stem)
        (← orElse? 0 Source.nat? least) (← orElse? [] strings? trailing))
    | _ => none
  | _ => none

/-- Branches name their kind in a field among the others, or before them. All fields must be
readable, also those that no kind has. -/
def BranchSlots.decode? (s : Source) : Option BranchSlots :=
  if s.readable 124 then
    match s with
    | .obj members => do
      match members.filter (·.1 = some "kind") with
      | [(_, .str (some kind))] => ofFields? kind (.obj (members.filter (·.1 ≠ some "kind")))
      | _ => none
    | .arr (.str (some kind) :: fields) => ofFields? kind (.arr fields)
    | _ => none
  else none

def NumberedInputs.decode? (s : Source) : Option NumberedInputs := do
  match ← s.fields? ["prefix", "type", "min"] with
  | [stem, type, least] =>
    some ⟨← required? Source.str? stem, ← orElse? "any" Source.str? type,
      ← orElse? 0 Source.nat? least⟩
  | _ => none

def OpcodeSpec.decode? (s : Source) : Option OpcodeSpec := do
  match ← s.fields? ["opcode", "category", "params", "branches", "dynamicInputs", "extraInputs",
      "assigns", "returns"] with
  | [opcode, category, params, branches, inputs, extra, assigns, returns] =>
    some
      { opcode := ← required? Source.str? opcode
        category := ← required? Category.decode? category
        params := ← orElse? [] (·.list? Param.decode?) params
        branches := ← orElse? none (·.nullable? BranchSlots.decode?) branches
        numberedInputs := ← orElse? none (·.nullable? NumberedInputs.decode?) inputs
        extraInputs := ← orElse? false Source.bool? extra
        assigns := ← orElse? none (·.nullable? Source.str?) assigns
        returns := ← orElse? none (·.nullable? Source.str?) returns }
  | _ => none

/-- Reads a catalog: a record with the list of its entries. -/
def Catalog.ofJson? (text : String) : Option Catalog := do
  let s ← Source.parse? text.toList
  match ← s.fields? ["opcodes"] with
  | [opcodes] => some (Catalog.ofList (← required? (·.list? OpcodeSpec.decode?) opcodes))
  | _ => none

/-- Branches in JSON. -/
def BranchSlots.toJson : BranchSlots → Json
  | .fixed names => .obj [("kind", .str "fixed"), ("names", ofStrings names)]
  | .numbered leading stem least trailing =>
    .obj [("kind", .str "dynamic"), ("leading", ofStrings leading), ("prefix", .str stem),
      ("min", .ofNat least), ("trailing", ofStrings trailing)]

def NumberedInputs.toJson (n : NumberedInputs) : Json :=
  .obj [("prefix", .str n.stem), ("type", .str n.type), ("min", .ofNat n.least)]

def Param.toJson (p : Param) : Json :=
  .obj [("name", .str p.name), ("type", .str p.type), ("required", .bool p.required)]

def OpcodeSpec.toJson (s : OpcodeSpec) : Json :=
  .obj [("opcode", .str s.opcode), ("category", .str s.category.name),
    ("params", ofList Param.toJson s.params), ("branches", ofOption BranchSlots.toJson s.branches),
    ("dynamicInputs", ofOption NumberedInputs.toJson s.numberedInputs),
    ("extraInputs", .bool s.extraInputs), ("assigns", ofOption .str s.assigns),
    ("returns", ofOption .str s.returns)]

end BlockFlow
