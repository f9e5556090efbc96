import BlockFlow.Text.Alphanumeric
import BlockFlow.Text.Blank
import BlockFlow.Yaml.Value

/-!
The catalog of opcodes: which inputs and branches a node of each opcode has.
-/

namespace BlockFlow

inductive Category where
  | controlFlow
  | data
  | io
  | operator
  | workflowOp
  | generic
  deriving DecidableEq, Repr, Inhabited

/-- A declared input. -/
structure Param where
  name : String
  type : String
  required : Bool
  deriving DecidableEq, Repr, Inhabited

/-- The branches of an opcode: a fixed list, or `stem1` to `stemN` between leading and trailing
ones. -/
inductive BranchSlots where
  | fixed (names : List String)
  | numbered (leading : List String) (stem : String) (least : Nat) (trailing : List String)
  deriving DecidableEq, Repr, Inhabited

/-- Inputs called `stem1`, `stem2` and so on, at least `least` of them. -/
structure NumberedInputs where
  stem : String
  type : String
  least : Nat
  deriving DecidableEq, Repr, Inhabited

structure OpcodeSpec where
  opcode : String
  category : Category
  params : List Param := []
  branches : Option BranchSlots := none
  numberedInputs : Option NumberedInputs := none
  /-- Whether inputs that are not declared are accepted. -/
  extraInputs : Bool := false
  /-- The input that holds the name of the variable the opcode writes. -/
  assigns : Option String := none
  returns : Option String := none
  deriving DecidableEq, Repr, Inhabited

/-- The number behind `stem`: `CATCH3` behind `CATCH` is 3. Numbers start at 1 and fit 64 bits. -/
def ordinal? (name stem : String) : Option Nat := do
  let ds ← Text.dropStem? stem.toList name.toList
  if ds.isEmpty || !ds.all Text.isDigit then none
  let n ← Text.natOfDigits? 10 ds
  if 1 ≤ n && n < Nat.pow 2 64 then some n else none

/-- The name with number `n`. -/
def numberedName (stem : String) (n : Nat) : String := stem ++ String.ofList (Text.decimalDigits n)

/-- The largest of some numbers, 0 when there are none. -/
def largest (ns : List Nat) : Nat := ns.foldl max 0

/-- How many numbered branches a node with the given branches has: as many as its highest number
asks for, gaps included, as long as that does not exceed the number of branches by more than the
least number of slots. -/
def numberedCount (stem : String) (least : Nat) (present : List String) : Nat :=
  let ordinals := present.filterMap fun name => ordinal? name stem
  max (max least ordinals.length) (min (largest ordinals) (ordinals.length + least))

namespace BranchSlots

/-- The slots in order, given the branches that a node has. -/
def names (slots : BranchSlots) (present : List String) : List String :=
  match slots with
  | .fixed names => names
  | .numbered leading stem least trailing =>
    let count := numberedCount stem least present
    leading ++ (List.range count).map (fun i => numberedName stem (i + 1)) ++ trailing

end BranchSlots

namespace OpcodeSpec

def isControlFlow (s : OpcodeSpec) : Bool := s.category = .controlFlow

def param? (s : OpcodeSpec) (name : String) : Option Param := s.params.find? (·.name = name)

/-- Whether the key is one of the numbered inputs. -/
def isNumberedInput (s : OpcodeSpec) (key : String) : Bool :=
  s.numberedInputs.any fun n => (ordinal? key n.stem).isSome

/-- Whether nodes of this opcode may have an input with the given key. -/
def acceptsInput (s : OpcodeSpec) (key : String) : Bool :=
  s.extraInputs || (s.param? key).isSome || s.isNumberedInput key

/-- The type of an input, when the opcode declares one. -/
def inputType? (s : OpcodeSpec) (key : String) : Option String :=
  match s.param? key with
  | some p => some p.type
  | none => if s.isNumberedInput key then s.numberedInputs.map (·.type) else none

end OpcodeSpec

/-- A catalog. The latest of several entries for one opcode counts. -/
structure Catalog where
  /-- The entries, the latest first. -/
  specs : List OpcodeSpec
  deriving DecidableEq, Repr, Inhabited

namespace Catalog

def empty : Catalog := ⟨[]⟩

/-- Adds an entry or replaces that of its opcode. -/
def register (c : Catalog) (spec : OpcodeSpec) : Catalog := ⟨spec :: c.specs⟩

def ofList (specs : List OpcodeSpec) : Catalog := specs.foldl register empty

def get? (c : Catalog) (opcode : String) : Option OpcodeSpec :=
  c.specs.find? (·.opcode = opcode)

def isControlFlow (c : Catalog) (opcode : String) : Bool :=
  (c.get? opcode).any (·.isControlFlow)

/-- The branches that the opcode declares. -/
def branches? (c : Catalog) (opcode : String) : Option BranchSlots :=
  (c.get? opcode).bind (·.branches)

/-- The branch slots of a node of that opcode with the given branches. -/
def branchSlots (c : Catalog) (opcode : String) (present : List String) : List String :=
  match c.branches? opcode with
  | some slots => slots.names present
  | none => []

end Catalog

/-- The literal that a new input of the given type holds. -/
def defaultLiteral (type : String) : Yaml.Value :=
  match type with
  | "int" => .int 0
  | "float" => .float 0.0
  | "number" => .float 0.0
  | "bool" => .bool false
  | "str" => .str ""
  | "string" => .str ""
  | "list" => .seq []
  | "dict" => .map []
  | _ => .null

end BlockFlow
