import BlockFlow.Edit.Input
import BlockFlow.Edit.Pointer

/-!
Adding and removing numbered branches and inputs. The numbers have no gap where one is removed:
higher ones move down.
-/

namespace BlockFlow

/-- Puts a number among ascending ones. -/
def insertAscending (n : Nat) : List Nat → List Nat
  | [] => [n]
  | m :: rest => if n ≤ m then n :: m :: rest else m :: insertAscending n rest

/-- Sorts numbers. -/
def ascending (ns : List Nat) : List Nat := ns.foldr insertAscending []

/-- The numbers above `k` behind `stem` among names, ascending. -/
def numbersAbove (stem : String) (k : Nat) (names : List String) : List Nat :=
  ascending ((names.filterMap fun name => ordinal? name stem).filter fun n => k < n)

/-- The numbered branches of an opcode: their stem and how many there are at least. -/
def Catalog.numberedBranches? (c : Catalog) (opcode : String) : Option (String × Nat) :=
  match c.branches? opcode with
  | some (.numbered _ stem least _) => some (stem, least)
  | _ => none

/-- The highest number among the numbered inputs of a node. -/
def NodeDef.highestInput (n : NodeDef) (stem : String) : Nat :=
  largest (n.inputs.filterMap fun (key, _) => ordinal? key stem)

namespace Draft

/-- The stem, the least number and the present number of the numbered branches of a node. -/
def numberedBranches (d : Draft) (n : NodeDef) : Except EditError (String × Nat × Nat) :=
  match d.catalog.numberedBranches? n.opcode with
  | none => .error (.notDynamic n.id .branches)
  | some (stem, least) =>
    let slots := d.catalog.branchSlots n.opcode n.branchNames
    .ok (stem, least, (slots.filter fun name => (ordinal? name stem).isSome).length)

def numberedInputs (d : Draft) (n : NodeDef) : Except EditError NumberedInputs :=
  match (d.catalog.get? n.opcode).bind (·.numberedInputs) with
  | some numbered => .ok numbered
  | none => .error (.notDynamic n.id .inputs)

/-- Moves entries of a section of a node down by one, given their numbers. -/
def renumber (d : Draft) (workflow node section_ stem : String) :
    List Nat → Except EditError Draft
  | [] => .ok d
  | k :: rest => do
    let i ← d.nodeLine workflow node
    match d.outline.find? i section_ with
    | none => .ok d
    | some block =>
      let d := match d.outline.find? block (numberedName stem k) with
        | some entry => d.withOutline (d.outline.renameKey entry (numberedName stem (k - 1)))
        | none => d
      d.renumber workflow node section_ stem rest

/-- Removes an entry of a section of a node. -/
def removeFrom (d : Draft) (workflow node section_ key : String) : Except EditError Draft := do
  let i ← d.nodeLine workflow node
  match d.outline.find? i section_ with
  | some block => .ok (d.withOutline (d.outline.removeEntry block key))
  | none => .ok d

/-- Adds an empty branch behind the last numbered one. -/
def addBranch (d : Draft) (workflow id : String) : Except EditError Draft := do
  let w ← d.workflow workflow
  let n ← node w id
  let (stem, _, count) ← d.numberedBranches n
  let i ← d.nodeLine workflow id
  let (o, branches) := d.outline.ensureBlock i "branches"
  .ok (d.withOutline (o.setScalar branches (numberedName stem (count + 1)) "null".toList))

/-- Removes a numbered branch with everything it leads to. -/
def removeBranch (d : Draft) (workflow id branch : String) : Except EditError Draft := do
  let w ← d.workflow workflow
  let n ← node w id
  let (stem, least, count) ← d.numberedBranches n
  match (ordinal? branch stem).filter (· ≤ count) with
  | none => .error (.unknownBranch id branch)
  | some k =>
    if count ≤ least then .error (.minimumSlots id .branches least)
    else
      let g ← graph w
      let gone := w.removalSet g ((n.branchHead? branch).toList.flatMap g.reachableFrom)
      let d ← d.clearInto g workflow gone (· = (id, .branch branch))
      let d ← d.resetReferences w gone
      let d ← d.removeFrom workflow id "branches" branch
      let d ← d.renumber workflow id "branches" stem (numbersAbove stem k n.branchNames)
      d.removeNodes workflow gone

/-- Adds an input behind the highest numbered one, with the default literal of its type. -/
def addInput (d : Draft) (workflow id : String) : Except EditError Draft := do
  let w ← d.workflow workflow
  let n ← node w id
  let numbered ← d.numberedInputs n
  let key := numberedName numbered.stem (n.highestInput numbered.stem + 1)
  let i ← d.nodeLine workflow id
  let (o, inputs) := d.outline.ensureBlock i "inputs"
  .ok (d.withOutline
    (o.setBlock inputs key [Outline.literalLine (defaultLiteral numbered.type)]))

/-- The node that an input references, when nothing else does. -/
def ownReporter? (w : Workflow) (n : NodeDef) (input : String) : Option String :=
  match n.input? input with
  | some (.node id) => if w.useCount id = 1 then some id else none
  | _ => none

/-- Removes a numbered input, along with the node that only it references. -/
def removeInput (d : Draft) (workflow id input : String) : Except EditError Draft := do
  let w ← d.workflow workflow
  let n ← node w id
  let numbered ← d.numberedInputs n
  let stem := numbered.stem
  match (ordinal? input stem).filter fun _ => (n.input? input).isSome with
  | none => .error (.targetInputNotFound id input)
  | some k =>
    if n.highestInput stem ≤ numbered.least then .error (.minimumSlots id .inputs numbered.least)
    else
      let d ← d.removeFrom workflow id "inputs" input
      let d ← d.renumber workflow id "inputs" stem (numbersAbove stem k (n.inputs.map (·.1)))
      match ownReporter? w n input with
      | none => .ok d
      | some reporter => do
        let g ← graph w
        d.removeNodes workflow (w.removalSet g [reporter])

end Draft

end BlockFlow
