import BlockFlow.Edit.Draft

/-!
Setting pointers, and connecting nodes. A node has one predecessor: a new link moves the old one.
-/

namespace BlockFlow

namespace Outline

/-- Points a pointer of the node at line `node` to a target, or clears it. A branch that is cleared
keeps its entry, set to null, if `keep`. -/
def setPointer (o : Outline) (node : Nat) (keep : Bool) : LinkSlot → Option String → Outline
  | .next, some target => o.setScalar node "next" (renderString target)
  | .next, none => o.removeEntry node "next"
  | .branch name, some target =>
    let (o, branches) := o.ensureBlock node "branches"
    o.setScalar branches name (renderString target)
  | .branch name, none =>
    match o.find? node "branches" with
    | none => o
    | some branches =>
      if keep then
        if (o.find? branches name).isSome then o.setScalar branches name "null".toList else o
      else
        let o := o.removeEntry branches name
        if (o.entries branches).isEmpty && (o.value branches).isEmpty then
          o.removeEntry node "branches"
        else o

end Outline

namespace Draft

/-- Whether a pointer is a numbered branch of its node. -/
def isNumbered (d : Draft) (workflow id : String) : LinkSlot → Bool
  | .next => false
  | .branch name =>
    match ((d.document.workflow? workflow).bind (·.node? id)).bind
        fun n => d.catalog.branches? n.opcode with
    | some (.numbered _ stem _ _) => (ordinal? name stem).isSome
    | _ => false

/-- Points a pointer to a target, or clears it. -/
def setPointer (d : Draft) (workflow source : String) (slot : LinkSlot) (target : Option String) :
    Except EditError Draft := do
  let node ← d.nodeLine workflow source
  .ok (d.withOutline
    (d.outline.setPointer node (d.isNumbered workflow source slot) slot target))

/-- Points several pointers to one target, or clears them. -/
def setPointers (d : Draft) (workflow : String) (slots : List (String × LinkSlot))
    (target : Option String) : Except EditError Draft :=
  slots.foldlM (fun d (source, slot) => d.setPointer workflow source slot target) d

/-- Clears the pointers that lead from other nodes into `gone`, but not those `kept`. -/
def clearInto (d : Draft) (g : LinkGraph) (workflow : String) (gone : List String)
    (kept : String × LinkSlot → Bool) : Except EditError Draft :=
  gone.foldlM (fun d id =>
    d.setPointers workflow
      ((g.incoming id).filter fun p => !gone.contains p.1 && !kept p) none) d

/-- Checks that a pointer is one that the node may have. -/
def checkSlot (d : Draft) (n : NodeDef) : LinkSlot → Except EditError Unit
  | .next => .ok ()
  | .branch name =>
    if (d.catalog.branchSlots n.opcode n.branchNames).contains name then .ok ()
    else .error (.unknownBranch n.id name)

/-- Links a pointer of a node to another node and clears the pointers that led there. Nothing leads
to the start node, and no link closes a cycle. -/
def connect (d : Draft) (workflow source : String) (slot : LinkSlot) (target : String) :
    Except EditError Draft := do
  let w ← d.workflow workflow
  let s ← node w source
  let t ← node w target
  d.checkSlot s slot
  if t.opcode = startOpcode || w.startId? = some target then .error (.protectedNode target)
  else
    let g ← graph w
    if source = target || g.isAncestor target source then
      .error (.wouldCreateCycle source target)
    else
      let d ← d.setPointers workflow ((g.incoming target).filter (· ≠ (source, slot))) none
      d.setPointer workflow source slot (some target)

/-- Clears a pointer that is set. -/
def disconnect (d : Draft) (workflow source : String) (slot : LinkSlot) :
    Except EditError Draft := do
  let w ← d.workflow workflow
  let s ← node w source
  if (s.target? slot).isNone then .error (.linkNotFound source slot)
  else d.setPointer workflow source slot none

end Draft

end BlockFlow
