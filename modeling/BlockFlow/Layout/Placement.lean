import BlockFlow.Layout.Card
import BlockFlow.Layout.Shape

/-!
Automatic placement. Chains run from left to right, branches stack below their node, and the chain
goes on to the right of its widest branch.
-/

namespace BlockFlow

variable {α : Type} [Scalar α]

/-- A card where the automatic layout puts it. -/
structure Card (α : Type) where
  id : String
  rect : Rect α
  orphan : Bool
  branches : List String

/-- The right and the bottom edge that cards reach. -/
structure Extent (α : Type) where
  right : α
  bottom : α

mutual

/-- Places a chain from `x` on, at height `top`. `reached` is the extent of what comes before. -/
def placeChain (c : LayoutConfig α) (top x : α) (reached : Extent α) :
    List TreeNode → List (Card α) × Extent α
  | [] => ([], reached)
  | ⟨id, opcode, kind, inputs, children⟩ :: rest =>
    let n : TreeNode := ⟨id, opcode, kind, inputs, children⟩
    let rect : Rect α := ⟨x, top, c.nodeWidth, n.cardHeight c⟩
    let card : Card α := ⟨id, rect, false, n.branchNames⟩
    let (inner, own) :=
      if n.isControlFlow then
        placeBranches c rect (rect.bottom + c.branchVGap) ⟨rect.right, rect.bottom⟩ children
      else ([], ⟨rect.right, rect.bottom⟩)
    let reached : Extent α :=
      ⟨Scalar.larger reached.right own.right, Scalar.larger reached.bottom own.bottom⟩
    let (more, reached) := placeChain c top (own.right + c.hGap) reached rest
    (card :: (inner ++ more), reached)

/-- Places the branches of a card from height `y` on. An empty branch keeps a row for dropping
nodes. -/
def placeBranches (c : LayoutConfig α) (rect : Rect α) (y : α) (reached : Extent α) :
    List (String × List TreeNode) → List (Card α) × Extent α
  | [] => ([], reached)
  | (_, nodes) :: rest =>
    let (inner, branch) :=
      if nodes.isEmpty then ([], ⟨rect.right, y + c.headerHeight⟩)
      else placeChain c y rect.x ⟨rect.x, y⟩ nodes
    let reached : Extent α :=
      ⟨Scalar.larger reached.right branch.right, Scalar.larger reached.bottom branch.bottom⟩
    let (more, reached) := placeBranches c rect (branch.bottom + c.branchVGap) reached rest
    (inner ++ more, reached)

end

/-- Places the orphans in a row from `x` on, at height `top`. -/
def placeOrphans (c : LayoutConfig α) (top x : α) (reached : Extent α) :
    List Orphan → List (Card α) × Extent α
  | [] => ([], reached)
  | orphan :: rest =>
    let n := orphan.node
    let rect : Rect α := ⟨x, top, c.nodeWidth, n.cardHeight c⟩
    let reached : Extent α :=
      ⟨Scalar.larger reached.right rect.right, Scalar.larger reached.bottom rect.bottom⟩
    let (more, reached) := placeOrphans c top (rect.right + c.hGap) reached rest
    (⟨n.id, rect, true, n.branchNames⟩ :: more, reached)

end BlockFlow
