import BlockFlow.Layout.Config
import BlockFlow.Tree.Basic

/-!
Heights of cards and of the pills of reporters on them.
-/

namespace BlockFlow

variable {α : Type} [Scalar α]

/-- How many of the inputs hold no reporter. -/
def regularCount (slots : Slots) : Nat := (slots.filter fun s => !s.2.isReporter).length

namespace Resolved

mutual

/-- The height of a value drawn as a pill, and zero when it is no reporter. Pills inside are
measured first. -/
def pillHeight (c : LayoutConfig α) : Resolved → α
  | .reporter _ _ inputs =>
    c.pillBaseHeight + Scalar.ofNat (min (regularCount inputs) c.maxPreviewRows) * c.pillRowHeight +
      Scalar.sum (pillHeights c inputs)
  | _ => Scalar.ofNat 0

/-- The heights of the pills among the inputs, each with the gap below it. -/
def pillHeights (c : LayoutConfig α) : Slots → List α
  | [] => []
  | (_, .reporter opcode id inputs) :: rest =>
    ((Resolved.reporter opcode id inputs).pillHeight c + c.pillPadding) :: pillHeights c rest
  | _ :: rest => pillHeights c rest

end

end Resolved

/-- The height of a card: the header, a row for each input without a reporter up to a limit, the
pills, and a row for each branch of a node that controls flow. -/
def TreeNode.cardHeight (c : LayoutConfig α) (n : TreeNode) : α :=
  let ports : α :=
    if n.isControlFlow then Scalar.ofNat n.children.length * c.branchPortHeight
    else Scalar.ofNat 0
  c.headerHeight + Scalar.ofNat (min (regularCount n.inputs) c.maxPreviewRows) * c.inputRowHeight +
    Scalar.sum (Resolved.pillHeights c n.inputs) + ports

end BlockFlow
