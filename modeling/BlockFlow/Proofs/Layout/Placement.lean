import BlockFlow.Layout.Geometry

/-!
Which cards the automatic layout places, step by step. Main statement: the cards of a workflow are
those of its chain nodes, in order, and then those of its orphans.
-/

namespace BlockFlow

variable {α : Type} [Scalar α]

/-- The larger of two extents on each side. -/
def Extent.join (a b : Extent α) : Extent α :=
  ⟨Scalar.larger a.right b.right, Scalar.larger a.bottom b.bottom⟩

/-- The card of a node with its corner at `x` and `top`. -/
def TreeNode.cardRect (c : LayoutConfig α) (x top : α) (n : TreeNode) : Rect α :=
  ⟨x, top, c.nodeWidth, n.cardHeight c⟩

/-- The cards below the card of a node, and the extent of all of them with it. -/
def placeInner (c : LayoutConfig α) (rect : Rect α) (n : TreeNode) : List (Card α) × Extent α :=
  if n.isControlFlow then
    placeBranches c rect (rect.bottom + c.branchVGap) ⟨rect.right, rect.bottom⟩ n.children
  else ([], ⟨rect.right, rect.bottom⟩)

/-- The cards of one branch with their extent. -/
def placeBranch (c : LayoutConfig α) (rect : Rect α) (y : α) (nodes : List TreeNode) :
    List (Card α) × Extent α :=
  if nodes.isEmpty then ([], ⟨rect.right, y + c.headerHeight⟩)
  else placeChain c y rect.x ⟨rect.x, y⟩ nodes

section Equations

variable {c : LayoutConfig α} {top x y : α} {reached : Extent α} {rect : Rect α}

theorem placeChain_nil : placeChain c top x reached [] = ([], reached) := by rw [placeChain]

theorem placeChain_cons (n : TreeNode) (rest : List TreeNode) :
    placeChain c top x reached (n :: rest) =
      let rect := n.cardRect c x top
      let inner := placeInner c rect n
      let more := placeChain c top (inner.2.right + c.hGap) (reached.join inner.2) rest
      (⟨n.id, rect, false, n.branchNames⟩ :: (inner.1 ++ more.1), more.2) := by
  cases n
  rw [placeChain]
  rfl

theorem placeBranches_nil : placeBranches c rect y reached [] = ([], reached) := by
  rw [placeBranches]

theorem placeBranches_cons (slot : String) (nodes : List TreeNode)
    (rest : List (String × List TreeNode)) :
    placeBranches c rect y reached ((slot, nodes) :: rest) =
      let branch := placeBranch c rect y nodes
      let more := placeBranches c rect (branch.2.bottom + c.branchVGap) (reached.join branch.2) rest
      (branch.1 ++ more.1, more.2) := by
  rw [placeBranches]
  rfl

theorem placeOrphans_nil : placeOrphans c top x reached [] = ([], reached) := by rw [placeOrphans]

theorem placeOrphans_cons (o : Orphan) (rest : List Orphan) :
    placeOrphans c top x reached (o :: rest) =
      let rect := o.node.cardRect c x top
      let more := placeOrphans c top (rect.right + c.hGap)
        (reached.join ⟨rect.right, rect.bottom⟩) rest
      (⟨o.node.id, rect, true, o.node.branchNames⟩ :: more.1, more.2) := by
  rw [placeOrphans]
  rfl

end Equations

/-- What a card shows of its node. -/
def Card.label (card : Card α) : String × Bool × List String :=
  (card.id, card.orphan, card.branches)

def TreeNode.label (orphan : Bool) (n : TreeNode) : String × Bool × List String :=
  (n.id, orphan, n.branchNames)

mutual

/-- Only nodes that control flow have branches. -/
def Branched : List TreeNode → Prop
  | [] => True
  | ⟨_, _, kind, _, children⟩ :: rest =>
    (kind ≠ .controlFlow → children = []) ∧ BranchesBranched children ∧ Branched rest

def BranchesBranched : List (String × List TreeNode) → Prop
  | [] => True
  | (_, nodes) :: rest => Branched nodes ∧ BranchesBranched rest

end

theorem branched_cons {n : TreeNode} {rest : List TreeNode} : Branched (n :: rest) ↔
    (n.kind ≠ .controlFlow → n.children = []) ∧ BranchesBranched n.children ∧ Branched rest := by
  cases n
  rw [Branched]

section Labels

variable {c : LayoutConfig α}

mutual

theorem labels_placeChain : ∀ (nodes : List TreeNode) (top x : α) (reached : Extent α),
    Branched nodes → (placeChain c top x reached nodes).1.map Card.label =
      (TreeNode.chainNodes nodes).map (TreeNode.label false)
  | [], _, _, _, _ => by simp [placeChain_nil, TreeNode.chainNodes]
  | ⟨id, opcode, kind, inputs, children⟩ :: rest, top, x, reached, h => by
    obtain ⟨hkind, hchildren, hrest⟩ := branched_cons.mp h
    have hinner (rect : Rect α) :
        (placeInner c rect ⟨id, opcode, kind, inputs, children⟩).1.map Card.label =
          (TreeNode.branchNodes children).map (TreeNode.label false) := by
      unfold placeInner
      split
      · exact labels_placeBranches children _ _ _ hchildren
      · rename_i hflow
        have hnone : children = [] := hkind (by simpa [TreeNode.isControlFlow] using hflow)
        simp [hnone, TreeNode.branchNodes]
    rw [placeChain_cons, TreeNode.chainNodes, TreeNode.subtree]
    simp only [List.map_cons, List.map_append, List.cons_append, hinner]
    rw [labels_placeChain rest _ _ _ hrest]
    rfl

theorem labels_placeBranches : ∀ (children : List (String × List TreeNode)) (rect : Rect α) (y : α)
    (reached : Extent α), BranchesBranched children →
    (placeBranches c rect y reached children).1.map Card.label =
      (TreeNode.branchNodes children).map (TreeNode.label false)
  | [], _, _, _, _ => by simp [placeBranches_nil, TreeNode.branchNodes]
  | (slot, nodes) :: rest, rect, y, reached, h => by
    rw [BranchesBranched] at h
    have hbranch : (placeBranch c rect y nodes).1.map Card.label =
        (TreeNode.chainNodes nodes).map (TreeNode.label false) := by
      unfold placeBranch
      split
      · rename_i hempty
        rw [List.isEmpty_iff.mp hempty]
        simp [TreeNode.chainNodes]
      · exact labels_placeChain nodes _ _ _ h.1
    rw [placeBranches_cons, TreeNode.branchNodes]
    simp only [List.map_append, hbranch]
    rw [labels_placeBranches rest _ _ _ h.2]

end

theorem labels_placeOrphans (orphans : List Orphan) (top x : α) (reached : Extent α) :
    (placeOrphans c top x reached orphans).1.map Card.label =
      orphans.map fun o => o.node.label true := by
  induction orphans generalizing x reached with
  | nil => rw [placeOrphans_nil]; rfl
  | cons o rest ih =>
    rw [placeOrphans_cons, List.map_cons, List.map_cons, ih]
    rfl

end Labels

namespace WorkflowTree

variable (c : LayoutConfig α) (t : WorkflowTree) (top : α)

/-- The cards of the chain of a group that starts at `top`. -/
def chainCards : List (Card α) × Extent α :=
  placeChain c (top + c.groupPadding) c.groupPadding ⟨c.groupPadding, top + c.groupPadding⟩ t.nodes

/-- The row of orphans below the chain. -/
def orphanCards : List (Card α) × Extent α :=
  let row := (t.chainCards c top).2.bottom + c.orphanGap
  placeOrphans c row c.groupPadding ⟨c.groupPadding, row⟩ t.orphans

/-- The lower edge of the cards that there are. -/
def cardsBottom : α :=
  if t.orphans.isEmpty then (t.chainCards c top).2.bottom else (t.orphanCards c top).2.bottom

variable {c t top}

theorem baseCards_eq : baseCards c t top =
    let cards := (t.chainCards c top).1 ++ (t.orphanCards c top).1
    (cards, if cards.isEmpty then top + c.groupPadding + c.headerHeight else t.cardsBottom c top)
    := by
  unfold baseCards cardsBottom
  cases horphans : t.orphans with
  | nil =>
    have hnone : (t.orphanCards c top).1 = [] := by
      rw [orphanCards, horphans]
      simp [placeOrphans_nil]
    simp only [hnone, List.append_nil, List.isEmpty_nil, if_true]
    rfl
  | cons o rest =>
    rw [orphanCards, horphans]
    rfl

/-- A group without cards leaves room for one header. -/
theorem bottom_of_no_cards (h : (baseCards c t top).1 = []) :
    (baseCards c t top).2 = top + c.groupPadding + c.headerHeight := by
  rw [baseCards_eq] at h ⊢
  dsimp only at h ⊢
  rw [h]
  rfl

theorem labels_baseCards (c : LayoutConfig α) (top : α) (h : Branched t.nodes) :
    (baseCards c t top).1.map Card.label =
      t.chainNodes.map (TreeNode.label false) ++ t.orphans.map fun o => o.node.label true := by
  rw [baseCards_eq, List.map_append, chainCards, orphanCards, labels_placeChain _ _ _ _ h,
    labels_placeOrphans]
  rfl

variable {o : LayoutOverrides α}

theorem nodes_layout : (t.layout c o top).1.nodes = (baseCards c t top).1.map fun card =>
    NodeGeometry.ofCard c ((o.workflowOffset t.name).offset (o.nodeOffset t.name card.id)) card :=
  rfl

theorem connections_layout : (t.layout c o top).1.connections =
    connections c (t.layout c o top).1.nodes t.drawnLinks := rfl

theorem bounds_layout : (t.layout c o top).1.bounds =
    groupBounds c top (o.workflowOffset t.name) (t.layout c o top).1.nodes := rfl

theorem bottom_layout : (t.layout c o top).2 = (baseCards c t top).2 := rfl

end WorkflowTree

theorem layoutFrom_cons {c : LayoutConfig α} {o : LayoutOverrides α} {top : α} (t : WorkflowTree)
    (rest : List WorkflowTree) : layoutFrom c o top (t :: rest) = (t.layout c o top).1 ::
      layoutFrom c o ((t.layout c o top).2 + c.groupPadding + c.groupGap) rest := by
  rw [layoutFrom]

end BlockFlow
