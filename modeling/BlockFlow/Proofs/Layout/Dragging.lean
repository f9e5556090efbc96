import BlockFlow.Proofs.Layout.Separation
import BlockFlow.Proofs.Layout.Placement

/-!
What dragging moves. Main statement: a card stands at its automatic place, moved by the offsets of its
node and its workflow, and no other offset moves it or a curve between two such cards.
-/

namespace BlockFlow

variable {α : Type} [Scalar α]

/-- The automatic places of the cards of workflows, the first of which starts at height `top`. -/
def automaticFrom (c : LayoutConfig α) (top : α) : List WorkflowTree → List (List (Card α))
  | [] => []
  | t :: rest =>
    let (cards, bottom) := baseCards c t top
    cards :: automaticFrom c (bottom + c.groupPadding + c.groupGap) rest

/-- The automatic places of the cards of each workflow. -/
def Tree.automatic (c : LayoutConfig α) (t : Tree) : List (List (Card α)) :=
  automaticFrom c (Scalar.ofNat 0) t.workflows

namespace LayoutOverrides

/-- How far a node is moved, together with its workflow. -/
def shift (o : LayoutOverrides α) (workflow id : String) : Point α :=
  (o.workflowOffset workflow).offset (o.nodeOffset workflow id)

/-- Two sets of offsets that are the same for a workflow and one of its nodes. -/
structure Agree (o o' : LayoutOverrides α) (workflow id : String) : Prop where
  group : o.workflowOffset workflow = o'.workflowOffset workflow
  own : o.nodeOffset workflow id = o'.nodeOffset workflow id

theorem Agree.shift {o o' : LayoutOverrides α} {workflow id : String}
    (h : o.Agree o' workflow id) : o.shift workflow id = o'.shift workflow id := by
  rw [LayoutOverrides.shift, LayoutOverrides.shift, h.group, h.own]

end LayoutOverrides

namespace WorkflowGeometry

/-- What is drawn for the nodes with the given id. -/
def cardsOf (g : WorkflowGeometry α) (id : String) : List (NodeGeometry α) :=
  g.nodes.filter fun n => n.id = id

/-- The curves between two nodes, in either direction. -/
def curvesBetween (g : WorkflowGeometry α) (id id' : String) : List (Connection α) :=
  g.connections.filter fun k =>
    (k.source = id && k.target = id') || (k.source = id' && k.target = id)

end WorkflowGeometry

section Dragged

variable {c : LayoutConfig α} {o o' : LayoutOverrides α} {workflow id : String}
  {cards : List (Card α)}

/-- A card as it is drawn. -/
def Card.dragged (c : LayoutConfig α) (o : LayoutOverrides α) (workflow : String)
    (card : Card α) : NodeGeometry α :=
  NodeGeometry.ofCard c (o.shift workflow card.id) card

theorem Card.dragged_congr {card : Card α} (h : o.Agree o' workflow id) (hid : card.id = id) :
    card.dragged c o workflow = card.dragged c o' workflow := by
  subst hid
  rw [Card.dragged, Card.dragged, h.shift]

theorem filter_dragged (h : o.Agree o' workflow id) :
    (cards.map (Card.dragged c o workflow)).filter (fun n => n.id = id) =
      (cards.map (Card.dragged c o' workflow)).filter (fun n => n.id = id) := by
  rw [List.filter_map, List.filter_map]
  refine List.map_congr_left fun card hcard => ?_
  have hid : card.id = id := of_decide_eq_true (List.mem_filter.mp hcard).2
  exact Card.dragged_congr h hid

theorem find?_dragged (h : o.Agree o' workflow id) :
    (cards.map (Card.dragged c o workflow)).reverse.find? (·.id = id) =
      (cards.map (Card.dragged c o' workflow)).reverse.find? (·.id = id) := by
  rw [← List.map_reverse, ← List.map_reverse, List.find?_map, List.find?_map]
  have hpred (o : LayoutOverrides α) : (fun n : NodeGeometry α => decide (n.id = id)) ∘
      Card.dragged c o workflow = fun card => decide (card.id = id) := rfl
  rw [hpred, hpred]
  cases hfind : cards.reverse.find? fun card => decide (card.id = id) with
  | none => rfl
  | some card =>
    have hid : card.id = id := by simpa using List.find?_some hfind
    rw [Option.map_some, Option.map_some, Card.dragged_congr h hid]

/-- A curve depends on the offsets of the two nodes that it joins. -/
theorem filter_connections_dragged {id' : String} (links : List (String × LinkSlot × String))
    (h : o.Agree o' workflow id) (h' : o.Agree o' workflow id') :
    (connections c (cards.map (Card.dragged c o workflow)) links).filter (fun k =>
        (k.source = id && k.target = id') || (k.source = id' && k.target = id)) =
      (connections c (cards.map (Card.dragged c o' workflow)) links).filter fun k =>
        (k.source = id && k.target = id') || (k.source = id' && k.target = id) := by
  unfold connections
  rw [List.filter_filterMap, List.filter_filterMap]
  refine List.filterMap_congr fun link _ => ?_
  obtain ⟨source, slot, target⟩ := link
  dsimp only
  by_cases hjoins : (source = id ∧ target = id') ∨ (source = id' ∧ target = id)
  · rcases hjoins with ⟨rfl, rfl⟩ | ⟨rfl, rfl⟩
    · rw [find?_dragged h, find?_dragged h']
    · rw [find?_dragged h, find?_dragged h']
  · -- the curve of any other link is left out, wherever it runs
    have hout (nodes : List (NodeGeometry α)) : (Option.filter (fun k : Connection α =>
        (k.source = id && k.target = id') || (k.source = id' && k.target = id)) (do
          let a ← nodes.reverse.find? (·.id = source)
          let b ← nodes.reverse.find? (·.id = target)
          some ⟨source, target, slot,
            Curve.between (a.exitOf slot) b.inputPort c.curvature c.maxCurveOffset⟩)) = none := by
      refine Option.filter_eq_none_iff.mpr fun k hk => ?_
      simp only [Option.bind_eq_bind, Option.bind_eq_some_iff, Option.some.injEq] at hk
      obtain ⟨a, -, b, -, rfl⟩ := hk
      simpa using hjoins
    rw [hout, hout]

end Dragged

/-- How a workflow is drawn under all offsets, when its cards have the automatic places `cards`. -/
structure DragsApart (w : WorkflowTree) (cards : List (Card α))
    (drawn : LayoutOverrides α → WorkflowGeometry α) : Prop where
  places : ∀ o, (drawn o).nodes.map (fun n => (n.id, n.rect)) =
    cards.map fun card => (card.id, card.rect.moveBy (o.shift w.name card.id))
  node : ∀ o o' id, o.Agree o' w.name id → (drawn o).cardsOf id = (drawn o').cardsOf id
  curve : ∀ o o' id id', o.Agree o' w.name id → o.Agree o' w.name id' →
    (drawn o).curvesBetween id id' = (drawn o').curvesBetween id id'
  /-- Where adding nothing changes nothing, the automatic places are those without offsets. -/
  resting : (∀ x : α, x + Scalar.ofNat 0 = x) →
    (drawn {}).nodes.map (fun n => (n.id, n.rect)) = cards.map fun card => (card.id, card.rect)

theorem dragsApart_layout (c : LayoutConfig α) (t : WorkflowTree) (top : α) :
    DragsApart t (baseCards c t top).1 fun o => (t.layout c o top).1 where
  places o := by
    rw [WorkflowTree.nodes_layout, List.map_map]
    rfl
  node o o' id h := filter_dragged h
  curve o o' id id' h h' := filter_connections_dragged t.drawnLinks h h'
  resting hzero := by
    rw [WorkflowTree.nodes_layout, List.map_map]
    refine List.map_congr_left fun card _ => ?_
    have hshift : (LayoutOverrides.shift {} t.name card.id : Point α) = Point.origin := by
      change (Point.origin : Point α).offset Point.origin = Point.origin
      simp only [Point.offset, Point.origin, hzero]
    have hrest : card.rect.moveBy Point.origin = card.rect := by
      simp only [Rect.moveBy, Point.origin, hzero]
    change (card.id, card.rect.moveBy (LayoutOverrides.shift {} t.name card.id)) = _
    rw [hshift, hrest]

/-- Offsets do not change where later workflows start. -/
theorem dragsApart_layoutFrom (c : LayoutConfig α) (ts : List WorkflowTree) (top : α) (i : Nat)
    (w : WorkflowTree) (hw : ts[i]? = some w) : ∃ cards drawn,
      (automaticFrom c top ts)[i]? = some cards ∧
      (∀ o, (layoutFrom c o top ts)[i]? = some (drawn o)) ∧ DragsApart w cards drawn := by
  induction ts generalizing top i with
  | nil => cases hw
  | cons t rest ih =>
    cases i with
    | zero =>
      obtain rfl : t = w := Option.some.inj hw
      exact ⟨_, _, rfl, fun o => rfl, dragsApart_layout c t top⟩
    | succ i => exact ih _ i hw

/-- A node is drawn at its automatic place, moved by its own offset and that of its workflow; it and
the curves between two nodes do not depend on any other offset. The automatic places of all workflows
do not depend on offsets at all. -/
theorem drags_only_named (c : LayoutConfig α) (t : Tree) (i : Nat) (w : WorkflowTree)
    (hw : t.workflows[i]? = some w) : ∃ cards drawn, (t.automatic c)[i]? = some cards ∧
      (∀ o, (t.layout c o).workflows[i]? = some (drawn o)) ∧ DragsApart w cards drawn :=
  dragsApart_layoutFrom c t.workflows (Scalar.ofNat 0) i w hw

/-- A workflow with a loop and an orphan, and a further workflow below it. -/
theorem loopAndVoid_drags_only_named : ∃ w cards drawn,
    Tree.loopAndVoid.workflows[0]? = some w ∧ w.orphanIds = ["aside"] ∧
    (Tree.loopAndVoid.automatic LayoutConfig.exact)[0]? = some cards ∧
    (∀ o, (Tree.loopAndVoid.layout .exact o).workflows[0]? = some (drawn o)) ∧
    DragsApart w cards drawn := by
  obtain ⟨cards, drawn, hcards, hdrawn, hdrags⟩ :=
    drags_only_named .exact Tree.loopAndVoid 0 _ rfl
  exact ⟨_, cards, drawn, rfl, rfl, hcards, hdrawn, hdrags⟩

end BlockFlow
