import BlockFlow.Proofs.Layout.Placement
import BlockFlow.Proofs.Pointers
import Mathlib.Algebra.Order.Field.Rat
import Mathlib.Tactic.Linarith

/-!
The automatic layout on exact coordinates. Each run of cards keeps to the right of and below its
corner and within the extent that it reports, and whatever is placed after it starts beyond that
extent. Main statement: no two cards of a drawing overlap, groups contain their cards, and groups do
not overlap.
-/

namespace BlockFlow

section Scalars

variable (a b : ℚ)

@[simp] theorem larger_rat : Scalar.larger a b = max a b := by
  change (if a < b then b else a) = max a b
  rw [max_def_lt]

@[simp] theorem smaller_rat : Scalar.smaller a b = min a b := by
  change (if b < a then b else a) = min a b
  rw [min_comm, min_def_lt]

@[simp] theorem ofNat_rat (n : Nat) : (Scalar.ofNat n : ℚ) = n := rfl

theorem sum_nonneg {xs : List ℚ} (h : ∀ x ∈ xs, 0 ≤ x) : 0 ≤ Scalar.sum xs := by
  have hfold (start : ℚ) (hs : 0 ≤ start) (ys : List ℚ) (hys : ∀ y ∈ ys, 0 ≤ y) :
      0 ≤ ys.foldl (· + ·) start := by
    induction ys generalizing start with
    | nil => exact hs
    | cons y ys ih =>
      rw [List.forall_mem_cons] at hys
      exact ih _ (add_nonneg hs hys.1) hys.2
  exact hfold 0 le_rfl xs h

end Scalars

/-- All widths, heights, gaps and paddings are at least zero. -/
structure LayoutConfig.Nonnegative (c : LayoutConfig ℚ) : Prop where
  nodeWidth : 0 ≤ c.nodeWidth
  headerHeight : 0 ≤ c.headerHeight
  inputRowHeight : 0 ≤ c.inputRowHeight
  pillBaseHeight : 0 ≤ c.pillBaseHeight
  pillRowHeight : 0 ≤ c.pillRowHeight
  pillPadding : 0 ≤ c.pillPadding
  branchPortHeight : 0 ≤ c.branchPortHeight
  hGap : 0 ≤ c.hGap
  branchVGap : 0 ≤ c.branchVGap
  groupPadding : 0 ≤ c.groupPadding
  groupGap : 0 ≤ c.groupGap
  orphanGap : 0 ≤ c.orphanGap

section Heights

variable {c : LayoutConfig ℚ} (hc : c.Nonnegative)
include hc

mutual

theorem pillHeight_nonneg : ∀ v : Resolved, 0 ≤ v.pillHeight c
  | .reporter _ _ inputs => by
    rw [Resolved.pillHeight, ofNat_rat]
    have hrows := mul_nonneg (Nat.cast_nonneg (min (regularCount inputs) c.maxPreviewRows))
      hc.pillRowHeight
    have hpills := sum_nonneg (pillHeights_nonneg inputs)
    have hbase := hc.pillBaseHeight
    positivity
  | .literal _ => by simp [Resolved.pillHeight]
  | .variable _ => by simp [Resolved.pillHeight]
  | .call _ _ => by simp [Resolved.pillHeight]

theorem pillHeights_nonneg : ∀ slots : Slots, ∀ x ∈ Resolved.pillHeights c slots, 0 ≤ x
  | [] => by simp [Resolved.pillHeights]
  | (_, .reporter opcode id inputs) :: rest => by
    rw [Resolved.pillHeights, List.forall_mem_cons]
    have hpill := pillHeight_nonneg (.reporter opcode id inputs)
    exact ⟨add_nonneg hpill hc.pillPadding, pillHeights_nonneg rest⟩
  | (_, .literal _) :: rest => by
    simpa [Resolved.pillHeights] using pillHeights_nonneg rest
  | (_, .variable _) :: rest => by
    simpa [Resolved.pillHeights] using pillHeights_nonneg rest
  | (_, .call _ _) :: rest => by
    simpa [Resolved.pillHeights] using pillHeights_nonneg rest

end

theorem cardHeight_nonneg (n : TreeNode) : 0 ≤ n.cardHeight c := by
  have hrows := mul_nonneg (Nat.cast_nonneg (min (regularCount n.inputs) c.maxPreviewRows))
    hc.inputRowHeight
  have hpills := sum_nonneg (pillHeights_nonneg hc n.inputs)
  have hports :
      0 ≤ if n.isControlFlow then (n.children.length : ℚ) * c.branchPortHeight else 0 := by
    split
    · exact mul_nonneg (Nat.cast_nonneg _) hc.branchPortHeight
    · exact le_rfl
  have hheader := hc.headerHeight
  unfold TreeNode.cardHeight
  simp only [ofNat_rat, Nat.cast_zero]
  linarith

end Heights

namespace Rect

/-- The points strictly within a rectangle. -/
def Inside (r : Rect ℚ) (p : Point ℚ) : Prop :=
  r.x < p.x ∧ p.x < r.right ∧ r.y < p.y ∧ p.y < r.bottom

/-- Two rectangles have no inner point in common. -/
def Apart (r s : Rect ℚ) : Prop := ∀ p, r.Inside p → ¬ s.Inside p

def Covers (r s : Rect ℚ) : Prop :=
  r.x ≤ s.x ∧ r.y ≤ s.y ∧ s.right ≤ r.right ∧ s.bottom ≤ r.bottom

variable {r s t u : Rect ℚ}

theorem Covers.inside (h : r.Covers s) {p : Point ℚ} (hp : s.Inside p) : r.Inside p :=
  ⟨h.1.trans_lt hp.1, hp.2.1.trans_le h.2.2.1, h.2.1.trans_lt hp.2.2.1,
    hp.2.2.2.trans_le h.2.2.2⟩

theorem Covers.trans (h : r.Covers s) (k : s.Covers t) : r.Covers t :=
  ⟨h.1.trans k.1, h.2.1.trans k.2.1, k.2.2.1.trans h.2.2.1, k.2.2.2.trans h.2.2.2⟩

theorem Apart.of_covers (h : r.Apart s) (hr : r.Covers t) (hs : s.Covers u) : t.Apart u :=
  fun p ht hu => h p (hr.inside ht) (hs.inside hu)

theorem apart_of_beside (h : r.right ≤ s.x) : r.Apart s := by
  intro p hr hs
  exact absurd (hr.2.1.trans_le h) (not_lt.mpr hs.1.le)

theorem apart_of_below (h : r.bottom ≤ s.y) : r.Apart s := by
  intro p hr hs
  exact absurd (hr.2.2.2.trans_le h) (not_lt.mpr hs.2.2.1.le)

theorem right_union : (r.union s).right = max r.right s.right := by
  simp [union, right]

theorem bottom_union : (r.union s).bottom = max r.bottom s.bottom := by
  simp [union, bottom]

theorem union_covers_left : (r.union s).Covers r := by
  refine ⟨?_, ?_, right_union ▸ le_max_left .., bottom_union ▸ le_max_left ..⟩
  · simp [union]
  · simp [union]

theorem union_covers_right : (r.union s).Covers s := by
  refine ⟨?_, ?_, right_union ▸ le_max_right .., bottom_union ▸ le_max_right ..⟩
  · simp [union]
  · simp [union]

theorem expand_covers {pad : ℚ} (h : 0 ≤ pad) : (r.expand pad).Covers r := by
  simp only [Covers, expand, right, bottom, ofNat_rat, Nat.cast_ofNat]
  refine ⟨?_, ?_, ?_, ?_⟩ <;> linarith

end Rect

/-- A rectangle lies to the right of `left`, below `top` and within the extent. -/
structure Rect.Lies (left top : ℚ) (e : Extent ℚ) (r : Rect ℚ) : Prop where
  left : left ≤ r.x
  top : top ≤ r.y
  right : r.right ≤ e.right
  bottom : r.bottom ≤ e.bottom

/-- Cards side by side, none over another, to the right of `left`, below `top` and within the
extent. -/
structure Spread (left top : ℚ) (e : Extent ℚ) (cards : List (Card ℚ)) : Prop where
  lies : ∀ card ∈ cards, card.rect.Lies left top e
  apart : cards.Pairwise fun a b => a.rect.Apart b.rect

/-- One extent reaches at least as far as another. -/
structure Extent.Reaches (e e' : Extent ℚ) : Prop where
  right : e.right ≤ e'.right
  bottom : e.bottom ≤ e'.bottom

section Spread

variable {left top left' top' : ℚ} {e e' : Extent ℚ} {cards more : List (Card ℚ)} {card : Card ℚ}

theorem Extent.Reaches.trans {e'' : Extent ℚ} (h : e.Reaches e') (k : e'.Reaches e'') :
    e.Reaches e'' := ⟨h.right.trans k.right, h.bottom.trans k.bottom⟩

theorem Extent.reaches_join_left : e.Reaches (e.join e') :=
  ⟨by simp [Extent.join], by simp [Extent.join]⟩

theorem Extent.reaches_join_right : e'.Reaches (e.join e') :=
  ⟨by simp [Extent.join], by simp [Extent.join]⟩

theorem Spread.nil : Spread left top e [] := ⟨by simp, .nil⟩

theorem Spread.single (h : card.rect.Lies left top e) : Spread left top e [card] :=
  ⟨by simpa using h, List.pairwise_singleton ..⟩

theorem Spread.mono (h : Spread left top e cards) (hleft : left' ≤ left) (htop : top' ≤ top)
    (he : e.Reaches e') : Spread left' top' e' cards := by
  refine ⟨fun card hcard => ?_, h.apart⟩
  have hlies := h.lies card hcard
  exact ⟨hleft.trans hlies.left, htop.trans hlies.top, hlies.right.trans he.right,
    hlies.bottom.trans he.bottom⟩

/-- What starts beyond an extent on one side lies apart from what is within it. -/
theorem Spread.append (h : Spread left top e cards) (k : Spread left' top' e' more)
    (hsep : e.right ≤ left' ∨ e.bottom ≤ top') (hleft : left ≤ left') (htop : top ≤ top')
    (he : e.Reaches e') : Spread left top e' (cards ++ more) := by
  have hcards := h.mono le_rfl le_rfl he
  have hmore := k.mono hleft htop ⟨le_rfl, le_rfl⟩
  refine ⟨List.forall_mem_append.mpr ⟨hcards.lies, hmore.lies⟩, ?_⟩
  refine List.pairwise_append.mpr ⟨h.apart, k.apart, fun a ha b hb => ?_⟩
  have hla := h.lies a ha
  have hlb := k.lies b hb
  rcases hsep with hsep | hsep
  · exact Rect.apart_of_beside (hla.right.trans (hsep.trans hlb.left))
  · exact Rect.apart_of_below (hla.bottom.trans (hsep.trans hlb.top))

end Spread

section Placement

variable {c : LayoutConfig ℚ} (hc : c.Nonnegative)
include hc

theorem cardRect_reaches (n : TreeNode) (x top : ℚ) :
    x ≤ (n.cardRect c x top).right ∧ top ≤ (n.cardRect c x top).bottom :=
  ⟨le_add_of_nonneg_right hc.nodeWidth, le_add_of_nonneg_right (cardHeight_nonneg hc n)⟩

mutual

/-- Chains spread to the right of where they start. By induction on the chain; what is beside a node
starts beyond all of its branches. -/
theorem spread_placeChain : ∀ (nodes : List TreeNode) (top x : ℚ) (reached : Extent ℚ),
    reached.Reaches (placeChain c top x reached nodes).2 ∧
      Spread x top (placeChain c top x reached nodes).2 (placeChain c top x reached nodes).1
  | [], top, x, reached => by
    rw [placeChain_nil]
    exact ⟨⟨le_rfl, le_rfl⟩, .nil⟩
  | ⟨id, opcode, kind, inputs, children⟩ :: rest, top, x, reached => by
    rw [placeChain_cons]
    set n : TreeNode := ⟨id, opcode, kind, inputs, children⟩
    set rect := n.cardRect c x top
    obtain ⟨hright, hbottom⟩ := cardRect_reaches hc n x top
    have hcard : Spread x top ⟨rect.right, rect.bottom⟩ [⟨n.id, rect, false, n.branchNames⟩] :=
      .single ⟨le_rfl, le_rfl, le_rfl, le_rfl⟩
    obtain ⟨hown, hinner⟩ : Extent.Reaches ⟨rect.right, rect.bottom⟩ (placeInner c rect n).2 ∧
        Spread x (rect.bottom + c.branchVGap) (placeInner c rect n).2
          (placeInner c rect n).1 := by
      unfold placeInner
      split
      · exact spread_placeBranches children rect _ _
      · exact ⟨⟨le_rfl, le_rfl⟩, .nil⟩
    obtain ⟨hreached, hrest⟩ := spread_placeChain rest top
      ((placeInner c rect n).2.right + c.hGap) (reached.join (placeInner c rect n).2)
    have hgap := hc.branchVGap
    have hbelow := hcard.append hinner (.inr (by linarith)) le_rfl (by linarith) hown
    have hstart := hown.right
    have hbeside := hc.hGap
    refine ⟨Extent.reaches_join_left.trans hreached, ?_⟩
    exact hbelow.append hrest (.inl (by linarith)) (by linarith) le_rfl
      (Extent.reaches_join_right.trans hreached)

/-- Branches spread downwards from where they start. -/
theorem spread_placeBranches : ∀ (children : List (String × List TreeNode)) (rect : Rect ℚ) (y : ℚ)
    (reached : Extent ℚ), reached.Reaches (placeBranches c rect y reached children).2 ∧
      Spread rect.x y (placeBranches c rect y reached children).2
        (placeBranches c rect y reached children).1
  | [], rect, y, reached => by
    rw [placeBranches_nil]
    exact ⟨⟨le_rfl, le_rfl⟩, .nil⟩
  | (slot, nodes) :: rest, rect, y, reached => by
    rw [placeBranches_cons]
    obtain ⟨hbottom, hbranch⟩ : y ≤ (placeBranch c rect y nodes).2.bottom ∧
        Spread rect.x y (placeBranch c rect y nodes).2 (placeBranch c rect y nodes).1 := by
      unfold placeBranch
      split
      · exact ⟨le_add_of_nonneg_right hc.headerHeight, .nil⟩
      · obtain ⟨hreached, hchain⟩ := spread_placeChain nodes y rect.x ⟨rect.x, y⟩
        exact ⟨hreached.bottom, hchain⟩
    obtain ⟨hreached, hrest⟩ := spread_placeBranches rest rect
      ((placeBranch c rect y nodes).2.bottom + c.branchVGap)
      (reached.join (placeBranch c rect y nodes).2)
    have hgap := hc.branchVGap
    refine ⟨Extent.reaches_join_left.trans hreached, ?_⟩
    exact hbranch.append hrest (.inr (by linarith)) le_rfl (by linarith)
      (Extent.reaches_join_right.trans hreached)

end

theorem spread_placeOrphans (orphans : List Orphan) (top x : ℚ) (reached : Extent ℚ) :
    reached.Reaches (placeOrphans c top x reached orphans).2 ∧
      Spread x top (placeOrphans c top x reached orphans).2
        (placeOrphans c top x reached orphans).1 := by
  induction orphans generalizing x reached with
  | nil =>
    rw [placeOrphans_nil]
    exact ⟨⟨le_rfl, le_rfl⟩, .nil⟩
  | cons o rest ih =>
    rw [placeOrphans_cons]
    set rect := o.node.cardRect c x top
    have hcard : Spread x top ⟨rect.right, rect.bottom⟩
        [⟨o.node.id, rect, true, o.node.branchNames⟩] := .single ⟨le_rfl, le_rfl, le_rfl, le_rfl⟩
    obtain ⟨hreached, hrest⟩ := ih (rect.right + c.hGap) (reached.join ⟨rect.right, rect.bottom⟩)
    obtain ⟨hright, -⟩ := cardRect_reaches hc o.node x top
    have hgap := hc.hGap
    refine ⟨Extent.reaches_join_left.trans hreached, ?_⟩
    exact hcard.append hrest (.inl (by linarith)) (by linarith) le_rfl
      (Extent.reaches_join_right.trans hreached)

/-- The cards that a group has spread between its padding and its lower edge. -/
theorem spread_cardsBottom (t : WorkflowTree) (top : ℚ) :
    top + c.groupPadding ≤ t.cardsBottom c top ∧ ∃ right,
      Spread c.groupPadding (top + c.groupPadding) ⟨right, t.cardsBottom c top⟩
        ((t.chainCards c top).1 ++ (t.orphanCards c top).1) := by
  set corner : Extent ℚ := ⟨c.groupPadding, top + c.groupPadding⟩
  obtain ⟨hchain, hcards⟩ : corner.Reaches (t.chainCards c top).2 ∧
      Spread c.groupPadding (top + c.groupPadding) (t.chainCards c top).2 (t.chainCards c top).1 :=
    spread_placeChain hc t.nodes _ _ corner
  unfold WorkflowTree.cardsBottom
  split
  · rename_i hnone
    have hempty : (t.orphanCards c top).1 = [] := by
      rw [WorkflowTree.orphanCards, List.isEmpty_iff.mp hnone]
      simp [placeOrphans_nil]
    rw [hempty, List.append_nil]
    exact ⟨hchain.bottom, _, hcards⟩
  · obtain ⟨hrow, horphans⟩ : Extent.Reaches
        ⟨c.groupPadding, (t.chainCards c top).2.bottom + c.orphanGap⟩ (t.orphanCards c top).2 ∧
        Spread c.groupPadding ((t.chainCards c top).2.bottom + c.orphanGap)
          (t.orphanCards c top).2 (t.orphanCards c top).1 :=
      spread_placeOrphans hc t.orphans _ _ _
    have hbottom := hchain.bottom
    have hrowBottom := hrow.bottom
    have hgap := hc.orphanGap
    dsimp only at hbottom hrowBottom
    refine ⟨by linarith, max (t.chainCards c top).2.right (t.orphanCards c top).2.right, ?_⟩
    refine hcards.append (horphans.mono le_rfl le_rfl ⟨le_max_right .., le_rfl⟩)
      (.inr (by linarith)) le_rfl (by linarith) ⟨le_max_left .., ?_⟩
    dsimp only
    linarith

/-- The cards of a group spread between its padding and the bottom of its layout. -/
theorem spread_baseCards (t : WorkflowTree) (top : ℚ) :
    top + c.groupPadding ≤ (baseCards c t top).2 ∧ ∃ right,
      Spread c.groupPadding (top + c.groupPadding) ⟨right, (baseCards c t top).2⟩
        (baseCards c t top).1 := by
  obtain ⟨hbottom, right, hcards⟩ := spread_cardsBottom hc t top
  rw [WorkflowTree.baseCards_eq]
  dsimp only
  split
  · rename_i hnone
    rw [List.isEmpty_iff.mp hnone]
    exact ⟨le_add_of_nonneg_right hc.headerHeight, 0, .nil⟩
  · exact ⟨hbottom, right, hcards⟩

end Placement

section Groups

variable {c : LayoutConfig ℚ} {o : LayoutOverrides ℚ} {t : WorkflowTree} {top : ℚ}

theorem workflowOffset_of_isEmpty (ho : o.isEmpty) (workflow : String) :
    o.workflowOffset workflow = Point.origin := by
  have hnone : o.workflows = [] := by
    rw [LayoutOverrides.isEmpty, Bool.and_eq_true, List.isEmpty_iff] at ho
    exact ho.1
  rw [LayoutOverrides.workflowOffset, hnone]
  rfl

theorem nodeOffset_of_isEmpty (ho : o.isEmpty) (workflow id : String) :
    o.nodeOffset workflow id = Point.origin := by
  rw [LayoutOverrides.isEmpty, Bool.and_eq_true, List.all_eq_true] at ho
  unfold LayoutOverrides.nodeOffset
  cases hnodes : firstOf? workflow o.nodes with
  | none => rfl
  | some offsets =>
    have hempty : offsets.isEmpty = true := ho.2 _ (mem_of_firstOf? hnodes)
    rw [List.isEmpty_iff.mp hempty]
    rfl

/-- What was not dragged stays where it was placed. -/
theorem rects_layout (ho : o.isEmpty) (t : WorkflowTree) (top : ℚ) :
    (t.layout c o top).1.nodes.map (·.rect) = (baseCards c t top).1.map (·.rect) := by
  rw [WorkflowTree.nodes_layout, List.map_map]
  refine List.map_congr_left fun card _ => ?_
  simp [NodeGeometry.ofCard, workflowOffset_of_isEmpty ho, nodeOffset_of_isEmpty ho, Rect.moveBy,
    Point.offset, Point.origin]

theorem foldl_union_covers (rects : List (Rect ℚ)) (r : Rect ℚ) :
    (rects.foldl Rect.union r).Covers r ∧ ∀ s ∈ rects, (rects.foldl Rect.union r).Covers s := by
  induction rects generalizing r with
  | nil => exact ⟨⟨le_rfl, le_rfl, le_rfl, le_rfl⟩, by simp⟩
  | cons s rest ih =>
    obtain ⟨hfirst, hrest⟩ := ih (r.union s)
    refine ⟨hfirst.trans Rect.union_covers_left, List.forall_mem_cons.mpr ⟨?_, hrest⟩⟩
    exact hfirst.trans Rect.union_covers_right

theorem lies_foldl_union {left : ℚ} {e : Extent ℚ} (rects : List (Rect ℚ)) (r : Rect ℚ)
    (hr : r.Lies left top e) (hrects : ∀ s ∈ rects, s.Lies left top e) :
    (rects.foldl Rect.union r).Lies left top e := by
  induction rects generalizing r with
  | nil => exact hr
  | cons s rest ih =>
    rw [List.forall_mem_cons] at hrects
    obtain ⟨hs, hrest⟩ := hrects
    refine ih _ ⟨?_, ?_, ?_, ?_⟩ hrest
    · simpa [Rect.union] using ⟨hr.left, hs.left⟩
    · simpa [Rect.union] using ⟨hr.top, hs.top⟩
    · simpa [Rect.right_union] using ⟨hr.right, hs.right⟩
    · simpa [Rect.bottom_union] using ⟨hr.bottom, hs.bottom⟩

theorem groupBounds_covers (hc : c.Nonnegative) (offset : Point ℚ) (nodes : List (NodeGeometry ℚ)) :
    ∀ n ∈ nodes, (groupBounds c top offset nodes).Covers n.rect := by
  cases nodes with
  | nil => simp
  | cons n rest =>
    obtain ⟨hfirst, hrest⟩ := foldl_union_covers (rest.map (·.rect)) n.rect
    have hpad {r : Rect ℚ} := Rect.expand_covers (r := r) hc.groupPadding
    refine List.forall_mem_cons.mpr ⟨hpad.trans hfirst, fun m hm => hpad.trans ?_⟩
    exact hrest m.rect (List.mem_map_of_mem hm)

/-- A group lies between the height where it starts and its bottom with the padding. -/
theorem groupBounds_layout (hc : c.Nonnegative) (ho : o.isEmpty) (t : WorkflowTree) (top : ℚ) :
    top ≤ (t.layout c o top).1.bounds.y ∧
      (t.layout c o top).1.bounds.bottom ≤ (t.layout c o top).2 + c.groupPadding := by
  obtain ⟨-, right, hcards⟩ := spread_baseCards hc t top
  have hrects := rects_layout (c := c) ho t top
  rw [WorkflowTree.bounds_layout, WorkflowTree.bottom_layout, workflowOffset_of_isEmpty ho]
  cases hnodes : (t.layout c o top).1.nodes with
  | nil =>
    have hnone : (baseCards c t top).1 = [] := by
      simpa [hnodes] using hrects.symm
    rw [WorkflowTree.bottom_of_no_cards hnone]
    simp only [groupBounds, Rect.expand, Rect.moveBy, Rect.bottom, Point.origin, ofNat_rat]
    constructor <;> push_cast <;> linarith
  | cons n rest =>
    have hlies : ∀ r ∈ (n :: rest).map (·.rect), r.Lies c.groupPadding (top + c.groupPadding)
        ⟨right, (baseCards c t top).2⟩ := by
      rw [← hnodes, hrects]
      exact List.forall_mem_map.mpr hcards.lies
    rw [List.map_cons, List.forall_mem_cons] at hlies
    have hunion := lies_foldl_union _ _ hlies.1 hlies.2
    have htop := hunion.top
    have hbottom := hunion.bottom
    simp only [groupBounds, Rect.expand, Rect.bottom, ofNat_rat] at hbottom ⊢
    constructor <;> push_cast <;> linarith

/-- Every group lies where one workflow is laid out, at or below the height of the first. -/
theorem exists_layout_of_mem (hc : c.Nonnegative) (ts : List WorkflowTree)
    (g : WorkflowGeometry ℚ) (hg : g ∈ layoutFrom c o top ts) :
    ∃ (t : WorkflowTree) (top' : ℚ), top ≤ top' ∧ g = (t.layout c o top').1 := by
  induction ts generalizing top with
  | nil => simp [layoutFrom] at hg
  | cons t rest ih =>
    rw [layoutFrom_cons, List.mem_cons] at hg
    obtain rfl | hg := hg
    · exact ⟨t, top, le_rfl, rfl⟩
    · obtain ⟨t', top', hbelow, rfl⟩ := ih hg
      obtain ⟨hbottom, -⟩ := spread_baseCards hc t top
      rw [WorkflowTree.bottom_layout] at hbelow
      have hpad := hc.groupPadding
      have hgap := hc.groupGap
      exact ⟨t', top', by linarith, rfl⟩

/-- Groups stack. By induction on the workflows: the next group starts below this one. -/
theorem pairwise_bounds_layoutFrom (hc : c.Nonnegative) (ho : o.isEmpty) (top : ℚ)
    (ts : List WorkflowTree) :
    (layoutFrom c o top ts).Pairwise fun g g' => g.bounds.Apart g'.bounds := by
  induction ts generalizing top with
  | nil => simp [layoutFrom]
  | cons t rest ih =>
    rw [layoutFrom_cons, List.pairwise_cons]
    refine ⟨fun g hg => Rect.apart_of_below ?_, ih _⟩
    obtain ⟨t', top', hbelow, rfl⟩ := exists_layout_of_mem hc rest g hg
    have hend := (groupBounds_layout hc ho t top).2
    have hstart := (groupBounds_layout hc ho t' top').1
    have hgap := hc.groupGap
    linarith

theorem pairwise_nodes_layout (hc : c.Nonnegative) (ho : o.isEmpty) :
    (t.layout c o top).1.nodes.Pairwise fun n m => n.rect.Apart m.rect := by
  obtain ⟨-, right, hcards⟩ := spread_baseCards hc t top
  have hplaced : ((baseCards c t top).1.map (·.rect)).Pairwise Rect.Apart :=
    List.pairwise_map.mpr hcards.apart
  rw [← rects_layout ho t top] at hplaced
  exact List.pairwise_map.mp hplaced

end Groups

/-- No two cards overlap, groups contain their cards, and no two groups overlap. -/
structure Geometry.Separate (g : Geometry ℚ) : Prop where
  cards : (g.workflows.flatMap (·.nodes)).Pairwise fun n m => n.rect.Apart m.rect
  within : ∀ w ∈ g.workflows, ∀ n ∈ w.nodes, w.bounds.Covers n.rect
  groups : g.workflows.Pairwise fun w w' => w.bounds.Apart w'.bounds

theorem separate_layout {c : LayoutConfig ℚ} (hc : c.Nonnegative) {o : LayoutOverrides ℚ}
    (ho : o.isEmpty) (t : Tree) : (t.layout c o).Separate := by
  have hwithin : ∀ w ∈ (t.layout c o).workflows, ∀ n ∈ w.nodes, w.bounds.Covers n.rect := by
    intro w hw
    obtain ⟨t', top', -, rfl⟩ := exists_layout_of_mem hc t.workflows w hw
    exact groupBounds_covers hc _ _
  have hgroups := pairwise_bounds_layoutFrom hc ho (Scalar.ofNat 0) t.workflows
  refine ⟨List.pairwise_flatMap.mpr ⟨fun w hw => ?_, ?_⟩, hwithin, hgroups⟩
  · obtain ⟨t', top', -, rfl⟩ := exists_layout_of_mem hc t.workflows w hw
    exact pairwise_nodes_layout hc ho
  · -- cards of different groups lie within rectangles that are apart
    refine hgroups.imp_of_mem fun hw hw' hapart n hn m hm => ?_
    exact hapart.of_covers (hwithin _ hw n hn) (hwithin _ hw' m hm)

/-- The standard measures as exact numbers. -/
def LayoutConfig.exact : LayoutConfig ℚ :=
  { nodeWidth := 200
    headerHeight := 60
    inputRowHeight := 22
    maxPreviewRows := 4
    pillBaseHeight := 28
    pillRowHeight := 20
    pillPadding := 8
    branchPortHeight := 24
    hGap := 80
    branchVGap := 40
    groupPadding := 40
    groupGap := 120
    orphanGap := 80
    zoomMin := 1 / 5
    zoomMax := 5 / 2
    curvature := 1 / 2
    maxCurveOffset := 120 }

/-- A loop that another node follows, with a branch of one node and an empty one, and an orphan; and
a workflow without nodes. -/
def Tree.loopAndVoid : Tree :=
  let leaf (id : String) : TreeNode := ⟨id, "io_print", .io, [], []⟩
  ⟨[⟨"main", default, [],
      [⟨"loop", "control_while", .controlFlow, [], [("BODY", [leaf "inner"]), ("ELSE", [])]⟩,
        leaf "after"], [⟨leaf "aside", none⟩]⟩,
    ⟨"void", default, [], [], []⟩]⟩

theorem separate_loopAndVoid : LayoutConfig.exact.Nonnegative ∧
    (Tree.loopAndVoid.layout .exact {}).workflows.length = 2 ∧
    (Tree.loopAndVoid.layout .exact {}).Separate := by
  have hc : LayoutConfig.exact.Nonnegative := by
    constructor <;> simp [LayoutConfig.exact]
  exact ⟨hc, rfl, separate_layout hc rfl Tree.loopAndVoid⟩

end BlockFlow
