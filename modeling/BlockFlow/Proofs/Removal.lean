import BlockFlow.Proofs.Reporters
import BlockFlow.References

/-!
What goes along when nodes are removed. Main statement: besides the nodes and the contents of their
branches, exactly the reporters go that no pointer leads to and that only nodes which go use.
-/

namespace BlockFlow

open Relation

namespace LinkGraph

variable {w : Workflow} {g : LinkGraph} {a x : String}

/-- Branches lead to what pointers lead to from their heads. -/
theorem mem_branchDescendants (hg : build w = .ok g) : x ∈ g.branchDescendants a ↔
    x ≠ a ∧ ∃ n ∈ w.nodes, n.id = a ∧ ∃ name head, (name, some head) ∈ n.branches ∧
      ReflTransGen w.Names head x := by
  have hheads (head : String) :
      head ∈ ((g.outgoing a).filter (·.2.isBranch)).map (·.1) ↔
        ∃ n ∈ w.nodes, n.id = a ∧ ∃ name, (name, some head) ∈ n.branches := by
    simp only [List.mem_map, List.mem_filter]
    constructor
    · intro h
      obtain ⟨⟨_, slot⟩, ⟨hmem, hbranch⟩, rfl⟩ := h
      obtain ⟨n, hn, hid, hp⟩ := (mem_outgoing hg).mp hmem
      cases slot with
      | next => simp [LinkSlot.isBranch] at hbranch
      | branch name => exact ⟨n, hn, hid, name, NodeDef.mem_pointers_branch.mp hp⟩
    · intro h
      obtain ⟨n, hn, hid, name, hb⟩ := h
      have hmem := (mem_outgoing hg).mpr ⟨n, hn, hid, NodeDef.mem_pointers_branch.mpr hb⟩
      exact ⟨(head, .branch name), ⟨hmem, rfl⟩, rfl⟩
  simp only [branchDescendants, List.mem_filter, List.mem_eraseDups, List.mem_flatMap, hheads,
    mem_reachableFrom hg, decide_eq_true_eq, and_comm (b := x ≠ a)]
  refine and_congr_right fun _ => ⟨?_, ?_⟩
  · intro h
    obtain ⟨head, ⟨n, hn, hid, name, hb⟩, -, hreach⟩ := h
    exact ⟨n, hn, hid, name, head, hb, hreach⟩
  · intro h
    obtain ⟨n, hn, hid, name, head, hb, hreach⟩ := h
    have hmem := (build_eq_ok.mp hg).1 n hn _ (NodeDef.mem_pointers_branch.mpr hb)
    exact ⟨head, ⟨n, hn, hid, name, hb⟩, hmem, hreach⟩

theorem incomingCount_eq_zero (hg : build w = .ok g) :
    g.incomingCount x = 0 ↔ ∀ a, ¬ w.Names a x := by
  rw [incomingCount, List.length_eq_zero_iff, List.eq_nil_iff_forall_not_mem]
  constructor
  · intro h a hex
    obtain ⟨n, hn, hid, slot, hp⟩ := hex
    exact h (a, slot) ((mem_incoming hg).mpr ⟨n, hn, hid, hp⟩)
  · intro h p hmem
    obtain ⟨a, slot⟩ := p
    obtain ⟨n, hn, hid, hp⟩ := (mem_incoming hg).mp hmem
    exact h a ⟨n, hn, hid, slot, hp⟩

end LinkGraph

namespace Workflow

variable {w : Workflow} {g : LinkGraph} {gone more ids : List String} {x : String}

theorem Cites.mem_nodeIds {a : String} (h : w.Cites a x) : a ∈ w.nodeIds := by
  obtain ⟨n, hn⟩ := h.exists_node?
  exact mem_nodeIds_of_node? hn

theorem mem_allRefs {a : String} (h : w.Cites a x) : x ∈ w.allRefs := by
  obtain ⟨n, hn⟩ := h.exists_node?
  have hrefs : x ∈ w.reporterRefs n.id := by
    rw [node?_id hn]
    exact h
  exact List.mem_flatMap.mpr ⟨n, node?_mem hn, hrefs⟩

theorem usedOutside_iff : w.usedOutside gone x ↔ ∃ a, w.Cites a x ∧ a ∉ gone := by
  simp only [usedOutside, List.any_eq_true, List.mem_filter, Bool.not_eq_true', Cites,
    List.contains_eq_mem, decide_eq_true_eq, decide_eq_false_iff_not]
  constructor
  · intro h
    obtain ⟨n, ⟨-, hgone⟩, hcites⟩ := h
    exact ⟨n.id, hcites, hgone⟩
  · intro h
    obtain ⟨a, hcites, hgone⟩ := h
    obtain ⟨n, hn, rfl⟩ := mem_nodeIds.mp (Cites.mem_nodeIds hcites)
    exact ⟨n, ⟨hn, hgone⟩, hcites⟩

/-- Nothing outside `gone` needs a reporter: no pointer leads to it, and only nodes in `gone` use
it. -/
structure Unneeded (w : Workflow) (gone : List String) (x : String) : Prop where
  unlinked : ∀ a, ¬ w.Names a x
  unused : ∀ a, w.Cites a x → a ∈ gone

theorem Unneeded.mono (h : w.Unneeded gone x) (hsub : gone ⊆ more) : w.Unneeded more x :=
  ⟨h.unlinked, fun a ha => hsub (h.unused a ha)⟩

/-- A reporter is let go when it is still there and nothing needs it. -/
theorem release_eq (hg : LinkGraph.build w = .ok g) (gone : List String) (x : String) :
    (x ∉ gone ∧ w.Unneeded gone x ∧ w.release g gone x = gone ++ [x]) ∨
      (¬ (x ∉ gone ∧ w.Unneeded gone x) ∧ w.release g gone x = gone) := by
  have hcond : (gone.contains x || w.usedOutside gone x || 0 < g.incomingCount x) = true ↔
      ¬ (x ∉ gone ∧ w.Unneeded gone x) := by
    have hlinked : 0 < g.incomingCount x ↔ ¬ ∀ a, ¬ w.Names a x := by
      rw [← LinkGraph.incomingCount_eq_zero hg, Nat.pos_iff_ne_zero]
    simp only [Bool.or_eq_true, List.contains_iff_mem, usedOutside_iff, decide_eq_true_eq, hlinked]
    constructor
    · intro hkept hfree
      obtain ⟨hx, hunneeded⟩ := hfree
      rcases hkept with (h | ⟨a, ha, hout⟩) | h
      · exact hx h
      · exact hout (hunneeded.unused a ha)
      · exact h hunneeded.unlinked
    · intro h
      by_contra hnot
      simp only [not_or, not_exists, not_and, not_not] at hnot
      exact h ⟨hnot.1.1, hnot.2, hnot.1.2⟩
  unfold release
  by_cases h : x ∉ gone ∧ w.Unneeded gone x
  · exact .inl ⟨h.1, h.2, if_neg (by rw [hcond]; exact not_not_intro h)⟩
  · exact .inr ⟨h, if_pos (hcond.mpr h)⟩

theorem prefix_release (hg : LinkGraph.build w = .ok g) (gone : List String) (x : String) :
    gone <+: w.release g gone x := by
  rcases release_eq hg gone x with ⟨-, -, h⟩ | ⟨-, h⟩
  · rw [h]
    exact List.prefix_append _ _
  · rw [h]

theorem prefix_foldl_release (hg : LinkGraph.build w = .ok g) (gone ids : List String) :
    gone <+: ids.foldl (w.release g) gone := by
  induction ids generalizing gone with
  | nil => exact List.prefix_refl _
  | cons id ids ih => exact (prefix_release hg gone id).trans (ih _)

/-- What a pass lets go nothing needs. -/
theorem unneeded_of_foldl_release (hg : LinkGraph.build w = .ok g)
    (h : x ∈ ids.foldl (w.release g) gone) (hx : x ∉ gone) :
    x ∈ ids ∧ w.Unneeded (ids.foldl (w.release g) gone) x := by
  induction ids generalizing gone with
  | nil => exact absurd h hx
  | cons id ids ih =>
    rw [List.foldl_cons] at h ⊢
    by_cases hnew : x ∈ w.release g gone id
    · rcases release_eq hg gone id with ⟨-, hunneeded, heq⟩ | ⟨-, heq⟩
      · rw [heq, List.mem_append, List.mem_singleton] at hnew
        obtain rfl := hnew.resolve_left hx
        have hkept := (prefix_release hg gone x).trans (prefix_foldl_release hg _ ids)
        exact ⟨List.mem_cons_self .., hunneeded.mono hkept.subset⟩
      · rw [heq] at hnew
        exact absurd hnew hx
    · obtain ⟨hmem, hunneeded⟩ := ih h hnew
      exact ⟨List.mem_cons_of_mem _ hmem, hunneeded⟩

/-- A pass that lets nothing go found everything needed. -/
theorem foldl_release_eq (hg : LinkGraph.build w = .ok g)
    (h : (ids.foldl (w.release g) gone).length = gone.length) :
    ∀ x ∈ ids, w.Unneeded gone x → x ∈ gone := by
  induction ids with
  | nil => simp
  | cons id ids ih =>
    rw [List.foldl_cons] at h
    rcases release_eq hg gone id with ⟨-, -, heq⟩ | ⟨hneeded, heq⟩
    · have hlen := (prefix_foldl_release hg (w.release g gone id) ids).length_le
      rw [h, heq, List.length_append, List.length_singleton] at hlen
      omega
    · rw [heq] at h
      refine List.forall_mem_cons.mpr ⟨fun hunneeded => ?_, ih h⟩
      by_contra hx
      exact hneeded ⟨hx, hunneeded⟩

/-- A pass that lets something go lets something go that was still there. -/
theorem exists_released (hg : LinkGraph.build w = .ok g)
    (h : (ids.foldl (w.release g) gone).length ≠ gone.length) :
    ∃ x ∈ ids.foldl (w.release g) gone, x ∉ gone := by
  induction ids with
  | nil => exact absurd rfl h
  | cons id ids ih =>
    rw [List.foldl_cons] at h ⊢
    rcases release_eq hg gone id with ⟨hid, -, heq⟩ | ⟨-, heq⟩
    · refine ⟨id, (prefix_foldl_release hg _ _).subset ?_, hid⟩
      rw [heq]
      exact List.mem_append_right _ (List.mem_singleton_self id)
    · rw [heq] at h ⊢
      exact ih h

theorem mem_candidates : x ∈ (gone.flatMap w.reporterRefs).filter (fun id => !gone.contains id) ↔
    (∃ a ∈ gone, w.Cites a x) ∧ x ∉ gone := by
  simp [Cites]

theorem prefix_releaseRefs (hg : LinkGraph.build w = .ok g) (gone : List String) :
    gone <+: w.releaseRefs g gone :=
  prefix_foldl_release hg gone _

theorem prefix_releaseAll (hg : LinkGraph.build w = .ok g) (fuel : Nat) (gone : List String) :
    gone <+: w.releaseAll g fuel gone := by
  induction fuel generalizing gone with
  | zero => exact List.prefix_refl _
  | succ fuel ih =>
    rw [releaseAll]
    split
    · exact List.prefix_refl _
    · exact (prefix_releaseRefs hg gone).trans (ih _)

/-- What goes in the end was gone from the start, or it is a reporter that nodes which go use and
that nothing else needs. -/
theorem unneeded_of_releaseAll (hg : LinkGraph.build w = .ok g) (fuel : Nat)
    (h : x ∈ w.releaseAll g fuel gone) (hx : x ∉ gone) :
    w.Unneeded (w.releaseAll g fuel gone) x ∧ ∃ a ∈ w.releaseAll g fuel gone, w.Cites a x := by
  induction fuel generalizing gone with
  | zero => exact absurd h hx
  | succ fuel ih =>
    rw [releaseAll] at h ⊢
    split at h
    · exact absurd h hx
    · rename_i hgrown
      rw [if_neg hgrown]
      by_cases hmore : x ∈ w.releaseRefs g gone
      · obtain ⟨hmem, hunneeded⟩ := unneeded_of_foldl_release hg hmore hx
        obtain ⟨⟨a, ha, hcites⟩, -⟩ := mem_candidates.mp hmem
        have hkept := prefix_releaseAll hg fuel (w.releaseRefs g gone)
        have hall := (prefix_releaseRefs hg gone).trans hkept
        exact ⟨hunneeded.mono hkept.subset, a, hall.subset ha, hcites⟩
      · exact ih h hmore

/-- Passes go on until nothing is left to let go: each but the last lets a reporter go. -/
theorem releaseAll_closed (hg : LinkGraph.build w = .ok g) (fuel : Nat)
    (hfuel : (w.allRefs.toFinset \ gone.toFinset).card < fuel)
    (hunneeded : w.Unneeded (w.releaseAll g fuel gone) x)
    (hused : ∃ a ∈ w.releaseAll g fuel gone, w.Cites a x) : x ∈ w.releaseAll g fuel gone := by
  induction fuel generalizing gone with
  | zero => omega
  | succ fuel ih =>
    rw [releaseAll] at hunneeded hused ⊢
    split
    · rename_i hsame
      rw [if_pos hsame] at hunneeded hused
      by_contra hx
      exact hx (foldl_release_eq hg hsame x (mem_candidates.mpr ⟨hused, hx⟩) hunneeded)
    · rename_i hgrown
      rw [if_neg hgrown] at hunneeded hused
      refine ih ?_ hunneeded hused
      obtain ⟨y, hy, hnew⟩ := exists_released hg hgrown
      obtain ⟨⟨a, -, hcites⟩, -⟩ := mem_candidates.mp (unneeded_of_foldl_release hg hy hnew).1
      obtain ⟨new, heq⟩ := prefix_releaseRefs hg gone
      change y ∈ w.releaseRefs g gone at hy
      rw [← heq] at hy
      have hlt := Reach.unseen_lt ((List.mem_append.mp hy).resolve_left hnew) (mem_allRefs hcites) hnew
      rw [heq] at hlt
      exact Nat.lt_of_lt_of_le hlt (by omega)

/-- Removing nodes takes along what their branches lead to, and then the reporters that no pointer
leads to and that only nodes which go use. -/
theorem mem_removalSet {roots : List String} (hg : LinkGraph.build w = .ok g) :
    x ∈ w.removalSet g roots ↔ x ∈ w.nodeIds ∧
      (x ∈ roots ∨ (∃ r ∈ roots, x ∈ g.branchDescendants r) ∨
        w.Unneeded (w.removalSet g roots) x ∧ ∃ a ∈ w.removalSet g roots, w.Cites a x) := by
  let start := (roots.flatMap fun id => id :: g.branchDescendants id).eraseDups
  let gone := w.releaseAll g (w.allRefs.length + 1) start
  have hgone (y : String) : y ∈ w.removalSet g roots ↔ y ∈ w.nodeIds ∧ y ∈ gone := by
    simp [removalSet, gone, start]
  have hstart : x ∈ start ↔ x ∈ roots ∨ ∃ r ∈ roots, x ∈ g.branchDescendants r := by
    simp only [start, List.mem_eraseDups, List.mem_flatMap, List.mem_cons]
    constructor
    · intro hex
      rcases hex with ⟨r, hr, rfl | hx⟩
      · exact .inl hr
      · exact .inr ⟨r, hr, hx⟩
    · intro hex
      rcases hex with hx | ⟨r, hr, hx⟩
      · exact ⟨x, hx, .inl rfl⟩
      · exact ⟨r, hr, .inr hx⟩
  have hunneeded : w.Unneeded (w.removalSet g roots) x ↔ w.Unneeded gone x := by
    refine ⟨fun h => ⟨h.unlinked, fun a ha => ((hgone a).mp (h.unused a ha)).2⟩,
      fun h => ⟨h.unlinked, fun a ha => (hgone a).mpr ⟨ha.mem_nodeIds, h.unused a ha⟩⟩⟩
  have hused : (∃ a ∈ w.removalSet g roots, w.Cites a x) ↔ ∃ a ∈ gone, w.Cites a x := by
    refine ⟨fun ⟨a, ha, hc⟩ => ⟨a, ((hgone a).mp ha).2, hc⟩,
      fun ⟨a, ha, hc⟩ => ⟨a, (hgone a).mpr ⟨hc.mem_nodeIds, ha⟩, hc⟩⟩
  have hcard : (w.allRefs.toFinset \ start.toFinset).card < w.allRefs.length + 1 := by
    have hle := (Finset.card_le_card (Finset.sdiff_subset (s := w.allRefs.toFinset)
      (t := start.toFinset))).trans (List.toFinset_card_le w.allRefs)
    omega
  rw [hgone, hunneeded, hused, ← or_assoc, ← hstart]
  refine and_congr_right fun _ => ⟨fun hx => ?_, ?_⟩
  · by_cases h : x ∈ start
    · exact .inl h
    · exact .inr (unneeded_of_releaseAll hg _ hx h)
  · intro hex
    rcases hex with h | ⟨h, hcites⟩
    · exact (prefix_releaseAll hg _ _).subset h
    · exact releaseAll_closed hg _ hcard h hcites

/-- Removing a node takes another node along: a branch leads to it, or it is a reporter that nodes
which go use and that nothing else needs. -/
def TakesAlong (w : Workflow) (g : LinkGraph) (id x : String) : Prop :=
  (∃ n ∈ w.nodes, n.id = id ∧ ∃ name head, (name, some head) ∈ n.branches ∧
    ReflTransGen w.Names head x) ∨
  w.Unneeded (w.removalSet g [id]) x ∧ ∃ a ∈ w.removalSet g [id], w.Cites a x

theorem mem_removalSet_singleton {id : String} (hg : LinkGraph.build w = .ok g) (hx : x ∈ w.nodeIds)
    (hne : x ≠ id) : x ∈ w.removalSet g [id] ↔ w.TakesAlong g id x := by
  have hbranch := LinkGraph.mem_branchDescendants (a := id) (x := x) hg
  rw [mem_removalSet hg]
  simp only [List.mem_singleton, exists_eq_left, hx, hne, hbranch, true_and, false_or, TakesAlong,
    ne_eq, not_false_eq_true]

end Workflow

end BlockFlow
