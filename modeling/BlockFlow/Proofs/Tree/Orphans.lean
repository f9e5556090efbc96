import BlockFlow.Proofs.Removal
import BlockFlow.Proofs.Tree.Partition

/-!
The orphans that a tree shows and those that edits look for. The tree follows the first entry for
each branch, the search of the edits all entries. Main statement: edits find no other orphans than
the tree shows, and they find all of them but the nodes that a later entry leads to.
-/

namespace BlockFlow

open Relation InputExpr

namespace Workflow

variable {w : Workflow} {g : LinkGraph} {a x : String}

/-- References lead from the start exactly to what the closure holds. -/
theorem mem_referenceClosure {start : List String} :
    x ∈ w.referenceClosure start ↔ ∃ a ∈ start, ReflTransGen w.Cites a x :=
  Reach.mem_closure (fun _ _ hb => mem_allRefs hb) le_rfl start x

/-- Entries for pointers lead from the start node to a node that needs this one as a reporter, or to
the node itself. -/
def Attached (w : Workflow) (id : String) : Prop :=
  ∃ a, w.Linked a ∧ ReflTransGen w.Cites a id

theorem Used.attached (h : w.Used x) : w.Attached x := by
  obtain ⟨a, ha, hcites⟩ := h
  exact ⟨a, ha.linked, hcites⟩

theorem used_iff_attached (hd : w.nodeIds.Nodup) (hb : ∀ n ∈ w.nodes, n.branchNames.Nodup) :
    w.Used x ↔ w.Attached x :=
  exists_congr fun _ => and_congr_left fun _ => reached_iff_linked hd hb

/-- Edits take the nodes for orphans that no entry leads to, neither as nodes of the chain nor as
reporters of such. -/
theorem mem_orphanIds (hg : LinkGraph.build w = .ok g) :
    x ∈ w.orphanIds g ↔ x ∈ w.nodeIds ∧ ¬ w.Attached x := by
  have hchain (a : String) : a ∈ (w.startId?.map g.reachableFrom).getD [] ↔ w.Linked a := by
    cases hs : w.startId? with
    | none => simp [Linked, hs]
    | some start =>
      have hstart := mem_nodeIds_of_startId? hs
      simp [Linked, hs, LinkGraph.mem_reachableFrom hg, hstart]
  have horphans : w.orphanIds g = w.nodeIds.filter fun id =>
      !(w.referenceClosure ((w.startId?.map g.reachableFrom).getD [])).contains id := by
    unfold orphanIds
    cases w.startId? <;> rfl
  simp only [horphans, List.mem_filter, Bool.not_eq_true', List.contains_eq_mem,
    decide_eq_false_iff_not, mem_referenceClosure, hchain, Attached]

end Workflow

namespace Tree

variable {d : Document} {c : Catalog} {w : Workflow} {t : WorkflowTree}

theorem exists_build_of_ofWorkflow (h : ofWorkflow d c w = .ok t) :
    ∃ g, LinkGraph.build w = .ok g := by
  obtain ⟨g, hg, -⟩ := Outcome.bind_eq_ok.mp h
  exact ⟨g, hg⟩

/-- How the orphans that edits look for compare with those of the tree. -/
structure OrphansAgree (t : WorkflowTree) (w : Workflow) (g : LinkGraph) : Prop where
  shown : w.orphanIds g ⊆ t.orphanIds
  missed : ∀ id ∈ t.orphanIds, id ∉ w.orphanIds g ↔ w.Attached id ∧ ¬ w.Used id
  same : (∀ n ∈ w.nodes, n.branchNames.Nodup) → ∀ id, id ∈ t.orphanIds ↔ id ∈ w.orphanIds g

theorem orphansAgree_of_partitions {g : LinkGraph} (hd : w.nodeIds.Nodup)
    (hg : LinkGraph.build w = .ok g) (h : Partitions t w) : OrphansAgree t w g := by
  refine ⟨fun id hid => ?_, fun id hid => ?_, fun hb id => ?_⟩
  · obtain ⟨hmem, hfree⟩ := (Workflow.mem_orphanIds hg).mp hid
    exact (h.orphans id).mpr ⟨hmem, fun hused => hfree hused.attached⟩
  · obtain ⟨hmem, hunused⟩ := (h.orphans id).mp hid
    simp [Workflow.mem_orphanIds hg, hmem, hunused]
  · rw [h.orphans, Workflow.mem_orphanIds hg, Workflow.used_iff_attached hd hb]

end Tree

end BlockFlow
