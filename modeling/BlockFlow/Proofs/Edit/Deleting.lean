import BlockFlow.Proofs.Edit.Reload
import BlockFlow.Proofs.Removal
import BlockFlow.Proofs.Tree.Containers

/-!
What is left of a workflow when a node is deleted.
-/

namespace BlockFlow

namespace Workflow

/-- Pointers and references name nodes of the workflow. -/
structure Closed (w : Workflow) : Prop where
  pointers : ∀ n ∈ w.nodes, ∀ p ∈ n.pointers, p.2 ∈ w.nodeIds
  references : ∀ n ∈ w.nodes, ∀ id ∈ InputExpr.nodeRefsIn n.inputs, id ∈ w.nodeIds

/-- The second workflow is the first without the node `id` and what the tree shows in its branches:
nothing that is missing is named, and what led to the node leads to its successor. -/
structure CutsOut (t : WorkflowTree) (w w' : Workflow) (id : String) : Prop where
  closed : w'.Closed
  chain : ∀ n ∈ t.chainNodes, n.id ∉ w'.nodeIds ↔
    n.id = id ∨ ∃ m, t.find? id = some m ∧ n.id ∈ m.subtree.map (·.id)
  bridged : ∀ a slot, w.pointer? a slot = some id → a ∈ w'.nodeIds →
    w'.pointer? a slot = w.pointer? id .next ∧
      ∀ next, w.pointer? id .next = some next → next ∈ w'.nodeIds

end Workflow

namespace Edit

open Outcome

/-- The node `c` stands in the branch of `a`; the node `w`, and the contents of its branch, lead to
it too. -/
def shared : String :=
  "workflows:
  - name: m
    nodes:
      start:
        opcode: workflow_start
        next: a
      a:
        opcode: control_if
        branches:
          THEN: c
        next: w
      w:
        opcode: control_while
        branches:
          BODY: b
        next: c
      b:
        opcode: io_print
        next: c
      c:
        opcode: io_print
"

set_option maxRecDepth 2000 in
/-- Deleting `w` deletes its successor, which the branch of `w` leads to. -/
theorem delete_shared : ¬ ∀ (text name id : String) (r : Edited) (t : Tree) (d : Document)
    (w : Workflow) (m : WorkflowTree), Tree.parse Catalog.builtin text = .ok t →
    Document.load text = .ok d → d.workflow? name = some w → t.workflow? name = some m →
    (Edit.deleteNode name id).apply Catalog.builtin text = .ok r →
    ∃ d' w', Document.load r.text = .ok d' ∧ d'.workflow? name = some w' ∧
      w.CutsOut m w' id := by
  intro h
  obtain ⟨cs, htext, hcheck⟩ : ∃ cs, shared = String.ofList cs ∧
      (documents? Catalog.builtin (.deleteNode "m" "w") cs).any (fun (d, d') =>
        (Tree.ofDocument d Catalog.builtin).isOk && (d.workflow? "m").isSome &&
        (d'.workflow? "m").any fun w =>
          w.pointer? "a" .next = some "c" && !w.nodeIds.contains "c") := ⟨_, rfl, by decide +kernel⟩
  obtain ⟨d, r, d', hd, hr, hd', hdocs⟩ := exists_apply htext hcheck
  simp only [Bool.and_eq_true, Option.any_eq_true, Option.isSome_iff_exists, isOk_iff,
    decide_eq_true_eq, Bool.not_eq_true', List.contains_eq_mem, decide_eq_false_iff_not] at hdocs
  obtain ⟨⟨⟨t, ht⟩, w, hw⟩, v, hv, hpointer, hgone⟩ := hdocs
  obtain ⟨m, hm, -⟩ := Tree.exists_workflow? ht hw
  rw [← Tree.parse_eq_ofDocument hd] at ht
  obtain ⟨d₂, w', hd₂, hw', hcuts⟩ := h shared "m" "w" r t d w m ht hd hw hm hr
  obtain rfl : d' = d₂ := Except.ok.inj (hd'.symm.trans hd₂)
  obtain rfl : v = w' := Option.some.inj (hv.symm.trans hw')
  obtain ⟨n, hn, htarget⟩ := Option.bind_eq_some_iff.mp hpointer
  exact hgone (hcuts.closed.pointers n (Workflow.node?_mem hn) _
    (NodeDef.mem_pointers_of_target? htarget))

end Edit

end BlockFlow
