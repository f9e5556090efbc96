import BlockFlow.Edit.Draft
import BlockFlow.Proofs.Outcome

/-!
What it takes for the look-ups of a draft to succeed.
-/

namespace BlockFlow.Draft

variable {d : Draft} {w : Workflow} {n : NodeDef} {name id : String} {i : Nat}

theorem workflow_eq_ok : d.workflow name = .ok w ↔ d.document.workflow? name = some w := by
  unfold workflow
  split <;> simp_all

/-- What is done with a workflow that is there. -/
theorem ok_of_workflow {α : Type} {f : Workflow → Except EditError α} {x : α}
    (h : (d.workflow name >>= f) = .ok x) (hw : d.document.workflow? name = some w) :
    f w = .ok x := by
  rwa [workflow_eq_ok.mpr hw] at h

theorem node_eq_ok : node w id = .ok n ↔ w.node? id = some n := by
  unfold node
  split <;> simp_all

theorem graph_eq_ok {g : LinkGraph} : graph w = .ok g ↔ LinkGraph.build w = .ok g := by
  unfold graph
  split <;> simp_all

theorem workflowLine_eq_ok :
    d.workflowLine name = .ok i ↔ d.outline.workflowLine? name = some i := by
  unfold workflowLine
  split <;> simp_all

theorem nodeSpan_eq_ok {s : Span} : d.nodeSpan name id = .ok s ↔
    ∃ i, d.outline.workflowLine? name = some i ∧ d.outline.nodeSpan? i id = some s := by
  rw [nodeSpan, Outcome.bind_eq_ok]
  refine exists_congr fun i => and_congr workflowLine_eq_ok ?_
  cases d.outline.nodeSpan? i id <;> simp

end BlockFlow.Draft
