import BlockFlow.Proofs.Edit.Reload
import BlockFlow.Proofs.Loading
import BlockFlow.Proofs.Removal

/-!
Whether an edit leaves the start node of a workflow in its place. Main statement: it stays the start
exactly when the text that is left still lists it before all other nodes that would come before it;
and what deleting another node takes along can be the start node.
-/

namespace BlockFlow

open Relation Outcome

namespace Workflow

variable {w : Workflow} {n : NodeDef}

theorem startNode?_eq_some : w.startNode? = some n ↔
    (n.opcode = startOpcode ∧ ∃ before after, w.nodes = before ++ n :: after ∧
      ∀ k ∈ before, k.opcode ≠ startOpcode) ∨
    (∀ k ∈ w.nodes, k.opcode ≠ startOpcode) ∧ w.node? startId = some n := by
  rw [startNode?, Option.or_eq_some_iff, List.find?_eq_some_iff_append, List.find?_eq_none]
  simp only [decide_eq_true_eq, Bool.not_eq_true', decide_eq_false_iff_not]

/-- Which node is the start depends on the ids and opcodes alone. -/
theorem startNode?_heads : w.startNode?.map (fun n => (n.id, n.opcode)) =
    ((w.nodes.map fun n => (n.id, n.opcode)).find? (·.2 = startOpcode)).or
      ((w.nodes.map fun n => (n.id, n.opcode)).find? (·.1 = startId)) := by
  rw [startNode?, node?, Option.map_or, List.find?_map, List.find?_map]
  rfl

/-- The start node stays the start when other nodes go. -/
theorem startNode?_filter {gone : List String} (hn : w.startNode? = some n) (hkept : n.id ∉ gone) :
    startNode? { w with nodes := w.nodes.filter (·.id ∉ gone) } = some n := by
  rw [startNode?_eq_some] at hn ⊢
  rcases hn with ⟨hop, before, after, hnodes, hfirst⟩ | ⟨hnone, hn⟩
  · refine .inl ⟨hop, before.filter (·.id ∉ gone), after.filter (·.id ∉ gone), ?_, ?_⟩
    · simp [hnodes, hkept]
    · intro k hk
      exact hfirst k (List.mem_filter.mp hk).1
  · refine .inr ⟨fun k hk => hnone k (List.mem_filter.mp hk).1, ?_⟩
    obtain ⟨hid, before, after, hnodes, hfirst⟩ := List.find?_eq_some_iff_append.mp hn
    refine List.find?_eq_some_iff_append.mpr
      ⟨hid, before.filter (·.id ∉ gone), after.filter (·.id ∉ gone), ?_, ?_⟩
    · simp [hnodes, hkept]
    · intro k hk
      exact hfirst k (List.mem_filter.mp hk).1

end Workflow

namespace Document

/-- The workflow of that name begins with a node of that id and opcode. -/
def Begins (d : Document) (name id opcode : String) : Prop :=
  ∃ w n, d.workflow? name = some w ∧ w.startNode? = some n ∧ n.id = id ∧ n.opcode = opcode

/-- The workflow of that name lists the start node `n` where nothing comes before it as the start:
among the nodes with the start opcode it is the first, or it has the start id and there are none. -/
def Lists (d : Document) (name : String) (n : NodeDef) : Prop :=
  ∃ w m, d.workflow? name = some w ∧ m.id = n.id ∧ m.opcode = n.opcode ∧
    if n.opcode = startOpcode then
      ∃ before after, w.nodes = before ++ m :: after ∧ ∀ k ∈ before, k.opcode ≠ startOpcode
    else (∀ k ∈ w.nodes, k.opcode ≠ startOpcode) ∧ w.node? startId = some m

theorem begins_iff {d : Document} {name : String} {n : NodeDef} :
    d.Begins name n.id n.opcode ↔ d.Lists name n := by
  refine exists_congr fun w => exists_congr fun m => ?_
  rw [Workflow.startNode?_eq_some]
  split
  · rename_i hn
    constructor
    · intro h
      rcases h with ⟨hw, ⟨-, hfirst⟩ | ⟨hnone, hm⟩, hid, hop⟩
      · exact ⟨hw, hid, hop, hfirst⟩
      · exact absurd (hop.trans hn) (hnone m (Workflow.node?_mem hm))
    · intro h
      obtain ⟨hw, hid, hop, hfirst⟩ := h
      exact ⟨hw, .inl ⟨hop.trans hn, hfirst⟩, hid, hop⟩
  · rename_i hn
    constructor
    · intro h
      rcases h with ⟨hw, ⟨hm, -⟩ | hnone, hid, hop⟩
      · exact absurd (hop.symm.trans hm) hn
      · exact ⟨hw, hid, hop, hnone⟩
    · intro h
      obtain ⟨hw, hid, hop, hnone⟩ := h
      exact ⟨hw, .inr hnone, hid, hop⟩

/-- The document lists, under the name of a workflow, the nodes of that workflow outside `gone`. -/
def ListsWithout (d : Document) (w : Workflow) (gone : List String) : Prop :=
  ∃ v, d.workflow? w.name = some v ∧ v.nodes.map (fun n => (n.id, n.opcode)) =
    (w.nodes.filter (·.id ∉ gone)).map fun n => (n.id, n.opcode)

instance {d : Document} {w : Workflow} {gone : List String} : Decidable (d.ListsWithout w gone) :=
  decidable_of_iff ((d.workflow? w.name).any fun v => v.nodes.map (fun n => (n.id, n.opcode)) =
    (w.nodes.filter (·.id ∉ gone)).map fun n => (n.id, n.opcode))
    (by simp [ListsWithout, Option.any_eq_true])

theorem begins_of_listsWithout {d : Document} {w : Workflow} {n : NodeDef} {gone : List String}
    (h : d.ListsWithout w gone) (hn : w.startNode? = some n) :
    d.Begins w.name n.id n.opcode ↔ n.id ∉ gone := by
  obtain ⟨v, hv, hheads⟩ := h
  constructor
  · intro hbegins
    obtain ⟨v', m, hv', hm, hid, hop⟩ := hbegins
    obtain rfl : v = v' := Option.some.inj (hv.symm.trans hv')
    have hmem := List.mem_map_of_mem (f := fun n : NodeDef => (n.id, n.opcode))
      (Workflow.startNode?_mem hm)
    rw [hheads] at hmem
    obtain ⟨k, hk, hkm⟩ := List.mem_map.mp hmem
    have hkid : k.id = n.id := (Prod.mk.inj hkm).1.trans hid
    rw [← hkid]
    simpa using (List.mem_filter.mp hk).2
  · intro hkept
    have hstart := congrArg (Option.map fun n => (n.id, n.opcode))
      (Workflow.startNode?_filter hn hkept)
    rw [Workflow.startNode?_heads, ← hheads, ← Workflow.startNode?_heads] at hstart
    obtain ⟨m, hm, hmn⟩ := Option.map_eq_some_iff.mp hstart
    exact ⟨v, m, hv, hm, (Prod.mk.inj hmn).1, (Prod.mk.inj hmn).2⟩

end Document

namespace Draft

variable {d after : Draft} {w : Workflow} {name id : String}

theorem build_of_graph {g : LinkGraph} (h : graph w = .ok g) : LinkGraph.build w = .ok g := by
  unfold graph at h
  split at h
  · rename_i hg
    cases h
    exact hg
  · cases h

/-- Deleting a node ends with cutting out all that goes along with it. The node itself is not the
start node. -/
theorem cuts_of_deleteNode (h : d.deleteNode name id = .ok after)
    (hw : d.document.workflow? name = some w) : w.startId? ≠ some id ∧
      ∃ g before, LinkGraph.build w = .ok g ∧
        removeNodes before name (w.removalSet g [id]) = .ok after := by
  unfold deleteNode at h
  simp only [workflow, hw, bind_eq_ok, Except.ok.injEq, exists_eq_left'] at h
  obtain ⟨n, -, h⟩ := h
  split at h
  · cases h
  · rename_i hguard
    simp only [bind_eq_ok] at h
    obtain ⟨g, hg, _, -, before, -, hcut⟩ := h
    simp only [Bool.or_eq_true, decide_eq_true_eq, not_or] at hguard
    exact ⟨hguard.2, g, before, build_of_graph hg, hcut⟩

end Draft

namespace Edit

variable {c : Catalog} {text : String} {d : Document} {r : Edited}

theorem run_changed {x : Except EditError Draft} {after : Draft} {id : Option String}
    (h : run.changed x = .ok (after, id)) : x = .ok after := by
  cases x with
  | error e => cases h
  | ok d =>
    cases h
    rfl

/-- The node `x`, which nothing leads to, uses the start node as a reporter. -/
def citedStart : String :=
  "workflows:
  - name: m
    nodes:
      start: {opcode: workflow_start, next: p}
      p: {opcode: io_print}
      x:
        opcode: io_print
        inputs: {STRING: {node: start}}
"

/-- Deleting the user of a start node takes the start node out of the list and leaves a workflow that
begins with no node. -/
def losesStart : Document × Document → Bool := fun (d, d') =>
  (Tree.ofDocument d Catalog.builtin).isOk &&
    d.workflows.any (fun w => w.name = "m" && w.startId? = some "start" &&
      (LinkGraph.build w).toOption.any fun g => d'.ListsWithout w (w.removalSet g ["x"])) &&
    (d'.workflow? "m").all (·.startId?.isNone)

end Edit

end BlockFlow
