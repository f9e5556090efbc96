import BlockFlow.Proofs.Edit.Draft
import BlockFlow.Proofs.Edit.Reload
import BlockFlow.Proofs.Removal
import BlockFlow.Proofs.Tree.Containers

/-!
What is moved when a run is lifted out of its workflow.
-/

namespace BlockFlow

open Relation Outcome

namespace Draft

/-- The run `run` of a workflow, from `head` to `last`, can be lifted out: the selection is valid,
and the node `predecessor` stands before it. -/
structure Lifts (d : Draft) (args : Extraction) (w : Workflow) (g : LinkGraph)
    (run : Selection.Report) (head last predecessor : String) : Prop where
  workflow : d.document.workflow? args.workflow = some w
  selection : ∃ tree, Tree.ofDocument d.document d.catalog = .ok tree ∧
    Selection.report tree args.workflow args.nodeIds = run
  valid : run.isValid
  unused : d.document.workflow? args.newName = none
  head : run.firstId = some head
  last : run.lastId = some last
  predecessor : run.predecessorId = some predecessor
  graph : LinkGraph.build w = .ok g

/-- The blocks of nodes are cut out of their workflow. Behind a start node, and in front of copies
and a return node, they are the nodes of another workflow, which is put behind theirs. -/
def MovesBlocks (d : Draft) (w : Workflow) (name head last : String) (moved : List String) : Prop :=
  ∃ blocks before cut item interface locals copied returned next linked,
    moved.mapM (d.liftedNode w.name) = .ok blocks ∧ removeNodes before w.name moved = .ok cut ∧
      cut.workflowLine w.name = .ok item ∧
      (cut.withOutline (cut.outline.insertWorkflow (some item)
        (Outline.workflowLines name interface locals
          (startNodeLines (some head) ++ blocks.flatten ++ copied ++ returned)))).setPointer
        name last .next next = .ok linked

variable {d after : Draft} {args : Extraction} {w : Workflow} {g : LinkGraph}
  {run : Selection.Report} {head last predecessor id : String}

/-- Lifting a run moves what goes along with its nodes. -/
theorem exists_lifts (h : d.extract args = .ok (after, id)) :
    ∃ w g run head last predecessor, Lifts d args w g run head last predecessor ∧
      d.MovesBlocks w args.newName head last (w.removalSet g run.orderedIds) := by
  unfold extract at h
  simp only [bind_eq_ok, workflow_eq_ok] at h
  obtain ⟨w, hw, tree, htree, h⟩ := h
  split at h
  · cases h
  · rename_i hvalid
    split at h
    · cases h
    · rename_i hunused
      split at h
      · rename_i head last predecessor hhead hlast hpredecessor
        simp only [bind_eq_ok] at h
        obtain ⟨g, hg, blocks, hblocks, _, -, _, -, _, -, _, -, before, -, cut, hcut, item, hitem,
          linked, hlinked, -⟩ := h
        refine ⟨w, g, _, head, last, predecessor, ⟨hw, ⟨tree, ?_, rfl⟩, ?_, ?_, hhead, hlast,
          hpredecessor, graph_eq_ok.mp hg⟩, blocks, before, cut, item, _, _, _, _, _, linked,
          hblocks, hcut, hitem, hlinked⟩
        · cases hx : Tree.ofDocument d.document d.catalog <;> simp_all [Except.mapError]
        · simpa using hvalid
        · simpa using hunused
      · cases h

/-- The selected nodes are a run of neighbours in the tree of the workflow. -/
theorem Lifts.exists_run (h : Lifts d args w g run head last predecessor) :
    ∃ t container before nodes after, Tree.ofWorkflow d.document d.catalog w = .ok t ∧
      Selection.IsRun t run container before nodes after := by
  obtain ⟨tree, htree, rfl⟩ := h.selection
  obtain ⟨t, ht, hof⟩ := Tree.exists_workflow? htree h.workflow
  obtain ⟨strays, selected, anchor, heq⟩ :=
    Selection.exists_examine ht (Option.isSome_iff_exists.mpr ⟨head, h.head⟩)
  have hvalid := h.valid
  rw [heq] at hvalid ⊢
  obtain ⟨before, nodes, after, hrun⟩ :=
    Selection.exists_isRun (Tree.nodup_chainNodes hof) hvalid
  exact ⟨t, _, before, nodes, after, hof, hrun⟩

/-- The nodes around a run are nodes of the workflow, and pointers lead from the one before it to
its head and to its successor. -/
structure Lifts.Around (w : Workflow) (g : LinkGraph) (run : Selection.Report)
    (head last predecessor : String) : Prop where
  before : predecessor ∈ w.nodeIds
  moved : head ∈ w.removalSet g run.orderedIds
  behind : last ∈ w.nodeIds
  entry : TransGen w.Leads predecessor head
  onward : ∀ next, run.successorId = some next → TransGen w.Leads predecessor next

theorem Lifts.around (h : Lifts d args w g run head last predecessor) :
    Lifts.Around w g run head last predecessor := by
  obtain ⟨t, container, before, nodes, after, ht, hrun⟩ := h.exists_run
  have hfollows := Tree.follows_nodes ht
  have hmem {id : String} (hid : id ∈ run.orderedIds ∨ run.predecessorId = some id) :
      id ∈ w.nodeIds := by
    obtain ⟨m, hm⟩ := hrun.nodes hfollows hid
    exact Workflow.mem_nodeIds_of_node? hm
  have hhead : head ∈ run.orderedIds := by
    obtain ⟨n, hn, rfl⟩ := Option.map_eq_some_iff.mp (hrun.first.symm.trans h.head)
    rw [hrun.ordered]
    exact List.mem_map_of_mem (List.mem_of_head? hn)
  have hlast : last ∈ run.orderedIds := by
    obtain ⟨n, hn, rfl⟩ := Option.map_eq_some_iff.mp (hrun.last.symm.trans h.last)
    rw [hrun.ordered]
    exact List.mem_map_of_mem (List.mem_of_getLast? hn)
  exact ⟨hmem (.inr h.predecessor),
    (Workflow.mem_removalSet h.graph).mpr ⟨hmem (.inl hhead), .inl hhead⟩, hmem (.inl hlast),
    hrun.leads_first hfollows h.predecessor h.head,
    fun _ => hrun.leads_successor hfollows h.predecessor⟩

/-- The workflow that is made is another one: its name is not in use. -/
theorem Lifts.newName_ne (h : Lifts d args w g run head last predecessor) :
    args.newName ≠ args.workflow := by
  intro heq
  have hused := h.workflow
  rw [← heq, h.unused] at hused
  cases hused

theorem Lifts.unique {w₂ : Workflow} {g₂ : LinkGraph} {run₂ : Selection.Report}
    {head₂ last₂ predecessor₂ : String} (h : Lifts d args w g run head last predecessor)
    (h₂ : Lifts d args w₂ g₂ run₂ head₂ last₂ predecessor₂) :
    w = w₂ ∧ g = g₂ ∧ run = run₂ ∧ head = head₂ ∧ last = last₂ ∧ predecessor = predecessor₂ := by
  obtain rfl : w = w₂ := Option.some.inj (h.workflow.symm.trans h₂.workflow)
  obtain rfl : g = g₂ := Except.ok.inj (h.graph.symm.trans h₂.graph)
  obtain ⟨tree, htree, rfl⟩ := h.selection
  obtain ⟨tree₂, htree₂, rfl⟩ := h₂.selection
  obtain rfl : tree = tree₂ := Except.ok.inj (htree.symm.trans htree₂)
  exact ⟨rfl, rfl, rfl, Option.some.inj (h.head.symm.trans h₂.head),
    Option.some.inj (h.last.symm.trans h₂.last),
    Option.some.inj (h.predecessor.symm.trans h₂.predecessor)⟩

end Draft

namespace Workflow

/-- A branch pointer of a node leads to `x`. -/
def BranchLeads (w : Workflow) (id x : String) : Prop :=
  ∃ n ∈ w.nodes, n.id = id ∧ ∃ name head, (name, some head) ∈ n.branches ∧
    ReflTransGen w.Names head x

theorem BranchLeads.mem_nodeIds {w : Workflow} {g : LinkGraph} {id x : String}
    (hg : LinkGraph.build w = .ok g) (h : w.BranchLeads id x) : x ∈ w.nodeIds := by
  have hp := (LinkGraph.build_eq_ok.mp hg).1
  obtain ⟨n, hn, -, name, head, hhead, hway⟩ := h
  rcases ReflTransGen.cases_tail hway with rfl | ⟨a, -, m, hm, -, slot, hlast⟩
  · exact hp n hn _ (NodeDef.mem_pointers_branch.mpr hhead)
  · exact hp m hm _ hlast

/-- Branch pointers of nodes of a run lead into its branches, and pointers in there do not lead
out. -/
structure Encloses (w : Workflow) (run : List TreeNode) : Prop where
  heads : ∀ n ∈ run, ∀ k ∈ w.nodes, k.id = n.id → ∀ name head, (name, some head) ∈ k.branches →
    head ∈ run.flatMap Selection.contents
  closed : ∀ a ∈ run.flatMap Selection.contents, ∀ b, w.Names a b →
    b ∈ run.flatMap Selection.contents

theorem Encloses.mem {w : Workflow} {run : List TreeNode} {n : TreeNode} {x : String}
    (h : w.Encloses run) (hn : n ∈ run) (hx : w.BranchLeads n.id x) :
    x ∈ run.flatMap Selection.contents := by
  obtain ⟨k, hk, hid, name, head, hhead, hway⟩ := hx
  induction hway with
  | refl => exact h.heads n hn k hk hid name head hhead
  | tail _ hab ih => exact h.closed _ ih _ hab

end Workflow

namespace Selection

open BlockFlow.Tree

variable {t : WorkflowTree} {w : Workflow} {g : LinkGraph} {run : List TreeNode}

/-- What goes with the nodes of a run: the nodes in their branches, those that their branches lead
to though the tree shows them elsewhere, and reporters that nothing else needs. -/
structure MovesRun (t : WorkflowTree) (w : Workflow) (run : List TreeNode) (moved : List String) :
    Prop where
  nodes : ∀ n ∈ run, n.id ∈ moved
  contents : ∀ id ∈ run.flatMap contents, id ∈ moved
  only : ∀ id ∈ moved, id ∈ run.map (·.id) ∨ (∃ n ∈ run, w.BranchLeads n.id id) ∨
    w.Unneeded moved id ∧ ∃ a ∈ moved, w.Cites a id
  chain : ∀ id ∈ t.chainNodes.map (·.id), w.startId? ≠ some id →
    (id ∈ moved ↔ id ∈ run.map (·.id) ∨ ∃ n ∈ run, w.BranchLeads n.id id)
  enclosed : w.Encloses run → ∀ id ∈ t.chainNodes.map (·.id), w.startId? ≠ some id →
    (id ∈ moved ↔ id ∈ run.map (·.id) ∨ id ∈ run.flatMap Selection.contents)

section Moved

variable {d : Document} {c : Catalog} {r : Report} {container : Option (String × String)}
  {before after : List TreeNode} {n : TreeNode} {id x : String}

theorem IsRun.mem_moved (h : IsRun t r container before run after) (ht : ofWorkflow d c w = .ok t)
    (hg : LinkGraph.build w = .ok g) (hn : n ∈ run) : n.id ∈ w.removalSet g r.orderedIds := by
  have hid : n.id ∈ r.orderedIds := by
    rw [h.ordered]
    exact List.mem_map_of_mem hn
  obtain ⟨m, hm⟩ := h.nodes (follows_nodes ht) (.inl hid)
  exact (Workflow.mem_removalSet hg).mpr ⟨Workflow.mem_nodeIds_of_node? hm, .inl hid⟩

/-- What branches of a run lead to goes with it. -/
theorem IsRun.mem_moved_of_branchLeads (h : IsRun t r container before run after)
    (ht : ofWorkflow d c w = .ok t) (hg : LinkGraph.build w = .ok g) (hn : n ∈ run)
    (hx : w.BranchLeads n.id x) : x ∈ w.removalSet g r.orderedIds := by
  by_cases hne : x = n.id
  · rw [hne]
    exact h.mem_moved ht hg hn
  · refine (Workflow.mem_removalSet hg).mpr ⟨hx.mem_nodeIds hg, .inr (.inl ⟨n.id, ?_, ?_⟩)⟩
    · rw [h.ordered]
      exact List.mem_map_of_mem hn
    · exact (LinkGraph.mem_branchDescendants hg).mpr ⟨hne, hx⟩

/-- The branches of a run lead to the nodes that the tree shows in them. -/
theorem IsRun.branchLeads_of_contents (h : IsRun t r container before run after)
    (ht : ofWorkflow d c w = .ok t) (hid : id ∈ run.flatMap contents) :
    ∃ n ∈ run, w.BranchLeads n.id id := by
  have hfollows := follows_containerNodes container (follows_nodes ht)
  rw [h.place] at hfollows
  obtain ⟨n, hn, hid⟩ := List.mem_flatMap.mp hid
  rw [contents_eq] at hid
  obtain ⟨m, hm, hbranches⟩ :=
    hfollows.node? (List.mem_append_left _ (List.mem_append_right _ hn))
  obtain ⟨slot, head, hhead, hway⟩ := hbranches.reaches_ids hid
  refine ⟨n, hn, m, Workflow.node?_mem hm, Workflow.node?_id hm, slot, head,
    mem_of_firstOf? (Option.join_eq_some_iff.mp hhead), ?_⟩
  exact ReflTransGen.mono (fun _ _ => Workflow.Leads.names) _ _ hway

theorem IsRun.moved_cases (h : IsRun t r container before run after)
    (hg : LinkGraph.build w = .ok g) (hid : id ∈ w.removalSet g r.orderedIds) :
    id ∈ run.map (·.id) ∨ (∃ n ∈ run, w.BranchLeads n.id id) ∨
      w.Unneeded (w.removalSet g r.orderedIds) id ∧
        ∃ a ∈ w.removalSet g r.orderedIds, w.Cites a id := by
  rcases ((Workflow.mem_removalSet hg).mp hid).2 with hroot | ⟨root, hroot, hbelow⟩ | hreporter
  · rw [h.ordered] at hroot
    exact .inl hroot
  · rw [h.ordered] at hroot
    obtain ⟨n, hn, rfl⟩ := List.mem_map.mp hroot
    exact .inr (.inl ⟨n, hn, ((LinkGraph.mem_branchDescendants hg).mp hbelow).2⟩)
  · exact .inr (.inr hreporter)

theorem IsRun.movesRun (h : IsRun t r container before run after) (ht : ofWorkflow d c w = .ok t)
    (hg : LinkGraph.build w = .ok g) : MovesRun t w run (w.removalSet g r.orderedIds) := by
  have hled {n : TreeNode} {x : String} (hn : n ∈ run) (hx : w.BranchLeads n.id x) :
      x ∈ w.removalSet g r.orderedIds := h.mem_moved_of_branchLeads ht hg hn hx
  have hcontents : ∀ id ∈ run.flatMap contents, id ∈ w.removalSet g r.orderedIds := by
    intro id hid
    obtain ⟨n, hn, hleads⟩ := h.branchLeads_of_contents ht hid
    exact hled hn hleads
  have hchain : ∀ id ∈ t.chainNodes.map (·.id), w.startId? ≠ some id →
      (id ∈ w.removalSet g r.orderedIds ↔
        id ∈ run.map (·.id) ∨ ∃ n ∈ run, w.BranchLeads n.id id) := by
    intro id hid hne
    refine ⟨fun hmem => ?_, fun hmem => ?_⟩
    · rcases h.moved_cases hg hmem with hrun | hbelow | ⟨hunneeded, -⟩
      · exact .inl hrun
      · exact .inr hbelow
      · -- Pointers lead to a node of the chain, so it is no reporter that is let go.
        obtain ⟨start, hstart, hway⟩ := (mem_chainNodes ht).mp hid
        rcases ReflTransGen.cases_tail hway with rfl | ⟨a, -, hlast⟩
        · exact absurd hstart hne
        · exact absurd hlast.names (hunneeded.unlinked a)
    · rcases hmem with hrun | ⟨n, hn, hbelow⟩
      · obtain ⟨n, hn, rfl⟩ := List.mem_map.mp hrun
        exact h.mem_moved ht hg hn
      · exact hled hn hbelow
  refine ⟨fun n hn => h.mem_moved ht hg hn, hcontents, fun id => h.moved_cases hg, hchain, ?_⟩
  intro hencloses id hid hne
  refine ⟨fun hmem => ((hchain id hid hne).mp hmem).imp_right ?_, fun hmem => ?_⟩
  · intro hex
    obtain ⟨n, hn, hbelow⟩ := hex
    exact hencloses.mem hn hbelow
  · exact hmem.elim (fun hrun => (hchain id hid hne).mpr (.inl hrun)) (hcontents id)

end Moved

end Selection

namespace Edit

/-- The node `x` stands in a branch of `a`, and the branch of `w` leads to it too. -/
def joined : String :=
  "workflows:
  - name: m
    nodes:
      start:
        opcode: workflow_start
        next: a
      a:
        opcode: control_if
        branches:
          THEN: x
        next: w
      x:
        opcode: io_print
      w:
        opcode: control_while
        branches:
          BODY: b
      b:
        opcode: io_print
        next: x
"

/-- The run of the node `w` alone. -/
def liftW : Extraction := ⟨"m", ["w"], "sub", none⟩

/-- The nodes of the chain that are neither selected nor in a branch of a selected node stay. -/
def KeepsOthers (before after : WorkflowTree) (selected : List String) : Prop :=
  ∀ n ∈ before.chainNodes, n.id ∈ selected ∨
    (∃ m ∈ before.chainNodes, m.id ∈ selected ∧ n.id ∈ Selection.contents m) ∨
    n.id ∈ after.chainNodes.map (·.id)

instance {before after : WorkflowTree} {selected : List String} :
    Decidable (KeepsOthers before after selected) := by
  unfold KeepsOthers
  infer_instance

/-- Whether lifting a run takes along other nodes of the chain of its workflow. -/
def takesOthers (c : Catalog) (args : Extraction) (d d' : Document) : Bool :=
  match Tree.ofDocument d c, Tree.ofDocument d' c with
  | .ok t, .ok t' => (t.workflow? args.workflow).any fun m =>
    (t'.workflow? args.workflow).any fun m' => !KeepsOthers m m' args.nodeIds
  | _, _ => false

end Edit

end BlockFlow
