import BlockFlow.Proofs.Tree.Partition
import BlockFlow.Selection.Run

/-!
Containers of a tree: the main chain and the branches. Main statement: a valid selection is a run of
neighbours in one container, and pointers lead from the node before it to all nodes behind it.
-/

namespace BlockFlow

open Relation Outcome

namespace Tree

mutual

/-- The nodes of a container follow the pointers of a workflow: `head` leads to the first one, each
leads on to the next, and the branches of each begin where its branch pointers lead. -/
def Follows (w : Workflow) : (head : Option String) → List TreeNode → Prop
  | _, [] => True
  | head, ⟨id, _, _, _, children⟩ :: rest => head = some id ∧ ∃ n, w.node? id = some n ∧
      BranchesFollow w n children ∧ Follows w n.next rest

def BranchesFollow (w : Workflow) (n : NodeDef) : List (String × List TreeNode) → Prop
  | [] => True
  | (slot, nodes) :: rest => Follows w (n.branchHead? slot) nodes ∧ BranchesFollow w n rest

end

section Follows

variable {s : Scope} {w : Workflow} {σ σ' : List String} {head : Option String}
  {nodes before after : List TreeNode} {n : TreeNode}

theorem follows_cons : Follows w head (n :: nodes) ↔ head = some n.id ∧ ∃ m,
    w.node? n.id = some m ∧ BranchesFollow w m n.children ∧ Follows w m.next nodes := by
  cases n
  rw [Follows]

theorem branchesFollow_walkSlots {walk : Option String → Placing (List TreeNode)} {n : NodeDef}
    (hw : ∀ head σ nodes σ', (walk head).run σ = .ok (nodes, σ') → Follows w head nodes)
    (slots : List String) (children : List (String × List TreeNode))
    (h : (walkSlots walk n slots).run σ = .ok (children, σ')) : BranchesFollow w n children := by
  induction slots generalizing σ children with
  | nil =>
    obtain ⟨rfl, -⟩ := run_walkSlots_nil.mp h
    rw [BranchesFollow]
    trivial
  | cons slot slots ih =>
    obtain ⟨nodes, τ, rest, hnodes, hrest, rfl⟩ := run_walkSlots_cons.mp h
    rw [BranchesFollow]
    exact ⟨hw _ _ _ _ hnodes, ih rest hrest⟩

/-- A walk places the nodes that pointers lead to, one after the other. -/
theorem follows_walkChain (fuel : Nat) :
    (walkChain s fuel head).run σ = .ok (nodes, σ') → Follows s.workflow head nodes := by
  induction fuel generalizing head σ nodes σ' with
  | zero =>
    intro h
    cases head <;> obtain ⟨rfl, -⟩ := run_pure_eq_ok.mp h <;> rw [Follows] <;> trivial
  | succ fuel ih =>
    intro h
    cases head with
    | none =>
      obtain ⟨rfl, -⟩ := (run_walkChain_none _).mp h
      rw [Follows]
      trivial
    | some id =>
      rcases run_walkChain_some.mp h with ⟨-, rfl, -⟩ |
        ⟨-, n, hn, -, node, τ, children, υ, rest, hplain, hbranches, hrest, rfl⟩
      · rw [Follows]
        trivial
      · obtain ⟨_, -, _, -, rfl⟩ := run_plainNode.mp hplain
        have hid := Workflow.node?_id hn
        rw [follows_cons]
        refine ⟨congrArg some hid.symm, n, by rw [hid, hn], ?_, ih hrest⟩
        exact branchesFollow_walkSlots (fun _ _ _ _ => ih) _ _ hbranches

theorem follows_nodes {d : Document} {c : Catalog} {t : WorkflowTree}
    (h : ofWorkflow d c w = .ok t) : Follows w w.startId? t.nodes := by
  obtain ⟨-, -, σ, hrun⟩ := ofWorkflow_eq_ok.mp h
  obtain ⟨nodes, τ, os, hnodes, -, rfl⟩ := run_placeAll.mp hrun
  exact follows_walkChain _ hnodes

theorem BranchesFollow.kids {n : NodeDef} {children : List (String × List TreeNode)}
    {slot : String} {kids : List TreeNode} (h : BranchesFollow w n children)
    (hkids : (slot, kids) ∈ children) : Follows w (n.branchHead? slot) kids := by
  induction children with
  | nil => simp at hkids
  | cons child rest ih =>
    obtain ⟨name, nodes⟩ := child
    rw [BranchesFollow] at h
    rcases List.mem_cons.mp hkids with heq | hkids
    · cases heq
      exact h.1
    · exact ih h.2 hkids

mutual

/-- The branches of all nodes of a chain follow the pointers. -/
theorem Follows.branch {owner : TreeNode} {slot : String} {kids : List TreeNode}
    (hkids : (slot, kids) ∈ owner.children) : ∀ {head : Option String} {nodes : List TreeNode},
    Follows w head nodes → owner ∈ TreeNode.chainNodes nodes →
      ∃ m, w.node? owner.id = some m ∧ Follows w (m.branchHead? slot) kids
  | _, [], _, howner => by simp [TreeNode.chainNodes] at howner
  | head, ⟨id, opcode, kind, inputs, children⟩ :: rest, h, howner => by
    obtain ⟨-, m, hm, hbranches, hrest⟩ := follows_cons.mp h
    simp only [TreeNode.chainNodes, TreeNode.subtree, List.mem_append, List.mem_cons] at howner
    rcases howner with (rfl | howner) | howner
    · exact ⟨m, hm, hbranches.kids hkids⟩
    · exact hbranches.branch hkids howner
    · exact hrest.branch hkids howner
termination_by _ nodes => sizeOf nodes

theorem BranchesFollow.branch {owner : TreeNode} {slot : String} {kids : List TreeNode}
    (hkids : (slot, kids) ∈ owner.children) {n : NodeDef} :
    ∀ {children : List (String × List TreeNode)}, BranchesFollow w n children →
      owner ∈ TreeNode.branchNodes children →
      ∃ m, w.node? owner.id = some m ∧ Follows w (m.branchHead? slot) kids
  | [], _, howner => by simp [TreeNode.branchNodes] at howner
  | (name, nodes) :: rest, h, howner => by
    rw [BranchesFollow] at h
    simp only [TreeNode.branchNodes, List.mem_append] at howner
    rcases howner with howner | howner
    · exact h.1.branch hkids howner
    · exact h.2.branch hkids howner
termination_by children => sizeOf children

end

mutual

/-- Pointers lead from the head of a chain to all its nodes, those in branches included. -/
theorem Follows.reaches_ids {x : String} : ∀ {head : Option String} {nodes : List TreeNode},
    Follows w head nodes → x ∈ chainIds nodes →
      ∃ first, head = some first ∧ ReflTransGen w.Leads first x
  | _, [], _, hx => by simp at hx
  | head, ⟨id, opcode, kind, inputs, children⟩ :: rest, h, hx => by
    obtain ⟨rfl, m, hm, hbranches, hrest⟩ := follows_cons.mp h
    simp only [chainIds_cons, List.mem_cons, List.mem_append] at hx
    refine ⟨_, rfl, ?_⟩
    rcases hx with rfl | hx | hx
    · exact .refl
    · obtain ⟨slot, first, hfirst, hway⟩ := hbranches.reaches_ids hx
      exact .head (Workflow.leads_iff.mpr ⟨m, hm, .branch slot, hfirst⟩) hway
    · obtain ⟨first, hfirst, hway⟩ := hrest.reaches_ids hx
      exact .head (Workflow.leads_iff.mpr ⟨m, hm, .next, hfirst⟩) hway
termination_by _ nodes => sizeOf nodes

/-- Branch pointers of a node lead to all nodes in its branches. -/
theorem BranchesFollow.reaches_ids {x : String} {n : NodeDef} :
    ∀ {children : List (String × List TreeNode)}, BranchesFollow w n children →
      x ∈ branchIds children →
      ∃ slot first, n.branchHead? slot = some first ∧ ReflTransGen w.Leads first x
  | [], _, hx => by simp at hx
  | (slot, nodes) :: rest, h, hx => by
    rw [BranchesFollow] at h
    rw [branchIds_cons, List.mem_append] at hx
    rcases hx with hx | hx
    · exact ⟨slot, h.1.reaches_ids hx⟩
    · exact h.2.reaches_ids hx
termination_by children => sizeOf children

end

/-- A node of a container is a node of the workflow, whose branches it shows. -/
theorem Follows.node? (h : Follows w head nodes) (hn : n ∈ nodes) :
    ∃ m, w.node? n.id = some m ∧ BranchesFollow w m n.children := by
  induction nodes generalizing head with
  | nil => simp at hn
  | cons k nodes ih =>
    obtain ⟨-, m, hm, hbranches, hrest⟩ := follows_cons.mp h
    rcases List.mem_cons.mp hn with rfl | hn
    · exact ⟨m, hm, hbranches⟩
    · exact ih hrest hn

theorem mem_chainIds (hn : n ∈ nodes) : n.id ∈ chainIds nodes := by
  induction nodes with
  | nil => simp at hn
  | cons k nodes ih =>
    rw [chainIds_cons]
    rcases List.mem_cons.mp hn with rfl | hn
    · exact List.mem_cons_self ..
    · exact List.mem_cons_of_mem _ (List.mem_append_right _ (ih hn))

/-- Pointers lead from each node of a container to those behind it. -/
theorem Follows.leads {m : TreeNode} (h : Follows w head (before ++ n :: after)) (hm : m ∈ after) :
    TransGen w.Leads n.id m.id := by
  induction before generalizing head with
  | nil =>
    obtain ⟨-, k, hk, -, hrest⟩ := follows_cons.mp h
    obtain ⟨next, hnext, hway⟩ := hrest.reaches_ids (mem_chainIds hm)
    exact .head' (Workflow.leads_iff.mpr ⟨k, hk, .next, hnext⟩) hway
  | cons _ before ih =>
    obtain ⟨-, _, -, -, hrest⟩ := follows_cons.mp h
    exact ih hrest

end Follows

section OfWorkflow

variable {d : Document} {c : Catalog} {w : Workflow} {t : WorkflowTree}

theorem nodup_chainNodes (h : ofWorkflow d c w = .ok t) : (t.chainNodes.map (·.id)).Nodup := by
  obtain ⟨hp, -, σ, hrun⟩ := ofWorkflow_eq_ok.mp h
  obtain ⟨nodes, τ, os, hnodes, -, rfl⟩ := run_placeAll.mp hrun
  exact (walked_ofWorkflow hp hnodes).nodup

theorem mem_chainNodes {x : String} (h : ofWorkflow d c w = .ok t) :
    x ∈ t.chainNodes.map (·.id) ↔ w.Reached x := by
  obtain ⟨hp, -, σ, hrun⟩ := ofWorkflow_eq_ok.mp h
  obtain ⟨nodes, τ, os, hnodes, -, rfl⟩ := run_placeAll.mp hrun
  exact mem_walked hp (walked_ofWorkflow hp hnodes)

theorem name_of_ofWorkflow (h : ofWorkflow d c w = .ok t) : t.name = w.name := by
  obtain ⟨-, -, σ, hrun⟩ := ofWorkflow_eq_ok.mp h
  obtain ⟨_, _, _, -, -, rfl⟩ := run_placeAll.mp hrun
  rfl

theorem trees_ofDocument {tree : Tree} (h : ofDocument d c = .ok tree) :
    List.Forall₂ (fun w t => ofWorkflow d c w = .ok t) d.workflows tree.workflows := by
  obtain ⟨trees, htrees, hok⟩ := bind_eq_ok.mp h
  cases hok
  exact mapM_eq_ok.mp htrees

/-- The tree of a document has the trees of its workflows under their names. -/
theorem exists_workflow? {tree : Tree} {name : String} (h : ofDocument d c = .ok tree)
    (hw : d.workflow? name = some w) :
    ∃ t, tree.workflow? name = some t ∧ ofWorkflow d c w = .ok t := by
  apply exists_find?_of_forall₂ (trees_ofDocument h) _ hw
  intro w t ht
  rw [name_of_ofWorkflow ht]

/-- It has no other trees. -/
theorem exists_workflow_of_tree {tree : Tree} {name : String} (h : ofDocument d c = .ok tree)
    (ht : tree.workflow? name = some t) :
    ∃ w, d.workflow? name = some w ∧ ofWorkflow d c w = .ok t := by
  apply exists_find?_of_forall₂ (trees_ofDocument h).flip _ ht
  intro t w hw
  rw [name_of_ofWorkflow hw]

theorem exists_build {tree : Tree} (h : ofDocument d c = .ok tree) :
    ∀ w ∈ d.workflows, ∃ g, LinkGraph.build w = .ok g := by
  obtain ⟨trees, htrees, -⟩ := bind_eq_ok.mp h
  intro w hw
  obtain ⟨t, ht⟩ := exists_mapM_eq_ok.mp ⟨trees, htrees⟩ w hw
  exact ⟨_, LinkGraph.build_eq_ok.mpr ⟨(ofWorkflow_eq_ok.mp ht).1, rfl⟩⟩

end OfWorkflow

end Tree

namespace Selection

open BlockFlow.Tree

theorem contents_eq (n : TreeNode) : contents n = branchIds n.children := by
  cases n
  simp [contents, TreeNode.subtree, branchIds]

section Placements

mutual

/-- The placements are those of all nodes of the chain, in this order. -/
theorem map_fst_placements : ∀ (container : Option (String × String)) (depth index : Nat)
    (nodes : List TreeNode), (placements container depth index nodes).map (·.1) = chainIds nodes
  | _, _, _, [] => by simp [placements]
  | container, depth, index, ⟨id, _, _, _, children⟩ :: rest => by
    rw [placements, List.map_cons, List.map_append, map_fst_branchPlacements, map_fst_placements,
      chainIds_cons]
termination_by _ _ _ nodes => sizeOf nodes

theorem map_fst_branchPlacements : ∀ (owner : String) (depth : Nat)
    (children : List (String × List TreeNode)),
    (branchPlacements owner depth children).map (·.1) = branchIds children
  | _, _, [] => by simp [branchPlacements]
  | owner, depth, (slot, nodes) :: rest => by
    rw [branchPlacements, List.map_append, map_fst_placements, map_fst_branchPlacements,
      branchIds_cons]
termination_by _ _ children => sizeOf children

end

variable {container : Option (String × String)} {depth index k : Nat} {nodes : List TreeNode}
  {n : TreeNode}

/-- The nodes of a container are numbered in their order. -/
theorem mem_placements (container : Option (String × String)) (depth index : Nat)
    (hn : nodes[k]? = some n) :
    (n.id, ⟨container, index + k, depth⟩) ∈ placements container depth index nodes := by
  induction nodes generalizing k index with
  | nil => simp at hn
  | cons m nodes ih =>
    obtain ⟨id, opcode, kind, inputs, children⟩ := m
    rw [placements]
    cases k with
    | zero =>
      rw [List.getElem?_cons_zero] at hn
      cases hn
      exact List.mem_cons_self ..
    | succ k =>
      rw [List.getElem?_cons_succ] at hn
      have hmem := ih (index + 1) hn
      rw [Nat.add_assoc, Nat.add_comm 1 k] at hmem
      exact List.mem_cons_of_mem _ (List.mem_append_right _ hmem)

theorem mem_branchPlacements {owner slot : String} {children : List (String × List TreeNode)}
    {kids : List TreeNode} (hkids : (slot, kids) ∈ children) (hn : kids[k]? = some n) :
    (n.id, ⟨some (owner, slot), k, depth⟩) ∈ branchPlacements owner depth children := by
  induction children with
  | nil => simp at hkids
  | cons child rest ih =>
    obtain ⟨name, nodes⟩ := child
    rw [branchPlacements]
    rcases List.mem_cons.mp hkids with heq | hkids
    · cases heq
      have hmem := mem_placements (some (owner, slot)) depth 0 hn
      rw [Nat.zero_add] at hmem
      exact List.mem_append_left _ hmem
    · exact List.mem_append_right _ (ih hkids)

mutual

/-- The nodes of a branch are numbered in their order, wherever its owner stands, and all at one
depth. -/
theorem exists_placement {owner : TreeNode} {slot : String} {kids : List TreeNode}
    (hkids : (slot, kids) ∈ owner.children) :
    ∀ (container : Option (String × String)) (depth index : Nat) (nodes : List TreeNode),
      owner ∈ TreeNode.chainNodes nodes → ∃ inner, ∀ (k : Nat) (n : TreeNode), kids[k]? = some n →
      (n.id, ⟨some (owner.id, slot), k, inner⟩) ∈ placements container depth index nodes
  | _, _, _, [], howner => by simp [TreeNode.chainNodes] at howner
  | container, depth, index, ⟨id, opcode, kind, inputs, children⟩ :: rest, howner => by
    simp only [TreeNode.chainNodes, TreeNode.subtree, List.mem_append, List.mem_cons] at howner
    simp only [placements, List.mem_cons, List.mem_append]
    rcases howner with (rfl | howner) | howner
    · exact ⟨depth + 1, fun _ _ hn => .inr (.inl (mem_branchPlacements hkids hn))⟩
    · obtain ⟨inner, hmem⟩ := exists_branchPlacement hkids id (depth + 1) children howner
      exact ⟨inner, fun k n hn => .inr (.inl (hmem k n hn))⟩
    · obtain ⟨inner, hmem⟩ := exists_placement hkids container depth (index + 1) rest howner
      exact ⟨inner, fun k n hn => .inr (.inr (hmem k n hn))⟩
termination_by _ _ _ nodes => sizeOf nodes

theorem exists_branchPlacement {owner : TreeNode} {slot : String} {kids : List TreeNode}
    (hkids : (slot, kids) ∈ owner.children) :
    ∀ (outer : String) (depth : Nat) (children : List (String × List TreeNode)),
      owner ∈ TreeNode.branchNodes children → ∃ inner, ∀ (k : Nat) (n : TreeNode),
      kids[k]? = some n →
      (n.id, ⟨some (owner.id, slot), k, inner⟩) ∈ branchPlacements outer depth children
  | _, _, [], howner => by simp [TreeNode.branchNodes] at howner
  | outer, depth, (name, nodes) :: rest, howner => by
    simp only [TreeNode.branchNodes, List.mem_append] at howner
    simp only [branchPlacements, List.mem_append]
    rcases howner with howner | howner
    · obtain ⟨inner, hmem⟩ := exists_placement hkids (some (outer, name)) depth 0 nodes howner
      exact ⟨inner, fun k n hn => .inl (hmem k n hn)⟩
    · obtain ⟨inner, hmem⟩ := exists_branchPlacement hkids outer depth rest howner
      exact ⟨inner, fun k n hn => .inr (hmem k n hn)⟩
termination_by _ _ children => sizeOf children

end

end Placements

variable {t : WorkflowTree} {container : Option (String × String)} {k : Nat} {n : TreeNode}

/-- A branch is a container of the node that owns it. -/
theorem exists_owner {owner branch : String}
    (hn : n ∈ containerNodes t (some (owner, branch))) : ∃ m kids, t.find? owner = some m ∧
      (branch, kids) ∈ m.children ∧ containerNodes t (some (owner, branch)) = kids := by
  unfold containerNodes at hn ⊢
  cases hm : t.find? owner with
  | none => simp [hm] at hn
  | some m =>
    cases hkids : firstOf? branch m.children with
    | none => simp [hm, hkids] at hn
    | some kids => exact ⟨m, kids, rfl, mem_of_firstOf? hkids, by simp [hm, hkids]⟩

/-- Where ids are distinct, the index of a node is its place in its container. -/
theorem indexOf_placements (hd : (t.chainNodes.map (·.id)).Nodup)
    (hn : (containerNodes t container)[k]? = some n) :
    indexOf (placements none 0 0 t.nodes) n.id = k := by
  obtain ⟨depth, hmem⟩ : ∃ depth,
      (n.id, ⟨container, k, depth⟩) ∈ placements none 0 0 t.nodes := by
    cases container with
    | none =>
      have hmem := mem_placements none 0 0 hn
      rw [Nat.zero_add] at hmem
      exact ⟨0, hmem⟩
    | some place =>
      obtain ⟨owner, branch⟩ := place
      obtain ⟨m, kids, hm, hkids, heq⟩ := exists_owner (List.mem_of_getElem? hn)
      have hid : m.id = owner := by simpa using List.find?_some hm
      rw [heq] at hn
      rw [← hid]
      obtain ⟨inner, hmem⟩ :=
        exists_placement hkids none 0 0 t.nodes (List.mem_of_find?_eq_some hm)
      exact ⟨inner, hmem k n hn⟩
  have hkeys : ((placements none 0 0 t.nodes).map (·.1)).Nodup := by
    rw [map_fst_placements]
    exact hd
  rw [indexOf, firstOf?_of_mem hkeys hmem]
  rfl

/-- Selected members of a list stand side by side in it when their indices have no gap. `start` is
the index of the first member of the list. -/
theorem exists_infix {f : TreeNode → Nat} {p : TreeNode → Bool} {nodes : List TreeNode}
    {start : Nat} (hf : ∀ (k : Nat) (n : TreeNode), nodes[k]? = some n → f n = start + k)
    (hgap : ∀ pair ∈ neighbours (nodes.filter p), f pair.2 = f pair.1 + 1) :
    ∃ before after, nodes = before ++ nodes.filter p ++ after := by
  induction nodes generalizing start with
  | nil => exact ⟨[], [], by simp⟩
  | cons n nodes ih =>
    have hrest : ∀ (k : Nat) (m : TreeNode), nodes[k]? = some m → f m = start + 1 + k := by
      intro k m hm
      rw [hf (k + 1) m (by simpa using hm)]
      omega
    by_cases hn : p n
    · rw [List.filter_cons_of_pos hn] at hgap ⊢
      cases hrun : nodes.filter p with
      | nil => exact ⟨[], nodes, by simp⟩
      | cons m run =>
        rw [hrun] at hgap
        have hpair : f m = f n + 1 := hgap (n, m) (by simp [neighbours])
        obtain ⟨before, after, heq⟩ := ih hrest fun pair hmem => hgap pair (by
          rw [hrun] at hmem
          simpa [neighbours] using .inr hmem)
        have hmid := hrest before.length m (by rw [heq, hrun]; simp)
        have hfirst := hf 0 n (by simp)
        have hnone : before = [] := List.eq_nil_of_length_eq_zero (by omega)
        rw [hnone, hrun] at heq
        exact ⟨[], after, by rw [heq]; simp⟩
    · rw [List.filter_cons_of_neg hn] at hgap ⊢
      obtain ⟨before, after, heq⟩ := ih hrest hgap
      exact ⟨n :: before, after, by rw [List.cons_append, List.cons_append, ← heq]⟩

/-- The selected nodes are the `run` of neighbours in a container, between the nodes `before` and
`after`. -/
structure IsRun (t : WorkflowTree) (r : Report) (container : Option (String × String))
    (before run after : List TreeNode) : Prop where
  place : containerNodes t container = before ++ run ++ after
  ordered : r.orderedIds = run.map (·.id)
  first : r.firstId = run.head?.map (·.id)
  last : r.lastId = run.getLast?.map (·.id)
  predecessor : r.predecessorId = run.head?.bind fun _ =>
    (before.getLast?.map (·.id)).or (container.map (·.1))
  successor : r.successorId = run.getLast?.bind fun _ => after.head?.map (·.id)

/-- A selection with a first node has been examined. -/
theorem exists_examine {tree : Tree} {name : String} {ids : List String}
    (ht : tree.workflow? name = some t) (hfirst : (report tree name ids).firstId.isSome) :
    ∃ strays selected anchor, report tree name ids =
      examine t (placements none 0 0 t.nodes) strays selected anchor := by
  unfold report at hfirst ⊢
  simp only [ht] at hfirst ⊢
  split at hfirst
  · cases hfirst
  · rename_i hids
    rw [if_neg hids]
    split at hfirst
    · cases hfirst
    · exact ⟨_, _, _, rfl⟩

/-- What an examination tells of neighbours that are the selected nodes of their container. -/
theorem isRun_examine {strays : List SelectionFault} {selected : List String} {anchor : Placement}
    {before run after : List TreeNode} (hd : (t.chainNodes.map (·.id)).Nodup)
    (hplace : containerNodes t anchor.container = before ++ run ++ after)
    (hrun : (containerNodes t anchor.container).filter (selected.contains ·.id) = run) :
    IsRun t (examine t (placements none 0 0 t.nodes) strays selected anchor)
      anchor.container before run after := by
  have hindex (k : Nat) (n : TreeNode) (hn : (containerNodes t anchor.container)[k]? = some n) :
      indexOf (placements none 0 0 t.nodes) n.id = 0 + k := by
    rw [indexOf_placements hd hn, Nat.zero_add]
  refine ⟨hplace, ?_, ?_, ?_, ?_, ?_⟩
  · simp only [examine, hrun]
  · simp only [examine, hrun]
  · simp only [examine, hrun]
  · simp only [examine, hrun]
    cases run with
    | nil => rfl
    | cons n run =>
      have hn := hindex before.length n (by rw [hplace]; simp)
      rw [List.head?_cons, Option.bind_some, Option.bind_some, hn, Nat.zero_add, hplace]
      obtain rfl | ⟨init, last, rfl⟩ := List.eq_nil_or_concat before
      · rfl
      · simp
  · simp only [examine, hrun]
    cases hlast : run.getLast? with
    | none => rfl
    | some n =>
      obtain ⟨init, rfl⟩ := List.getLast?_eq_some_iff.mp hlast
      have hn := hindex (before.length + init.length) n (by rw [hplace]; simp)
      have hbehind : (before ++ (init ++ [n]) ++ after)[0 + (before.length + init.length) + 1]? =
          after[0]? := by
        rw [List.getElem?_append_right (by simp; omega)]
        congr 1
        simp only [List.length_append, List.length_singleton]
        omega
      rw [Option.bind_some, Option.bind_some, hn, hplace, List.head?_eq_getElem?, hbehind]

theorem gapFaults_eq_nil {placed : List (String × Placement)} {run : List TreeNode} :
    gapFaults placed run = [] ↔ ∀ pair ∈ neighbours run,
      indexOf placed pair.2.id = indexOf placed pair.1.id + 1 := by
  simp only [gapFaults, List.filterMap_eq_nil_iff, ite_eq_left_iff, reduceCtorEq, imp_false,
    not_not]

/-- Selected nodes that leave no gap are neighbours. -/
theorem exists_neighbours {selected : List String} {container : Option (String × String)}
    (hd : (t.chainNodes.map (·.id)).Nodup)
    (hgap : gapFaults (placements none 0 0 t.nodes)
      ((containerNodes t container).filter (selected.contains ·.id)) = []) :
    ∃ before after, containerNodes t container =
      before ++ (containerNodes t container).filter (selected.contains ·.id) ++ after := by
  have hindex (k : Nat) (n : TreeNode) (hn : (containerNodes t container)[k]? = some n) :
      indexOf (placements none 0 0 t.nodes) n.id = 0 + k := by
    rw [indexOf_placements hd hn, Nat.zero_add]
  exact exists_infix hindex (gapFaults_eq_nil.mp hgap)

/-- An examined selection without faults is a run of neighbours in one container. -/
theorem exists_isRun {strays : List SelectionFault} {selected : List String} {anchor : Placement}
    (hd : (t.chainNodes.map (·.id)).Nodup)
    (h : (examine t (placements none 0 0 t.nodes) strays selected anchor).isValid) :
    ∃ before run after, IsRun t (examine t (placements none 0 0 t.nodes) strays selected anchor)
      anchor.container before run after := by
  simp only [Report.isValid, examine, List.isEmpty_iff, List.append_eq_nil_iff] at h
  obtain ⟨before, after, hplace⟩ := exists_neighbours hd h.1.1.2
  exact ⟨before, _, after, isRun_examine hd hplace rfl⟩

/-- Where a container begins: at the start node, or where a branch pointer of its owner leads. -/
def containerHead? (w : Workflow) : Option (String × String) → Option String
  | none => w.startId?
  | some (owner, branch) => w.pointer? owner (.branch branch)

theorem follows_containerNodes {w : Workflow} (container : Option (String × String))
    (ht : Follows w w.startId? t.nodes) :
    Follows w (containerHead? w container) (containerNodes t container) := by
  cases container with
  | none => exact ht
  | some place =>
    obtain ⟨owner, branch⟩ := place
    rcases List.eq_nil_or_concat (containerNodes t (some (owner, branch))) with hnil | ⟨_, n, hn⟩
    · rw [hnil, Follows]
      trivial
    · obtain ⟨m, kids, hm, hkids, heq⟩ := exists_owner (n := n) (by rw [hn]; simp)
      obtain ⟨k, hk, hfollows⟩ := ht.branch hkids (List.mem_of_find?_eq_some hm)
      have hid : m.id = owner := by simpa using List.find?_some hm
      rw [hid] at hk
      rw [heq, containerHead?, Workflow.pointer?, hk]
      exact hfollows

/-- The nodes of a run and the node before it are nodes of the workflow. -/
theorem IsRun.nodes {w : Workflow} {r : Report} {before run after : List TreeNode} {id : String}
    (h : IsRun t r container before run after) (ht : Follows w w.startId? t.nodes)
    (hid : id ∈ r.orderedIds ∨ r.predecessorId = some id) : ∃ m, w.node? id = some m := by
  have hfollows := follows_containerNodes container ht
  rw [h.place] at hfollows
  rcases hid with hid | hp
  · rw [h.ordered] at hid
    obtain ⟨n, hn, rfl⟩ := List.mem_map.mp hid
    obtain ⟨k, hk, -⟩ := hfollows.node? (List.mem_append_left _ (List.mem_append_right _ hn))
    exact ⟨k, hk⟩
  · obtain ⟨n, hn, hp⟩ := Option.bind_eq_some_iff.mp (h.predecessor.symm.trans hp)
    obtain rfl | ⟨init, m, rfl⟩ := List.eq_nil_or_concat before
    · obtain ⟨⟨owner, branch⟩, rfl, rfl⟩ : ∃ place, container = some place ∧ place.1 = id := by
        simpa using hp
      obtain ⟨head, hhead, -⟩ := hfollows.reaches_ids
        (mem_chainIds (n := n) (by simp [List.mem_of_head? hn]))
      obtain ⟨m, hm, -⟩ := Option.bind_eq_some_iff.mp hhead
      exact ⟨m, hm⟩
    · obtain rfl : m.id = id := by simpa using hp
      obtain ⟨k, hk, -⟩ := hfollows.node? (n := m) (by simp)
      exact ⟨k, hk⟩

/-- Pointers lead from the node before a run to its nodes and to those behind it. -/
theorem IsRun.leads {w : Workflow} {r : Report} {before run after : List TreeNode} {p : String}
    (h : IsRun t r container before run after) (ht : Follows w w.startId? t.nodes)
    (hp : r.predecessorId = some p) (hn : n ∈ run ++ after) : TransGen w.Leads p n.id := by
  obtain ⟨_, -, hp⟩ := Option.bind_eq_some_iff.mp (h.predecessor.symm.trans hp)
  have hfollows := follows_containerNodes container ht
  rw [h.place, List.append_assoc] at hfollows
  obtain rfl | ⟨init, m, rfl⟩ := List.eq_nil_or_concat before
  · obtain ⟨⟨owner, branch⟩, rfl, rfl⟩ : ∃ place, container = some place ∧ place.1 = p := by
      simpa using hp
    obtain ⟨head, hhead, hway⟩ := hfollows.reaches_ids (mem_chainIds hn)
    exact .head' ⟨.branch branch, hhead⟩ hway
  · obtain rfl : m.id = p := by simpa using hp
    rw [List.concat_eq_append, List.append_assoc, List.singleton_append] at hfollows
    exact hfollows.leads hn

theorem IsRun.leads_first {w : Workflow} {r : Report} {before run after : List TreeNode}
    {p first : String} (h : IsRun t r container before run after)
    (ht : Follows w w.startId? t.nodes) (hp : r.predecessorId = some p)
    (hfirst : r.firstId = some first) : TransGen w.Leads p first := by
  obtain ⟨n, hn, rfl⟩ := Option.map_eq_some_iff.mp (h.first.symm.trans hfirst)
  exact h.leads ht hp (List.mem_append_left _ (List.mem_of_head? hn))

theorem IsRun.leads_successor {w : Workflow} {r : Report} {before run after : List TreeNode}
    {p next : String} (h : IsRun t r container before run after)
    (ht : Follows w w.startId? t.nodes) (hp : r.predecessorId = some p)
    (hnext : r.successorId = some next) : TransGen w.Leads p next := by
  obtain ⟨_, -, hafter⟩ := Option.bind_eq_some_iff.mp (h.successor.symm.trans hnext)
  obtain ⟨n, hn, rfl⟩ := Option.map_eq_some_iff.mp hafter
  exact h.leads ht hp (List.mem_append_right _ (List.mem_of_head? hn))

end Selection

end BlockFlow
