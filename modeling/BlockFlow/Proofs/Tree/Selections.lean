import BlockFlow.Proofs.Tree.Containers

/-!
Which selections can be lifted out. Main statement: a selection is valid exactly when it picks a run
of neighbours in one container and nothing besides but what the branches of the run contain, all or
none of it for each node that controls flow; and what is reported of the run depends only on which
nodes are picked.
-/

namespace BlockFlow

open BlockFlow.Tree Outcome

namespace Tree

variable {d : Document} {c : Catalog} {w : Workflow} {t : WorkflowTree}

/-- In a tree only the first of several branches of one name shows nodes. -/
theorem firstOnly_of_mem_chainNodes (h : ofWorkflow d c w = .ok t) :
    ∀ n ∈ t.chainNodes, FirstOnly n.children := by
  obtain ⟨-, -, σ, hrun⟩ := ofWorkflow_eq_ok.mp h
  obtain ⟨nodes, τ, os, hnodes, -, rfl⟩ := run_placeAll.mp hrun
  refine forall_walkChain (P := fun n => FirstOnly n.children) ?_ _ hnodes
  intro fuel n σ τ υ node children _ _ hbranches
  exact firstOnly_walkSlots (endsEarly_walkChain fuel) _ hbranches

/-- The main chain of a tree begins with the start node. -/
theorem head?_nodes (h : ofWorkflow d c w = .ok t) : t.nodes.head?.map (·.id) = w.startId? := by
  obtain ⟨-, -, σ, hrun⟩ := ofWorkflow_eq_ok.mp h
  obtain ⟨nodes, τ, os, hnodes, -, rfl⟩ := run_placeAll.mp hrun
  have hhead : (chainIds nodes).head? = w.startId? := head?_walked hnodes
  rw [← hhead]
  cases nodes <;> simp

end Tree

namespace Selection

/-- The nodes of a container of a tree: the main chain, or a branch of a node of the chain. -/
inductive IsContainer (t : WorkflowTree) : Option (String × String) → List TreeNode → Prop
  | chain : IsContainer t none t.nodes
  | branch {owner : TreeNode} {name : String} {nodes : List TreeNode}
      (howner : owner ∈ t.chainNodes) (hbranch : (name, nodes) ∈ owner.children) :
      IsContainer t (some (owner.id, name)) nodes

/-- The ids pick the nodes `run` of a container, between `before` and `after`, and besides only
nodes in the branches of the run: all or none of what a node that controls flow contains. -/
structure Picks (t : WorkflowTree) (start : Option String) (ids : List String)
    (place : Option (String × String)) (before run after : List TreeNode) : Prop where
  container : IsContainer t place (before ++ run ++ after)
  picked : ∀ n ∈ run, n.id ∈ ids
  others : ∀ n ∈ before ++ after, n.id ∉ ids
  notStart : ∀ n ∈ run, start ≠ some n.id
  inside : ∀ id ∈ ids, ∃ n ∈ run, id ∈ n.subtree.map (·.id)
  whole : ∀ n ∈ run, n.isControlFlow → (∀ m ∈ TreeNode.branchNodes n.children, m.id ∉ ids) ∨
    ∀ m ∈ TreeNode.branchNodes n.children, m.id ∈ ids

section Depth

mutual

theorem depth_le_placements {x : String} {p : Placement} :
    ∀ (container : Option (String × String)) (depth index : Nat) (nodes : List TreeNode),
      (x, p) ∈ placements container depth index nodes → depth ≤ p.depth
  | _, _, _, [], h => by simp [placements] at h
  | container, depth, index, ⟨id, opcode, kind, inputs, children⟩ :: rest, h => by
    simp only [placements, List.mem_cons, List.mem_append] at h
    rcases h with h | h | h
    · cases h
      exact Nat.le_refl depth
    · have hbelow := depth_le_branchPlacements id (depth + 1) children h
      omega
    · exact depth_le_placements container depth (index + 1) rest h
termination_by _ _ _ nodes => sizeOf nodes

theorem depth_le_branchPlacements {x : String} {p : Placement} :
    ∀ (owner : String) (depth : Nat) (children : List (String × List TreeNode)),
      (x, p) ∈ branchPlacements owner depth children → depth ≤ p.depth
  | _, _, [], h => by simp [branchPlacements] at h
  | owner, depth, (name, nodes) :: rest, h => by
    simp only [branchPlacements, List.mem_append] at h
    rcases h with h | h
    · exact depth_le_placements (some (owner, name)) depth 0 nodes h
    · exact depth_le_branchPlacements owner depth rest h
termination_by _ _ children => sizeOf children

end

/-- Whatever is in the branches of a node has a place there. -/
theorem exists_mem_branchPlacements {m : TreeNode} {children : List (String × List TreeNode)}
    (owner : String) (depth : Nat) (hm : m ∈ TreeNode.branchNodes children) :
    ∃ p, (m.id, p) ∈ branchPlacements owner depth children := by
  have hid : m.id ∈ (branchPlacements owner depth children).map (·.1) := by
    rw [map_fst_branchPlacements]
    exact List.mem_map_of_mem hm
  obtain ⟨⟨_, p⟩, hmem, rfl⟩ := List.mem_map.mp hid
  exact ⟨p, hmem⟩

mutual

/-- What is in the branches of a node is placed deeper than the node. -/
theorem exists_deeper {owner : TreeNode} :
    ∀ (container : Option (String × String)) (depth index : Nat) (nodes : List TreeNode),
      owner ∈ TreeNode.chainNodes nodes →
      ∃ p, (owner.id, p) ∈ placements container depth index nodes ∧
      ∀ m ∈ TreeNode.branchNodes owner.children,
        ∃ q, (m.id, q) ∈ placements container depth index nodes ∧ p.depth < q.depth
  | _, _, _, [], howner => by simp [TreeNode.chainNodes] at howner
  | container, depth, index, ⟨id, opcode, kind, inputs, children⟩ :: rest, howner => by
    simp only [TreeNode.chainNodes, TreeNode.subtree, List.mem_append, List.mem_cons] at howner
    simp only [placements, List.mem_cons, List.mem_append]
    rcases howner with (rfl | howner) | howner
    · refine ⟨_, .inl rfl, ?_⟩
      intro m hm
      obtain ⟨q, hq⟩ := exists_mem_branchPlacements id (depth + 1) hm
      have hdeep := depth_le_branchPlacements id (depth + 1) children hq
      exact ⟨q, .inr (.inl hq), hdeep⟩
    · obtain ⟨p, hp, hbelow⟩ := exists_deeper_branch id (depth + 1) children howner
      refine ⟨p, .inr (.inl hp), ?_⟩
      intro m hm
      obtain ⟨q, hq, hless⟩ := hbelow m hm
      exact ⟨q, .inr (.inl hq), hless⟩
    · obtain ⟨p, hp, hbelow⟩ := exists_deeper container depth (index + 1) rest howner
      refine ⟨p, .inr (.inr hp), ?_⟩
      intro m hm
      obtain ⟨q, hq, hless⟩ := hbelow m hm
      exact ⟨q, .inr (.inr hq), hless⟩
termination_by _ _ _ nodes => sizeOf nodes

theorem exists_deeper_branch {owner : TreeNode} :
    ∀ (outer : String) (depth : Nat) (children : List (String × List TreeNode)),
      owner ∈ TreeNode.branchNodes children →
      ∃ p, (owner.id, p) ∈ branchPlacements outer depth children ∧
      ∀ m ∈ TreeNode.branchNodes owner.children,
        ∃ q, (m.id, q) ∈ branchPlacements outer depth children ∧ p.depth < q.depth
  | _, _, [], howner => by simp [TreeNode.branchNodes] at howner
  | outer, depth, (name, nodes) :: rest, howner => by
    simp only [TreeNode.branchNodes, List.mem_append] at howner
    simp only [branchPlacements, List.mem_append]
    rcases howner with howner | howner
    · obtain ⟨p, hp, hbelow⟩ := exists_deeper (some (outer, name)) depth 0 nodes howner
      refine ⟨p, .inl hp, ?_⟩
      intro m hm
      obtain ⟨q, hq, hless⟩ := hbelow m hm
      exact ⟨q, .inl hq, hless⟩
    · obtain ⟨p, hp, hbelow⟩ := exists_deeper_branch outer depth rest howner
      refine ⟨p, .inr hp, ?_⟩
      intro m hm
      obtain ⟨q, hq, hless⟩ := hbelow m hm
      exact ⟨q, .inr hq, hless⟩
termination_by _ _ children => sizeOf children

end

end Depth

section Containers

theorem mem_chain_of_mem {n : TreeNode} {nodes : List TreeNode} (hn : n ∈ nodes) :
    n ∈ TreeNode.chainNodes nodes := by
  induction nodes with
  | nil => simp at hn
  | cons k nodes ih =>
    rw [TreeNode.chainNodes, List.mem_append]
    rcases List.mem_cons.mp hn with rfl | hn
    · cases n
      simp [TreeNode.subtree]
    · exact .inr (ih hn)

theorem mem_branchNodes_of_mem {n : TreeNode} {children : List (String × List TreeNode)}
    {name : String} {kids : List TreeNode} (hkids : (name, kids) ∈ children) (hn : n ∈ kids) :
    n ∈ TreeNode.branchNodes children := by
  induction children with
  | nil => simp at hkids
  | cons child rest ih =>
    rw [TreeNode.branchNodes, List.mem_append]
    rcases List.mem_cons.mp hkids with rfl | hkids
    · exact .inl (mem_chain_of_mem hn)
    · exact .inr (ih hkids)

theorem mem_subtree {n owner : TreeNode} :
    n ∈ owner.subtree ↔ n = owner ∨ n ∈ TreeNode.branchNodes owner.children := by
  cases owner
  rw [TreeNode.subtree, List.mem_cons]

mutual

/-- What a node of a chain contains belongs to the chain. -/
theorem mem_chain_of_subtree {n owner : TreeNode} (hn : n ∈ owner.subtree) :
    ∀ nodes : List TreeNode, owner ∈ TreeNode.chainNodes nodes → n ∈ TreeNode.chainNodes nodes
  | [], h => by simp [TreeNode.chainNodes] at h
  | ⟨id, opcode, kind, inputs, children⟩ :: rest, h => by
    simp only [TreeNode.chainNodes, TreeNode.subtree, List.mem_append, List.mem_cons] at h ⊢
    rcases h with (rfl | h) | h
    · exact .inl (mem_subtree.mp hn)
    · exact .inl (.inr (mem_branchNodes_of_subtree hn children h))
    · exact .inr (mem_chain_of_subtree hn rest h)

theorem mem_branchNodes_of_subtree {n owner : TreeNode} (hn : n ∈ owner.subtree) :
    ∀ children : List (String × List TreeNode),
      owner ∈ TreeNode.branchNodes children → n ∈ TreeNode.branchNodes children
  | [], h => by simp [TreeNode.branchNodes] at h
  | (_, nodes) :: rest, h => by
    simp only [TreeNode.branchNodes, List.mem_append] at h ⊢
    rcases h with h | h
    · exact .inl (mem_chain_of_subtree hn nodes h)
    · exact .inr (mem_branchNodes_of_subtree hn rest h)

end

/-- The branches of a node of a chain belong to the chain. -/
theorem mem_chain_of_branch {n owner : TreeNode} {name : String} {kids : List TreeNode}
    (hkids : (name, kids) ∈ owner.children) (hn : n ∈ kids) (nodes : List TreeNode)
    (howner : owner ∈ TreeNode.chainNodes nodes) : n ∈ TreeNode.chainNodes nodes :=
  mem_chain_of_subtree (mem_subtree.mpr (.inr (mem_branchNodes_of_mem hkids hn))) nodes howner

mutual

/-- Each node of a chain stands in it or in a branch of one of its nodes. -/
theorem exists_holder {n : TreeNode} : ∀ nodes : List TreeNode, n ∈ TreeNode.chainNodes nodes →
    n ∈ nodes ∨ ∃ owner ∈ TreeNode.chainNodes nodes, ∃ name kids, (name, kids) ∈ owner.children ∧
      n ∈ kids
  | [], h => by simp [TreeNode.chainNodes] at h
  | ⟨id, opcode, kind, inputs, children⟩ :: rest, h => by
    simp only [TreeNode.chainNodes, TreeNode.subtree, List.mem_append, List.mem_cons] at h ⊢
    rcases h with (h | h) | h
    · exact .inl (.inl h)
    · rcases exists_branch_holder children h with ⟨name, kids, hkids, hn⟩ | ⟨owner, howner, hin⟩
      · exact .inr ⟨_, .inl (.inl rfl), name, kids, hkids, hn⟩
      · exact .inr ⟨owner, .inl (.inr howner), hin⟩
    · rcases exists_holder rest h with h | ⟨owner, howner, hin⟩
      · exact .inl (.inr h)
      · exact .inr ⟨owner, .inr howner, hin⟩

theorem exists_branch_holder {n : TreeNode} : ∀ children : List (String × List TreeNode),
    n ∈ TreeNode.branchNodes children → (∃ name kids, (name, kids) ∈ children ∧ n ∈ kids) ∨
      ∃ owner ∈ TreeNode.branchNodes children, ∃ name kids, (name, kids) ∈ owner.children ∧ n ∈ kids
  | [], h => by simp [TreeNode.branchNodes] at h
  | (name, nodes) :: rest, h => by
    simp only [TreeNode.branchNodes, List.mem_append] at h ⊢
    rcases h with h | h
    · rcases exists_holder nodes h with h | ⟨owner, howner, hin⟩
      · exact .inl ⟨name, nodes, List.mem_cons_self .., h⟩
      · exact .inr ⟨owner, .inl howner, hin⟩
    · rcases exists_branch_holder rest h with ⟨other, kids, hkids, hn⟩ | ⟨owner, howner, hin⟩
      · exact .inl ⟨other, kids, List.mem_cons_of_mem _ hkids, hn⟩
      · exact .inr ⟨owner, .inr howner, hin⟩

end

variable {t : WorkflowTree} {place : Option (String × String)} {nodes : List TreeNode}
  {n : TreeNode}

theorem exists_isContainer (hn : n ∈ t.chainNodes) :
    ∃ place nodes, IsContainer t place nodes ∧ n ∈ nodes := by
  rcases exists_holder t.nodes hn with h | ⟨owner, howner, name, kids, hkids, hmem⟩
  · exact ⟨none, t.nodes, .chain, h⟩
  · exact ⟨some (owner.id, name), kids, .branch howner hkids, hmem⟩

theorem IsContainer.mem_chainNodes (h : IsContainer t place nodes) (hn : n ∈ nodes) :
    n ∈ t.chainNodes := by
  cases h with
  | chain => exact mem_chain_of_mem hn
  | branch howner hbranch => exact mem_chain_of_branch hbranch hn t.nodes howner

/-- The nodes of a container are placed in their order and at one depth. -/
theorem IsContainer.placed (h : IsContainer t place nodes) : ∃ depth, ∀ (k : Nat) (n : TreeNode),
    nodes[k]? = some n → (n.id, ⟨place, k, depth⟩) ∈ placements none 0 0 t.nodes := by
  cases h with
  | chain =>
    refine ⟨0, ?_⟩
    intro k n hn
    have hmem := mem_placements none 0 0 hn
    rw [Nat.zero_add] at hmem
    exact hmem
  | branch howner hbranch => exact exists_placement hbranch none 0 0 t.nodes howner

/-- Of branches with one name, the first is the one that shows nodes. -/
theorem firstOf?_of_firstOnly {name : String} {children : List (String × List TreeNode)}
    (h : FirstOnly children) (hmem : (name, nodes) ∈ children) (hne : nodes ≠ []) :
    firstOf? name children = some nodes := by
  induction children with
  | nil => simp at hmem
  | cons child rest ih =>
    obtain ⟨hfirst, hrest⟩ := List.pairwise_cons.mp h
    rcases List.mem_cons.mp hmem with rfl | hmem
    · simp [firstOf?]
    · have hother : child.1 ≠ name := by
        intro hsame
        exact hne (hfirst (name, nodes) hmem hsame)
      have htail := ih hrest hmem
      simpa [firstOf?, hother] using htail

/-- A container with nodes is the one found at its place. -/
theorem IsContainer.containerNodes_eq (hd : (t.chainNodes.map (·.id)).Nodup)
    (hfirst : ∀ n ∈ t.chainNodes, FirstOnly n.children) (h : IsContainer t place nodes)
    (hne : nodes ≠ []) : containerNodes t place = nodes := by
  cases h with
  | chain => rfl
  | @branch owner name _ howner hbranch =>
    have hfound : t.find? owner.id = some owner := find?_of_nodup hd howner
    have hkids := firstOf?_of_firstOnly (hfirst owner howner) hbranch hne
    rw [containerNodes, hfound, Option.bind_some, hkids, Option.getD_some]

/-- Where a node stands tells its container. -/
theorem isContainer_of_placed {x : String} {p : Placement}
    (hd : (t.chainNodes.map (·.id)).Nodup)
    (hfirst : ∀ n ∈ t.chainNodes, FirstOnly n.children)
    (hp : (x, p) ∈ placements none 0 0 t.nodes) :
    IsContainer t p.container (containerNodes t p.container) ∧
      ∃ n ∈ containerNodes t p.container, n.id = x := by
  have hkeys : ((placements none 0 0 t.nodes).map (·.1)).Nodup := by
    rw [map_fst_placements]
    exact hd
  have hx : x ∈ t.chainNodes.map (·.id) := by
    have hmem := List.mem_map_of_mem (f := (·.1)) hp
    rw [map_fst_placements] at hmem
    exact hmem
  obtain ⟨n, hn, rfl⟩ := List.mem_map.mp hx
  obtain ⟨place, nodes, hcontainer, hin⟩ := exists_isContainer hn
  obtain ⟨k, hk⟩ := List.mem_iff_getElem?.mp hin
  obtain ⟨depth, hplaced⟩ := hcontainer.placed
  have hsame := (firstOf?_of_mem hkeys hp).symm.trans (firstOf?_of_mem hkeys (hplaced k n hk))
  have hplace : p.container = place := congrArg Placement.container (Option.some.inj hsame)
  have hnodes := hcontainer.containerNodes_eq hd hfirst (List.ne_nil_of_mem hin)
  rw [hplace, hnodes]
  exact ⟨hcontainer, n, hin, rfl⟩

end Containers

section Anchor

variable {placed : List (String × Placement)} {p q : String × Placement}

/-- The better of what was found so far and another place. -/
theorem foldl_shallowest (placed : List (String × Placement)) (best : String × Placement) :
    ∃ p, placed.foldl (fun best p =>
        match best with
        | none => some p
        | some b => if p.2.depth < b.2.depth then some p else some b) (some best) = some p ∧
      (p = best ∨ p ∈ placed) ∧ p.2.depth ≤ best.2.depth ∧ ∀ q ∈ placed, p.2.depth ≤ q.2.depth := by
  induction placed generalizing best with
  | nil => exact ⟨best, rfl, .inl rfl, Nat.le_refl _, by simp⟩
  | cons q placed ih =>
    rw [List.foldl_cons]
    by_cases hless : q.2.depth < best.2.depth
    · obtain ⟨p, hp, hmem, hbest, hall⟩ := ih q
      simp only [if_pos hless]
      refine ⟨p, hp, .inr ?_, by omega, List.forall_mem_cons.mpr ⟨hbest, hall⟩⟩
      rcases hmem with rfl | hmem
      · exact List.mem_cons_self ..
      · exact List.mem_cons_of_mem _ hmem
    · obtain ⟨p, hp, hmem, hbest, hall⟩ := ih best
      simp only [if_neg hless]
      refine ⟨p, hp, ?_, hbest, List.forall_mem_cons.mpr ⟨by omega, hall⟩⟩
      rcases hmem with rfl | hmem
      · exact .inl rfl
      · exact .inr (List.mem_cons_of_mem _ hmem)

/-- The shallowest place is one of those given, and none of them is shallower. -/
theorem shallowest?_spec (hne : placed ≠ []) : ∃ p, shallowest? placed = some p ∧ p ∈ placed ∧
    ∀ q ∈ placed, p.2.depth ≤ q.2.depth := by
  cases placed with
  | nil => exact absurd rfl hne
  | cons best placed =>
    obtain ⟨p, hp, hmem, hbest, hall⟩ := foldl_shallowest placed best
    refine ⟨p, hp, ?_, List.forall_mem_cons.mpr ⟨hbest, hall⟩⟩
    rcases hmem with rfl | hmem
    · exact List.mem_cons_self ..
    · exact List.mem_cons_of_mem _ hmem

end Anchor

section Faults

variable {t : WorkflowTree} {ids selected : List String} {run : List TreeNode}

theorem firstOf?_placements {id : String} :
    (firstOf? id (placements none 0 0 t.nodes)).isSome ↔ id ∈ t.chainNodes.map (·.id) := by
  have hkeys : (placements none 0 0 t.nodes).map (·.1) = t.chainNodes.map (·.id) :=
    map_fst_placements none 0 0 t.nodes
  rw [← hkeys]
  constructor
  · intro hsome
    obtain ⟨p, hp⟩ := Option.isSome_iff_exists.mp hsome
    exact List.mem_map.mpr ⟨_, mem_of_firstOf? hp, rfl⟩
  · intro hid
    obtain ⟨p, hp⟩ := exists_firstOf? hid
    exact Option.isSome_iff_exists.mpr ⟨p, hp⟩

theorem strayFaults_eq_nil {name : String} :
    strayFaults t (placements none 0 0 t.nodes) name ids = [] ↔
      ∀ id ∈ ids, id ∈ t.chainNodes.map (·.id) := by
  simp only [strayFaults, List.filterMap_eq_nil_iff]
  refine forall₂_congr ?_
  intro id _
  rw [← firstOf?_placements]
  by_cases hplaced : (firstOf? id (placements none 0 0 t.nodes)).isSome
  · simp [hplaced]
  · by_cases horphan : (t.orphan? id).isSome <;> simp [hplaced, horphan]

theorem startFaults_eq_nil {start : Option String} (hstart : t.nodes.head?.map (·.id) = start) :
    startFaults t run = [] ↔ ∀ n ∈ run, start ≠ some n.id := by
  subst hstart
  unfold startFaults
  cases t.nodes.head? with
  | none => simp
  | some first =>
    simp only [Option.map_some]
    by_cases hany : run.any (·.id = first.id)
    · rw [if_pos hany]
      obtain ⟨n, hn, hid⟩ := List.any_eq_true.mp hany
      have hsame : n.id = first.id := of_decide_eq_true hid
      refine iff_of_false (List.cons_ne_nil _ _) ?_
      intro hall
      exact hall n hn (congrArg some hsame.symm)
    · rw [if_neg hany]
      refine iff_of_true rfl ?_
      intro n hn hsame
      apply hany
      exact List.any_eq_true.mpr ⟨n, hn, decide_eq_true (Option.some.inj hsame).symm⟩

theorem map_id_subtree (n : TreeNode) : n.subtree.map (·.id) = n.id :: contents n := by
  cases n
  simp [contents, TreeNode.subtree]

theorem outsideFaults_eq_nil {placed : List (String × Placement)} :
    outsideFaults placed run selected = [] ↔
      ∀ id ∈ selected, ∃ n ∈ run, id ∈ n.subtree.map (·.id) := by
  simp only [outsideFaults, List.filterMap_eq_nil_iff, ite_eq_left_iff, reduceCtorEq, imp_false,
    not_not, Bool.or_eq_true, List.any_eq_true, decide_eq_true_eq, List.contains_eq_mem,
    List.mem_flatMap]
  refine forall₂_congr ?_
  intro id _
  constructor
  · rintro (⟨n, hn, rfl⟩ | ⟨n, hn, hid⟩)
    · exact ⟨n, hn, by simp [map_id_subtree]⟩
    · exact ⟨n, hn, by simp [map_id_subtree, hid]⟩
  · rintro ⟨n, hn, hid⟩
    rw [map_id_subtree, List.mem_cons] at hid
    rcases hid with rfl | hid
    · exact .inl ⟨n, hn, rfl⟩
    · exact .inr ⟨n, hn, hid⟩

/-- Of what a node contains, none or all is selected, unless a part of it is. -/
theorem partFaults_eq_nil : partFaults run selected = [] ↔ ∀ n ∈ run, n.isControlFlow →
    (∀ x ∈ contents n, x ∉ selected) ∨ ∀ x ∈ contents n, x ∈ selected := by
  simp only [partFaults, List.filterMap_eq_nil_iff, List.mem_filter, ite_eq_right_iff,
    reduceCtorEq, imp_false, Bool.and_eq_true, decide_eq_true_eq, and_imp, not_and]
  refine forall₂_congr ?_
  intro n _
  refine imp_congr_right ?_
  intro _
  have hall := List.length_filter_le selected.contains (contents n)
  have hfull := List.length_filter_eq_length_iff (p := selected.contains) (l := contents n)
  have hnone := List.filter_eq_nil_iff (p := selected.contains) (l := contents n)
  simp only [List.contains_eq_mem, decide_eq_true_eq] at hall hfull hnone ⊢
  rw [← hfull, ← hnone, ← List.length_eq_zero_iff]
  omega

/-- Neighbours in a list are numbered one after the other. -/
theorem gapless {f : TreeNode → Nat} {k : Nat}
    (hf : ∀ (i : Nat) (n : TreeNode), run[i]? = some n → f n = k + i) :
    ∀ pair ∈ neighbours run, f pair.2 = f pair.1 + 1 := by
  rintro ⟨a, b⟩ hpair
  obtain ⟨i, hi⟩ := List.mem_iff_getElem?.mp hpair
  simp only [neighbours, List.getElem?_zip_eq_some, List.getElem?_drop] at hi
  have ha := hf i a hi.1
  have hb := hf (1 + i) b hi.2
  simp only
  omega

end Faults

section Reports

variable {tree : Tree} {name : String} {t : WorkflowTree} {ids : List String}
  {strays : List SelectionFault} {selected : List String} {anchor : Placement}

/-- The chain nodes among some ids, each once. -/
def chosen (t : WorkflowTree) (ids : List String) : List String :=
  (ids.filter fun id => (firstOf? id (placements none 0 0 t.nodes)).isSome).eraseDups

theorem mem_chosen {id : String} :
    id ∈ chosen t ids ↔ id ∈ ids ∧ id ∈ t.chainNodes.map (·.id) := by
  rw [chosen, List.mem_eraseDups, List.mem_filter, firstOf?_placements]

/-- The place of the first of the shallowest chain nodes among some ids. -/
def anchor? (t : WorkflowTree) (ids : List String) : Option (String × Placement) :=
  shallowest? ((placements none 0 0 t.nodes).filter fun p => (chosen t ids).contains p.1)

theorem report_eq (ht : tree.workflow? name = some t) (hids : ids ≠ []) :
    report tree name ids = match anchor? t ids with
      | none => { faults := strayFaults t (placements none 0 0 t.nodes) name ids }
      | some (_, anchor) => examine t (placements none 0 0 t.nodes)
          (strayFaults t (placements none 0 0 t.nodes) name ids) (chosen t ids) anchor := by
  have hsome : ids.isEmpty = false := by simpa using hids
  simp only [report, ht, hsome, Bool.false_eq_true, if_false]
  rfl

theorem exists_anchor (hids : ids ≠ []) (hchain : ∀ id ∈ ids, id ∈ t.chainNodes.map (·.id)) :
    ∃ x anchor, anchor? t ids = some (x, anchor) ∧ x ∈ ids ∧
      (x, anchor) ∈ placements none 0 0 t.nodes ∧
      ∀ q ∈ placements none 0 0 t.nodes, q.1 ∈ ids → anchor.depth ≤ q.2.depth := by
  obtain ⟨id, hid⟩ := List.exists_mem_of_ne_nil ids hids
  obtain ⟨p, hp⟩ := Option.isSome_iff_exists.mp (firstOf?_placements.mpr (hchain id hid))
  have hpick (q : String × Placement) (hq : q.1 ∈ ids) : (chosen t ids).contains q.1 := by
    rw [List.contains_iff_mem, mem_chosen]
    exact ⟨hq, hchain q.1 hq⟩
  have hne : (placements none 0 0 t.nodes).filter (fun p => (chosen t ids).contains p.1) ≠ [] :=
    List.ne_nil_of_mem (List.mem_filter.mpr ⟨mem_of_firstOf? hp, hpick (id, p) hid⟩)
  obtain ⟨⟨x, anchor⟩, hshallow, hmem, hleast⟩ := shallowest?_spec hne
  obtain ⟨hplaced, hx⟩ := List.mem_filter.mp hmem
  rw [List.contains_iff_mem, mem_chosen] at hx
  refine ⟨x, anchor, hshallow, hx.1, hplaced, ?_⟩
  intro q hq hin
  exact hleast q (List.mem_filter.mpr ⟨hq, hpick q hin⟩)

theorem isValid_examine : (examine t (placements none 0 0 t.nodes) strays selected anchor).isValid ↔
    strays = [] ∧
    startFaults t ((containerNodes t anchor.container).filter (selected.contains ·.id)) = [] ∧
    gapFaults (placements none 0 0 t.nodes)
      ((containerNodes t anchor.container).filter (selected.contains ·.id)) = [] ∧
    outsideFaults (placements none 0 0 t.nodes)
      ((containerNodes t anchor.container).filter (selected.contains ·.id)) selected = [] ∧
    partFaults ((containerNodes t anchor.container).filter (selected.contains ·.id))
      selected = [] := by
  simp only [Report.isValid, examine, List.isEmpty_iff, List.append_eq_nil_iff, and_assoc]

end Reports

/-- Two reports tell the same of the run that is selected. -/
structure Report.Agrees (r r' : Report) : Prop where
  isValid : r.isValid = r'.isValid
  orderedIds : r.orderedIds = r'.orderedIds
  firstId : r.firstId = r'.firstId
  lastId : r.lastId = r'.lastId
  predecessorId : r.predecessorId = r'.predecessorId
  successorId : r.successorId = r'.successorId

/-- A report tells of the nodes `run` of a container, which follow `before` and precede `after`. -/
structure Report.Tells (r : Report) (place : Option (String × String))
    (before run after : List TreeNode) : Prop where
  orderedIds : r.orderedIds = run.map (·.id)
  firstId : r.firstId = run.head?.map (·.id)
  lastId : r.lastId = run.getLast?.map (·.id)
  predecessorId : r.predecessorId = (before.getLast?.map (·.id)).or (place.map (·.1))
  successorId : r.successorId = after.head?.map (·.id)

section Members

variable {tree : Tree} {name : String} {t : WorkflowTree} {ids ids' : List String}

theorem agrees_examine {strays strays' : List SelectionFault} {selected selected' : List String}
    {anchor : Placement} (hstrays : strays = [] ↔ strays' = [])
    (hmem : ∀ id, id ∈ selected ↔ id ∈ selected') :
    (examine t (placements none 0 0 t.nodes) strays selected anchor).Agrees
      (examine t (placements none 0 0 t.nodes) strays' selected' anchor) := by
  have hsame (id : String) : selected.contains id = selected'.contains id := by
    rw [Bool.eq_iff_iff, List.contains_iff_mem, List.contains_iff_mem]
    exact hmem id
  have hvalid : (examine t (placements none 0 0 t.nodes) strays selected anchor).isValid ↔
      (examine t (placements none 0 0 t.nodes) strays' selected' anchor).isValid := by
    simp only [isValid_examine, hsame, hstrays, outsideFaults_eq_nil, partFaults_eq_nil, hmem]
  refine ⟨Bool.eq_iff_iff.mpr hvalid, ?_, ?_, ?_, ?_, ?_⟩ <;> simp only [examine, hsame]

/-- What is reported of the run depends only on which nodes are picked. -/
theorem agrees_report (hmem : ∀ id, id ∈ ids ↔ id ∈ ids') :
    (report tree name ids).Agrees (report tree name ids') := by
  cases ht : tree.workflow? name with
  | none => constructor <;> simp only [report, ht]
  | some t =>
    by_cases hids : ids = []
    · have hids' : ids' = [] := by
        rw [List.eq_nil_iff_forall_not_mem]
        intro id hid
        rw [← hmem, hids] at hid
        exact absurd hid List.not_mem_nil
      rw [hids, hids']
      constructor <;> rfl
    · have hids' : ids' ≠ [] := by
        obtain ⟨id, hid⟩ := List.exists_mem_of_ne_nil ids hids
        exact List.ne_nil_of_mem ((hmem id).mp hid)
      have hchosen (id : String) : id ∈ chosen t ids ↔ id ∈ chosen t ids' := by
        rw [mem_chosen, mem_chosen, hmem]
      have hanchor : anchor? t ids = anchor? t ids' := by
        have hsame (id : String) : (chosen t ids).contains id = (chosen t ids').contains id := by
          rw [Bool.eq_iff_iff, List.contains_iff_mem, List.contains_iff_mem]
          exact hchosen id
        simp only [anchor?, hsame]
      have hstrays : strayFaults t (placements none 0 0 t.nodes) name ids = [] ↔
          strayFaults t (placements none 0 0 t.nodes) name ids' = [] := by
        simp only [strayFaults_eq_nil, hmem]
      rw [report_eq ht hids, report_eq ht hids', ← hanchor]
      cases anchor? t ids with
      | none =>
        refine ⟨?_, rfl, rfl, rfl, rfl, rfl⟩
        rw [Bool.eq_iff_iff]
        simp only [Report.isValid, List.isEmpty_iff, hstrays]
      | some found => exact agrees_examine hstrays hchosen

end Members

section Picks

variable {d : Document} {c : Catalog} {w : Workflow} {tree : Tree} {name : String}
  {t : WorkflowTree} {start : Option String} {ids : List String}
  {place : Option (String × String)} {before run after : List TreeNode}

/-- A picked node of least depth stands in the container of the run. -/
theorem Picks.container_eq (hp : Picks t start ids place before run after)
    (hd : (t.chainNodes.map (·.id)).Nodup) {x : String} {anchor : Placement} (hx : x ∈ ids)
    (hplaced : (x, anchor) ∈ placements none 0 0 t.nodes)
    (hleast : ∀ q ∈ placements none 0 0 t.nodes, q.1 ∈ ids → anchor.depth ≤ q.2.depth) :
    anchor.container = place := by
  have hkeys : ((placements none 0 0 t.nodes).map (·.1)).Nodup := by
    rw [map_fst_placements]
    exact hd
  have hunique {q : Placement} (hq : (x, q) ∈ placements none 0 0 t.nodes) : anchor = q :=
    Option.some.inj ((firstOf?_of_mem hkeys hplaced).symm.trans (firstOf?_of_mem hkeys hq))
  obtain ⟨n, hn, hin⟩ := hp.inside x hx
  have hmem : n ∈ before ++ run ++ after := by simp [hn]
  rw [map_id_subtree, List.mem_cons] at hin
  rcases hin with rfl | hin
  · obtain ⟨k, hk⟩ := List.mem_iff_getElem?.mp hmem
    obtain ⟨depth, hat⟩ := hp.container.placed
    exact congrArg Placement.container (hunique (hat k n hk))
  · -- A node inside a branch of the run is deeper than the node of the run, which is picked too.
    obtain ⟨p, hat, hbelow⟩ := exists_deeper none 0 0 t.nodes (hp.container.mem_chainNodes hmem)
    rw [contents_eq] at hin
    obtain ⟨m, hm, rfl⟩ := List.mem_map.mp hin
    obtain ⟨q, hq, hdeeper⟩ := hbelow m hm
    have hshallow : anchor.depth ≤ p.depth := hleast _ hat (hp.picked n hn)
    rw [hunique hq] at hshallow
    omega

/-- A run that is picked is the run that is examined. -/
theorem Picks.examined (hp : Picks t start ids place before run after)
    (hd : (t.chainNodes.map (·.id)).Nodup) (hfirst : ∀ n ∈ t.chainNodes, FirstOnly n.children)
    (ht : tree.workflow? name = some t) (hids : ids ≠ [])
    (hchain : ∀ id ∈ ids, id ∈ t.chainNodes.map (·.id)) :
    ∃ anchor, anchor.container = place ∧ containerNodes t place = before ++ run ++ after ∧
      (containerNodes t place).filter ((chosen t ids).contains ·.id) = run ∧
      report tree name ids = examine t (placements none 0 0 t.nodes)
        (strayFaults t (placements none 0 0 t.nodes) name ids) (chosen t ids) anchor := by
  obtain ⟨x, anchor, hanchor, hx, hplaced, hleast⟩ := exists_anchor hids hchain
  have hplace := hp.container_eq hd hx hplaced hleast
  have hne : before ++ run ++ after ≠ [] := by
    obtain ⟨n, hn, -⟩ := hp.inside x hx
    exact List.ne_nil_of_mem (a := n) (by simp [hn])
  have hnodes := hp.container.containerNodes_eq hd hfirst hne
  refine ⟨anchor, hplace, hnodes, ?_, ?_⟩
  · have hrun : run.filter ((chosen t ids).contains ·.id) = run := by
      rw [List.filter_eq_self]
      intro n hn
      have hpicked := hp.picked n hn
      exact List.contains_iff_mem.mpr (mem_chosen.mpr ⟨hpicked, hchain _ hpicked⟩)
    have houter {nodes : List TreeNode} (hsub : ∀ n ∈ nodes, n ∈ before ++ after) :
        nodes.filter ((chosen t ids).contains ·.id) = [] := by
      rw [List.filter_eq_nil_iff]
      intro n hn hchosen
      exact hp.others n (hsub n hn) (mem_chosen.mp (List.contains_iff_mem.mp hchosen)).1
    rw [hnodes, List.filter_append, List.filter_append, hrun,
      houter fun _ hn => List.mem_append_left _ hn, houter fun _ hn => List.mem_append_right _ hn,
      List.nil_append, List.append_nil]
  · rw [report_eq ht hids, hanchor]

/-- A run that is picked can be lifted out. -/
theorem Picks.isValid (hp : Picks t w.startId? ids place before run after)
    (h : ofWorkflow d c w = .ok t) (ht : tree.workflow? name = some t) (hids : ids ≠ [])
    (hchain : ∀ id ∈ ids, id ∈ t.chainNodes.map (·.id)) : (report tree name ids).isValid := by
  have hd := nodup_chainNodes h
  obtain ⟨anchor, hplace, hnodes, hrun, heq⟩ :=
    hp.examined hd (firstOnly_of_mem_chainNodes h) ht hids hchain
  rw [← hplace] at hnodes hrun
  rw [heq, isValid_examine, hrun]
  refine ⟨strayFaults_eq_nil.mpr hchain, (startFaults_eq_nil (head?_nodes h)).mpr hp.notStart,
    gapFaults_eq_nil.mpr ?_, outsideFaults_eq_nil.mpr ?_, partFaults_eq_nil.mpr ?_⟩
  · apply gapless (f := fun n => indexOf (placements none 0 0 t.nodes) n.id) (k := before.length)
    intro i n hn
    have hat : (containerNodes t anchor.container)[before.length + i]? = some n := by
      rw [hnodes, List.append_assoc, List.getElem?_append_right (Nat.le_add_right ..),
        Nat.add_sub_cancel_left, List.getElem?_append_left (List.getElem?_eq_some_iff.mp hn).1]
      exact hn
    exact indexOf_placements hd hat
  · intro id hid
    exact hp.inside id (mem_chosen.mp hid).1
  · intro n hn hcontrol
    rw [contents_eq, branchIds]
    simp only [List.forall_mem_map, mem_chosen]
    rcases hp.whole n hn hcontrol with hnone | hall
    · left
      rintro m hm ⟨hpicked, -⟩
      exact hnone m hm hpicked
    · right
      intro m hm
      exact ⟨hall m hm, hchain _ (hall m hm)⟩

theorem chain_of_isValid (ht : tree.workflow? name = some t)
    (hv : (report tree name ids).isValid) :
    ids ≠ [] ∧ ∀ id ∈ ids, id ∈ t.chainNodes.map (·.id) := by
  have hids : ids ≠ [] := by
    rintro rfl
    simp [report, ht, Report.isValid] at hv
  refine ⟨hids, ?_⟩
  rw [report_eq ht hids] at hv
  cases hanchor : anchor? t ids with
  | none =>
    rw [hanchor] at hv
    exact strayFaults_eq_nil.mp (List.isEmpty_iff.mp hv)
  | some found =>
    rw [hanchor] at hv
    exact strayFaults_eq_nil.mp (isValid_examine.mp hv).1

/-- A valid selection picks a run of neighbours. -/
theorem exists_picks (h : ofWorkflow d c w = .ok t) (ht : tree.workflow? name = some t)
    (hv : (report tree name ids).isValid) :
    ∃ place before run after, Picks t w.startId? ids place before run after := by
  have hd := nodup_chainNodes h
  obtain ⟨hids, hchain⟩ := chain_of_isValid ht hv
  obtain ⟨x, anchor, hanchor, -, hplaced, -⟩ := exists_anchor hids hchain
  rw [report_eq ht hids, hanchor] at hv
  obtain ⟨-, hstart, hgap, houtside, hpart⟩ := isValid_examine.mp hv
  obtain ⟨hcontainer, -⟩ := isContainer_of_placed hd (firstOnly_of_mem_chainNodes h) hplaced
  obtain ⟨before, after, hnodes⟩ := exists_neighbours hd hgap
  generalize hrun : (containerNodes t anchor.container).filter ((chosen t ids).contains ·.id) = run
    at *
  have hself : run.filter ((chosen t ids).contains ·.id) = run := by
    rw [← hrun, List.filter_filter]
    simp only [Bool.and_self]
  have hothers : before.filter ((chosen t ids).contains ·.id) = [] ∧
      after.filter ((chosen t ids).contains ·.id) = [] := by
    rw [hnodes, List.filter_append, List.filter_append, hself] at hrun
    have hlength := congrArg List.length hrun
    simp only [List.length_append] at hlength
    rw [← List.length_eq_zero_iff, ← List.length_eq_zero_iff]
    omega
  have hchosen {id : String} (hid : id ∈ ids) : id ∈ chosen t ids :=
    mem_chosen.mpr ⟨hid, hchain id hid⟩
  refine ⟨anchor.container, before, run, after, hnodes ▸ hcontainer, ?_, ?_,
    (startFaults_eq_nil (head?_nodes h)).mp hstart, ?_, ?_⟩
  · intro n hn
    rw [← hself] at hn
    exact (mem_chosen.mp (List.contains_iff_mem.mp (List.mem_filter.mp hn).2)).1
  · intro n hn hid
    have hin := List.contains_iff_mem.mpr (hchosen hid)
    rcases List.mem_append.mp hn with hn | hn
    · exact List.filter_eq_nil_iff.mp hothers.1 n hn hin
    · exact List.filter_eq_nil_iff.mp hothers.2 n hn hin
  · intro id hid
    exact outsideFaults_eq_nil.mp houtside id (hchosen hid)
  · intro n hn hcontrol
    have hsplit := partFaults_eq_nil.mp hpart n hn hcontrol
    rw [contents_eq, branchIds] at hsplit
    simp only [List.forall_mem_map] at hsplit
    rcases hsplit with hnone | hall
    · exact .inl fun m hm hid => hnone m hm (hchosen hid)
    · exact .inr fun m hm => (mem_chosen.mp (hall m hm)).1

/-- The report on a valid selection tells of the run that is picked. -/
theorem Picks.tells (hp : Picks t start ids place before run after)
    (h : ofWorkflow d c w = .ok t) (ht : tree.workflow? name = some t)
    (hv : (report tree name ids).isValid) :
    (report tree name ids).Tells place before run after := by
  have hd := nodup_chainNodes h
  obtain ⟨hids, hchain⟩ := chain_of_isValid ht hv
  obtain ⟨anchor, rfl, hnodes, hrun, heq⟩ :=
    hp.examined hd (firstOnly_of_mem_chainNodes h) ht hids hchain
  have hne : run ≠ [] := by
    obtain ⟨id, hid⟩ := List.exists_mem_of_ne_nil ids hids
    obtain ⟨n, hn, -⟩ := hp.inside id hid
    exact List.ne_nil_of_mem hn
  have hrun : IsRun t (report tree name ids) anchor.container before run after := by
    rw [heq]
    exact isRun_examine hd hnodes hrun
  obtain ⟨-, hordered, hfirst, hlast, hpredecessor, hsuccessor⟩ := hrun
  refine ⟨hordered, hfirst, hlast, ?_, ?_⟩
  · rw [hpredecessor, List.head?_eq_some_head hne, Option.bind_some]
  · rw [hsuccessor, List.getLast?_eq_some_getLast hne, Option.bind_some]

end Picks

/-- The selections that can be lifted out pick a run of neighbours in one container of a workflow,
and what is reported of the run depends only on which nodes are picked. -/
theorem report_picks (d : Document) (c : Catalog) (tree : Tree) (name : String) (ids : List String)
    (h : Tree.ofDocument d c = .ok tree) :
    ((report tree name ids).isValid ↔ ∃ w t, d.workflow? name = some w ∧
      tree.workflow? name = some t ∧ ids ≠ [] ∧ (∀ id ∈ ids, id ∈ t.chainNodes.map (·.id)) ∧
      ∃ place before run after, Picks t w.startId? ids place before run after) ∧
    (∀ w t place before run after, d.workflow? name = some w → tree.workflow? name = some t →
      (report tree name ids).isValid → Picks t w.startId? ids place before run after →
      (report tree name ids).Tells place before run after) ∧
    ∀ ids', (∀ id, id ∈ ids ↔ id ∈ ids') →
      (report tree name ids).Agrees (report tree name ids') := by
  refine ⟨⟨?_, ?_⟩, ?_, fun ids' => agrees_report⟩
  · intro hv
    cases ht : tree.workflow? name with
    | none =>
      simp only [report, ht] at hv
      exact absurd hv Bool.false_ne_true
    | some t =>
      obtain ⟨w, hw, hok⟩ := exists_workflow_of_tree h ht
      obtain ⟨hids, hchain⟩ := chain_of_isValid ht hv
      exact ⟨w, t, hw, rfl, hids, hchain, exists_picks hok ht hv⟩
  · rintro ⟨w, t, hw, ht, hids, hchain, place, before, run, after, hp⟩
    obtain ⟨_, ht', hok⟩ := exists_workflow? h hw
    cases ht.symm.trans ht'
    exact hp.isValid hok ht hids hchain
  · intro w t place before run after hw ht hv hp
    obtain ⟨_, ht', hok⟩ := exists_workflow? h hw
    cases ht.symm.trans ht'
    exact hp.tells hok ht hv

theorem twiceListed_picks : ∃ tree, Tree.ofDocument ⟨[twiceListed]⟩ pickCatalog = .ok tree ∧
    (report tree "m" ["b", "a", "b"]).isValid ∧ ∃ w t,
      Document.workflow? ⟨[twiceListed]⟩ "m" = some w ∧ tree.workflow? "m" = some t ∧
      ["b", "a", "b"] ≠ [] ∧ (∀ id ∈ ["b", "a", "b"], id ∈ t.chainNodes.map (·.id)) ∧
      ∃ place before run after, Picks t w.startId? ["b", "a", "b"] place before run after := by
  obtain ⟨tree, htree, hv⟩ : ∃ tree, Tree.ofDocument ⟨[twiceListed]⟩ pickCatalog = .ok tree ∧
      (report tree "m" ["b", "a", "b"]).isValid := ⟨_, rfl, by decide +kernel⟩
  exact ⟨tree, htree, hv, (report_picks ⟨[twiceListed]⟩ pickCatalog tree "m" _ htree).1.mp hv⟩

end Selection

end BlockFlow
