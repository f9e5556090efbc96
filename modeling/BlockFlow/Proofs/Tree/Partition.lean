import BlockFlow.Proofs.Tree.Walk

/-!
Which nodes the tree of a workflow shows, and where. Main statement: the chain has exactly the nodes
that pointers lead to from the start node, and the orphans are the nodes that neither pointers nor
the references of the chain lead to.
-/

namespace BlockFlow

open Relation Outcome InputExpr

/-- The chain needs the node: pointers lead to it from the start node, or references do from a node
of the chain. -/
def Workflow.Used (w : Workflow) (id : String) : Prop :=
  ∃ a, w.Reached a ∧ ReflTransGen w.Cites a id

namespace Tree

section Orphans

variable {s : Scope} {σ σ' : List String} {n : NodeDef} {nodes : List NodeDef} {os : List Orphan}

theorem run_orphans_nil : (orphans s []).run σ = .ok (os, σ') ↔ os = [] ∧ σ' = σ := by
  rw [orphans, run_pure_eq_ok]

theorem run_orphans_cons : (orphans s (n :: nodes)).run σ = .ok (os, σ') ↔
    n.id ∈ σ ∧ (orphans s nodes).run σ = .ok (os, σ') ∨
    n.id ∉ σ ∧ ∃ node τ more, (plainNode s false n).run σ = .ok (node, τ) ∧
      (orphans s nodes).run τ = .ok (more, σ') ∧ os = ⟨node, n.next⟩ :: more := by
  rw [orphans, run_get_bind]
  simp only [List.contains_iff_mem]
  by_cases hid : n.id ∈ σ
  · simp only [hid, if_true, not_true_eq_false, false_and, or_false, true_and]
  · simp only [hid, if_false, false_and, false_or, not_false_eq_true, true_and, run_bind_eq_ok,
      run_pure_eq_ok]
    constructor
    · intro h
      obtain ⟨node, τ, hnode, more, _, hmore, rfl, rfl⟩ := h
      exact ⟨node, τ, more, hnode, hmore, rfl⟩
    · intro h
      obtain ⟨node, τ, more, hnode, hmore, rfl⟩ := h
      exact ⟨node, τ, hnode, more, σ', hmore, rfl, rfl⟩

/-- Building an orphan places nothing. -/
theorem mem_of_orphan {node : TreeNode} (h : (plainNode s false n).run σ = .ok (node, σ'))
    (x : String) : x ∈ σ' ↔ x ∈ σ := by
  simpa using adds_plainNode h x

/-- The orphans are the nodes that are not placed. -/
theorem orphans_ids (h : (orphans s nodes).run σ = .ok (os, σ')) :
    os.map (·.node.id) = (nodes.map (·.id)).filter (· ∉ σ) := by
  induction nodes generalizing σ os with
  | nil =>
    obtain ⟨rfl, rfl⟩ := run_orphans_nil.mp h
    rfl
  | cons n nodes ih =>
    rcases run_orphans_cons.mp h with ⟨hid, h⟩ | ⟨hid, node, τ, more, hnode, hmore, rfl⟩
    · simpa [hid] using ih h
    · have hsame := mem_of_orphan hnode
      obtain ⟨_, -, _, -, rfl⟩ := run_plainNode.mp hnode
      simpa [hid, hsame] using ih hmore

theorem exists_orphans : (∃ os σ', (orphans s nodes).run σ = .ok (os, σ')) ↔
    ∀ n ∈ nodes, n.id ∉ σ → Placeable s false n := by
  induction nodes generalizing σ with
  | nil => exact iff_of_true ⟨[], σ, run_orphans_nil.mpr ⟨rfl, rfl⟩⟩ (by simp)
  | cons n nodes ih =>
    rw [List.forall_mem_cons, ← ih]
    constructor
    · intro hex
      obtain ⟨os, σ', h⟩ := hex
      rcases run_orphans_cons.mp h with ⟨hid, h⟩ | ⟨hid, node, τ, more, hnode, hmore, rfl⟩
      · exact ⟨fun hnot => absurd hid hnot, os, σ', h⟩
      · refine ⟨fun _ => exists_plainNode.mp ⟨node, τ, hnode⟩, ih.mpr fun m hm hnot => ?_⟩
        exact ih.mp ⟨more, σ', hmore⟩ m hm (mt (mem_of_orphan hnode m.id).mp hnot)
    · intro hex
      obtain ⟨hplace, os, σ', h⟩ := hex
      by_cases hid : n.id ∈ σ
      · exact ⟨os, σ', run_orphans_cons.mpr (.inl ⟨hid, h⟩)⟩
      · obtain ⟨node, τ, hnode⟩ := (exists_plainNode (σ := σ)).mpr (hplace hid)
        have hrest : ∀ m ∈ nodes, m.id ∉ τ → Placeable s false m := by
          intro m hm hnot
          exact ih.mp ⟨os, σ', h⟩ m hm (mt (mem_of_orphan hnode m.id).mpr hnot)
        obtain ⟨more, υ, hmore⟩ := ih.mpr hrest
        exact ⟨_, υ, run_orphans_cons.mpr (.inr ⟨hid, node, τ, more, hnode, hmore, rfl⟩)⟩

end Orphans

variable {d : Document} {c : Catalog} {w : Workflow} {t : WorkflowTree} {x : String}

/-- What building the tree of a workflow looks at. -/
def scopeOf (d : Document) (c : Catalog) (w : Workflow) : Scope :=
  ⟨d, w, c, (w.startId?.map (LinkGraph.reachableFrom ⟨w.nodeIds, w.links⟩)).getD []⟩

/-- Nodes used as reporters are looked up among all that entries for pointers lead to. -/
theorem mem_scopeOf_chain (hp : ∀ n ∈ w.nodes, ∀ p ∈ n.pointers, p.2 ∈ w.nodeIds) :
    x ∈ (scopeOf d c w).chain ↔ w.Linked x := by
  have hg := LinkGraph.build_eq_ok.mpr ⟨hp, rfl⟩
  unfold scopeOf Workflow.Linked
  cases hs : w.startId? with
  | none => simp
  | some start =>
    simp [LinkGraph.mem_reachableFrom hg, Workflow.mem_nodeIds_of_startId? hs]

theorem run_placeAll {s : Scope} {σ σ' : List String} :
    (placeAll s).run σ = .ok (t, σ') ↔ ∃ nodes τ os,
      (walkChain s s.workflow.nodes.length s.workflow.startId?).run σ = .ok (nodes, τ) ∧
      (orphans s s.workflow.nodes).run τ = .ok (os, σ') ∧
      t = ⟨s.workflow.name, s.workflow.interface,
        s.workflow.vars.map fun (k, v) => (k, literalOf v), nodes, os⟩ := by
  simp only [placeAll, run_bind_eq_ok, run_pure_eq_ok]
  constructor
  · intro h
    obtain ⟨nodes, τ, hnodes, os, _, hos, rfl, rfl⟩ := h
    exact ⟨nodes, τ, os, hnodes, hos, rfl⟩
  · intro h
    obtain ⟨nodes, τ, os, hnodes, hos, rfl⟩ := h
    exact ⟨nodes, τ, hnodes, os, σ', hos, rfl, rfl⟩

theorem ofWorkflow_eq_ok : ofWorkflow d c w = .ok t ↔
    (∀ n ∈ w.nodes, ∀ p ∈ n.pointers, p.2 ∈ w.nodeIds) ∧ (w.startId? = none → w.nodes = []) ∧
      ∃ σ, (placeAll (scopeOf d c w)).run [] = .ok (t, σ) := by
  unfold ofWorkflow
  rw [bind_eq_ok]
  simp only [LinkGraph.build_eq_ok, and_assoc, exists_and_left, exists_eq_left]
  refine and_congr_right fun _ => ?_
  cases hs : w.startId? with
  | some start =>
    have hscope : scopeOf d c w =
        ⟨d, w, c, LinkGraph.reachableFrom ⟨w.nodeIds, w.links⟩ start⟩ := by
      simp [scopeOf, hs]
    rw [hscope]
    simp [bind_eq_ok]
  | none =>
    have hscope : scopeOf d c w = ⟨d, w, c, []⟩ := by simp [scopeOf, hs]
    rw [hscope]
    cases w.nodes <;> simp [bind_eq_ok]

section Placed

variable {ids σ : List String}

/-- The nodes of the chain are those that pointers lead to: a node that was met as placed is in the
chain, since reporters of the chain are not. -/
theorem mem_walked (hp : ∀ n ∈ w.nodes, ∀ p ∈ n.pointers, p.2 ∈ w.nodeIds)
    (h : Walked (scopeOf d c w) w.startId?.toList [] ids σ) : x ∈ ids ↔ w.Reached x := by
  have hplaced (y : String) (hy : y ∈ σ) (hl : w.Linked y) : y ∈ ids := by
    rcases (h.placed y).mp hy with hy | ⟨a, ha, hcites⟩
    · simp at hy
    · rcases ReflTransGen.cases_head hcites with rfl | ⟨r, hr, hcites⟩
      · exact ha
      · obtain ⟨n, hn, hplace, -⟩ := h.fit a ha
        have husable := hplace.supplied.refs r ((Workflow.cites_iff hn).mp hr)
        exact absurd ((mem_scopeOf_chain hp).mpr hl) ((husable y hcites).1 rfl)
  constructor
  · intro hx
    obtain ⟨start, hs, hl⟩ := h.reached x hx
    exact ⟨start, Option.mem_toList.mp hs, hl⟩
  · intro hex
    obtain ⟨start, hs, hl⟩ := hex
    induction hl with
    | refl => exact hplaced start (h.started start (by simp [hs])) ⟨start, hs, .refl⟩
    | @tail y z hy hz ih =>
      have hreached : w.Reached z := ⟨start, hs, hy.tail hz⟩
      exact hplaced z (h.closed y ih z hz) hreached.linked

theorem mem_placed (hp : ∀ n ∈ w.nodes, ∀ p ∈ n.pointers, p.2 ∈ w.nodeIds)
    (h : Walked (scopeOf d c w) w.startId?.toList [] ids σ) : x ∈ σ ↔ w.Used x := by
  rw [h.placed]
  simp only [CitedFrom, mem_walked hp h, List.not_mem_nil, false_or]
  rfl

end Placed

theorem walked_ofWorkflow {σ : List String} {nodes : List TreeNode}
    (hp : ∀ n ∈ w.nodes, ∀ p ∈ n.pointers, p.2 ∈ w.nodeIds)
    (h : (walkChain (scopeOf d c w) w.nodes.length w.startId?).run [] = .ok (nodes, σ)) :
    Walked (scopeOf d c w) w.startId?.toList [] (chainIds nodes) σ := by
  refine walks_walkChain hp _ _ _ _ _ (fun id => Workflow.mem_nodeIds_of_startId?) ?_ h
  have hcard := List.toFinset_card_le w.nodeIds
  have hlen : w.nodeIds.length = w.nodes.length := List.length_map _
  simpa [Room, scopeOf, ← hlen] using hcard

/-- A walk with nothing placed begins with the node it is sent to. -/
theorem head?_chainIds {s : Scope} {σ : List String} {fuel : Nat} {id : String}
    {nodes : List TreeNode} (h : (walkChain s (fuel + 1) (some id)).run [] = .ok (nodes, σ)) :
    (chainIds nodes).head? = some id := by
  rcases run_walkChain_some.mp h with ⟨hid, -⟩ | ⟨-, n, hn, -, _, _, _, _, _, hplain, -, -, rfl⟩
  · simp at hid
  · obtain ⟨_, -, _, -, rfl⟩ := run_plainNode.mp hplain
    simp [Workflow.node?_id hn]

/-- The chain of a workflow begins with the start node. -/
theorem head?_walked {σ : List String} {nodes : List TreeNode}
    (h : (walkChain (scopeOf d c w) w.nodes.length w.startId?).run [] = .ok (nodes, σ)) :
    (chainIds nodes).head? = w.startId? := by
  cases hstart : w.startId? with
  | none =>
    rw [hstart] at h
    obtain ⟨rfl, -⟩ := (run_walkChain_none _).mp h
    rfl
  | some start =>
    obtain ⟨n, hn, -⟩ := Workflow.mem_nodeIds.mp (Workflow.mem_nodeIds_of_startId? hstart)
    obtain ⟨k, hk⟩ := Nat.exists_eq_succ_of_ne_zero (List.length_pos_of_mem hn).ne'
    rw [hstart, hk] at h
    exact head?_chainIds h

/-- Each node of a workflow is shown once by its tree: in the chain, beginning with the start node,
when pointers lead to it, and else as an orphan, unless it is a reporter of the chain. -/
structure Partitions (t : WorkflowTree) (w : Workflow) : Prop where
  name : t.name = w.name
  nodup : (t.chainNodes.map (·.id)).Nodup
  head : (t.chainNodes.map (·.id)).head? = w.startId?
  chain : ∀ id, id ∈ t.chainNodes.map (·.id) ↔ w.Reached id
  order : t.orphanIds.Sublist w.nodeIds
  once : t.orphanIds.Nodup
  orphans : ∀ id, id ∈ t.orphanIds ↔ id ∈ w.nodeIds ∧ ¬ w.Used id
  found : ∀ id, (t.find? id).isSome ↔ id ∈ t.chainNodes.map (·.id)

theorem partitions_ofWorkflow (hd : w.nodeIds.Nodup) (h : ofWorkflow d c w = .ok t) :
    Partitions t w := by
  obtain ⟨hp, hs, σ, hrun⟩ := ofWorkflow_eq_ok.mp h
  obtain ⟨nodes, τ, os, hnodes, hos, rfl⟩ := run_placeAll.mp hrun
  change (walkChain _ w.nodes.length w.startId?).run [] = _ at hnodes
  have hwalked := walked_ofWorkflow hp hnodes
  have hids : os.map (·.node.id) = w.nodeIds.filter (· ∉ τ) := orphans_ids hos
  have horder : (os.map (·.node.id)).Sublist w.nodeIds := by
    rw [hids]
    exact List.filter_sublist
  refine ⟨rfl, hwalked.nodup, ?_, fun id => mem_walked hp hwalked, horder, hd.sublist horder,
    fun id => ?_, fun id => ?_⟩
  · exact head?_walked hnodes
  · change id ∈ os.map (·.node.id) ↔ _
    rw [hids]
    simp [mem_placed hp hwalked]
  · simp [WorkflowTree.find?]

/-- An opcode with one branch, which a mapping can list under a number and under a string. -/
def pickCatalog : Catalog :=
  ⟨[{ opcode := startOpcode, category := .workflowOp },
    { opcode := "pick", category := .controlFlow, branches := some (.fixed ["1"]) }]⟩

/-- The node `a` lists its branch twice, and `b`, which leads back to it, uses the reporter `r`. -/
def twiceListed : Workflow :=
  ⟨"m", {}, [],
    [⟨"start", startOpcode, [], some "a", []⟩,
      ⟨"a", "pick", [], none, [("1", some "b"), ("1", some "e")]⟩,
      ⟨"b", "pick", [("IN", .node "r")], some "a", []⟩,
      ⟨"r", "pick", [], none, []⟩,
      ⟨"e", "pick", [], none, []⟩]⟩

end Tree

end BlockFlow
