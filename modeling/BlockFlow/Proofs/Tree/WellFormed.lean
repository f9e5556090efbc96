import BlockFlow.Proofs.Tree.Partition

/-!
Which documents have a tree. Main statement: those whose pointers, references, opcodes, calls and
branches can all be resolved, where reporters neither contain themselves nor are in the chain that
uses them.
-/

namespace BlockFlow

open Relation Outcome InputExpr

variable {d : Document} {c : Catalog} {w : Workflow} {n : NodeDef} {a b : String}

/-- What a node needs for itself, wherever it is shown. -/
structure NodeDef.Sound (d : Document) (c : Catalog) (w : Workflow) (n : NodeDef) : Prop where
  known : n.Known d c
  refs : ∀ r ∈ nodeRefsIn n.inputs, r ∈ w.nodeIds
  acyclic : w.Acyclic n.reporter

/-- A workflow that can be shown as a tree with the given nodes in it. Used nodes reference no node
that any entry for a pointer leads to; the chain has fitting branches. -/
structure Workflow.WellFormed (d : Document) (c : Catalog) (w : Workflow)
    (shown : NodeDef → Prop) : Prop where
  pointers : ∀ n ∈ w.nodes, ∀ p ∈ n.pointers, p.2 ∈ w.nodeIds
  start : w.startId? = none → w.nodes = []
  sound : ∀ n, shown n → n.Sound d c w
  apart : ∀ a b, w.Used a → w.Cites a b → ¬ w.Linked b
  branches : ∀ n, w.node? n.id = some n → w.Reached n.id → n.BranchesFit c

/-- A node of the workflow is shown by its tree: it is found under its id, or the tree does not use
that id otherwise. -/
def Workflow.Shown (w : Workflow) (n : NodeDef) : Prop :=
  n ∈ w.nodes ∧ (w.node? n.id = some n ∨ ¬ w.Used n.id)

/-- Where ids are distinct, all nodes are shown. -/
theorem Workflow.shown_iff (hd : w.nodeIds.Nodup) : w.Shown n ↔ n ∈ w.nodes :=
  ⟨And.left, fun hn => ⟨hn, .inl (node?_eq_some hd hn)⟩⟩

theorem Workflow.shown_eq (hd : w.nodeIds.Nodup) : w.Shown = (· ∈ w.nodes) :=
  funext fun _ => propext (shown_iff hd)

theorem Workflow.shown_of_node? (h : w.node? a = some n) : w.Shown n :=
  ⟨node?_mem h, .inl (by rw [node?_id h, h])⟩

namespace Tree

variable {s : Scope} {inChain : Bool}

theorem Placeable.sound (h : Placeable s inChain n) :
    n.Sound s.document s.catalog s.workflow := by
  refine ⟨⟨h.opcode, h.supplied.opcodes, h.supplied.calls⟩, fun r hr => ?_, ?_⟩
  · obtain ⟨-, m, hm, -⟩ := h.supplied.refs r hr r .refl
    exact Workflow.mem_nodeIds_of_node? hm
  · exact Workflow.unrepeated_self_iff.mp h.unrepeated

/-- What a node references can be placed as well. -/
theorem Placeable.of_ref (h : Placeable s inChain n) (hb : b ∈ nodeRefsIn n.inputs) :
    (inChain = true → b ∉ s.chain) ∧
      ∃ m, s.workflow.node? b = some m ∧ Placeable s inChain m := by
  obtain ⟨hfree, m, hm, hop, hs⟩ := usable_iff_supplied.mp (h.supplied.refs b hb)
  have hdown := Workflow.uses_of_mem_nodeRefs hb hm
  have hacyclic := (Workflow.unrepeated_self_iff.mp h.unrepeated).of_uses hdown.to_reflTransGen
  exact ⟨hfree, m, hm, hop, hs, Workflow.unrepeated_self_iff.mpr hacyclic⟩

theorem Placeable.of_cites (hn : s.workflow.node? a = some n) (h : Placeable s inChain n)
    (hab : ReflTransGen s.workflow.Cites a b) :
    ∃ m, s.workflow.node? b = some m ∧ Placeable s inChain m := by
  induction hab with
  | refl => exact ⟨n, hn, h⟩
  | tail _ hbc ih =>
    obtain ⟨m, hm, hplace⟩ := ih
    exact (hplace.of_ref ((Workflow.cites_iff hm).mp hbc)).2

/-- A sound node can be placed when all that its references lead to is sound and may be used. -/
theorem placeable_of_sound (h : n.Sound s.document s.catalog s.workflow)
    (hsound : ∀ b m, s.workflow.node? b = some m → m.Sound s.document s.catalog s.workflow)
    (hfree : inChain = true → ∀ r ∈ nodeRefsIn n.inputs, ∀ b,
      ReflTransGen s.workflow.Cites r b → b ∉ s.chain) : Placeable s inChain n := by
  refine ⟨h.known.opcode, ⟨h.known.opcodes, h.known.calls, fun r hr b hb => ?_⟩,
    Workflow.unrepeated_self_iff.mpr h.acyclic⟩
  refine ⟨fun hin => hfree hin r hr b hb, ?_⟩
  have hmem : b ∈ s.workflow.nodeIds := by
    rcases ReflTransGen.cases_tail hb with rfl | ⟨e, -, he⟩
    · exact h.refs _ hr
    · obtain ⟨m, hm⟩ := he.exists_node?
      exact (hsound e m hm).refs b ((Workflow.cites_iff hm).mp he)
  obtain ⟨m, hm⟩ := Workflow.exists_node? hmem
  exact ⟨m, hm, (hsound b m hm).known⟩

/-- The nodes that references lead to from a used node are not linked. -/
theorem not_linked_of_cites (h : ∀ a b, w.Used a → w.Cites a b → ¬ w.Linked b) (ha : w.Used a)
    {r : String} (har : w.Cites a r) (hrb : ReflTransGen w.Cites r b) : ¬ w.Linked b := by
  rcases ReflTransGen.cases_tail hrb with rfl | ⟨e, hre, heb⟩
  · exact h a _ ha har
  · obtain ⟨z, hz, hza⟩ := ha
    exact h e b ⟨z, hz, (hza.tail har).trans hre⟩ heb

theorem wellFormed_of_ofWorkflow {t : WorkflowTree} (h : ofWorkflow d c w = .ok t) :
    w.WellFormed d c w.Shown := by
  obtain ⟨hp, hs, σ, hrun⟩ := ofWorkflow_eq_ok.mp h
  obtain ⟨nodes, τ, os, hnodes, hos, -⟩ := run_placeAll.mp hrun
  have hwalked := walked_ofWorkflow hp hnodes
  have hreached (a : String) (ha : w.Reached a) := hwalked.fit a ((mem_walked hp hwalked).mpr ha)
  have hused (a : String) (ha : w.Used a) :
      ∃ m, w.node? a = some m ∧ Placeable (scopeOf d c w) true m := by
    obtain ⟨z, hz, hza⟩ := ha
    obtain ⟨m, hm, hplace, -⟩ := hreached z hz
    exact hplace.of_cites hm hza
  have horphan := exists_orphans.mp ⟨os, σ, hos⟩
  refine ⟨hp, hs, ?_, ?_, ?_⟩
  · intro n hex
    obtain ⟨hn, hshown⟩ := hex
    by_cases hu : w.Used n.id
    · obtain ⟨m, hm, hplace⟩ := hused n.id hu
      have hfound := hshown.resolve_right (not_not_intro hu)
      obtain rfl : n = m := Option.some.inj (hfound.symm.trans hm)
      exact hplace.sound
    · exact (horphan n hn (mt (mem_placed hp hwalked).mp hu)).sound
  · intro a b ha hab hl
    obtain ⟨m, hm, hplace⟩ := hused a ha
    have hnot := (hplace.of_ref ((Workflow.cites_iff hm).mp hab)).1 rfl
    exact hnot ((mem_scopeOf_chain hp).mpr hl)
  · intro n hn hr
    obtain ⟨m, hm, -, hfit⟩ := hreached n.id hr
    obtain rfl : n = m := Option.some.inj (hn.symm.trans hm)
    exact hfit

theorem ofWorkflow_of_wellFormed (h : w.WellFormed d c w.Shown) :
    ∃ t, ofWorkflow d c w = .ok t := by
  have hsound (b : String) (m : NodeDef) (hm : w.node? b = some m) : m.Sound d c w :=
    h.sound m (Workflow.shown_of_node? hm)
  have hwalkable : ∀ id ∈ w.startId?, Walkable (scopeOf d c w) id := by
    intro start hs x hx
    have hr : w.Reached x := ⟨start, hs, hx⟩
    have hmem : x ∈ w.nodeIds := by
      rcases ReflTransGen.cases_tail hx with rfl | ⟨y, -, hyx⟩
      · exact Workflow.mem_nodeIds_of_startId? hs
      · exact hyx.mem_nodeIds h.pointers
    obtain ⟨m, hm⟩ := Workflow.exists_node? hmem
    have hself := Workflow.node?_id hm
    refine ⟨m, hm, ?_, h.branches m (by rw [hself, hm]) (by rwa [hself])⟩
    refine placeable_of_sound (hsound x m hm) hsound fun _ r hrm b hrb hchain => ?_
    have hcites : w.Cites x r := (Workflow.cites_iff hm).mpr hrm
    exact not_linked_of_cites h.apart ⟨x, hr, .refl⟩ hcites hrb
      ((mem_scopeOf_chain h.pointers).mp hchain)
  obtain ⟨nodes, τ, hnodes⟩ := exists_walkChain w.nodes.length w.startId? [] hwalkable
  have hwalked := walked_ofWorkflow h.pointers hnodes
  have horphans : ∀ n ∈ w.nodes, n.id ∉ τ → Placeable (scopeOf d c w) false n := by
    intro n hn hnot
    have hunused : ¬ w.Used n.id := mt (mem_placed h.pointers hwalked).mpr hnot
    exact placeable_of_sound (h.sound n ⟨hn, .inr hunused⟩) hsound (by simp)
  obtain ⟨os, σ, hos⟩ := exists_orphans.mpr horphans
  exact ⟨_, ofWorkflow_eq_ok.mpr ⟨h.pointers, h.start, σ,
    run_placeAll.mpr ⟨nodes, τ, os, hnodes, hos, rfl⟩⟩⟩

/-- A workflow has a tree exactly when it is well formed, also where nodes share an id. -/
theorem exists_ofWorkflow : (∃ t, ofWorkflow d c w = .ok t) ↔ w.WellFormed d c w.Shown :=
  ⟨fun ⟨_, h⟩ => wellFormed_of_ofWorkflow h, ofWorkflow_of_wellFormed⟩

theorem exists_ofDocument : (∃ t, Tree.ofDocument d c = .ok t) ↔
    ∀ w ∈ d.workflows, w.WellFormed d c w.Shown := by
  have hmap : (∃ t, Tree.ofDocument d c = .ok t) ↔
      ∃ trees, d.workflows.mapM (ofWorkflow d c) = .ok trees := by
    simp only [Tree.ofDocument, bind_eq_ok, Except.ok.injEq]
    exact ⟨fun ⟨_, trees, h, _⟩ => ⟨trees, h⟩, fun ⟨trees, h⟩ => ⟨_, trees, h, rfl⟩⟩
  rw [hmap, exists_mapM_eq_ok]
  exact forall₂_congr fun w _ => exists_ofWorkflow

/-- Only the second entry for the branch of `a` leads to `e`, which has a branch that its opcode has
not. -/
def unseenBranch : Workflow :=
  ⟨"m", {}, [],
    [⟨"start", startOpcode, [], some "a", []⟩,
      ⟨"a", "pick", [], none, [("1", none), ("1", some "e")]⟩,
      ⟨"e", "pick", [], none, [("2", none)]⟩]⟩

end Tree

end BlockFlow
