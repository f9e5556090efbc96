import BlockFlow.Catalog.Builtin
import BlockFlow.Proofs.Tree.Values
import BlockFlow.Proofs.Tree.WellFormed

/-!
Which reporters share an id with a node of the chain. Main statement: those of referenced nodes never
do, and a reporter written in place does when it is given, or made up for it, the id of another node.
-/

namespace BlockFlow

open Relation Outcome

namespace Tree

/-- The reporters of the chain of a workflow: nodes that references lead to, which are not in the
chain, and reporters written in place in nodes of the chain or in such nodes. -/
structure ReportersApart (w : Workflow) (t : WorkflowTree) : Prop where
  listed : ∀ n ∈ t.chainNodes, ∀ id, id ∈ Resolved.reporterIdsIn n.inputs ↔
    TransGen w.Cites n.id id ∨ ∃ a, ReflTransGen w.Cites n.id a ∧ w.PutsInPlace a id
  referenced : ∀ n ∈ t.chainNodes, ∀ id, TransGen w.Cites n.id id → id ∉ t.chainNodes.map (·.id)
  own : ∀ n ∈ t.chainNodes, n.id ∉ Resolved.reporterIdsIn n.inputs
  apart : (∀ n ∈ t.chainNodes, ∀ id ∈ Resolved.reporterIdsIn n.inputs,
      id ∉ t.chainNodes.map (·.id)) ↔
    ∀ a, w.Used a → ∀ id, w.PutsInPlace a id → id ∉ t.chainNodes.map (·.id)

section OfWorkflow

variable {d : Document} {c : Catalog} {w : Workflow} {t : WorkflowTree} {n : TreeNode}

theorem mem_reporterIdsIn_of_showsNode (h : ShowsNode w n) (id : String) :
    id ∈ Resolved.reporterIdsIn n.inputs ↔
      TransGen w.Cites n.id id ∨ ∃ a, ReflTransGen w.Cites n.id a ∧ w.PutsInPlace a id := by
  obtain ⟨m, hm, -, hinputs⟩ := h
  have hcites (b : String) : b ∈ InputExpr.nodeRefsIn m.inputs ↔ w.Cites n.id b :=
    (Workflow.cites_iff hm).symm
  have hputs : id ∈ InputExpr.placedIdsIn m.id m.inputs ↔ w.PutsInPlace n.id id := by
    simp [Workflow.PutsInPlace, hm]
  rw [hinputs.mem_reporterIds, hputs]
  constructor
  · intro h
    rcases h with hputs | ⟨b, hb, a, hway, rfl | hputs⟩
    · exact .inr ⟨n.id, .refl, hputs⟩
    · exact .inl (.head' ((hcites b).mp hb) hway)
    · exact .inr ⟨a, .head ((hcites b).mp hb) hway, hputs⟩
  · intro h
    rcases h with hway | ⟨a, hway, hputs⟩
    · obtain ⟨b, hb, hway⟩ := TransGen.head'_iff.mp hway
      exact .inr ⟨b, (hcites b).mpr hb, id, hway, .inl rfl⟩
    · rcases ReflTransGen.cases_head hway with rfl | ⟨b, hb, hway⟩
      · exact .inl hputs
      · exact .inr ⟨b, (hcites b).mpr hb, a, hway, .inr hputs⟩

theorem reportersApart_ofWorkflow (h : ofWorkflow d c w = .ok t) : ReportersApart w t := by
  have hwell := wellFormed_of_ofWorkflow h
  have hshows := showsNode_of_mem_chainNodes h
  have hlisted (n : TreeNode) (hn : n ∈ t.chainNodes) (id : String) :=
    mem_reporterIdsIn_of_showsNode (hshows n hn) id
  have hreached (n : TreeNode) (hn : n ∈ t.chainNodes) : w.Reached n.id :=
    (mem_chainNodes h).mp (List.mem_map_of_mem hn)
  have hreferenced : ∀ n ∈ t.chainNodes, ∀ id, TransGen w.Cites n.id id →
      id ∉ t.chainNodes.map (·.id) := by
    intro n hn id hway hmem
    obtain ⟨b, hb, hway⟩ := TransGen.head'_iff.mp hway
    have hused : w.Used n.id := ⟨n.id, hreached n hn, .refl⟩
    exact not_linked_of_cites hwell.apart hused hb hway ((mem_chainNodes h).mp hmem).linked
  refine ⟨hlisted, hreferenced, ?_, ?_⟩
  · intro n hn hmem
    obtain ⟨m, hm, -, hinputs⟩ := hshows n hn
    obtain ⟨r, hr, s, hway, hs⟩ := hinputs.exists_uses hmem
    have hacyclic := (hwell.sound m (Workflow.shown_of_node? hm)).acyclic
    have hway : TransGen w.Uses m.reporter s := .head' hr hway
    exact hacyclic.id_ne hway (hs.trans (Workflow.node?_id hm).symm)
  · constructor
    · intro hall a ha id hputs hmem
      obtain ⟨z, hz, hza⟩ := ha
      obtain ⟨n, hn, rfl⟩ := List.mem_map.mp ((mem_chainNodes h).mpr hz)
      exact hall n hn id ((hlisted n hn id).mpr (.inr ⟨a, hza, hputs⟩)) hmem
    · intro hall n hn id hid
      rcases (hlisted n hn id).mp hid with hway | ⟨a, hway, hputs⟩
      · exact hreferenced n hn id hway
      · exact hall a ⟨n.id, hreached n hn, hway⟩ id hputs

end OfWorkflow

/-- The trees of some characters whose chains share an id with one of their reporters. -/
def sharesId (c : Catalog) (cs : List Char) : Bool :=
  ((Document.ofChars cs).bind fun d => Tree.ofDocument d c).toOption.any fun t =>
    t.workflows.any fun m => m.chainNodes.any fun n =>
      (Resolved.reporterIdsIn n.inputs).any (m.chainNodes.map (·.id)).contains

theorem exists_parse_of_sharesId {c : Catalog} {text : String} {cs : List Char}
    (htext : text = String.ofList cs) (h : sharesId c cs) : ∃ t, Tree.parse c text = .ok t ∧
      ∃ m ∈ t.workflows, ∃ n ∈ m.chainNodes, ∃ id ∈ Resolved.reporterIdsIn n.inputs,
        id ∈ m.chainNodes.map (·.id) := by
  obtain ⟨t, ht, hshares⟩ := (Option.any_eq_true _ _).mp h
  rw [toOption_eq_some] at ht
  refine ⟨t, ?_, by simpa only [List.any_eq_true, List.contains_iff_mem] using hshares⟩
  rw [Tree.parse, Document.load, htext, String.toList_ofList]
  exact ht

/-- The reporter in place in `p` has the id of the node behind `p`. -/
def namesake : String :=
  "workflows:
  - name: m
    nodes:
      start: {opcode: workflow_start, next: p}
      p:
        opcode: io_print
        inputs: {STRING: {opcode: io_input, id: q}}
        next: q
      q: {opcode: io_print}
"

/-- In the trees of a text, a reporter of the chain has the id of a chain node only where it is
written in place. -/
theorem reportersApart_of_parse (c : Catalog) (text : String) (t : Tree)
    (h : Tree.parse c text = .ok t) : ∃ d, Document.load text = .ok d ∧
      List.Forall₂ ReportersApart d.workflows t.workflows := by
  obtain ⟨d, hd, ht⟩ := bind_eq_ok.mp h
  obtain ⟨trees, htrees, hok⟩ := bind_eq_ok.mp ht
  cases hok
  exact ⟨d, hd, (mapM_eq_ok.mp htrees).imp fun _ _ => reportersApart_ofWorkflow⟩

set_option maxRecDepth 2000 in
theorem namesake_reportersApart : ∃ (t : Tree) (d : Document),
    Tree.parse Catalog.builtin namesake = .ok t ∧ Document.load namesake = .ok d ∧
      List.Forall₂ ReportersApart d.workflows t.workflows := by
  obtain ⟨cs, htext, hshares⟩ : ∃ cs, namesake = String.ofList cs ∧
      sharesId Catalog.builtin cs := ⟨_, rfl, by decide +kernel⟩
  obtain ⟨t, ht, -⟩ := exists_parse_of_sharesId htext hshares
  obtain ⟨d, hd, hall⟩ := reportersApart_of_parse Catalog.builtin namesake t ht
  exact ⟨t, d, ht, hd, hall⟩

set_option maxRecDepth 2000 in
/-- A reporter written in place may have the id of a chain node. -/
theorem reporter_id_in_chain : ¬ ∀ (text : String) (t : Tree),
    Tree.parse Catalog.builtin text = .ok t → ∀ m ∈ t.workflows, ∀ n ∈ m.chainNodes,
      ∀ id ∈ Resolved.reporterIdsIn n.inputs, id ∉ m.chainNodes.map (·.id) := by
  intro h
  obtain ⟨cs, htext, hshares⟩ : ∃ cs, namesake = String.ofList cs ∧
      sharesId Catalog.builtin cs := ⟨_, rfl, by decide +kernel⟩
  obtain ⟨t, ht, m, hm, n, hn, id, hid, hmem⟩ := exists_parse_of_sharesId htext hshares
  exact h namesake t ht m hm n hn id hid hmem

end Tree

end BlockFlow
