import BlockFlow.Proofs.Tree.Containers
import BlockFlow.Proofs.Tree.Larger
import BlockFlow.Proofs.Tree.WellFormed

/-!
Workflows with one more orphan. Main statement: the tree is the old one with the orphan in its place,
and there is one exactly when no way down from the orphan repeats an id.
-/

namespace BlockFlow

open Relation Outcome InputExpr

namespace Workflow

variable {w w' : Workflow} {m n : NodeDef} {id x a b : String}

/-- The second workflow is the first with another node, under an id that is new. -/
structure Inserted (w : Workflow) (m : NodeDef) (w' : Workflow) : Prop where
  nodes : ∃ ns₁ ns₂, w.nodes = ns₁ ++ ns₂ ∧ w' = { w with nodes := ns₁ ++ m :: ns₂ }
  new : m.id ∉ w.nodeIds

namespace Inserted

variable (h : w.Inserted m w')

include h

theorem node?_of_ne (hne : id ≠ m.id) : w'.node? id = w.node? id := by
  obtain ⟨ns₁, ns₂, hns, rfl⟩ := h.nodes
  rw [node?, node?, hns, List.find?_append, List.find?_append,
    List.find?_cons_of_neg (by simpa using Ne.symm hne)]

theorem node?_new : w'.node? m.id = some m := by
  obtain ⟨⟨ns₁, ns₂, hns, rfl⟩, hnew⟩ := h
  have hnone : ns₁.find? (·.id = m.id) = none := by
    refine List.find?_eq_none.mpr fun k hk heq => hnew ?_
    exact mem_nodeIds.mpr ⟨k, hns ▸ List.mem_append_left _ hk, by simpa using heq⟩
  rw [node?, List.find?_append, hnone, Option.none_or, List.find?_cons_of_pos (by simp)]

theorem node?_of_node? (hn : w.node? id = some n) : w'.node? id = some n := by
  rw [h.node?_of_ne, hn]
  rintro rfl
  exact h.new (mem_nodeIds_of_node? hn)

theorem mem_nodes : n ∈ w'.nodes ↔ n = m ∨ n ∈ w.nodes := by
  obtain ⟨ns₁, ns₂, hns, rfl⟩ := h.nodes
  rw [hns]
  simp only [List.mem_append, List.mem_cons]
  tauto

theorem mem_nodeIds_iff : x ∈ w'.nodeIds ↔ x = m.id ∨ x ∈ w.nodeIds := by
  simp only [mem_nodeIds, h.mem_nodes]
  constructor
  · rintro ⟨n, rfl | hn, rfl⟩
    · exact .inl rfl
    · exact .inr ⟨n, hn, rfl⟩
  · rintro (rfl | ⟨n, hn, rfl⟩)
    · exact ⟨m, .inl rfl, rfl⟩
    · exact ⟨n, .inr hn, rfl⟩

/-- The start node stays the start. -/
theorem startNode? (hop : m.opcode ≠ startOpcode) (hid : m.id ≠ startId) :
    w'.startNode? = w.startNode? := by
  have hstart : w'.node? startId = w.node? startId := h.node?_of_ne hid.symm
  obtain ⟨ns₁, ns₂, hns, rfl⟩ := h.nodes
  rw [Workflow.startNode?, Workflow.startNode?, hstart, hns, List.find?_append, List.find?_append,
    List.find?_cons_of_neg (by simpa using hop)]

theorem startId? (hop : m.opcode ≠ startOpcode) (hid : m.id ≠ startId) :
    w'.startId? = w.startId? := by
  rw [Workflow.startId?, Workflow.startId?, h.startNode? hop hid]

end Inserted

/-- A node without pointers leads nowhere. -/
theorem Inserted.names_iff (h : w.Inserted m w') (hm : m.pointers = []) :
    w'.Names a b ↔ w.Names a b := by
  constructor
  · rintro ⟨n, hn, hid, slot, hslot⟩
    rcases h.mem_nodes.mp hn with rfl | hn
    · rw [hm] at hslot
      cases hslot
    · exact ⟨n, hn, hid, slot, hslot⟩
  · rintro ⟨n, hn, hid, slot, hslot⟩
    exact ⟨n, h.mem_nodes.mpr (.inr hn), hid, slot, hslot⟩

/-- A node of its own: it is no start node, and it has no pointers. -/
structure Isolated (m : NodeDef) : Prop where
  opcode : m.opcode ≠ startOpcode
  id : m.id ≠ BlockFlow.startId
  pointers : m.pointers = []

theorem Inserted.linked_iff (h : w.Inserted m w') (hm : Isolated m) : w'.Linked x ↔ w.Linked x := by
  have hnames : w'.Names = w.Names := by
    ext a b
    exact h.names_iff hm.pointers
  rw [Linked, Linked, h.startId? hm.opcode hm.id, hnames]

end Workflow

/-- The nodes that the chain needs are there. -/
theorem Workflow.Used.mem_nodeIds {d : Document} {c : Catalog} {w : Workflow} {x : String}
    (hx : w.Used x) (h : w.WellFormed d c w.Shown) : x ∈ w.nodeIds := by
  obtain ⟨a, ha, hax⟩ := hx
  rcases ReflTransGen.cases_tail hax with rfl | ⟨b, -, hbx⟩
  · exact ha.mem_nodeIds h.pointers
  · obtain ⟨n, hn⟩ := hbx.exists_node?
    exact (h.sound n (Workflow.shown_of_node? hn)).refs x ((Workflow.cites_iff hn).mp hbx)

namespace Tree

variable {d d' : Document} {c : Catalog} {w w' : Workflow} {m : NodeDef} {t : WorkflowTree}

open Workflow (Inserted Isolated)

/-- The trees of a workflow do not change when other workflows of the document do. -/
theorem within_document (h : ∀ name, (d.workflow? name).isSome → (d'.workflow? name).isSome)
    (w : Workflow) : (scopeOf d c w).Within (scopeOf d' c w) where
  catalog := rfl
  calls := h
  nodes _ n hn := ⟨n, hn, rfl⟩
  chain _ _ hnot := hnot
  size := le_rfl

theorem within_inserted (hi : w.Inserted m w') (hm : Isolated m)
    (hp : ∀ n ∈ w.nodes, ∀ p ∈ n.pointers, p.2 ∈ w.nodeIds)
    (hp' : ∀ n ∈ w'.nodes, ∀ p ∈ n.pointers, p.2 ∈ w'.nodeIds)
    (h : ∀ name, (d.workflow? name).isSome → (d'.workflow? name).isSome) :
    (scopeOf d c w).Within (scopeOf d' c w') where
  catalog := rfl
  calls := h
  nodes _ n hn := ⟨n, hi.node?_of_node? hn, rfl⟩
  chain x _ hnot hin := by
    rw [mem_scopeOf_chain hp'] at hin
    exact hnot ((mem_scopeOf_chain hp).mpr ((hi.linked_iff hm).mp hin))
  size := by
    obtain ⟨ns₁, ns₂, hns, rfl⟩ := hi.nodes
    simp [scopeOf, hns]

theorem room_start (w : Workflow) : Room (scopeOf d c w) w.nodes.length [] := room_all []

theorem ofWorkflow_document (h : ∀ name, (d.workflow? name).isSome → (d'.workflow? name).isSome)
    (ht : ofWorkflow d c w = .ok t) : ofWorkflow d' c w = .ok t := by
  obtain ⟨hp, hstart, σ, hrun⟩ := ofWorkflow_eq_ok.mp ht
  obtain ⟨nodes, τ, os, hnodes, hos, rfl⟩ := run_placeAll.mp hrun
  have hs := within_document (c := c) h w
  refine ofWorkflow_eq_ok.mpr ⟨hp, hstart, σ, run_placeAll.mpr ⟨nodes, τ, os, ?_, ?_, rfl⟩⟩
  · exact walkChain_alike hs hp le_rfl _ _ _ _ (fun _ => Workflow.mem_nodeIds_of_startId?)
      (room_start w) (fun _ _ => rfl) hnodes
  · exact orphans_within hs hos

/-- What the nodes of a well-formed workflow need they have among more nodes as well. -/
theorem sound_within {n n' : NodeDef} {id : String} (hs : (scopeOf d c w).Within (scopeOf d' c w'))
    (hwf : w.WellFormed d c w.Shown) (hn : w.node? id = some n) (hsame : n'.reporter = n.reporter) :
    n'.Sound d' c w' := by
  have hfound (b : String) (k : NodeDef) (hk : w.node? b = some k) : k.Sound d c w :=
    hwf.sound k (Workflow.shown_of_node? hk)
  have hplace : Placeable (scopeOf d c w) false n := placeable_of_sound (hfound id n hn) hfound (by simp)
  obtain ⟨t, σ, hrun⟩ := (exists_plainNode (σ := [])).mpr hplace
  exact (exists_plainNode.mp ⟨t, σ, plainNode_within hs hsame hrun⟩).sound

/-- The second tree is the first with another orphan. -/
def AddsOrphan (m : NodeDef) (t t' : WorkflowTree) : Prop :=
  ∃ os₁ os₂ o, t.orphans = os₁ ++ os₂ ∧ t' = { t with orphans := os₁ ++ o :: os₂ } ∧
    o.node.id = m.id ∧ o.node.opcode = m.opcode ∧ o.next = m.next

theorem ofWorkflow_inserted (hi : w.Inserted m w') (hm : Isolated m)
    (h : ∀ name, (d.workflow? name).isSome → (d'.workflow? name).isSome)
    (hne : w.nodes ≠ []) (ht : ofWorkflow d c w = .ok t) (hsound : m.Sound d' c w') :
    ∃ t', ofWorkflow d' c w' = .ok t' ∧ AddsOrphan m t t' := by
  have hwf := wellFormed_of_ofWorkflow ht
  obtain ⟨hp, hstart, σ, hrun⟩ := ofWorkflow_eq_ok.mp ht
  obtain ⟨nodes, τ, os, hnodes, hos, rfl⟩ := run_placeAll.mp hrun
  have hp' : ∀ n ∈ w'.nodes, ∀ p ∈ n.pointers, p.2 ∈ w'.nodeIds := by
    intro n hn p hpn
    rcases hi.mem_nodes.mp hn with rfl | hn
    · rw [hm.pointers] at hpn
      cases hpn
    · exact hi.mem_nodeIds_iff.mpr (.inr (hp n hn p hpn))
  have hs := within_inserted (c := c) hi hm hp hp' h
  have hstartId : w'.startId? = w.startId? := hi.startId? hm.opcode hm.id
  have hplace : Placeable (scopeOf d' c w') false m := by
    refine placeable_of_sound hsound (fun b n hn => ?_) (by simp)
    by_cases hb : b = m.id
    · subst hb
      obtain rfl : m = n := Option.some.inj (hi.node?_new.symm.trans hn)
      exact hsound
    · exact sound_within hs hwf (hi.node?_of_ne hb ▸ hn) rfl
  obtain ⟨node, υ, hnode⟩ := (exists_plainNode (σ := τ)).mpr hplace
  have hwalked := walked_ofWorkflow hp hnodes
  have hsame : ∀ x ∈ chainIds nodes, w'.node? x = w.node? x := by
    intro x hx
    refine hi.node?_of_ne ?_
    rintro rfl
    exact hi.new (((mem_walked hp hwalked).mp hx).mem_nodeIds hp)
  have hwalk : (walkChain (scopeOf d' c w') w'.nodes.length w.startId?).run [] = .ok (nodes, τ) :=
    walkChain_alike hs hp hs.size _ _ _ _ (fun _ => Workflow.mem_nodeIds_of_startId?) (room_start w)
      hsame hnodes
  have hnew : m.id ∉ τ := fun hmem => hi.new (((mem_placed hp hwalked).mp hmem).mem_nodeIds hwf)
  have hname : w'.name = w.name ∧ w'.interface = w.interface ∧ w'.vars = w.vars := by
    obtain ⟨ns₁, ns₂, -, rfl⟩ := hi.nodes
    exact ⟨rfl, rfl, rfl⟩
  obtain ⟨ns₁, ns₂, hns, hns'⟩ : ∃ ns₁ ns₂, w.nodes = ns₁ ++ ns₂ ∧ w'.nodes = ns₁ ++ m :: ns₂ := by
    obtain ⟨ns₁, ns₂, hns, rfl⟩ := hi.nodes
    exact ⟨ns₁, ns₂, hns, rfl⟩
  have hlisted : (orphans (scopeOf d c w) (ns₁ ++ ns₂)).run τ = .ok (os, σ) := hns ▸ hos
  obtain ⟨os₁, os₂, rfl, hos'⟩ := orphans_insert hs hlisted hnew hnode
  rw [← hns'] at hos'
  obtain ⟨spec, -, slots, -, rfl⟩ := run_plainNode.mp hnode
  refine ⟨_, ofWorkflow_eq_ok.mpr ⟨hp', ?_, σ, run_placeAll.mpr ⟨nodes, τ, _, ?_, hos', rfl⟩⟩,
    os₁, os₂, ⟨⟨m.id, m.opcode, spec.category, slots, []⟩, m.next⟩, rfl, ?_, rfl, rfl, rfl⟩
  · intro hnone
    rw [hstartId] at hnone
    exact absurd (hstart hnone) hne
  · rw [← hstartId] at hwalk
    exact hwalk
  · simp [scopeOf, hname]

/-- The second tree is the first with another tree of the workflow `name`. -/
def Changed (name : String) (R : WorkflowTree → WorkflowTree → Prop) (t t' : Tree) : Prop :=
  List.Forall₂ (fun m m' => if m.name = name then R m m' else m' = m) t.workflows t'.workflows

/-- Calls do not depend on what is in the workflows. -/
theorem isSome_workflow?_replace {ws₁ ws₂ : List Workflow} {name : String} (hname : w'.name = w.name)
    (h : (Document.workflow? ⟨ws₁ ++ w :: ws₂⟩ name).isSome) :
    (Document.workflow? ⟨ws₁ ++ w' :: ws₂⟩ name).isSome := by
  simpa [Document.workflow?, hname] using h

/-- A tree changes in one workflow when only that workflow does. -/
theorem ofDocument_changed {ws₁ ws₂ : List Workflow} {t : Tree}
    {R : WorkflowTree → WorkflowTree → Prop} (ht : ofDocument ⟨ws₁ ++ w :: ws₂⟩ c = .ok t)
    (hname : w'.name = w.name) (hne : ∀ v ∈ ws₁ ++ ws₂, v.name ≠ w.name)
    (hR : ∀ m, ofWorkflow ⟨ws₁ ++ w :: ws₂⟩ c w = .ok m →
      ∃ m', ofWorkflow ⟨ws₁ ++ w' :: ws₂⟩ c w' = .ok m' ∧ R m m') :
    ∃ t', ofDocument ⟨ws₁ ++ w' :: ws₂⟩ c = .ok t' ∧ t.Changed w.name R t' := by
  have hself {ws : List Workflow} {ts : List WorkflowTree} (hne : ∀ v ∈ ws, v.name ≠ w.name)
      (h : List.Forall₂ (fun v m => ofWorkflow ⟨ws₁ ++ w :: ws₂⟩ c v = .ok m) ws ts) :
      List.Forall₂ (fun v m => ofWorkflow ⟨ws₁ ++ w' :: ws₂⟩ c v = .ok m) ws ts ∧
        List.Forall₂ (fun m m' => if m.name = w.name then R m m' else m' = m) ts ts := by
    refine ⟨h.imp fun v m hm => ofWorkflow_document (fun _ => isSome_workflow?_replace hname) hm,
      List.forall₂_same.mpr fun m hm => ?_⟩
    obtain ⟨v, hv, hvm⟩ := exists_mem_of_forall₂ h.flip hm
    rw [if_neg (name_of_ofWorkflow hvm ▸ hne v hv)]
  obtain ⟨ts, hts, hok⟩ := bind_eq_ok.mp ht
  cases hok
  obtain ⟨ts₁, rest, rfl, h₁, hrest⟩ := exists_append_of_forall₂ (mapM_eq_ok.mp hts)
  cases hrest with
  | @cons _ m _ ts₂ hm h₂ =>
    rw [List.forall_mem_append] at hne
    obtain ⟨m', hm', hchange⟩ := hR m hm
    obtain ⟨hsame₁, hrel₁⟩ := hself hne.1 h₁
    obtain ⟨hsame₂, hrel₂⟩ := hself hne.2 h₂
    refine ⟨⟨ts₁ ++ m' :: ts₂⟩, bind_eq_ok.mpr ⟨_, ?_, rfl⟩, List.rel_append hrel₁ (.cons ?_ hrel₂)⟩
    · exact mapM_eq_ok.mpr (List.rel_append hsame₁ (.cons hm' hsame₂))
    · rw [if_pos (name_of_ofWorkflow hm)]
      exact hchange

end Tree

end BlockFlow
