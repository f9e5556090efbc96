import BlockFlow.Proofs.Layout.Links
import BlockFlow.Proofs.Layout.Placement

/-!
The drawing of a tree: a card for each node and a curve for each drawn pointer. Main statement: the
curves between cards of the chain are pointers of the workflow, they form a tree that spans the
chain from the start node, and each runs from the port of its pointer to the port of its target.
-/

namespace BlockFlow

open Relation Outcome
open BlockFlow.Tree (chainIds)

namespace Tree

section Branched

variable {s : Scope} {σ σ' : List String} {head : Option String} {nodes : List TreeNode}
  {n : NodeDef}

theorem branchesBranched_walkSlots {walk : Option String → Placing (List TreeNode)}
    (hw : ∀ head σ nodes σ', (walk head).run σ = .ok (nodes, σ') → Branched nodes)
    (slots : List String) (children : List (String × List TreeNode))
    (h : (walkSlots walk n slots).run σ = .ok (children, σ')) : BranchesBranched children := by
  induction slots generalizing σ children with
  | nil =>
    obtain ⟨rfl, -⟩ := run_walkSlots_nil.mp h
    rw [BranchesBranched]
    trivial
  | cons slot slots ih =>
    obtain ⟨nodes, τ, rest, hnodes, hrest, rfl⟩ := run_walkSlots_cons.mp h
    rw [BranchesBranched]
    exact ⟨hw _ _ _ _ hnodes, ih rest hrest⟩

theorem branched_walkChain (fuel : Nat) :
    (walkChain s fuel head).run σ = .ok (nodes, σ') → Branched nodes := by
  induction fuel generalizing head σ nodes σ' with
  | zero =>
    intro h
    cases head <;> obtain ⟨rfl, -⟩ := run_pure_eq_ok.mp h <;> rw [Branched] <;> trivial
  | succ fuel ih =>
    intro h
    cases head with
    | none =>
      obtain ⟨rfl, -⟩ := (run_walkChain_none _).mp h
      rw [Branched]
      trivial
    | some id =>
      rcases run_walkChain_some.mp h with ⟨-, rfl, -⟩ |
        ⟨-, n, hn, -, node, τ, children, υ, rest, hplain, hbranches, hrest, rfl⟩
      · rw [Branched]
        trivial
      · obtain ⟨spec, hspec, _, -, rfl⟩ := run_plainNode.mp hplain
        refine branched_cons.mpr ⟨fun hkind => ?_, ?_, ih hrest⟩
        · have hflow : ¬ s.catalog.isControlFlow n.opcode := by
            simpa [Catalog.isControlFlow, hspec, OpcodeSpec.isControlFlow] using hkind
          rw [NodeDef.walkedSlots, if_neg hflow] at hbranches
          exact (run_walkSlots_nil.mp hbranches).1
        · exact branchesBranched_walkSlots (fun _ _ _ _ => ih) _ _ hbranches

end Branched

/-- Orphans are nodes that were not placed, with their own pointers. -/
theorem mem_orphans {s : Scope} {σ σ' : List String} {nodes : List NodeDef} {os : List Orphan}
    (h : (orphans s nodes).run σ = .ok (os, σ')) :
    ∀ o ∈ os, o.node.id ∉ σ ∧ ∃ n ∈ nodes, n.id = o.node.id ∧ n.next = o.next := by
  induction nodes generalizing σ os with
  | nil =>
    obtain ⟨rfl, -⟩ := run_orphans_nil.mp h
    simp
  | cons n nodes ih =>
    rcases run_orphans_cons.mp h with ⟨-, h⟩ | ⟨hid, node, τ, more, hnode, hmore, rfl⟩
    · intro o ho
      obtain ⟨hnot, m, hm, hnode⟩ := ih h o ho
      exact ⟨hnot, m, List.mem_cons_of_mem _ hm, hnode⟩
    · have hsame := mem_of_orphan hnode
      obtain ⟨_, -, _, -, rfl⟩ := run_plainNode.mp hnode
      refine List.forall_mem_cons.mpr ⟨⟨hid, n, List.mem_cons_self .., rfl, rfl⟩, fun o ho => ?_⟩
      obtain ⟨hnot, m, hm, hnode⟩ := ih hmore o ho
      exact ⟨mt (hsame _).mpr hnot, m, List.mem_cons_of_mem _ hm, hnode⟩

/-- What the drawing of the tree of a workflow needs to know of it. -/
structure Shows (w : Workflow) (t : WorkflowTree) : Prop where
  name : t.name = w.name
  branched : Branched t.nodes
  follows : Follows w w.startId? t.nodes
  head : (chainIds t.nodes).head? = w.startId?
  once : (chainIds t.nodes).Nodup
  apart : ∀ o ∈ t.orphans, o.node.id ∉ chainIds t.nodes
  orphans : ∀ o ∈ t.orphans, ∃ n ∈ w.nodes, n.id = o.node.id ∧ n.next = o.next
  order : (t.orphanIds).Sublist w.nodeIds

theorem shows_ofWorkflow {d : Document} {c : Catalog} {w : Workflow} {t : WorkflowTree}
    (h : ofWorkflow d c w = .ok t) : Shows w t := by
  obtain ⟨hp, -, σ, hrun⟩ := ofWorkflow_eq_ok.mp h
  obtain ⟨nodes, τ, os, hnodes, hos, rfl⟩ := run_placeAll.mp hrun
  change (walkChain _ w.nodes.length w.startId?).run [] = _ at hnodes
  have hwalked := walked_ofWorkflow hp hnodes
  have horphans := mem_orphans hos
  refine ⟨rfl, branched_walkChain _ hnodes, follows_walkChain _ hnodes, head?_walked hnodes,
    hwalked.nodup, ?_, ?_, ?_⟩
  · exact fun o ho hmem => (horphans o ho).1 (hwalked.mem hmem)
  · exact fun o ho => (horphans o ho).2
  · have hids : os.map (·.node.id) = w.nodeIds.filter (· ∉ τ) := orphans_ids hos
    change (os.map (·.node.id)).Sublist w.nodeIds
    rw [hids]
    exact List.filter_sublist

end Tree

variable {α : Type} [Scalar α]

/-- What a card on the canvas shows of its node. -/
def NodeGeometry.label (n : NodeGeometry α) : String × Bool × List String :=
  (n.id, n.orphan, n.branchPorts.map (·.1))

theorem NodeGeometry.label_ofCard (m : LayoutConfig α) (shift : Point α) (card : Card α) :
    (NodeGeometry.ofCard m shift card).label = card.label := by
  have hports : (card.branches.zipIdx.map (·.1)) = card.branches := List.zipIdx_map_fst ..
  simp [label, ofCard, Card.label, Function.comp_def, hports]

/-- Where a pointer leaves a card. -/
def NodeGeometry.port? (n : NodeGeometry α) : LinkSlot → Option (Point α)
  | .next => some n.outputPort
  | .branch name => firstOf? name n.branchPorts

/-- What a connection shows of a pointer. -/
def Connection.link (k : Connection α) : String × LinkSlot × String := (k.source, k.slot, k.target)

theorem Curve.source_between (source target : Point α) (curvature greatest : α) :
    (Curve.between source target curvature greatest).source = source := by
  unfold Curve.between
  dsimp only
  split <;> rfl

theorem Curve.target_between (source target : Point α) (curvature greatest : α) :
    (Curve.between source target curvature greatest).target = target := by
  unfold Curve.between
  dsimp only
  split <;> rfl

section Connections

variable {m : LayoutConfig α} {nodes : List (NodeGeometry α)}
  {links : List (String × LinkSlot × String)} {k : Connection α}

omit [Scalar α] in
theorem find?_reverse_of_unique {a : NodeGeometry α} {x : String} (ha : a ∈ nodes) (hid : a.id = x)
    (hu : ∀ n ∈ nodes, n.id = x → n = a) : nodes.reverse.find? (·.id = x) = some a := by
  cases hfind : nodes.reverse.find? (·.id = x) with
  | none =>
    have hnone := List.find?_eq_none.mp hfind a (List.mem_reverse.mpr ha)
    simp [hid] at hnone
  | some n =>
    have hn := List.mem_reverse.mp (List.mem_of_find?_eq_some hfind)
    have hx := List.find?_some hfind
    rw [hu n hn (of_decide_eq_true hx)]

/-- Every drawn pointer between two cards gives a connection. -/
theorem links_connections : (connections m nodes links).map Connection.link =
    links.filter fun l => (nodes.reverse.find? (·.id = l.1)).isSome &&
      (nodes.reverse.find? (·.id = l.2.2)).isSome := by
  unfold connections
  rw [List.map_filterMap, ← List.filterMap_eq_filter]
  refine List.filterMap_congr fun l _ => ?_
  obtain ⟨source, slot, target⟩ := l
  dsimp only
  cases hsource : nodes.reverse.find? (·.id = source) with
  | none => simp [Option.guard, hsource]
  | some a =>
    cases htarget : nodes.reverse.find? (·.id = target) with
    | none => simp [Option.guard, htarget]
    | some b => simp [Option.guard, hsource, htarget, Connection.link]

theorem path_of_mem_connections (h : k ∈ connections m nodes links) : ∃ a b,
    nodes.reverse.find? (·.id = k.source) = some a ∧
    nodes.reverse.find? (·.id = k.target) = some b ∧
    k.path = Curve.between (a.exitOf k.slot) b.inputPort m.curvature m.maxCurveOffset := by
  obtain ⟨⟨source, slot, target⟩, -, hk⟩ := List.mem_filterMap.mp h
  simp only [Option.bind_eq_bind, Option.bind_eq_some_iff, Option.some.injEq] at hk
  obtain ⟨a, ha, b, hb, rfl⟩ := hk
  exact ⟨a, b, ha, hb, rfl⟩

end Connections

section Drawing

variable {m : LayoutConfig α} {o : LayoutOverrides α} {w : Workflow} {t : WorkflowTree} {top : α}

theorem labels_layout (m : LayoutConfig α) (o : LayoutOverrides α) (top : α)
    (h : Branched t.nodes) :
    (t.layout m o top).1.nodes.map NodeGeometry.label =
      t.chainNodes.map (TreeNode.label false) ++ t.orphans.map fun o => o.node.label true := by
  rw [WorkflowTree.nodes_layout, List.map_map, ← WorkflowTree.labels_baseCards m top h]
  exact List.map_congr_left fun card _ => NodeGeometry.label_ofCard m _ card

/-- A card that carries the id of a chain node shows that node. -/
theorem exists_card (m : LayoutConfig α) (o : LayoutOverrides α) (top : α) (h : Tree.Shows w t)
    {n : TreeNode} (hn : n ∈ t.chainNodes) :
    ∃ a ∈ (t.layout m o top).1.nodes, a.label = n.label false ∧
      (t.layout m o top).1.nodes.reverse.find? (·.id = n.id) = some a := by
  have hlabels := labels_layout m o top h.branched
  obtain ⟨chain, others, hnodes, hchain, hothers⟩ := List.map_eq_append_iff.mp hlabels
  obtain ⟨a, ha, hlabel⟩ : ∃ a ∈ chain, a.label = n.label false := by
    rw [← List.mem_map, hchain]
    exact List.mem_map_of_mem hn
  have hids : chain.map (·.id) = chainIds t.nodes := by
    have hmap := congrArg (List.map (·.1)) hchain
    rw [List.map_map, List.map_map] at hmap
    exact hmap
  have hid : a.id = n.id := congrArg (·.1) hlabel
  have hmem : a ∈ (t.layout m o top).1.nodes := hnodes ▸ List.mem_append_left _ ha
  refine ⟨a, hmem, hlabel, find?_reverse_of_unique hmem hid fun b hb hbid => ?_⟩
  rw [hnodes, List.mem_append] at hb
  rcases hb with hb | hb
  · have hinj := List.inj_on_of_nodup_map (hids ▸ h.once)
    exact hinj hb ha (hbid.trans hid.symm)
  · -- an orphan with this id would be in the chain
    obtain ⟨orphan, horphan, horphanLabel⟩ : ∃ x ∈ t.orphans, x.node.label true = b.label := by
      rw [← List.mem_map, ← hothers]
      exact List.mem_map_of_mem hb
    have horphanId : orphan.node.id = n.id := (congrArg (·.1) horphanLabel).trans hbid
    refine absurd ?_ (h.apart orphan horphan)
    rw [horphanId]
    exact List.mem_map_of_mem hn

/-- The connections that leave the chain are the pointers drawn within it, in the same order. -/
theorem links_chain (m : LayoutConfig α) (o : LayoutOverrides α) (top : α) (h : Tree.Shows w t) :
    ((t.layout m o top).1.connections.filter (·.source ∈ chainIds t.nodes)).map Connection.link =
      chainLinks t.nodes := by
  have hsource : (fun k : Connection α => decide (k.source ∈ chainIds t.nodes)) =
      (fun l : String × LinkSlot × String => decide (l.1 ∈ chainIds t.nodes)) ∘
        Connection.link := rfl
  rw [hsource, ← List.filter_map, WorkflowTree.connections_layout, links_connections,
    List.filter_filter, WorkflowTree.drawnLinks, List.filter_append]
  have hchain : ∀ l ∈ chainLinks t.nodes, (decide (l.1 ∈ chainIds t.nodes) &&
      ((t.layout m o top).1.nodes.reverse.find? (·.id = l.1)).isSome &&
        ((t.layout m o top).1.nodes.reverse.find? (·.id = l.2.2)).isSome) = true := by
    intro l hl
    obtain ⟨-, n, hn, hid, -⟩ := drawn_chainLinks h.follows (List.Subset.refl _) l hl
    have htarget : l.2.2 ∈ chainIds t.nodes := by
      refine List.mem_of_mem_tail ?_
      rw [← targets_chainLinks]
      exact List.mem_map_of_mem hl
    obtain ⟨n', hn', hid'⟩ := List.mem_map.mp htarget
    obtain ⟨a, -, -, ha⟩ := exists_card m o top h hn
    obtain ⟨b, -, -, hb⟩ := exists_card m o top h hn'
    have hmem : l.1 ∈ chainIds t.nodes := hid ▸ List.mem_map_of_mem hn
    rw [hid] at ha
    rw [hid'] at hb
    simp [hmem, ha, hb]
  have horphans : ∀ l ∈ t.orphans.filterMap fun o =>
      o.next.map fun target => (o.node.id, LinkSlot.next, target), l.1 ∉ chainIds t.nodes := by
    intro l hl
    obtain ⟨orphan, horphan, hnext⟩ := List.mem_filterMap.mp hl
    obtain ⟨target, -, rfl⟩ := Option.map_eq_some_iff.mp hnext
    exact h.apart orphan horphan
  rw [List.filter_eq_self.mpr ?_, List.filter_eq_nil_iff.mpr ?_, List.append_nil]
  · intro l hl
    simp [horphans l hl]
  · intro l hl
    simpa [Bool.and_assoc] using hchain l hl

theorem countP_targets (h : Tree.Shows w t) {x : String} (hx : x ∈ chainIds t.nodes) :
    ((t.layout m o top).1.connections.countP fun k => k.source ∈ chainIds t.nodes ∧ k.target = x) =
      if w.startId? = some x then 0 else 1 := by
  have htargets : ((t.layout m o top).1.connections.filter
      (·.source ∈ chainIds t.nodes)).map (·.target) = (chainIds t.nodes).tail := by
    rw [← targets_chainLinks, ← links_chain m o top h, List.map_map]
    rfl
  have hcount : ((t.layout m o top).1.connections.countP fun k =>
      k.source ∈ chainIds t.nodes ∧ k.target = x) = (chainIds t.nodes).tail.count x := by
    rw [← htargets, List.count, List.countP_map, List.countP_filter]
    refine List.countP_congr fun k _ => ?_
    simp [and_comm]
  rw [hcount, ← h.head]
  have honce := h.once
  cases hids : chainIds t.nodes with
  | nil => simp [hids] at hx
  | cons start rest =>
    rw [hids, List.nodup_cons] at honce
    rw [hids, List.mem_cons] at hx
    by_cases hstart : start = x
    · subst hstart
      simpa using List.count_eq_zero.mpr honce.1
    · simpa [hstart] using List.count_eq_one_of_mem honce.2 (hx.resolve_left (Ne.symm hstart))

/-- Each connection is a pointer of a node of the workflow. -/
theorem pointer_of_mem_connections (h : Tree.Shows w t) {k : Connection α}
    (hk : k ∈ (t.layout m o top).1.connections) :
    ∃ n ∈ w.nodes, n.id = k.source ∧ n.target? k.slot = some k.target := by
  have hlink : k.link ∈ (t.layout m o top).1.connections.map Connection.link :=
    List.mem_map_of_mem hk
  rw [WorkflowTree.connections_layout, links_connections] at hlink
  rcases List.mem_append.mp (List.mem_of_mem_filter hlink) with hlink | hlink
  · obtain ⟨hpointer, -⟩ := drawn_chainLinks h.follows (List.Subset.refl _) _ hlink
    obtain ⟨n, hn, htarget⟩ := Option.bind_eq_some_iff.mp hpointer
    exact ⟨n, Workflow.node?_mem hn, Workflow.node?_id hn, htarget⟩
  · obtain ⟨orphan, horphan, hnext⟩ := List.mem_filterMap.mp hlink
    obtain ⟨target, htarget, heq⟩ := Option.map_eq_some_iff.mp hnext
    obtain ⟨n, hn, hid, hsame⟩ := h.orphans orphan horphan
    cases k
    cases heq
    exact ⟨n, hn, hid, hsame.trans htarget⟩

/-- A connection out of the chain runs from the port of its pointer to the port of its target. -/
theorem ports_of_mem_connections (h : Tree.Shows w t) {k : Connection α}
    (hk : k ∈ (t.layout m o top).1.connections) (hsource : k.source ∈ chainIds t.nodes) :
    ∃ a ∈ (t.layout m o top).1.nodes, ∃ b ∈ (t.layout m o top).1.nodes,
      (a.id = k.source ∧ a.orphan = false) ∧ (b.id = k.target ∧ b.orphan = false) ∧
      a.port? k.slot = some k.path.source ∧ k.path.target = b.inputPort := by
  have hlink : k.link ∈ chainLinks t.nodes := by
    rw [← links_chain m o top h]
    exact List.mem_map_of_mem (List.mem_filter.mpr ⟨hk, decide_eq_true hsource⟩)
  have htarget : k.target ∈ chainIds t.nodes := by
    refine List.mem_of_mem_tail ?_
    rw [← targets_chainLinks]
    exact List.mem_map_of_mem (f := (·.2.2)) hlink
  obtain ⟨-, n, hn, hid, hbranch⟩ := drawn_chainLinks h.follows (List.Subset.refl _) _ hlink
  obtain ⟨n', hn', hid'⟩ := List.mem_map.mp htarget
  obtain ⟨a, ha, hlabel, hfind⟩ := exists_card m o top h hn
  obtain ⟨b, hb, hlabel', hfind'⟩ := exists_card m o top h hn'
  obtain ⟨a', b', ha', hb', hpath⟩ := path_of_mem_connections hk
  obtain rfl : a = a' := Option.some.inj (hfind.symm.trans (hid ▸ ha'))
  obtain rfl : b = b' := Option.some.inj (hfind'.symm.trans (hid' ▸ hb'))
  simp only [NodeGeometry.label, TreeNode.label, Prod.mk.injEq] at hlabel hlabel'
  obtain ⟨haid, haorphan, haports⟩ := hlabel
  obtain ⟨hbid, hborphan, -⟩ := hlabel'
  refine ⟨a, ha, b, hb, ⟨haid.trans hid, haorphan⟩, ⟨hbid.trans hid', hborphan⟩, ?_, ?_⟩
  · rw [hpath, Curve.source_between]
    cases hslot : k.slot with
    | next => rfl
    | branch name =>
      have hname : name ∈ a.branchPorts.map (·.1) := haports ▸ hbranch name hslot
      obtain ⟨port, hport⟩ := exists_firstOf? hname
      simp [NodeGeometry.port?, NodeGeometry.exitOf, hport]
  · rw [hpath, Curve.target_between]

end Drawing

/-- What the drawing of a workflow shows. The cards are those of the chain and then those of the
orphans, none twice. Connections are pointers; those out of the chain lead once to each node of the
chain but the start node, span the chain from there, and join the ports they belong to. -/
structure Draws (w : Workflow) (t : WorkflowTree) (g : WorkflowGeometry α) : Prop where
  name : t.name = w.name ∧ g.name = w.name
  cards : g.nodes.map (fun n => (n.id, n.orphan)) =
    t.chainNodes.map (fun n => (n.id, false)) ++ t.orphans.map fun o => (o.node.id, true)
  chainOnce : (t.chainNodes.map (·.id)).Nodup
  apart : ∀ id ∈ t.orphanIds, id ∉ t.chainNodes.map (·.id)
  once : w.nodeIds.Nodup → (g.nodes.map (·.id)).Nodup
  pointers : ∀ k ∈ g.connections,
    ∃ n ∈ w.nodes, n.id = k.source ∧ n.target? k.slot = some k.target
  incoming : ∀ id ∈ t.chainNodes.map (·.id),
    (g.connections.countP fun k => k.source ∈ t.chainNodes.map (·.id) ∧ k.target = id) =
      if w.startId? = some id then 0 else 1
  spans : ∀ id ∈ t.chainNodes.map (·.id), ∃ start, w.startId? = some start ∧
    ReflTransGen (fun a b => ∃ k ∈ g.connections, k.source = a ∧ k.target = b) start id
  ports : ∀ k ∈ g.connections, k.source ∈ t.chainNodes.map (·.id) →
    ∃ a ∈ g.nodes, ∃ b ∈ g.nodes, (a.id = k.source ∧ a.orphan = false) ∧
      (b.id = k.target ∧ b.orphan = false) ∧ a.port? k.slot = some k.path.source ∧
      k.path.target = b.inputPort

theorem draws_workflow {w : Workflow} {t : WorkflowTree} (m : LayoutConfig α)
    (o : LayoutOverrides α) (top : α) (h : Tree.Shows w t) : Draws w t (t.layout m o top).1 := by
  have hlabels := labels_layout m o top h.branched
  have hids : (t.layout m o top).1.nodes.map (·.id) =
      t.chainNodes.map (·.id) ++ t.orphans.map (·.node.id) := by
    have hmap := congrArg (List.map fun l => l.1) hlabels
    simpa [Function.comp_def, NodeGeometry.label, TreeNode.label] using hmap
  have hapart : ∀ id ∈ t.orphanIds, id ∉ chainIds t.nodes := by
    intro id hid
    obtain ⟨orphan, horphan, rfl⟩ := List.mem_map.mp hid
    exact h.apart orphan horphan
  refine ⟨⟨h.name, h.name⟩, ?_, h.once, hapart, fun hd => ?_, fun k hk => ?_, fun id hid => ?_,
    fun id hid => ?_, fun k hk hsource => ?_⟩
  · have hmap := congrArg (List.map fun l => (l.1, l.2.1)) hlabels
    simpa [Function.comp_def, NodeGeometry.label, TreeNode.label] using hmap
  · rw [hids]
    refine List.nodup_append.mpr ⟨h.once, hd.sublist h.order, fun a ha b hb => ?_⟩
    rintro rfl
    exact hapart a hb ha
  · exact pointer_of_mem_connections h hk
  · exact countP_targets h hid
  · obtain ⟨start, hstart⟩ : ∃ start, (chainIds t.nodes).head? = some start :=
      Option.isSome_iff_exists.mp (List.isSome_head?.mpr (List.ne_nil_of_mem hid))
    refine ⟨start, h.head.symm.trans hstart, ?_⟩
    have hspans := spans_chainLinks hstart (List.Subset.refl _) id hid
    refine ReflTransGen.mono (fun a b hjoins => ?_) _ _ hspans
    obtain ⟨slot, hlink⟩ := hjoins
    rw [← links_chain m o top h] at hlink
    obtain ⟨k, hk, heq⟩ := List.mem_map.mp hlink
    cases heq
    exact ⟨k, List.mem_of_mem_filter hk, rfl, rfl⟩
  · exact ports_of_mem_connections h hk hsource

theorem length_layoutFrom {m : LayoutConfig α} {o : LayoutOverrides α} {top : α}
    (ts : List WorkflowTree) : (layoutFrom m o top ts).length = ts.length := by
  induction ts generalizing top with
  | nil => rfl
  | cons t rest ih => rw [layoutFrom_cons, List.length_cons, ih, List.length_cons]

/-- Where a group starts does not matter for what it shows. -/
theorem draws_layoutFrom {m : LayoutConfig α} {o : LayoutOverrides α} {ws : List Workflow}
    {ts : List WorkflowTree} (h : List.Forall₂ Tree.Shows ws ts) (top : α) :
    List.Forall₂ (fun w p => Draws w p.1 p.2) ws (ts.zip (layoutFrom m o top ts)) := by
  induction h generalizing top with
  | nil => exact .nil
  | cons hshows _ ih =>
    rw [layoutFrom_cons, List.zip_cons_cons]
    exact .cons (draws_workflow m o top hshows) (ih _)

/-- The geometry of a tree draws each workflow of the document. -/
theorem draws_ofDocument (d : Document) (c : Catalog) (t : Tree) (h : Tree.ofDocument d c = .ok t)
    (m : LayoutConfig α) (o : LayoutOverrides α) :
    (t.layout m o).workflows.length = t.workflows.length ∧
      List.Forall₂ (fun w p => Draws w p.1 p.2) d.workflows
        (t.workflows.zip (t.layout m o).workflows) := by
  unfold Tree.ofDocument at h
  obtain ⟨trees, htrees, hok⟩ := bind_eq_ok.mp h
  cases hok
  have hshows := (mapM_eq_ok.mp htrees).imp fun _ _ => Tree.shows_ofWorkflow
  exact ⟨length_layoutFrom trees, draws_layoutFrom hshows _⟩

/-- The first entry for the branch is drawn, and what only the second leads to is an orphan. -/
theorem draws_twiceListed : ∃ t, Tree.ofDocument ⟨[Tree.twiceListed]⟩ Tree.pickCatalog = .ok t ∧
    (t.layout .standard { workflows := [("m", ⟨10.0, 5.0⟩)] }).workflows.length =
      t.workflows.length ∧
    List.Forall₂ (fun w p => Draws w p.1 p.2) [Tree.twiceListed]
      (t.workflows.zip (t.layout .standard { workflows := [("m", ⟨10.0, 5.0⟩)] }).workflows) :=
  ⟨_, rfl, draws_ofDocument ⟨[Tree.twiceListed]⟩ Tree.pickCatalog _ rfl .standard
    { workflows := [("m", ⟨10.0, 5.0⟩)] }⟩

end BlockFlow
