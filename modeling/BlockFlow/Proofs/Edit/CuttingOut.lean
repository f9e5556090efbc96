import BlockFlow.Proofs.Edit.Bridging
import BlockFlow.Proofs.Edit.Deleting

/-!
Deleting nodes in texts in block style. Main statement: what the deletion takes out of the workflow is
known, and it cuts out the node and no more exactly when the tree separates it from the rest.
-/

namespace BlockFlow

open Outcome InputExpr

namespace Workflow

/-- The tree separates a node from the rest: of the chain nodes it takes along what is shown in its
branches, and where something that stays leads to it, what comes behind it stays. -/
structure Separates (t : WorkflowTree) (w : Workflow) (g : LinkGraph) (id : String) : Prop where
  chain : ∀ n ∈ t.chainNodes, n.id ≠ id → (w.TakesAlong g id n.id ↔
    ∃ m, t.find? id = some m ∧ n.id ∈ m.subtree.map (·.id))
  successor : ∀ a slot next, w.pointer? a slot = some id → a ∉ w.removalSet g [id] →
    w.pointer? id .next = some next → next ≠ id ∧ ¬ w.TakesAlong g id next

theorem mem_removalSet_self {w : Workflow} {g : LinkGraph} {id : String}
    (hg : LinkGraph.build w = .ok g) (hid : id ∈ w.nodeIds) : id ∈ w.removalSet g [id] :=
  (mem_removalSet hg).mpr ⟨hid, .inl (List.mem_singleton_self id)⟩

/-- Checks on the nodes that go whether the tree separates a node from the rest. -/
def separates (t : WorkflowTree) (w : Workflow) (g : LinkGraph) (id : String) : Bool :=
  let gone := w.removalSet g [id]
  (t.chainNodes.all fun n => n.id ≠ id → (gone.contains n.id =
    (t.find? id).any fun m => (m.subtree.map (·.id)).contains n.id)) &&
  w.nodes.all fun n => gone.contains n.id || n.pointers.all fun p => p.2 ≠ id ||
    (w.pointer? id .next).all fun next => !gone.contains next

theorem separates_of_check {t : WorkflowTree} {w : Workflow} {g : LinkGraph} {id : String}
    (hg : LinkGraph.build w = .ok g) (hid : id ∈ w.nodeIds)
    (hchain : ∀ n ∈ t.chainNodes, n.id ∈ w.nodeIds) (h : w.separates t g id) :
    w.Separates t g id := by
  obtain ⟨hpointers, -⟩ := LinkGraph.build_eq_ok.mp hg
  simp only [separates, Bool.and_eq_true, List.all_eq_true, decide_eq_true_eq] at h
  refine ⟨fun n hn hne => ?_, fun a slot next ha hkept hnext => ?_⟩
  · rw [← mem_removalSet_singleton hg (hchain n hn) hne]
    have hsame := h.1 n hn hne
    rw [Bool.eq_iff_iff] at hsame
    simpa [Option.any_eq_true] using hsame
  · obtain ⟨n, hn, htarget⟩ := Option.bind_eq_some_iff.mp ha
    obtain rfl := node?_id hn
    have hstays := h.2 n (node?_mem hn)
    simp only [Bool.or_eq_true, List.all_eq_true, decide_eq_true_eq, hnext, Option.all_some,
      Bool.not_eq_true', List.contains_eq_mem, decide_eq_false_iff_not, hkept, false_or] at hstays
    have hgone := (hstays _ (NodeDef.mem_pointers_of_target? htarget)).resolve_left (not_not.mpr rfl)
    have hmem : next ∈ w.nodeIds := Leads.mem_nodeIds hpointers ⟨.next, hnext⟩
    have hne : next ≠ id := by
      intro heq
      rw [heq] at hgone
      exact hgone (mem_removalSet_self hg hid)
    exact ⟨hne, fun htakes => hgone ((mem_removalSet_singleton hg hmem hne).mpr htakes)⟩

namespace Bridged

variable {w w' : Workflow} {gone : List String} {root a : String} {next : Option String}
  {slot : LinkSlot}

theorem mem_nodeIds (h : Bridged gone root next w w') :
    a ∈ w'.nodeIds ↔ a ∈ w.nodeIds ∧ a ∉ gone := mem_nodeIds_of_kept h.nodes fun _ _ hn => hn.id

/-- A pointer of a node that stays. -/
theorem pointer? {t : String} (h : Bridged gone root next w w') (ha : a ∉ gone)
    (ht : w.pointer? a slot = some t) :
    w'.pointer? a slot = bridge gone root next (some t) := by
  obtain ⟨n, hn, ht⟩ := Option.bind_eq_some_iff.mp ht
  obtain ⟨n', hn', hnode⟩ := exists_node?_of_kept h.nodes (fun _ _ hn => hn.id) ha hn
  rw [Workflow.pointer?, hn', Option.bind_some, hnode.target?, ht]

theorem exists_node (h : Bridged gone root next w w') {n' : NodeDef} (hn' : n' ∈ w'.nodes) :
    ∃ n ∈ w.nodes, n.id ∉ gone ∧ NodeDef.Bridged gone root next n n' := exists_mem_of_kept h.nodes hn'

end Bridged

section Separates

variable {t : WorkflowTree} {w w' : Workflow} {g : LinkGraph} {id : String}
  (hg : LinkGraph.build w = .ok g) (hid : id ∈ w.nodeIds)
  (h : w.Bridged (w.removalSet g [id]) id (w.pointer? id .next) w')

include hg hid h

/-- Where the tree separates a node, nothing that stays is pointed at what goes. -/
theorem Separates.closed (hs : w.Separates t g id)
    (hbranches : ∀ n ∈ w'.nodes, n.branchNames.Nodup)
    (hrefs : ∀ n ∈ w.nodes, ∀ r ∈ nodeRefsIn n.inputs, r ∈ w.nodeIds)
    (hd : w.nodeIds.Nodup) : w'.Closed := by
  obtain ⟨hpointers, -⟩ := LinkGraph.build_eq_ok.mp hg
  constructor
  · intro n' hn' p hp
    obtain ⟨n, hn, hkept, hnode⟩ := h.exists_node hn'
    have htarget := NodeDef.target?_of_mem_pointers (hbranches n' hn') hp
    rw [hnode.target?] at htarget
    cases hold : n.target? p.1 with
    | none =>
      rw [hold] at htarget
      cases htarget
    | some x =>
      rw [hold, bridge] at htarget
      split at htarget
      · split at htarget
        · rename_i hx
          subst hx
          have hpointer : w.pointer? n.id p.1 = some x := by
            rw [pointer?, node?_eq_some hd hn, Option.bind_some, hold]
          obtain ⟨hne, hstays⟩ := hs.successor n.id p.1 p.2 hpointer hkept htarget
          have hmem : p.2 ∈ w.nodeIds := Leads.mem_nodeIds hpointers ⟨.next, htarget⟩
          exact h.mem_nodeIds.mpr ⟨hmem, fun hgone =>
            hstays ((mem_removalSet_singleton hg hmem hne).mp hgone)⟩
        · cases htarget
      · rename_i hx
        cases htarget
        exact h.mem_nodeIds.mpr
          ⟨hpointers n hn _ (NodeDef.mem_pointers_of_target? hold), hx⟩
  · intro n' hn' r hr
    obtain ⟨n, hn, -, hnode⟩ := h.exists_node hn'
    rw [ResetIn.nodeRefsIn _ _ _ hnode.inputs] at hr
    obtain ⟨hr, hkept⟩ := List.mem_filter.mp hr
    exact h.mem_nodeIds.mpr ⟨hrefs n hn r hr, by simpa using hkept⟩

theorem Separates.chain_iff (hchain : ∀ n ∈ t.chainNodes, n.id ∈ w.nodeIds) :
    (∀ n ∈ t.chainNodes, n.id ∉ w'.nodeIds ↔
      n.id = id ∨ ∃ m, t.find? id = some m ∧ n.id ∈ m.subtree.map (·.id)) ↔
    ∀ n ∈ t.chainNodes, n.id ≠ id → (w.TakesAlong g id n.id ↔
      ∃ m, t.find? id = some m ∧ n.id ∈ m.subtree.map (·.id)) := by
  refine forall₂_congr fun n hn => ?_
  have hmem := hchain n hn
  by_cases hne : n.id = id
  · have hself := mem_removalSet_self hg hid
    simp [h.mem_nodeIds, hne, hself]
  · simp only [h.mem_nodeIds, hmem, true_and, not_not, hne, false_or, ne_eq, not_false_eq_true,
      forall_const, mem_removalSet_singleton hg hmem hne]

/-- A node is cut out, and no more, exactly where the tree separates it from the rest. -/
theorem cutsOut_iff (hchain : ∀ n ∈ t.chainNodes, n.id ∈ w.nodeIds)
    (hbranches : ∀ n ∈ w'.nodes, n.branchNames.Nodup)
    (hrefs : ∀ n ∈ w.nodes, ∀ r ∈ nodeRefsIn n.inputs, r ∈ w.nodeIds)
    (hd : w.nodeIds.Nodup) : w.CutsOut t w' id ↔ w.Separates t g id := by
  obtain ⟨hpointers, -⟩ := LinkGraph.build_eq_ok.mp hg
  have hself := mem_removalSet_self hg hid
  have hstays (next : String) (hnext : w.pointer? id .next = some next) :
      next ∈ w'.nodeIds ↔ next ≠ id ∧ ¬ w.TakesAlong g id next := by
    have hmem : next ∈ w.nodeIds := Leads.mem_nodeIds hpointers ⟨.next, hnext⟩
    rw [h.mem_nodeIds, and_iff_right hmem]
    by_cases hne : next = id
    · simp [hne, hself]
    · rw [mem_removalSet_singleton hg hmem hne, and_iff_right hne]
  have hmember (a : String) (slot : LinkSlot) (ha : w.pointer? a slot = some id) :
      a ∈ w'.nodeIds ↔ a ∉ w.removalSet g [id] := by
    obtain ⟨n, hn, -⟩ := Option.bind_eq_some_iff.mp ha
    rw [h.mem_nodeIds, and_iff_right (mem_nodeIds_of_node? hn)]
  constructor
  · intro hcuts
    refine ⟨(Separates.chain_iff hg hid h hchain).mp hcuts.chain, fun a slot next ha hkept hnext => ?_⟩
    obtain ⟨-, hsuccessor⟩ := hcuts.bridged a slot ha ((hmember a slot ha).mpr hkept)
    exact (hstays next hnext).mp (hsuccessor next hnext)
  · intro hs
    refine ⟨hs.closed hg hid h hbranches hrefs hd, (Separates.chain_iff hg hid h hchain).mpr hs.chain,
      fun a slot ha hkept => ?_⟩
    have hkept := (hmember a slot ha).mp hkept
    refine ⟨?_, fun next hnext => (hstays next hnext).mpr (hs.successor a slot next ha hkept hnext)⟩
    rw [h.pointer? hkept ha, bridge, if_pos hself, if_pos rfl]

end Separates

end Workflow

namespace Edit

/-- Deleting a node of a text in block style takes out what goes along with it, bridges what led to it
and resets what referenced it. This cuts out the node, and no more, exactly where the tree separates
it from the rest. -/
theorem cutsOut_of_apply (c : Catalog) (F : Form) (t : Tree) (d : Document) (w : Workflow)
    (m : WorkflowTree) (name id : String) (r : Edited) (hF : F.isDocument) (hcalls : F.callsPlain)
    (ht : Tree.parse c (String.ofList F.chars) = .ok t)
    (hd : Document.load (String.ofList F.chars) = .ok d) (hw : d.workflow? name = some w)
    (hm : t.workflow? name = some m)
    (hr : (Edit.deleteNode name id).apply c (String.ofList F.chars) = .ok r) :
    ∃ (g : LinkGraph) (F' : Form) (d' : Document) (w' : Workflow), LinkGraph.build w = .ok g ∧
      F'.isDocument ∧ r.text = String.ofList F'.chars ∧ Document.load r.text = .ok d' ∧
      d'.workflow? name = some w' ∧
      Document.Changed name (Workflow.Bridged (w.removalSet g [id]) id (w.pointer? id .next)) d d' ∧
      (w.CutsOut m w' id ↔ w.Separates m g id) := by
  obtain ⟨d₀, after, made, -, hd₀, hrun, -, -⟩ := exists_run hr
  obtain rfl : d = d₀ := Except.ok.inj (hd.symm.trans hd₀)
  obtain rfl : w.name = name := by simpa using List.find?_some hw
  obtain ⟨n, g, -, -, hn, hg, -⟩ := Draft.steps_of_deleteNode (run_changed hrun) hw
  have hnext : w.pointer? id .next = n.next := by
    rw [Workflow.pointer?, hn]
    rfl
  have hid := Workflow.mem_nodeIds_of_node? hn
  obtain ⟨F', d', hF', htext, hd', hchange⟩ := exists_changed (R := Workflow.Bridged
    (w.removalSet g [id]) id (w.pointer? id .next)) hF hd hw
    (List.ne_nil_of_mem (Workflow.node?_mem hn)) hr
    fun S ws₁ ws₂ es after made hhosts hes hplain hrun => by
      obtain ⟨n', g', es', ns', hn', hg', hfill, hes', hbridged⟩ :=
        hhosts.bridged_of_deleteNode hes (hplain hcalls) hw rfl (run_changed hrun)
      obtain rfl : n = n' := Option.some.inj (hn.symm.trans hn')
      obtain rfl : g = g' := Except.ok.inj (hg.symm.trans hg')
      rw [hnext]
      exact ⟨es', ns', hfill, hes', hbridged⟩
  obtain ⟨w', hw', hbridged⟩ := hchange.exists_workflow? (fun _ _ h => h.name) hw
  refine ⟨g, F', d', w', hg, hF', htext, hd', hw', hchange, ?_⟩
  have hwell := (Tree.exists_parse hd).mp ⟨t, ht⟩ w (List.mem_of_find?_eq_some hw)
  rw [Tree.parse_eq_ofDocument hd] at ht
  obtain ⟨m', hm', htree⟩ := Tree.exists_workflow? ht hw
  obtain rfl : m = m' := Option.some.inj (hm.symm.trans hm')
  obtain ⟨hids, -⟩ := Scene.nodup_of_isDocument hF hd hw
  rw [htext] at hd'
  obtain ⟨-, hbranches⟩ := Scene.nodup_of_isDocument hF' hd' hw'
  refine Workflow.cutsOut_iff hg hid hbridged (fun k hk => ?_) hbranches (fun k hk => ?_) hids
  · exact ((Tree.mem_chainNodes htree).mp (List.mem_map_of_mem hk)).mem_nodeIds hwell.pointers
  · exact (hwell.sound k ((Workflow.shown_iff hids).mpr hk)).refs

/-- The condition `a`, with `t` in a branch of it and `z` behind it; `o` uses what goes along. -/
def used : Form :=
  let word (s : String) : Form := .leaf (.plain s.toList)
  .map [("workflows", .seq [.map [("name", word "m"), ("nodes", .map [
    ("start", .map [("opcode", word "workflow_start"), ("next", word "a")]),
    ("a", .map [("opcode", word "control_if"), ("branches", .map [("THEN", word "t")]),
      ("next", word "z")]),
    ("t", .map [("opcode", word "io_print")]),
    ("z", .map [("opcode", word "io_print")]),
    ("o", .map [("opcode", word "io_print"), ("inputs", .map [
      ("STRING", .map [("node", word "t")])])])])]])]

set_option maxRecDepth 2000 in
theorem used_cutsOut : ∃ (t : Tree) (d d' : Document) (w w' : Workflow) (m : WorkflowTree)
    (r : Edited), Tree.parse Catalog.builtin (String.ofList used.chars) = .ok t ∧
    Document.load (String.ofList used.chars) = .ok d ∧ d.workflow? "m" = some w ∧
    t.workflow? "m" = some m ∧
    (Edit.deleteNode "m" "a").apply Catalog.builtin (String.ofList used.chars) = .ok r ∧
    Document.load r.text = .ok d' ∧ d'.workflow? "m" = some w' ∧ w.CutsOut m w' "a" := by
  have hF : used.isDocument := by decide +kernel
  have hcalls : used.callsPlain := by decide +kernel
  have hcheck : (documents? Catalog.builtin (.deleteNode "m" "a") used.chars).any fun p =>
      (Tree.ofDocument p.1 Catalog.builtin).toOption.any fun t => (t.workflow? "m").any fun m =>
        (p.1.workflow? "m").any fun w => w.nodeIds.contains "a" &&
          (LinkGraph.build w).toOption.any fun g => w.separates m g "a" := by decide +kernel
  obtain ⟨d, r, _, hd, hr, -, hdocs⟩ := exists_apply rfl hcheck
  simp only [Option.any_eq_true, toOption_eq_some, Bool.and_eq_true, List.contains_eq_mem,
    decide_eq_true_eq] at hdocs
  obtain ⟨t, ht, m, hm, w, hw, hid, g, hg, hcheck⟩ := hdocs
  obtain ⟨m', hm', htree⟩ := Tree.exists_workflow? ht hw
  obtain rfl : m = m' := Option.some.inj (hm.symm.trans hm')
  rw [← Tree.parse_eq_ofDocument hd] at ht
  have hpointers := (LinkGraph.build_eq_ok.mp hg).1
  have hs := Workflow.separates_of_check hg hid (fun n hn =>
    ((Tree.mem_chainNodes htree).mp (List.mem_map_of_mem hn)).mem_nodeIds hpointers) hcheck
  obtain ⟨g', -, d', w', hg', -, -, hd', hw', -, hcuts⟩ := cutsOut_of_apply Catalog.builtin used t d
    w m "m" "a" r hF hcalls ht hd hw hm hr
  obtain rfl : g = g' := Except.ok.inj (hg.symm.trans hg')
  exact ⟨t, d, d', w, w', m, r, ht, hd, hw, hm, hr, hd', hw', hcuts.mpr hs⟩

end Edit

end BlockFlow
