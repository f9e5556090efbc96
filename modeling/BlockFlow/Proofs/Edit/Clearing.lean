import BlockFlow.Catalog.Builtin
import BlockFlow.Proofs.Edit.Following
import BlockFlow.Proofs.Edit.Renumbering

/-!
Clearing inputs of a node in a scene. Main statement: one node has other inputs, which lack the
references in the value that is cleared, and the nodes that go along with that value are gone.
-/

namespace BlockFlow

open InputExpr Outcome

namespace Edit

/-- Edits that clear an input that there is, with the value in it. A numbered input is one of a node
whose numbers are written without leading zeros. -/
inductive Clears (w : Workflow) (name : String) : Edit → InputExpr → Prop where
  | reporter {id : String} {path : List String} {value : InputExpr}
    (hvalue : w.valueAt? id path = some value) : Clears w name (.deleteReporter name id path) value
  | numbered {id input : String} {n : NodeDef} {value : InputExpr} (hn : w.node? id = some n)
    (hvalue : n.input? input = some value)
    (hcanonical : ∀ stem, Form.isStem stem → Canonical stem (n.inputs.map (·.1))) :
    Clears w name (.removeInput name id input) value

theorem Clears.exists_mem {w : Workflow} {name : String} {e : Edit} {value : InputExpr}
    (h : e.Clears w name value) : ∃ n, n ∈ w.nodes := by
  cases h with
  | reporter hvalue =>
    obtain ⟨n, hn, -⟩ := Option.bind_eq_some_iff.mp hvalue
    exact ⟨n, Workflow.node?_mem hn⟩
  | numbered hn => exact ⟨_, Workflow.node?_mem hn⟩

/-- The nodes that go along with the value that an edit clears. -/
def dropped (w : Workflow) (g : LinkGraph) : Edit → InputExpr → List String
  | .deleteReporter .., .node x =>
    if w.useCount x ≤ 1 && g.incomingCount x = 0 && (w.node? x).isSome then w.removalSet g [x] else []
  | .removeInput .., .node x => if w.useCount x = 1 then w.removalSet g [x] else []
  | _, _ => []

theorem dropped_cases (w : Workflow) (g : LinkGraph) (e : Edit) (value : InputExpr) :
    e.dropped w g value = [] ∨
      ∃ x, value = .node x ∧ w.useCount x ≤ 1 ∧ e.dropped w g value = w.removalSet g [x] := by
  unfold dropped
  split
  · rename_i x
    split
    · rename_i hdrop
      simp only [Bool.and_eq_true, decide_eq_true_eq] at hdrop
      exact .inr ⟨x, rfl, hdrop.1.1, rfl⟩
    · exact .inl rfl
  · rename_i x
    split
    · rename_i hcount
      exact .inr ⟨x, rfl, hcount.le, rfl⟩
    · exact .inl rfl
  · exact .inl rfl

end Edit

namespace InputExpr

variable {q : List String} {key : String} {e : InputExpr} {ins ins₁ ins₂ : Inputs}

theorem nodeRefsIn_append (ins₁ ins₂ : Inputs) :
    nodeRefsIn (ins₁ ++ ins₂) = nodeRefsIn ins₁ ++ nodeRefsIn ins₂ := by
  induction ins₁ with
  | nil => rfl
  | cons i ins₁ ih => rw [List.cons_append, nodeRefsIn, nodeRefsIn, ih, List.append_assoc]

/-- The references inside a value can be taken out from between others. -/
theorem nodeRefsIn_middle (ins₁ ins₂ : Inputs) (key : String) (e : InputExpr) :
    (nodeRefsIn (ins₁ ++ (key, e) :: ins₂)).Perm (e.nodeRefs ++ nodeRefsIn (ins₁ ++ ins₂)) := by
  rw [nodeRefsIn_append, nodeRefsIn_append, nodeRefsIn]
  exact List.perm_append_comm_assoc _ _ _

/-- With a literal in its place, the references of a value are gone, and others stay. -/
theorem EndsAt.nodeRefs_perm {v : Yaml.Value} (h : EndsAt q ins e) (hd : DistinctIn ins) :
    (nodeRefsIn ins).Perm (e.nodeRefs ++ nodeRefsIn (setAt (.literal v) q ins)) := by
  induction q generalizing ins with
  | nil => exact h.elim
  | cons key rest ih =>
    obtain ⟨e₀, hmem, hrest⟩ := h
    have hvalue := hd.of_mem hmem
    have hnodup := hd.nodup
    obtain ⟨ins₁, ins₂, rfl⟩ := List.append_of_mem hmem
    obtain ⟨hfront, hback⟩ := fresh_of_nodup hnodup
    have hmiddle (e' : InputExpr) := nodeRefsIn_middle ins₁ ins₂ key e'
    rw [setAt_append hfront hback]
    rcases hrest with ⟨rfl, rfl⟩ | ⟨inner, hbelow, hends⟩
    · exact (hmiddle e).trans ((hmiddle (.literal v)).symm.append_left e.nodeRefs)
    · have hlong : rest.isEmpty = false := by
        cases rest with
        | nil => exact hends.elim
        | cons => rfl
      have hinner : e₀.nodeRefs = nodeRefsIn inner ∧ DistinctIn inner ∧
          (mapInputs (setAt (.literal v) rest) e₀).nodeRefs =
            nodeRefsIn (setAt (.literal v) rest inner) := by
        cases e₀ <;> cases hbelow <;> exact ⟨rfl, hvalue, rfl⟩
      obtain ⟨hrefs, hdistinct, hrefs'⟩ := hinner
      have hbefore := hmiddle e₀
      have hafter := hmiddle (mapInputs (setAt (.literal v) rest) e₀)
      rw [hrefs] at hbefore
      rw [hrefs'] at hafter
      rw [hlong, if_neg Bool.false_ne_true]
      have hstep := ((ih hends hdistinct).append_right (nodeRefsIn (ins₁ ++ ins₂)))
      rw [List.append_assoc] at hstep
      exact (hbefore.trans hstep).trans (hafter.symm.append_left e.nodeRefs)

theorem nodeRefsIn_dropInput (hnodup : (ins.map (·.1)).Nodup) (hfirst : firstOf? key ins = some e) :
    (nodeRefsIn ins).Perm (e.nodeRefs ++ nodeRefsIn (dropInput key ins)) := by
  obtain ⟨ins₁, ins₂, rfl⟩ := List.append_of_mem (mem_of_firstOf? hfirst)
  rw [dropInput_append (fresh_of_nodup hnodup)]
  exact nodeRefsIn_middle ins₁ ins₂ key e

theorem nodeRefsIn_lowerInputs (stem : String) (ks : List Nat) (ins : Inputs) :
    nodeRefsIn (lowerInputs stem ks ins) = nodeRefsIn ins := by
  induction ins with
  | nil => rfl
  | cons i ins ih => exact congrArg (i.2.nodeRefs ++ ·) ih

end InputExpr

namespace Workflow

section Count

variable {w : Workflow} {n m : NodeDef} {x : String}

theorem count_le_useCount (hn : n ∈ w.nodes) : (w.reporterRefs n.id).count x ≤ w.useCount x := by
  rw [useCount, allRefs, List.count_flatMap]
  exact List.le_sum_of_mem (List.mem_map_of_mem hn)

/-- The uses in two nodes are counted apart. -/
theorem count_add_le_useCount (hn : n ∈ w.nodes) (hm : m ∈ w.nodes) (hne : n.id ≠ m.id) :
    (w.reporterRefs n.id).count x + (w.reporterRefs m.id).count x ≤ w.useCount x := by
  obtain ⟨ns₁, ns₂, hnodes⟩ := List.append_of_mem hn
  have hrest : m ∈ ns₁ ++ ns₂ := by
    rw [hnodes, List.mem_append, List.mem_cons] at hm
    exact List.mem_append.mpr (hm.imp_right (·.resolve_left fun heq => hne (heq ▸ rfl)))
  have hsum := List.le_sum_of_mem
    (List.mem_map_of_mem (f := List.count x ∘ fun n => w.reporterRefs n.id) hrest)
  rw [useCount, allRefs, List.count_flatMap, hnodes, List.map_append, List.map_cons,
    List.sum_append, List.sum_cons]
  rw [List.map_append, List.sum_append] at hsum
  simp only [Function.comp_apply] at hsum ⊢
  omega

end Count

/-- The second workflow is the first with other inputs in the node `host`, which reference what they
did but for a value, and without the nodes in `gone`. -/
structure Cleared (host : NodeDef) (value : InputExpr) (inputs : Inputs) (gone : List String)
    (w w' : Workflow) : Prop where
  mem : host ∈ w.nodes
  result : w' = { w with nodes :=
    (setInputs host.id inputs w.nodes).filter fun n => !gone.contains n.id }
  refs : (nodeRefsIn host.inputs).Perm (value.nodeRefs ++ nodeRefsIn inputs)

namespace Cleared

variable {w w' : Workflow} {host : NodeDef} {value : InputExpr} {inputs : Inputs}
  {gone : List String} {g : LinkGraph} {x a y : String}

theorem mem_nodeIds (h : Cleared host value inputs gone w w') :
    a ∈ w'.nodeIds ↔ a ∈ w.nodeIds ∧ a ∉ gone := by
  rw [h.result]
  simp only [Workflow.mem_nodeIds, List.mem_filter, setInputs, List.mem_map, Bool.not_eq_true',
    List.contains_eq_mem, decide_eq_false_iff_not]
  constructor
  · rintro ⟨n, ⟨⟨m, hm, rfl⟩, hgone⟩, rfl⟩
    refine ⟨⟨m, hm, ?_⟩, hgone⟩
    split <;> rfl
  · rintro ⟨⟨n, hn, rfl⟩, hgone⟩
    refine ⟨_, ⟨⟨n, hn, rfl⟩, ?_⟩, ?_⟩
    · split <;> exact hgone
    · split <;> rfl

theorem node? (h : Cleared host value inputs gone w w') (ha : a ∉ gone) :
    w'.node? a = (w.node? a).map fun n =>
      if n.id = host.id then { n with inputs := inputs } else n := by
  have hfind (n : NodeDef) : (decide ((!gone.contains
      (if n.id = host.id then { n with inputs := inputs } else n).id) = true ∧
        decide ((if n.id = host.id then { n with inputs := inputs } else n).id = a) = true)) =
          decide (n.id = a) := by
    have hid : (if n.id = host.id then { n with inputs := inputs } else n).id = n.id := by
      split <;> rfl
    rw [hid]
    by_cases hn : n.id = a <;> simp [hn, ha]
  rw [h.result, Workflow.node?, Workflow.node?, List.find?_filter, setInputs, List.find?_map]
  simp only [Function.comp_def, hfind]

/-- What a node that is left references. -/
theorem reporterRefs (h : Cleared host value inputs gone w w') (ha : a ∉ gone) :
    w'.reporterRefs a = if a = host.id then nodeRefsIn inputs else w.reporterRefs a := by
  rw [Workflow.reporterRefs, Workflow.reporterRefs, h.node? ha]
  cases hn : w.node? a with
  | none =>
    have hne : a ≠ host.id := by
      rintro rfl
      rw [Workflow.node?, List.find?_eq_none] at hn
      simpa using hn host h.mem
    rw [if_neg hne]
    rfl
  | some n =>
    obtain rfl := node?_id hn
    by_cases hid : n.id = host.id <;> simp [hid]

section Distinct

variable (h : Cleared host value inputs gone w w') (hids : w.nodeIds.Nodup)

include h hids

theorem reporterRefs_host : w.reporterRefs host.id = nodeRefsIn host.inputs := by
  rw [Workflow.reporterRefs, node?_eq_some hids h.mem]

/-- Nodes that are left reference what they did, but for what the cleared value does. -/
theorem cites_iff (ha : a ∉ gone) (hy : y ∉ value.nodeRefs) : w'.Cites a y ↔ w.Cites a y := by
  rw [Cites, Cites, h.reporterRefs ha]
  split
  · rename_i hhost
    rw [hhost, h.reporterRefs_host hids, h.refs.mem_iff, List.mem_append]
    exact (or_iff_right hy).symm
  · rfl

/-- A node that was referenced once is not referenced once that reference is cleared. -/
theorem not_cites (hvalue : value = .node x) (hcount : w.useCount x = 1) : ¬ w'.Cites a x := by
  intro hcites
  have hself : (w.reporterRefs host.id).count x = 1 + (nodeRefsIn inputs).count x := by
    rw [h.reporterRefs_host hids, h.refs.count_eq, hvalue, nodeRefs, List.count_append,
      List.count_singleton_self]
  obtain ⟨hmem, hkept⟩ := h.mem_nodeIds.mp hcites.mem_nodeIds
  rw [Cites, h.reporterRefs hkept] at hcites
  have hpos := List.count_pos_iff.mpr hcites
  split at hpos
  · have hle := count_le_useCount (x := x) h.mem
    omega
  · rename_i hne
    obtain ⟨n, hn, rfl⟩ := Workflow.mem_nodeIds.mp hmem
    have hle := count_add_le_useCount (x := x) h.mem hn (Ne.symm hne)
    omega

theorem useCount_pos (hvalue : value = .node x) : 0 < w.useCount x := by
  refine lt_of_lt_of_le ?_ (count_le_useCount h.mem)
  rw [h.reporterRefs_host hids, h.refs.count_eq, hvalue, nodeRefs, List.count_append,
    List.count_singleton_self]
  omega

end Distinct

end Cleared

end Workflow

namespace Catalog

theorem isStem_numberedInputs {opcode : String} {numbered : NumberedInputs}
    (h : (builtin.get? opcode).bind (·.numberedInputs) = some numbered) :
    Form.isStem numbered.stem := by
  obtain ⟨spec, hspec, hnumbered⟩ := Option.bind_eq_some_iff.mp h
  have hall : ∀ spec ∈ builtin.specs, ∀ numbered ∈ spec.numberedInputs,
      Form.isStem numbered.stem := by decide +kernel
  exact hall spec (List.mem_of_find?_eq_some hspec) numbered hnumbered

end Catalog

namespace Draft

variable {d d' : Draft} {w : Workflow} {g : LinkGraph} {id : String} {value : InputExpr}

/-- A reporter is deleted in two steps: the input is reset, and what goes along with it is removed. -/
theorem steps_of_deleteReporter {path : List String}
    (h : d.deleteReporter w.name id path = .ok d') (hw : d.document.workflow? w.name = some w)
    (hg : LinkGraph.build w = .ok g) (hvalue : w.valueAt? id path = some value) :
    ∃ d₁, d.resetInput w id path = .ok d₁ ∧
      d₁.removeNodes w.name ((Edit.deleteReporter w.name id path).dropped w g value) = .ok d' := by
  unfold deleteReporter at h
  simp only [bind_eq_ok, workflow_eq_ok, hw, Option.some.injEq, exists_eq_left', hvalue] at h
  obtain ⟨-, -, d₁, hreset, h⟩ := h
  refine ⟨d₁, hreset, ?_⟩
  cases value with
  | node x =>
    simp only [dropReporter, bind_eq_ok, graph_eq_ok, hg, Except.ok.injEq, exists_eq_left'] at h
    simp only [Edit.dropped]
    split at h
    · rename_i hdrop
      rw [if_pos hdrop]
      exact h
    · rename_i hdrop
      rw [if_neg hdrop]
      exact h
  | _ => exact h

theorem ownReporter?_eq_some {n : NodeDef} {input x : String} :
    ownReporter? w n input = some x ↔ n.input? input = some (.node x) ∧ w.useCount x = 1 := by
  unfold ownReporter?
  split
  · rename_i y hy
    rw [hy]
    by_cases hcount : w.useCount y = 1
    · simp only [hcount, if_true, Option.some.injEq, InputExpr.node.injEq]
      constructor
      · rintro rfl
        exact ⟨rfl, hcount⟩
      · exact And.left
    · simp only [hcount, if_false, Option.some.injEq, InputExpr.node.injEq, reduceCtorEq, false_iff]
      rintro ⟨rfl, hone⟩
      exact hcount hone
  · rename_i hother
    exact ⟨fun h => (by cases h), fun h => absurd h.1 (hother x)⟩

/-- A numbered input is removed in three steps: its entry goes, those with higher numbers move down,
and what goes along with it is removed. -/
theorem steps_of_removeInput {input : String} {n : NodeDef}
    (h : d.removeInput w.name id input = .ok d') (hw : d.document.workflow? w.name = some w)
    (hg : LinkGraph.build w = .ok g) (hn : w.node? id = some n)
    (hvalue : n.input? input = some value) :
    ∃ numbered k d₁ d₂, (d.catalog.get? n.opcode).bind (·.numberedInputs) = some numbered ∧
      ordinal? input numbered.stem = some k ∧ d.removeFrom w.name id "inputs" input = .ok d₁ ∧
      d₁.renumber w.name id "inputs" numbered.stem
        (numbersAbove numbered.stem k (n.inputs.map (·.1))) = .ok d₂ ∧
      d₂.removeNodes w.name ((Edit.removeInput w.name id input).dropped w g value) = .ok d' := by
  unfold removeInput at h
  simp only [bind_eq_ok, workflow_eq_ok, hw, Option.some.injEq, exists_eq_left', node_eq_ok, hn] at h
  obtain ⟨numbered, hnumbered, h⟩ := h
  have hcatalog : (d.catalog.get? n.opcode).bind (·.numberedInputs) = some numbered := by
    unfold numberedInputs at hnumbered
    split at hnumbered
    · rename_i heq
      rw [heq, Except.ok.inj hnumbered]
    · cases hnumbered
  split at h
  · cases h
  · rename_i k hk
    obtain ⟨hk, -⟩ := Option.filter_eq_some_iff.mp hk
    split at h
    · cases h
    · simp only [bind_eq_ok] at h
      obtain ⟨d₁, hremove, d₂, hrenumber, h⟩ := h
      refine ⟨numbered, k, d₁, d₂, hcatalog, hk, hremove, hrenumber, ?_⟩
      unfold ownReporter? at h
      rw [hvalue] at h
      cases value with
      | node x =>
        simp only [Edit.dropped]
        by_cases hcount : w.useCount x = 1
        · simp only [hcount, if_true, bind_eq_ok, graph_eq_ok, hg, Except.ok.injEq,
            exists_eq_left'] at h
          rw [if_pos hcount]
          exact h
        · simp only [hcount, if_false] at h
          rw [if_neg hcount]
          exact h
      | _ => exact h

end Draft

namespace Scene

variable {S : Scene} {ws₁ ws₂ : List Workflow} {w : Workflow} {g : LinkGraph} {d d' : Draft}
  {e : Edit} {value : InputExpr} {made : Option String}

/-- Clearing an input of a workflow in a scene. -/
theorem Hosts.cleared_of_run (h : S.Hosts ws₁ w ws₂) (hd : S.Holds d w.nodes)
    (hw : d.document.workflow? w.name = some w) (hcatalog : d.catalog = Catalog.builtin)
    (hg : LinkGraph.build w = .ok g) (hclears : e.Clears w w.name value)
    (hok : e.run d = .ok (d', made)) : ∃ host inputs ns', S.Holds d' ns' ∧
      Workflow.Cleared host value inputs (e.dropped w g value) w { w with nodes := ns' } := by
  have hids := hd.nodup_ids
  cases hclears with
  | @reporter id path _ hvalue =>
    obtain ⟨d₁, hreset, hremove⟩ :=
      Draft.steps_of_deleteReporter (Edit.run_changed hok) hw hg hvalue
    obtain ⟨host, hhost, q, v, hends, hd₁⟩ := h.clearInput hd hvalue hreset
    exact ⟨host, _, _, holds_iff.mpr (h.removeNodes (holds_iff.mp hd₁) hremove), hhost, rfl,
      hends.nodeRefs_perm (hd.distinct host hhost)⟩
  | @numbered id input n _ hn hvalue hcanonical =>
    obtain ⟨numbered, k, d₁, d₂, hnumbered, hk, hfirst, hrenumber, hremove⟩ :=
      Draft.steps_of_removeInput (Edit.run_changed hok) hw hg hn hvalue
    have hmem := Workflow.node?_mem hn
    obtain rfl := Workflow.node?_id hn
    have hstem := Catalog.isStem_numberedInputs (hcatalog ▸ hnumbered)
    have hnodup := (hd.distinct n hmem).nodup
    have hinput : input ∈ n.inputs.map (·.1) := List.mem_map_of_mem (mem_of_firstOf? hvalue)
    rw [← setInputs_self hids hmem] at hd
    have hd₁ := h.removeFrom hd hinput hfirst
    have hd₂ := h.renumber hd₁ hstem
      (MovesDown.of_drop hnodup (hcanonical _ hstem) hk hinput) hrenumber
    refine ⟨n, _, _, holds_iff.mpr (h.removeNodes (holds_iff.mp hd₂) hremove), hmem, rfl, ?_⟩
    rw [nodeRefsIn_lowerInputs]
    exact nodeRefsIn_dropInput hnodup hvalue

end Scene

end BlockFlow
