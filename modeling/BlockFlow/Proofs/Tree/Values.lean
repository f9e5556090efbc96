import BlockFlow.Proofs.Tree.Containers
import BlockFlow.Proofs.Tree.WellFormed

/-!
What the values of inputs resolve to. Main statement: the ids of the reporters in a resolved value
are those written in place in it, and those of the nodes that references lead to with what is written
in place there.
-/

namespace BlockFlow

open Relation Outcome

namespace InputExpr

mutual

/-- The ids, given or made up, of the reporters written in place in the input `key` of `owner`. -/
def placedIds (owner key : String) : InputExpr → List String
  | .inline id _ inputs =>
    placedIdsIn (id.getD (owner ++ "__" ++ key)) inputs ++ [id.getD (owner ++ "__" ++ key)]
  | .call _ args => placedIdsIn owner args
  | _ => []

def placedIdsIn (owner : String) : Inputs → List String
  | [] => []
  | (key, e) :: rest => e.placedIds owner key ++ placedIdsIn owner rest

end

end InputExpr

open InputExpr

namespace Workflow

variable {w : Workflow} {owner key a b id : String}

/-- A reporter with that id is written in place in the inputs of a node. -/
def PutsInPlace (w : Workflow) (a id : String) : Prop :=
  ∃ n, w.node? a = some n ∧ id ∈ placedIdsIn n.id n.inputs

mutual

/-- A value resolves to what its references lead to. -/
inductive Resolves (w : Workflow) : (owner key : String) → InputExpr → Resolved → Prop where
  | literal (owner key : String) (v : Yaml.Value) :
    Resolves w owner key (.literal v) (.literal (Tree.literalOf v))
  | variable (owner key name : String) : Resolves w owner key (.variable name) (.variable name)
  | node (owner key : String) {id : String} {n : NodeDef} {slots : Slots}
    (hn : w.node? id = some n) (h : ResolvesIn w n.id n.inputs slots) :
    Resolves w owner key (.node id) (.reporter n.opcode n.id slots)
  | inline (owner key opcode : String) {i : Option String} {inputs : Inputs} {slots : Slots}
    (h : ResolvesIn w (i.getD (owner ++ "__" ++ key)) inputs slots) :
    Resolves w owner key (.inline i opcode inputs)
      (.reporter opcode (i.getD (owner ++ "__" ++ key)) slots)
  | call (owner key name : String) {args : Inputs} {slots : Slots}
    (h : ResolvesIn w owner args slots) : Resolves w owner key (.call name args) (.call name slots)

inductive ResolvesIn (w : Workflow) : (owner : String) → Inputs → Slots → Prop where
  | nil (owner : String) : ResolvesIn w owner [] []
  | cons {owner key : String} {e : InputExpr} {v : Resolved} {inputs : Inputs} {slots : Slots}
    (he : Resolves w owner key e v) (h : ResolvesIn w owner inputs slots) :
    ResolvesIn w owner ((key, e) :: inputs) ((key, v) :: slots)

end

/-- What references of a value lead to: a node, or what is written in place in one. -/
def LeadsTo (w : Workflow) (refs : List String) (id : String) : Prop :=
  ∃ b ∈ refs, ∃ a, ReflTransGen w.Cites b a ∧ (id = a ∨ w.PutsInPlace a id)

theorem leadsTo_append {refs more : List String} :
    w.LeadsTo (refs ++ more) id ↔ w.LeadsTo refs id ∨ w.LeadsTo more id := by
  simp only [LeadsTo, List.mem_append, or_and_right, exists_or]

/-- A reference leads to its node, to what is written in place there, and further on. -/
theorem leadsTo_singleton {n : NodeDef} (hn : w.node? b = some n) :
    w.LeadsTo [b] id ↔
      id = n.id ∨ id ∈ placedIdsIn n.id n.inputs ∨ w.LeadsTo (nodeRefsIn n.inputs) id := by
  have hid : n.id = b := node?_id hn
  have hputs : w.PutsInPlace b id ↔ id ∈ placedIdsIn n.id n.inputs := by
    simp [PutsInPlace, hn]
  constructor
  · intro h
    obtain ⟨b', hb, a, hway, hend⟩ := h
    obtain rfl : b' = b := by simpa using hb
    rcases ReflTransGen.cases_head hway with rfl | ⟨x, hx, hway⟩
    · exact hend.imp (fun h => h.trans hid.symm) fun h => .inl (hputs.mp h)
    · exact .inr (.inr ⟨x, (cites_iff hn).mp hx, a, hway, hend⟩)
  · intro h
    rcases h with h | h | ⟨x, hx, a, hway, hend⟩
    · exact ⟨b, by simp, b, .refl, .inl (h.trans hid)⟩
    · exact ⟨b, by simp, b, .refl, .inr (hputs.mpr h)⟩
    · exact ⟨b, by simp, a, .head ((cites_iff hn).mpr hx) hway, hend⟩

theorem not_leadsTo_nil : ¬ w.LeadsTo [] id := by
  simp [LeadsTo]

mutual

/-- The reporters of a resolved value. By recursion on how it is resolved. -/
theorem Resolves.mem_reporterIds {owner key : String} {e : InputExpr} {v : Resolved} :
    w.Resolves owner key e v →
      (id ∈ v.reporterIds ↔ id ∈ e.placedIds owner key ∨ w.LeadsTo e.nodeRefs id)
  | .literal .. => by simp [Resolved.reporterIds, placedIds, nodeRefs, not_leadsTo_nil]
  | .variable .. => by simp [Resolved.reporterIds, placedIds, nodeRefs, not_leadsTo_nil]
  | .node _ _ hn h => by
    have ih := h.mem_reporterIds
    simp only [Resolved.reporterIds, placedIds, nodeRefs, List.mem_append, List.mem_singleton, ih,
      leadsTo_singleton hn, List.not_mem_nil, false_or]
    exact or_comm
  | .inline _ _ _ h => by
    have ih := h.mem_reporterIds
    simp only [Resolved.reporterIds, placedIds, nodeRefs, List.mem_append, List.mem_singleton, ih]
    exact or_right_comm
  | .call _ _ _ h => by
    have ih := h.mem_reporterIds
    simpa only [Resolved.reporterIds, placedIds, nodeRefs] using ih

theorem ResolvesIn.mem_reporterIds {owner : String} {inputs : Inputs} {slots : Slots} :
    w.ResolvesIn owner inputs slots → (id ∈ Resolved.reporterIdsIn slots ↔
      id ∈ placedIdsIn owner inputs ∨ w.LeadsTo (nodeRefsIn inputs) id)
  | .nil _ => by simp [Resolved.reporterIdsIn, placedIdsIn, nodeRefsIn, not_leadsTo_nil]
  | .cons he h => by
    have ihe := he.mem_reporterIds
    have ih := h.mem_reporterIds
    simp only [Resolved.reporterIdsIn, placedIdsIn, nodeRefsIn, List.mem_append, leadsTo_append,
      ihe, ih]
    exact or_or_or_comm ..

end

mutual

/-- Each reporter of a resolved value is on a way down from the reporters it consists of. -/
theorem Resolves.exists_uses {owner key : String} {e : InputExpr} {v : Resolved} :
    w.Resolves owner key e v → id ∈ v.reporterIds →
      ∃ r ∈ e.reporters w owner key, ∃ s, ReflTransGen w.Uses r s ∧ s.id = id
  | .literal .., hid => by simp [Resolved.reporterIds] at hid
  | .variable .., hid => by simp [Resolved.reporterIds] at hid
  | @Resolves.node _ _ _ _ n _ hn h, hid => by
    simp only [Resolved.reporterIds, List.mem_append, List.mem_singleton] at hid
    refine ⟨n.reporter, by simp [reporters, hn], ?_⟩
    rcases hid with hid | rfl
    · obtain ⟨r, hr, s, hway, hs⟩ := h.exists_uses hid
      exact ⟨s, .head hr hway, hs⟩
    · exact ⟨n.reporter, .refl, rfl⟩
  | @Resolves.inline _ owner key opcode i inputs _ h, hid => by
    simp only [Resolved.reporterIds, List.mem_append, List.mem_singleton] at hid
    refine ⟨⟨i.getD (owner ++ "__" ++ key), opcode, inputs⟩, by simp [reporters], ?_⟩
    rcases hid with hid | rfl
    · obtain ⟨r, hr, s, hway, hs⟩ := h.exists_uses hid
      exact ⟨s, .head hr hway, hs⟩
    · exact ⟨_, .refl, rfl⟩
  | .call _ _ _ h, hid => by
    simp only [Resolved.reporterIds] at hid
    simpa only [reporters] using h.exists_uses hid

theorem ResolvesIn.exists_uses {owner : String} {inputs : Inputs} {slots : Slots} :
    w.ResolvesIn owner inputs slots → id ∈ Resolved.reporterIdsIn slots →
      ∃ r ∈ reportersIn w owner inputs, ∃ s, ReflTransGen w.Uses r s ∧ s.id = id
  | .nil _, hid => by simp [Resolved.reporterIdsIn] at hid
  | .cons he h, hid => by
    simp only [Resolved.reporterIdsIn, List.mem_append] at hid
    simp only [reportersIn, List.mem_append]
    rcases hid with hid | hid
    · obtain ⟨r, hr, hs⟩ := he.exists_uses hid
      exact ⟨r, .inl hr, hs⟩
    · obtain ⟨r, hr, hs⟩ := h.exists_uses hid
      exact ⟨r, .inr hr, hs⟩

end

mutual

/-- A value resolves to one thing only. -/
theorem Resolves.unique {owner key : String} {e : InputExpr} {v v' : Resolved} :
    w.Resolves owner key e v → w.Resolves owner key e v' → v' = v
  | .literal .., .literal .. => rfl
  | .variable .., .variable .. => rfl
  | .node _ _ hn h, .node _ _ hn' h' => by
    obtain rfl := Option.some.inj (hn.symm.trans hn')
    rw [h.unique h']
  | .inline _ _ opcode h, .inline _ _ _ h' => congrArg (Resolved.reporter opcode _) (h.unique h')
  | .call _ _ name h, .call _ _ _ h' => congrArg (Resolved.call name) (h.unique h')

theorem ResolvesIn.unique {owner : String} {inputs : Inputs} {slots slots' : Slots} :
    w.ResolvesIn owner inputs slots → w.ResolvesIn owner inputs slots' → slots' = slots
  | .nil _, .nil _ => rfl
  | .cons he h, .cons he' h' => by rw [he.unique he', h.unique h']

end

/-- An input resolves under its name. -/
theorem ResolvesIn.exists_firstOf? {owner : String} {inputs : Inputs} {slots : Slots} {e : InputExpr}
    (h : w.ResolvesIn owner inputs slots) (hfirst : firstOf? key inputs = some e) :
    ∃ v, firstOf? key slots = some v ∧ w.Resolves owner key e v := by
  induction inputs generalizing slots with
  | nil => cases hfirst
  | cons i inputs ih =>
    cases h with
    | @cons _ k e₀ v _ slots he h =>
      rw [firstOf?, List.find?_cons] at hfirst
      by_cases hk : k = key
      · subst hk
        simp only [decide_true, Option.map_some, Option.some.injEq] at hfirst
        subst hfirst
        exact ⟨v, by simp [firstOf?], he⟩
      · simp only [hk, decide_false] at hfirst
        obtain ⟨v', hv', hresolves⟩ := ih h hfirst
        exact ⟨v', by simpa [firstOf?, hk] using hv', hresolves⟩

end Workflow

namespace Tree

variable {s : Scope} {inChain : Bool} {follow : List String → NodeDef → Placing Slots}
  {σ σ' : List String}

/-- Resolves the inputs of nodes. -/
def ResolvesNodes (s : Scope) (follow : List String → NodeDef → Placing Slots) : Prop :=
  ∀ above n σ slots σ', (follow above n).run σ = .ok (slots, σ') →
    s.workflow.ResolvesIn n.id n.inputs slots

mutual

theorem resolves_resolve (hf : ResolvesNodes s follow) (above : List String) (owner key : String) :
    ∀ (e : InputExpr) {v : Resolved} {σ σ' : List String},
      (resolve s inChain follow above owner key e).run σ = .ok (v, σ') →
        s.workflow.Resolves owner key e v
  | .literal _, _, _, _, h => by
    rw [resolve, run_pure_eq_ok] at h
    rw [h.1]
    exact .literal ..
  | .variable _, _, _, _, h => by
    rw [resolve, run_pure_eq_ok] at h
    rw [h.1]
    exact .variable ..
  | .node _, _, _, _, h => by
    obtain ⟨-, -, n, hn, -, slots, hslots, rfl⟩ := run_resolve_node.mp h
    exact .node _ _ hn (hf _ _ _ _ _ hslots)
  | .inline _ _ inputs, _, _, _, h => by
    obtain ⟨-, -, slots, hslots, rfl⟩ := run_resolve_inline.mp h
    exact .inline _ _ _ (resolves_resolveAll hf _ _ inputs hslots)
  | .call _ args, _, _, _, h => by
    obtain ⟨-, slots, hslots, rfl⟩ := run_resolve_call.mp h
    exact .call _ _ _ (resolves_resolveAll hf _ _ args hslots)

theorem resolves_resolveAll (hf : ResolvesNodes s follow) (above : List String) (owner : String) :
    ∀ (inputs : Inputs) {slots : Slots} {σ σ' : List String},
      (resolveAll s inChain follow above owner inputs).run σ = .ok (slots, σ') →
        s.workflow.ResolvesIn owner inputs slots
  | [], _, _, _, h => by
    rw [resolveAll, run_pure_eq_ok] at h
    rw [h.1]
    exact .nil _
  | (_, e) :: rest, _, _, _, h => by
    obtain ⟨v, τ, more, hv, hmore, rfl⟩ := run_resolveAll_cons.mp h
    exact .cons (resolves_resolve hf above owner _ e hv) (resolves_resolveAll hf above owner rest hmore)

end

theorem resolvesNodes_following (jumps : Nat) : ResolvesNodes s (following s inChain jumps) := by
  induction jumps with
  | zero =>
    intro above n σ slots σ' h
    exact (run_throw_eq_ok.mp h).elim
  | succ jumps ih =>
    intro above n σ slots σ' h
    rw [following, resolveInputs_eq] at h
    exact resolves_resolveAll ih above n.id n.inputs h

/-- The inputs of a node in the tree are those of the document, resolved. -/
theorem resolves_plainNode {n : NodeDef} {t : TreeNode}
    (h : (plainNode s inChain n).run σ = .ok (t, σ')) :
    t.id = n.id ∧ t.opcode = n.opcode ∧ s.workflow.ResolvesIn n.id n.inputs t.inputs := by
  obtain ⟨_, -, slots, hslots, rfl⟩ := run_plainNode.mp h
  rw [resolveInputs_eq] at hslots
  exact ⟨rfl, rfl, resolves_resolveAll (resolvesNodes_following _) _ _ _ hslots⟩

/-- A node of the tree shows a node of the document. -/
def ShowsNode (w : Workflow) (t : TreeNode) : Prop :=
  ∃ n, w.node? t.id = some n ∧ t.opcode = n.opcode ∧ w.ResolvesIn n.id n.inputs t.inputs

theorem showsNode_walkChain (fuel : Nat) {head : Option String} {nodes : List TreeNode}
    (h : (walkChain s fuel head).run σ = .ok (nodes, σ')) :
    ∀ t ∈ TreeNode.chainNodes nodes, ShowsNode s.workflow t := by
  refine forall_walkChain (P := ShowsNode s.workflow) ?_ fuel h
  intro fuel n σ τ υ node children hn hplain _
  obtain ⟨hid, hop, hinputs⟩ := resolves_plainNode hplain
  have hnode : s.workflow.node? node.id = some n := by rw [hid, hn]
  exact ⟨n, hnode, hop, hinputs⟩

theorem showsNode_of_mem_chainNodes {d : Document} {c : Catalog} {w : Workflow} {t : WorkflowTree}
    (h : ofWorkflow d c w = .ok t) : ∀ n ∈ t.chainNodes, ShowsNode w n := by
  obtain ⟨-, -, σ, hrun⟩ := ofWorkflow_eq_ok.mp h
  obtain ⟨nodes, τ, os, hnodes, -, rfl⟩ := run_placeAll.mp hrun
  exact showsNode_walkChain _ hnodes

/-- So does an orphan, where ids are distinct. -/
theorem showsNode_of_mem_orphans {d : Document} {c : Catalog} {w : Workflow} {t : WorkflowTree}
    (hids : w.nodeIds.Nodup) (h : ofWorkflow d c w = .ok t) : ∀ o ∈ t.orphans, ShowsNode w o.node := by
  obtain ⟨-, -, σ, hrun⟩ := ofWorkflow_eq_ok.mp h
  obtain ⟨nodes, τ, os, -, hos, rfl⟩ := run_placeAll.mp hrun
  have hall (ns : List NodeDef) (hns : ∀ n ∈ ns, n ∈ w.nodes) (os : List Orphan) (τ σ : List String)
      (hos : (orphans (scopeOf d c w) ns).run τ = .ok (os, σ)) : ∀ o ∈ os, ShowsNode w o.node := by
    induction ns generalizing os τ with
    | nil =>
      obtain ⟨rfl, -⟩ := run_orphans_nil.mp hos
      exact List.forall_mem_nil _
    | cons n ns ih =>
      obtain ⟨hn, hns⟩ := List.forall_mem_cons.mp hns
      rcases run_orphans_cons.mp hos with ⟨-, hos⟩ | ⟨-, node, τ', more, hnode, hmore, rfl⟩
      · exact ih hns os τ hos
      · obtain ⟨hid, hop, hinputs⟩ := resolves_plainNode hnode
        have hfound : w.node? node.id = some n := hid ▸ Workflow.node?_eq_some hids hn
        exact List.forall_mem_cons.mpr ⟨⟨n, hfound, hop, hinputs⟩, ih hns more τ' hmore⟩
  exact hall w.nodes (fun _ hn => hn) os τ σ hos

/-- The inputs of every node of a workflow that has a tree resolve. -/
theorem exists_resolvesIn {d : Document} {c : Catalog} {w : Workflow} {n : NodeDef} {id : String}
    (hwell : w.WellFormed d c w.Shown) (hn : w.node? id = some n) :
    ∃ slots, w.ResolvesIn n.id n.inputs slots := by
  have hsound (b : String) (k : NodeDef) (hk : w.node? b = some k) : k.Sound d c w :=
    hwell.sound k (Workflow.shown_of_node? hk)
  have hplace : Placeable (scopeOf d c w) false n :=
    placeable_of_sound (hsound id n hn) hsound (by simp)
  obtain ⟨t, σ, hrun⟩ := (exists_plainNode (σ := [])).mpr hplace
  exact ⟨t.inputs, (resolves_plainNode hrun).2.2⟩

/-- The inputs of a node resolve, the one of the name `key` to the value. Where the tree shows the node
itself, these are its inputs. -/
def Gives (w : Workflow) (t : WorkflowTree) (id key : String) (v : Resolved) : Prop :=
  ∃ n slots, w.node? id = some n ∧ w.ResolvesIn id n.inputs slots ∧ firstOf? key slots = some v ∧
    ∀ x ∈ t.chainNodes ++ t.orphans.map (·.node), x.id = id → x.inputs = slots

/-- What an input of the document resolves to is its value in the tree. -/
theorem gives_of_resolves {d : Document} {c : Catalog} {w : Workflow} {t : WorkflowTree} {n : NodeDef}
    {id key : String} {e : InputExpr} {v : Resolved} (hids : w.nodeIds.Nodup)
    (h : ofWorkflow d c w = .ok t) (hn : w.node? id = some n) (he : firstOf? key n.inputs = some e)
    (hv : w.Resolves id key e v) : Gives w t id key v := by
  have hid := Workflow.node?_id hn
  obtain ⟨slots, hslots⟩ := exists_resolvesIn (wellFormed_of_ofWorkflow h) hn
  rw [hid] at hslots
  obtain ⟨v', hfirst, hv'⟩ := hslots.exists_firstOf? he
  refine ⟨n, slots, hn, hslots, hfirst.trans (congrArg some (hv.unique hv')), fun x hx hxid => ?_⟩
  have hshows : ShowsNode w x := by
    rcases List.mem_append.mp hx with hx | hx
    · exact showsNode_of_mem_chainNodes h x hx
    · obtain ⟨o, ho, rfl⟩ := List.mem_map.mp hx
      exact showsNode_of_mem_orphans hids h o ho
  obtain ⟨k, hk, -, hinputs⟩ := hshows
  obtain rfl := Option.some.inj (hn.symm.trans (hxid ▸ hk))
  rw [hid] at hinputs
  exact hslots.unique hinputs

end Tree

end BlockFlow
