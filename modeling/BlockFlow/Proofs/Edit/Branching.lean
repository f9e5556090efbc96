import BlockFlow.Catalog.Builtin
import BlockFlow.Proofs.Edit.Pruning
import BlockFlow.Proofs.Edit.Start

/-!
Removing numbered branches in texts in block style. Main statement: what the removal takes out of the
workflow is known, and it takes the branch and no more exactly when what goes along with the branch is
apart from the rest.
-/

namespace BlockFlow

open Outcome Relation

namespace NodeDef

variable {c : Catalog} {gone : List String} {id branch : String} {f : String → String} {n : NodeDef}
  {b : String × Option String} {s : LinkSlot} {t : String}

theorem id_pruned {inputs : Inputs} : ((n.pruned c gone id branch f).withInputs inputs).id = n.id := by
  rw [pruned]
  split <;> rfl

theorem target?_of_mem_branches (hnodup : n.branchNames.Nodup) (hb : b ∈ n.branches) :
    n.target? (.branch b.1) = b.2 :=
  congrArg Option.join (firstOf?_of_mem hnodup hb)

/-- Pointers that are left lead outside `gone`. -/
theorem of_mem_pointers_cut (hnodup : n.branchNames.Nodup) (h : (s, t) ∈ (n.cut c gone).pointers) :
    (s, t) ∈ n.pointers ∧ t ∉ gone := by
  cases s with
  | next =>
    have hnext := mem_pointers_next.mp h
    rw [cut, clearHits] at hnext
    split at hnext
    · cases hnext
    · rename_i hhit
      refine ⟨mem_pointers_next.mpr hnext, fun hgone => hhit ?_⟩
      rw [target?, show n.next = some t from hnext]
      simpa using hgone
  | branch name =>
    obtain ⟨b, hb, heq⟩ := List.mem_filterMap.mp (mem_pointers_branch.mp h)
    simp only [target?_of_mem_branches hnodup hb] at heq
    split at heq
    · split at heq <;> cases heq
    · rename_i hhit
      cases heq
      exact ⟨mem_pointers_branch.mpr hb, fun hgone => hhit (by simpa using hgone)⟩

theorem exists_of_mem_pointers_pruned {inputs : Inputs} (hnodup : n.branchNames.Nodup)
    (h : (s, t) ∈ ((n.pruned c gone id branch f).withInputs inputs).pointers) :
    ∃ s₀, (s₀, t) ∈ n.pointers ∧ t ∉ gone := by
  rw [pruned] at h
  split at h
  · cases s with
    | next =>
      have hnext := mem_pointers_next.mp h
      exact ⟨.next, of_mem_pointers_cut (c := c) hnodup (mem_pointers_next.mpr hnext)⟩
    | branch name =>
      obtain ⟨⟨name₀, head⟩, hb, heq⟩ := List.mem_map.mp (mem_pointers_branch.mp h)
      obtain ⟨-, rfl⟩ := Prod.mk.inj heq
      exact ⟨.branch name₀, of_mem_pointers_cut hnodup
        (mem_pointers_branch.mpr (List.mem_of_mem_filter hb))⟩
  · exact ⟨s, of_mem_pointers_cut hnodup h⟩

/-- The other branches of the node are left where their heads are. -/
theorem mem_branches_pruned {inputs : Inputs} (hnodup : n.branchNames.Nodup) (hb : b ∈ n.branches)
    (hne : b.1 ≠ branch) (hhead : ∀ t ∈ b.2, t ∉ gone) :
    (f b.1, b.2) ∈ ((n.pruned c gone n.id branch f).withInputs inputs).branches := by
  have hcut : b ∈ (n.cut c gone).branches := by
    refine List.mem_filterMap.mpr ⟨b, hb, if_neg ?_⟩
    simp only [target?_of_mem_branches hnodup hb, Option.any_eq_true]
    rintro ⟨t, ht, hgone⟩
    exact hhead t ht (by simpa using hgone)
  rw [pruned, if_pos rfl]
  exact List.mem_map_of_mem (List.mem_filter.mpr ⟨hcut, by simpa using hne⟩)

end NodeDef

namespace Workflow

/-- Pointers other than one of the node `source` lead from the start node to the node. -/
def ReachedWithout (w : Workflow) (source : String) (slot : LinkSlot) (id : String) : Prop :=
  ∃ start, w.startId? = some start ∧ ReflTransGen
    (fun a b => ∃ s, (a, s) ≠ (source, slot) ∧ w.pointer? a s = some b) start id

/-- The second workflow is the first without a branch of the node `id`, and no more: what other
pointers lead to from the start stays, the other branches of the node are there, under their new names
and with the same heads, and pointers name nodes. -/
structure LosesBranch (w w' : Workflow) (id branch : String) (f : String → String) : Prop where
  kept : ∀ x, w.ReachedWithout id (.branch branch) x → x ∈ w'.nodeIds
  others : ∀ n, w.node? id = some n → ∀ b ∈ n.branches, b.1 ≠ branch →
    ∃ n', w'.node? id = some n' ∧ (f b.1, b.2) ∈ n'.branches
  pointers : ∀ n ∈ w'.nodes, ∀ p ∈ n.pointers, p.2 ∈ w'.nodeIds

/-- What goes along with a branch of a node is apart from the rest: no other pointers lead to it from
the start, and neither the node, when it has other branches, nor their heads are in it. -/
structure BranchApart (w : Workflow) (n : NodeDef) (branch : String) (gone : List String) :
    Prop where
  unreached : ∀ x ∈ gone, ¬ w.ReachedWithout n.id (.branch branch) x
  others : ∀ b ∈ n.branches, b.1 ≠ branch → n.id ∉ gone ∧ ∀ t ∈ b.2, t ∉ gone

variable {w w' : Workflow} {n : NodeDef} {id branch x : String} {slot : LinkSlot}
  {gone : List String} {c : Catalog} {f : String → String}

theorem ReachedWithout.reached (h : w.ReachedWithout id slot x) : w.Reached x := by
  obtain ⟨start, hstart, hpath⟩ := h
  exact ⟨start, hstart, ReflTransGen.mono (fun _ _ ⟨s, _, hs⟩ => ⟨s, hs⟩) _ _ hpath⟩

/-- Checks that no pointer of a node that stays leads to what goes, but for one. -/
def keepsBranchApart (w : Workflow) (n : NodeDef) (branch : String) (gone : List String) : Bool :=
  (w.startId?.all fun s => !gone.contains s) && !gone.contains n.id &&
    w.nodes.all fun m => gone.contains m.id ||
      m.pointers.all fun p => (m.id, p.1) = (n.id, .branch branch) || !gone.contains p.2

theorem branchApart_of_check (hn : w.node? n.id = some n) (h : w.keepsBranchApart n branch gone) :
    w.BranchApart n branch gone := by
  simp only [keepsBranchApart, Bool.and_eq_true, List.all_eq_true, Option.all_eq_true,
    Bool.or_eq_true, Bool.not_eq_true', List.contains_eq_mem, decide_eq_true_eq,
    decide_eq_false_iff_not] at h
  obtain ⟨⟨hstart, hid⟩, hnodes⟩ := h
  constructor
  · rintro x hx ⟨start, hs, hpath⟩
    have hstays : ∀ y, ReflTransGen (fun a b => ∃ s, (a, s) ≠ (n.id, LinkSlot.branch branch) ∧
        w.pointer? a s = some b) start y → y ∉ gone := by
      intro y hy
      induction hy with
      | refl => exact hstart start hs
      | tail _ hstep ih =>
        obtain ⟨s, hne, hpointer⟩ := hstep
        obtain ⟨m, hm, htarget⟩ := Option.bind_eq_some_iff.mp hpointer
        obtain rfl := node?_id hm
        exact ((((hnodes m (node?_mem hm)).resolve_left ih) _
          (NodeDef.mem_pointers_of_target? htarget)).resolve_left hne)
    exact hstays x hpath hx
  · intro b hb hne
    refine ⟨hid, fun t ht hgone => ?_⟩
    have hpointer : (LinkSlot.branch b.1, t) ∈ n.pointers :=
      NodeDef.mem_pointers_branch.mpr (ht ▸ hb)
    exact (((hnodes n (node?_mem hn)).resolve_left hid) _ hpointer).elim
      (fun heq => hne (by simpa using heq)) (absurd hgone)

namespace Pruned

variable (h : w.Pruned c gone id branch f w')

include h

theorem mem_nodeIds : x ∈ w'.nodeIds ↔ x ∈ w.nodeIds ∧ x ∉ gone :=
  mem_nodeIds_of_kept h.nodes fun _ _ ⟨_, _, hn⟩ => hn ▸ NodeDef.id_pruned

/-- Pointers that are left name nodes that are left. -/
theorem pointers (hpointers : ∀ n ∈ w.nodes, ∀ p ∈ n.pointers, p.2 ∈ w.nodeIds)
    (hbranches : ∀ n ∈ w.nodes, n.branchNames.Nodup) :
    ∀ n ∈ w'.nodes, ∀ p ∈ n.pointers, p.2 ∈ w'.nodeIds := by
  rintro n' hn' ⟨s, t⟩ hp
  obtain ⟨n, hn, -, inputs, -, rfl⟩ := exists_mem_of_kept h.nodes hn'
  obtain ⟨s₀, hs₀, hkept⟩ := NodeDef.exists_of_mem_pointers_pruned (hbranches n hn) hp
  exact h.mem_nodeIds.mpr ⟨hpointers n hn (s₀, t) hs₀, hkept⟩

/-- The branch is lost, and no more, exactly where what goes along with it is apart from the rest. -/
theorem losesBranch_iff (hn : w.node? n.id = some n) (hid : id = n.id)
    (hpointers : ∀ n ∈ w.nodes, ∀ p ∈ n.pointers, p.2 ∈ w.nodeIds)
    (hbranches : ∀ n ∈ w.nodes, n.branchNames.Nodup) :
    w.LosesBranch w' id branch f ↔ w.BranchApart n branch gone := by
  subst hid
  constructor
  · intro hloses
    refine ⟨fun x hx hreached => ?_, fun b hb hne => ?_⟩
    · exact (h.mem_nodeIds.mp (hloses.kept x hreached)).2 hx
    · obtain ⟨n', hn', hmem⟩ := hloses.others n hn b hb hne
      refine ⟨(h.mem_nodeIds.mp (mem_nodeIds_of_node? hn')).2, fun t ht hgone => ?_⟩
      rw [Option.mem_def.mp ht] at hmem
      exact (h.mem_nodeIds.mp (hloses.pointers n' (node?_mem hn') _
        (NodeDef.mem_pointers_branch.mpr hmem))).2 hgone
  · intro hapart
    refine ⟨fun x hreached => ?_, fun m hm b hb hne => ?_, h.pointers hpointers hbranches⟩
    · exact h.mem_nodeIds.mpr ⟨hreached.reached.mem_nodeIds hpointers,
        fun hx => hapart.unreached x hx hreached⟩
    · obtain rfl : n = m := Option.some.inj (hn.symm.trans hm)
      obtain ⟨hkept, hhead⟩ := hapart.others b hb hne
      obtain ⟨n', hn', inputs, -, rfl⟩ := exists_node?_of_kept h.nodes
        (fun _ _ ⟨_, _, hn⟩ => hn ▸ NodeDef.id_pruned) hkept hn
      exact ⟨_, hn', NodeDef.mem_branches_pruned (hbranches n (node?_mem hn)) hb hne hhead⟩

end Pruned

end Workflow

namespace Catalog

theorem mem_stems_branches {opcode stem : String} {least : Nat}
    (h : builtin.numberedBranches? opcode = some (stem, least)) : stem ∈ Form.stems := by
  have hall : ∀ spec ∈ builtin.specs, ∀ p ∈ builtin.numberedBranches? spec.opcode,
      p.1 ∈ Form.stems := by decide +kernel
  cases hspec : builtin.get? opcode with
  | none => simp [numberedBranches?, branches?, hspec] at h
  | some spec =>
    obtain rfl : spec.opcode = opcode := by simpa using List.find?_some hspec
    exact hall spec (List.mem_of_find?_eq_some hspec) (stem, least) h

end Catalog

namespace Edit

/-- Removing a numbered branch of a text in block style takes out what goes along with it and the
branch, and those with higher numbers move down. The branch is lost, and no more, exactly where what
goes along with it is apart from the rest. -/
theorem losesBranch_of_apply (F : Form) (t : Tree) (d : Document) (w : Workflow) (n : NodeDef)
    (name id branch stem : String) (least k : Nat) (r : Edited) (hF : F.isDocument)
    (hcalls : F.callsPlain) (ht : Tree.parse Catalog.builtin (String.ofList F.chars) = .ok t)
    (hd : Document.load (String.ofList F.chars) = .ok d) (hw : d.workflow? name = some w)
    (hn : w.node? id = some n)
    (hstem : Catalog.builtin.numberedBranches? n.opcode = some (stem, least))
    (hk : ordinal? branch stem = some k) (hcanonical : Canonical stem (branch :: n.branchNames))
    (hr : (Edit.removeBranch name id branch).apply Catalog.builtin (String.ofList F.chars) = .ok r) :
    ∃ (g : LinkGraph) (F' : Form) (d' : Document) (w' : Workflow), LinkGraph.build w = .ok g ∧
      F'.isDocument ∧ r.text = String.ofList F'.chars ∧ Document.load r.text = .ok d' ∧
      d'.workflow? name = some w' ∧ Document.Changed name (Workflow.Pruned Catalog.builtin
        (w.branchRemoval g n branch) id branch (movedDown stem k)) d d' ∧
      (w.LosesBranch w' id branch (movedDown stem k) ↔
        w.BranchApart n branch (w.branchRemoval g n branch)) := by
  obtain rfl : w.name = name := by simpa using List.find?_some hw
  obtain rfl := Workflow.node?_id hn
  have hwell := (Tree.exists_parse hd).mp ⟨t, ht⟩ w (List.mem_of_find?_eq_some hw)
  have hg := LinkGraph.build_eq_ok.mpr ⟨hwell.pointers, rfl⟩
  obtain ⟨F', d', hF', htext, hd', hchange⟩ := exists_changed (R := Workflow.Pruned
    Catalog.builtin (w.branchRemoval _ n branch) n.id branch (movedDown stem k)) hF hd hw
    (List.ne_nil_of_mem (Workflow.node?_mem hn)) hr
    fun S ws₁ ws₂ es after made hhosts hes hplain hrun => by
      obtain ⟨g, ns', hg', ⟨es', hfill, hes', -⟩, hpruned⟩ :=
        hhosts.pruned_of_removeBranch ⟨es, rfl, hes, hplain hcalls⟩ hw hn hstem
          (Catalog.mem_stems_branches hstem) hk hcanonical (run_changed hrun)
      obtain rfl := Except.ok.inj (hg.symm.trans hg')
      exact ⟨es', ns', hfill, hes', hpruned⟩
  obtain ⟨w', hw', hpruned⟩ := hchange.exists_workflow? (fun _ _ h => h.name) hw
  obtain ⟨-, hbranches⟩ := Scene.nodup_of_isDocument hF hd hw
  exact ⟨_, F', d', w', hg, hF', htext, hd', hw', hchange,
    hpruned.losesBranch_iff hn rfl hwell.pointers hbranches⟩

/-- The switch `f` with three cases; what its second case leads to uses `s`. -/
def switched : Form :=
  let word (s : String) : Form := .leaf (.plain s.toList)
  .map [("workflows", .seq [.map [("name", word "m"), ("nodes", .map [
    ("start", .map [("opcode", word "workflow_start"), ("next", word "f")]),
    ("f", .map [("opcode", word "control_switch"), ("branches", .map [("CASE1", word "x"),
      ("CASE2", word "y"), ("CASE3", word "z")])]),
    ("x", .map [("opcode", word "io_print")]),
    ("y", .map [("opcode", word "io_print"), ("inputs", .map [
      ("STRING", .map [("node", word "s")])])]),
    ("s", .map [("opcode", word "io_input")]),
    ("z", .map [("opcode", word "io_print")])])]])]

set_option maxRecDepth 2000 in
theorem switched_losesBranch : ∃ (t : Tree) (d d' : Document) (w w' : Workflow) (r : Edited),
    Tree.parse Catalog.builtin (String.ofList switched.chars) = .ok t ∧
    Document.load (String.ofList switched.chars) = .ok d ∧ d.workflow? "m" = some w ∧
    (Edit.removeBranch "m" "f" "CASE2").apply Catalog.builtin (String.ofList switched.chars) = .ok r ∧
    Document.load r.text = .ok d' ∧ d'.workflow? "m" = some w' ∧
    w.LosesBranch w' "f" "CASE2" (movedDown "CASE" 2) := by
  have hF : switched.isDocument := by decide +kernel
  have hcalls : switched.callsPlain := by decide +kernel
  have hcheck : (documents? Catalog.builtin (.removeBranch "m" "f" "CASE2") switched.chars).any
      fun p => (Tree.ofDocument p.1 Catalog.builtin).isOk && (p.1.workflow? "m").any fun w =>
        (w.node? "f").any fun n =>
          Catalog.builtin.numberedBranches? n.opcode = some ("CASE", 1) &&
          Canonical "CASE" ("CASE2" :: n.branchNames) &&
          (LinkGraph.build w).toOption.any fun g =>
            w.keepsBranchApart n "CASE2" (w.branchRemoval g n "CASE2") := by decide +kernel
  obtain ⟨d, r, _, hd, hr, -, hdocs⟩ := exists_apply rfl hcheck
  simp only [Option.any_eq_true, toOption_eq_some, Bool.and_eq_true, isOk_iff,
    decide_eq_true_eq] at hdocs
  obtain ⟨⟨t, ht⟩, w, hw, n, hn, ⟨hstem, hcanonical⟩, g, hg, hcheck⟩ := hdocs
  rw [← Tree.parse_eq_ofDocument hd] at ht
  have hk : ordinal? "CASE2" "CASE" = some 2 := by decide +kernel
  obtain ⟨g', -, d', w', hg', -, -, hd', hw', -, hloses⟩ := losesBranch_of_apply switched t d w n "m"
    "f" "CASE2" "CASE" 1 2 r hF hcalls ht hd hw hn hstem hk hcanonical hr
  obtain rfl : g = g' := Except.ok.inj (hg.symm.trans hg')
  have hid := Workflow.node?_id hn
  exact ⟨t, d, d', w, w', r, ht, hd, hw, hr, hd', hw',
    hloses.mpr (Workflow.branchApart_of_check (hid ▸ hn) hcheck)⟩

/-- The cases of the switch `f` are written in braces. -/
def bracedCases : String :=
  "workflows:
  - name: m
    nodes:
      start:
        opcode: workflow_start
        next: f
      f:
        opcode: control_switch
        branches: \x7bCASE1: x, CASE2: y\x7d
      x:
        opcode: io_print
      y:
        opcode: io_print
"

set_option maxRecDepth 2000 in
/-- Cases in braces stay when what they lead to goes. -/
theorem remove_bracedCase : ¬ ∀ (text name id branch stem : String) (least k : Nat) (r : Edited)
    (t : Tree) (d : Document) (w : Workflow) (n : NodeDef),
    Tree.parse Catalog.builtin text = .ok t → Document.load text = .ok d →
    d.workflow? name = some w → w.node? id = some n →
    Catalog.builtin.numberedBranches? n.opcode = some (stem, least) →
    ordinal? branch stem = some k →
    (Edit.removeBranch name id branch).apply Catalog.builtin text = .ok r →
    ∃ d' w', Document.load r.text = .ok d' ∧ d'.workflow? name = some w' ∧
      w.LosesBranch w' id branch (movedDown stem k) := by
  intro h
  obtain ⟨cs, htext, hcheck⟩ : ∃ cs, bracedCases = String.ofList cs ∧
      (documents? Catalog.builtin (.removeBranch "m" "f" "CASE2") cs).any (fun p =>
        (Tree.ofDocument p.1 Catalog.builtin).isOk && ((p.1.workflow? "m").any fun w =>
          (w.node? "f").any fun n =>
            Catalog.builtin.numberedBranches? n.opcode = some ("CASE", 1)) &&
        (p.2.workflow? "m").any fun w => w.pointer? "f" (.branch "CASE2") = some "y" &&
          !w.nodeIds.contains "y") := ⟨_, rfl, by decide +kernel⟩
  obtain ⟨d, r, d', hd, hr, hd', hdocs⟩ := exists_apply htext hcheck
  simp only [Bool.and_eq_true, Option.any_eq_true, isOk_iff, decide_eq_true_eq, Bool.not_eq_true',
    List.contains_eq_mem, decide_eq_false_iff_not] at hdocs
  obtain ⟨⟨⟨t, ht⟩, w, hw, n, hn, hstem⟩, v, hv, hpointer, hgone⟩ := hdocs
  rw [← Tree.parse_eq_ofDocument hd] at ht
  have hk : ordinal? "CASE2" "CASE" = some 2 := by decide +kernel
  obtain ⟨d₂, w', hd₂, hw', hloses⟩ :=
    h bracedCases "m" "f" "CASE2" "CASE" 1 2 r t d w n ht hd hw hn hstem hk hr
  obtain rfl : d' = d₂ := Except.ok.inj (hd'.symm.trans hd₂)
  obtain rfl : v = w' := Option.some.inj (hv.symm.trans hw')
  obtain ⟨m, hm, htarget⟩ := Option.bind_eq_some_iff.mp hpointer
  exact hgone (hloses.pointers m (Workflow.node?_mem hm) _
    (NodeDef.mem_pointers_of_target? htarget))

end Edit

end BlockFlow
