import BlockFlow.Proofs.Edit.Renumbering
import BlockFlow.Proofs.Form.Branches

/-!
Taking a numbered branch out of a node in a scene. Main statement: the nodes that go along are gone,
pointers to them are cleared, and the branches with higher numbers move down by one, lowest first, and
lead where they did.
-/

namespace BlockFlow

open Outcome InputExpr

open Form (ordinal?_numberedName)

/-- Whether a name is that of a numbered branch of an opcode. -/
def Catalog.numbersBranch (c : Catalog) (opcode name : String) : Bool :=
  (c.numberedBranches? opcode).any fun p => (ordinal? name p.1).isSome

namespace NodeDef

/-- The node with some of its pointers cleared. A numbered branch stays and leads nowhere, another one
goes. -/
def clearHits (hit : LinkSlot → Bool) (numbered : String → Bool) (n : NodeDef) : NodeDef :=
  { n with
    next := if hit .next then none else n.next
    branches := n.branches.filterMap fun b =>
      if hit (.branch b.1) then if numbered b.1 then some (b.1, none) else none else some b }

/-- The node with other inputs. -/
def withInputs (inputs : Inputs) (n : NodeDef) : NodeDef := { n with inputs := inputs }

/-- The node without a branch. -/
def dropBranch (name : String) (n : NodeDef) : NodeDef :=
  { n with branches := n.branches.filter (·.1 ≠ name) }

/-- The node with other names for its branches. -/
def renameBranches (f : String → String) (n : NodeDef) : NodeDef :=
  { n with branches := n.branches.map fun b => (f b.1, b.2) }

/-- The node with its pointers into `gone` cleared, but for some that are kept and if it is outside
`gone` itself. -/
def cutBut (c : Catalog) (gone : List String) (kept : String × LinkSlot → Bool) (n : NodeDef) :
    NodeDef :=
  n.clearHits (fun s =>
    !gone.contains n.id && !kept (n.id, s) && (n.target? s).any gone.contains)
    (c.numbersBranch n.opcode)

/-- The node with its pointers into `gone` cleared. -/
def cut (c : Catalog) (gone : List String) (n : NodeDef) : NodeDef :=
  n.clearHits (fun s => (n.target? s).any gone.contains) (c.numbersBranch n.opcode)

/-- The node with its pointers into `gone` cleared. The node `id` loses a branch, and its others get
other names. -/
def pruned (c : Catalog) (gone : List String) (id branch : String) (f : String → String)
    (n : NodeDef) : NodeDef :=
  if n.id = id then ((n.cut c gone).dropBranch branch).renameBranches f else n.cut c gone

section Clear

variable {n : NodeDef} {hit hit' : LinkSlot → Bool} {numbered : String → Bool} {name : String}

@[simp] theorem id_withInputs {inputs : Inputs} : (n.withInputs inputs).id = n.id := rfl

theorem branchNames_withInputs {inputs : Inputs} :
    (n.withInputs inputs).branchNames = n.branchNames := rfl

@[simp] theorem id_clearHits : (n.clearHits hit numbered).id = n.id := rfl

@[simp] theorem inputs_clearHits : (n.clearHits hit numbered).inputs = n.inputs := rfl

/-- What becomes of a branch when some pointers are cleared. -/
theorem clearHits_branches : (n.clearHits hit numbered).branches = n.branches.filterMap fun b =>
    if hit (.branch b.1) then if numbered b.1 then some (b.1, none) else none else some b := rfl

theorem clearHits_congr (h : ∀ s, hit s = hit' s) :
    n.clearHits hit numbered = n.clearHits hit' numbered := by
  rw [funext h]

theorem clearHits_none (h : ∀ s, hit s = false) : n.clearHits hit numbered = n := by
  simp [clearHits, h]

/-- Clearing one pointer. -/
theorem cleared_eq {keep : Bool} {slot : LinkSlot} (numbered : String → Bool)
    (hkeep : ∀ name, slot = .branch name → keep = numbered name) :
    n.cleared keep slot = n.clearHits (fun s => decide (s = slot)) numbered := by
  cases slot with
  | next => simp [cleared, clearHits]
  | branch name =>
    obtain rfl := hkeep name rfl
    rw [cleared, clearHits]
    cases hnumbered : numbered name with
    | true =>
      have hbranches : (n.branches.filterMap fun b => if b.1 = name then
          if numbered b.1 then some (b.1, none) else none else some b) =
            n.branches.map fun b => if b.1 = name then (name, none) else b := by
        rw [← List.filterMap_eq_map]
        refine List.filterMap_congr fun b _ => ?_
        by_cases hb : b.1 = name <;> simp [hb, hnumbered]
      simp [hbranches]
    | false =>
      have hbranches : (n.branches.filterMap fun b => if b.1 = name then
          if numbered b.1 then some (b.1, none) else none else some b) =
            n.branches.filter (·.1 ≠ name) := by
        rw [← List.filterMap_eq_filter]
        refine List.filterMap_congr fun b _ => ?_
        by_cases hb : b.1 = name <;> simp [hb, hnumbered, Option.guard]
      simp [hbranches]

/-- Clearing some pointers and then others. -/
theorem clearHits_clearHits : (n.clearHits hit numbered).clearHits hit' numbered =
    n.clearHits (fun s => hit s || hit' s) numbered := by
  have hbranches : ((n.clearHits hit numbered).clearHits hit' numbered).branches =
      (n.clearHits (fun s => hit s || hit' s) numbered).branches := by
    rw [clearHits_branches, clearHits_branches, clearHits_branches, List.filterMap_filterMap]
    refine List.filterMap_congr fun b _ => ?_
    cases hnumbered : numbered b.1 <;> cases hhit : hit (.branch b.1) <;> simp [hnumbered]
  have hnext : ((n.clearHits hit numbered).clearHits hit' numbered).next =
      (n.clearHits (fun s => hit s || hit' s) numbered).next := by
    cases h : hit .next <;> cases h' : hit' .next <;> simp [clearHits, h, h']
  exact congrArg₂ (fun next branches => { n with next := next, branches := branches }) hnext hbranches

/-- What is done to a branch that goes does not matter. -/
theorem dropBranch_clearHits (h : ∀ s, s ≠ .branch name → hit s = hit' s) :
    (n.clearHits hit numbered).dropBranch name = (n.clearHits hit' numbered).dropBranch name := by
  have hbranches : (n.clearHits hit numbered).branches.filter (·.1 ≠ name) =
      (n.clearHits hit' numbered).branches.filter (·.1 ≠ name) := by
    rw [clearHits_branches, clearHits_branches, List.filter_filterMap, List.filter_filterMap]
    refine List.filterMap_congr fun b _ => ?_
    by_cases hb : b.1 = name
    · cases numbered b.1 <;> cases hit (.branch b.1) <;> cases hit' (.branch b.1) <;>
        simp [Option.filter, hb]
    · rw [h _ (by simpa using hb)]
  have hnext : (n.clearHits hit numbered).next = (n.clearHits hit' numbered).next := by
    rw [clearHits, clearHits, h .next (by simp)]
  exact congrArg₂ (fun next branches => { n with next := next, branches := branches }) hnext hbranches

/-- A pointer that is kept belongs to a branch that goes, or to another node. -/
theorem pruned_eq {c : Catalog} {gone : List String} {id branch : String} {f : String → String}
    {kept : String × LinkSlot → Bool} (hkept : ∀ p, kept p = decide (p = (id, .branch branch)))
    (hid : n.id ∉ gone) : n.pruned c gone id branch f = if n.id = id then
      ((n.cutBut c gone kept).dropBranch branch).renameBranches f else n.cutBut c gone kept := by
  have hcut (s : LinkSlot) : (!gone.contains n.id && !kept (n.id, s) &&
      (n.target? s).any gone.contains) =
        (!decide ((n.id, s) = (id, .branch branch)) && (n.target? s).any gone.contains) := by
    simp [hkept, hid]
  rw [pruned, cut, cutBut, clearHits_congr hcut]
  by_cases hmine : n.id = id
  · rw [if_pos hmine, if_pos hmine]
    refine congrArg (renameBranches f) (dropBranch_clearHits fun s hs => ?_)
    simp [hs]
  · rw [if_neg hmine, if_neg hmine]
    exact clearHits_congr fun s => by simp [hmine]

/-- Numbered branches stay. -/
theorem branchNames_clearHits : (n.clearHits hit numbered).branchNames =
    n.branchNames.filter fun name => !hit (.branch name) || numbered name := by
  rw [branchNames, clearHits_branches, branchNames, List.map_filterMap, List.filter_map,
    ← List.filterMap_eq_filter, List.map_filterMap]
  refine List.filterMap_congr fun b _ => ?_
  cases hhit : hit (.branch b.1) <;> cases hnumbered : numbered b.1 <;>
    simp [hhit, hnumbered, Option.guard]

theorem id_renameBranches (f : String → String) (n : NodeDef) : (n.renameBranches f).id = n.id := rfl

theorem id_dropBranch (name : String) (n : NodeDef) : (n.dropBranch name).id = n.id := rfl

theorem branchNames_dropBranch :
    (n.dropBranch name).branchNames = n.branchNames.filter (· ≠ name) := by
  rw [branchNames, branchNames, dropBranch, List.filter_map]
  rfl

theorem branchNames_cut_subset {c : Catalog} {gone : List String} :
    ((n.cut c gone).dropBranch name).branchNames ⊆ n.branchNames := by
  intro other hother
  rw [branchNames_dropBranch, cut, branchNames_clearHits] at hother
  exact List.mem_of_mem_filter (List.mem_of_mem_filter hother)

theorem renameBranches_congr {f f' : String → String} (h : ∀ name ∈ n.branchNames, f name = f' name) :
    n.renameBranches f = n.renameBranches f' := by
  refine congrArg (fun bs => { n with branches := bs }) (List.map_congr_left fun b hb => ?_)
  rw [h b.1 (List.mem_map_of_mem hb)]

theorem branchNames_renameBranches (f : String → String) :
    (n.renameBranches f).branchNames = n.branchNames.map f := by
  rw [branchNames, branchNames, renameBranches, List.map_map, List.map_map]
  rfl

end Clear

end NodeDef

/-- Changing the node with an id twice. -/
theorem map_ite_map_ite {f g : NodeDef → NodeDef} {id : String} {ns : List NodeDef}
    (hf : ∀ n, (f n).id = n.id) : ((ns.map fun n => if n.id = id then f n else n).map fun n =>
      if n.id = id then g n else n) = ns.map fun n => if n.id = id then g (f n) else n := by
  rw [List.map_map]
  refine List.map_congr_left fun n _ => ?_
  by_cases hid : n.id = id <;> simp [hid, hf]

/-- Lowering the lowest number of a branch first, and the others then, is lowering all. -/
theorem MovesDown.renameBranches_rename {stem : String} {k : Nat} {ks : List Nat} {n : NodeDef}
    (h : MovesDown stem (k :: ks) n.branchNames) :
    (n.renameBranches fun name => if name = numberedName stem k then numberedName stem (k - 1)
      else name).renameBranches (lowered stem ks) = n.renameBranches (lowered stem (k :: ks)) := by
  refine congrArg (fun bs => { n with branches := bs }) ?_
  rw [NodeDef.renameBranches, List.map_map]
  refine List.map_congr_left fun b hb => ?_
  rw [Function.comp_apply, h.lowered_rename (List.mem_map_of_mem hb)]

/-- The name of a numbered branch once the one with number `k` is gone. -/
def movedDown (stem : String) (k : Nat) (name : String) : String :=
  match ordinal? name stem with
  | some j => if k < j then numberedName stem (j - 1) else name
  | none => name

/-- Of some names, those with a number above `k` move down when these numbers are lowered. -/
theorem lowered_numbersAbove {stem name : String} {k : Nat} {names : List String}
    (h : name ∈ names) : lowered stem (numbersAbove stem k names) name = movedDown stem k name := by
  rw [lowered, movedDown]
  cases hj : ordinal? name stem with
  | none => rfl
  | some j =>
    have hmem : j ∈ numbersAbove stem k names ↔ k < j := by
      rw [numbersAbove, (ascending_perm _).mem_iff, List.mem_filter, decide_eq_true_eq]
      exact and_iff_right (List.mem_filterMap.mpr ⟨name, h, hj⟩)
    simp only [hmem]

/-- The numbers above that of a branch can be lowered once it is left out, whatever else is cleared. -/
theorem MovesDown.of_clearHits {stem branch : String} {k : Nat} {n : NodeDef}
    {hit : LinkSlot → Bool} {numbered : String → Bool} (hnodup : n.branchNames.Nodup)
    (hcanonical : Canonical stem (branch :: n.branchNames)) (hk : ordinal? branch stem = some k)
    (hnumbered : ∀ name, (ordinal? name stem).isSome → numbered name) :
    MovesDown stem (numbersAbove stem k n.branchNames)
      ((n.clearHits hit numbered).dropBranch branch).branchNames := by
  have hmoves := MovesDown.of_filter hnodup (fun name hname => hcanonical name
    (List.mem_cons_of_mem _ hname)) hk (hcanonical branch List.mem_cons_self k hk)
  rw [NodeDef.branchNames_dropBranch, NodeDef.branchNames_clearHits]
  refine hmoves.sublist (List.filter_sublist.filter _) fun j hj => ?_
  obtain ⟨hmem, hne⟩ := List.mem_filter.mp (hmoves.mem j hj)
  obtain ⟨hlow, hhigh⟩ := hmoves.bounds j hj
  have hordinal := ordinal?_numberedName stem (show 1 ≤ j by omega) hhigh
  rw [List.mem_filter, List.mem_filter, hnumbered _ (by rw [hordinal]; rfl), Bool.or_true]
  exact ⟨⟨hmem, rfl⟩, hne⟩

namespace Workflow

/-- The nodes that go along with a branch of a node: what pointers lead to from its head, and what goes
along with that. -/
def branchRemoval (w : Workflow) (g : LinkGraph) (n : NodeDef) (branch : String) : List String :=
  w.removalSet g ((n.branchHead? branch).toList.flatMap g.reachableFrom)

/-- The second workflow is the first without the nodes in `gone` and without a branch of the node
`id`: nothing leads to what is gone or references it, and the other branches of that node get other
names. -/
structure Pruned (c : Catalog) (gone : List String) (id branch : String) (f : String → String)
    (w w' : Workflow) : Prop where
  name : w'.name = w.name
  interface : w'.interface = w.interface
  vars : w'.vars = w.vars
  nodes : List.Forall₂ (fun n n' => ∃ inputs, ResetIn (fun _ r => r ∈ gone) [] n.inputs inputs ∧
    n' = (n.pruned c gone id branch f).withInputs inputs)
    (w.nodes.filter fun n => !gone.contains n.id) w'.nodes

/-- The other names of branches matter for the names there are. -/
theorem Pruned.congr {c : Catalog} {gone : List String} {branch : String} {f f' : String → String}
    {w w' : Workflow} {n : NodeDef} (h : Pruned c gone n.id branch f w w') (hids : w.nodeIds.Nodup)
    (hn : n ∈ w.nodes) (hf : ∀ name ∈ n.branchNames, f name = f' name) :
    Pruned c gone n.id branch f' w w' := by
  refine ⟨h.name, h.interface, h.vars,
    ((List.forall₂_and_left _ _).mpr ⟨fun _ hm => hm, h.nodes⟩).imp ?_⟩
  rintro m m' ⟨hm, inputs, hinputs, rfl⟩
  refine ⟨inputs, hinputs, congrArg _ ?_⟩
  by_cases hid : m.id = n.id
  · obtain rfl : m = n := List.inj_on_of_nodup_map hids (List.mem_of_mem_filter hm) hn hid
    rw [NodeDef.pruned, NodeDef.pruned, if_pos rfl, if_pos rfl]
    exact NodeDef.renameBranches_congr fun name hname =>
      hf name (NodeDef.branchNames_cut_subset hname)
  · rw [NodeDef.pruned, NodeDef.pruned, if_neg hid, if_neg hid]

end Workflow

namespace Draft

variable {d d' : Draft} {w : Workflow} {n : NodeDef} {name id branch : String}

theorem isNumbered_branch (hw : d.document.workflow? w.name = some w) (hids : w.nodeIds.Nodup)
    (hn : n ∈ w.nodes) :
    d.isNumbered w.name n.id (.branch name) = d.catalog.numbersBranch n.opcode name := by
  simp only [isNumbered, hw, Option.bind_some, Workflow.node?_eq_some hids hn,
    Catalog.numbersBranch, Catalog.numberedBranches?]
  cases d.catalog.branches? n.opcode with
  | none => rfl
  | some slots => cases slots <;> rfl

theorem isNumbered_withOutline (d : Draft) (o : Outline) :
    (d.withOutline o).isNumbered = d.isNumbered := rfl

/-- A numbered branch is removed in five steps: what leads to the nodes that go along is cleared, what
references them is reset, the entry of the branch goes, those with higher numbers move down, and the
nodes are removed. -/
theorem steps_of_removeBranch {stem : String} {least k : Nat}
    (h : d.removeBranch w.name id branch = .ok d') (hw : d.document.workflow? w.name = some w)
    (hn : w.node? id = some n) (hstem : d.catalog.numberedBranches? n.opcode = some (stem, least))
    (hk : ordinal? branch stem = some k) : ∃ g gone d₁ d₂ d₃ d₄, LinkGraph.build w = .ok g ∧
      gone = w.branchRemoval g n branch ∧
      d.clearInto g w.name gone (· = (id, .branch branch)) = .ok d₁ ∧
      d₁.resetReferences w gone = .ok d₂ ∧ d₂.removeFrom w.name id "branches" branch = .ok d₃ ∧
      d₃.renumber w.name id "branches" stem (numbersAbove stem k n.branchNames) = .ok d₄ ∧
      d₄.removeNodes w.name gone = .ok d' := by
  unfold removeBranch at h
  simp only [bind_eq_ok, workflow_eq_ok, hw, Option.some.injEq, exists_eq_left', node_eq_ok, hn,
    numberedBranches, hstem, Except.ok.injEq] at h
  split at h
  · cases h
  · rename_i j hj
    obtain ⟨hj, -⟩ := Option.filter_eq_some_iff.mp hj
    obtain rfl : k = j := Option.some.inj (hk.symm.trans hj)
    split at h
    · cases h
    · simp only [bind_eq_ok, graph_eq_ok] at h
      obtain ⟨g, hg, d₁, hclear, d₂, hreset, d₃, hremove, d₄, hrenumber, h⟩ := h
      exact ⟨g, _, d₁, d₂, d₃, d₄, hg, rfl, hclear, hreset, hremove, hrenumber, h⟩

end Draft

namespace Scene

variable {S : Scene} {ws₁ ws₂ : List Workflow} {w : Workflow} {ns : List NodeDef}
  {id stem : String} {d d' : Draft} {ks : List Nat} {plain : Prop}

/-- The block at the line of a node. With other entries in it, that change no inputs, the outline holds
another node in its place. -/
theorem Hosts.exists_line_block {i : Nat} (h : S.Hosts ws₁ w ws₂) (hd : S.Carries plain d ns)
    (hline : d.nodeLine w.name id = .ok i) : ∃ (s : Slot) (fs : List (String × Form)) (n : NodeDef),
      n ∈ ns ∧ n.id = id ∧ i = s.line ∧ d.outline = s.fill (.map fs) ∧ Form.Loads fs n ∧
        ∀ (fs' : List (String × Form)) (f : NodeDef → NodeDef), Form.Loads fs' (f n) →
          (f n).id = n.id → Form.SameInputs fs fs' →
            S.Carries plain (d.withOutline (s.fill (.map fs')))
              (ns.map fun m => if m.id = id then f m else m) := by
  obtain ⟨span, hspan, hline⟩ := bind_eq_ok.mp hline
  cases hline
  obtain ⟨s, fs, n, hn, hid, hstart, houtline, hload, hplain, hreplace⟩ := h.exists_block hd hspan
  refine ⟨s, fs, n, hn, hid, hstart, houtline, hload, fun fs' f hload' hf hinputs => ?_⟩
  exact hreplace fs' f hload' (hf.trans hid) fun hp g hg => hplain hp g (hinputs ▸ hg)

/-- Clearing a pointer. -/
theorem Hosts.clearPointer {slot : LinkSlot} (h : S.Hosts ws₁ w ws₂) (hd : S.Carries plain d ns)
    (hok : d.setPointer w.name id slot none = .ok d') : ∃ o, d' = d.withOutline o ∧
      S.Carries plain d' (ns.map fun n =>
        if n.id = id then n.cleared (d.isNumbered w.name id slot) slot else n) := by
  obtain ⟨line, hline, hok⟩ := bind_eq_ok.mp hok
  cases hok
  obtain ⟨s, fs, n, -, -, rfl, houtline, hload, hreplace⟩ := h.exists_line_block hd hline
  obtain ⟨fs', hset, hload', hinputs⟩ :=
    Slot.clearPointer_fill (s := s) (d.isNumbered w.name id slot) slot hload
  refine ⟨_, rfl, ?_⟩
  rw [houtline, hset]
  exact hreplace fs' (fun n => n.cleared _ slot) hload' (Form.repointed_cleared _ n slot).id hinputs

/-- Clearing pointers, one after the other. -/
theorem Hosts.clearPointers {slots : List (String × LinkSlot)} (h : S.Hosts ws₁ w ws₂)
    (hd : S.Carries plain d ns) (hok : d.setPointers w.name slots none = .ok d') :
    ∃ o, d' = d.withOutline o ∧ S.Carries plain d' (ns.map fun n => n.clearHits
      (fun s => decide ((n.id, s) ∈ slots)) fun name => d.isNumbered w.name n.id (.branch name)) := by
  induction slots generalizing d ns with
  | nil =>
    cases hok
    have hself : (ns.map fun n => n.clearHits (fun s => decide ((n.id, s) ∈ []))
        fun name => d'.isNumbered w.name n.id (.branch name)) = ns :=
      (List.map_congr_left fun n _ => NodeDef.clearHits_none fun s => by simp).trans (List.map_id ns)
    exact ⟨d'.outline, rfl, by rwa [hself]⟩
  | cons p slots ih =>
    obtain ⟨source, slot⟩ := p
    rw [Draft.setPointers, List.foldlM_cons] at hok
    obtain ⟨m, hm, hok⟩ := bind_eq_ok.mp hok
    obtain ⟨o, rfl, hd⟩ := h.clearPointer hd hm
    obtain ⟨o', rfl, hd⟩ := ih hd hok
    refine ⟨o', rfl, ?_⟩
    rw [List.map_map] at hd
    convert hd using 1
    refine List.map_congr_left fun n _ => ?_
    rw [Function.comp_apply, Draft.isNumbered_withOutline]
    by_cases hn : n.id = source
    · subst hn
      rw [if_pos rfl, NodeDef.cleared_eq fun name => d.isNumbered w.name n.id (.branch name)]
      · rw [NodeDef.id_clearHits, NodeDef.clearHits_clearHits]
        exact NodeDef.clearHits_congr fun s => by simp
      · rintro name rfl
        rfl
    · simp [hn]

/-- Clearing the pointers from outside `gone` into it, but for some that are kept, when inputs may have
changed. -/
theorem Hosts.clearInto {g : LinkGraph} {gone : List String} {kept : String × LinkSlot → Bool}
    (h : S.Hosts ws₁ w ws₂) (hd : S.Carries plain d ns) (hw : d.document.workflow? w.name = some w)
    (hids : w.nodeIds.Nodup) (hbranches : ∀ n ∈ w.nodes, n.branchNames.Nodup)
    (hsame : List.Forall₂ (fun n n' => ∃ inputs, n' = n.withInputs inputs) w.nodes ns)
    (hg : LinkGraph.build w = .ok g) (hok : d.clearInto g w.name gone kept = .ok d') :
    S.Carries plain d' (ns.map (NodeDef.cutBut d.catalog gone kept)) := by
  have hslots := foldlM_flatMap.trans hok
  obtain ⟨o, rfl, hcleared⟩ := h.clearPointers hd hslots
  convert hcleared using 1
  refine List.map_congr_left fun n' hn' => ?_
  obtain ⟨n, hn, inputs, rfl⟩ := exists_mem_of_forall₂ hsame.flip hn'
  have hnumbered : (fun name => d.isNumbered w.name n.id (.branch name)) =
      d.catalog.numbersBranch n.opcode := funext fun name => Draft.isNumbered_branch hw hids hn
  rw [NodeDef.id_withInputs, hnumbered, NodeDef.cutBut]
  refine NodeDef.clearHits_congr fun s => ?_
  have hmem (x : String) : (n.id, s) ∈ g.incoming x ↔ (n.withInputs inputs).target? s = some x := by
    cases s <;> exact LinkGraph.mem_incoming_iff hg hids hbranches hn
  rw [Bool.eq_iff_iff, decide_eq_true_iff, List.mem_flatMap]
  simp only [List.mem_filter, hmem, Bool.and_eq_true, Option.any_eq_true, List.contains_eq_mem,
    decide_eq_true_eq, Bool.not_eq_true', NodeDef.id_withInputs]
  constructor
  · rintro ⟨hrest, t, ht, hgone⟩
    exact ⟨t, hgone, ht, hrest⟩
  · rintro ⟨t, hgone, ht, hrest⟩
    exact ⟨hrest, t, ht, hgone⟩

/-- Leaving out a branch. -/
theorem Hosts.dropBranch {name : String} (h : S.Hosts ws₁ w ws₂) (hd : S.Carries plain d ns)
    (hok : d.removeFrom w.name id "branches" name = .ok d') :
    S.Carries plain d' (ns.map fun n => if n.id = id then n.dropBranch name else n) := by
  obtain ⟨line, hline, hok⟩ := bind_eq_ok.mp hok
  obtain ⟨s, fs, n, -, -, rfl, houtline, hload, hreplace⟩ := h.exists_line_block hd hline
  rcases Slot.dropBranch_fill (s := s) hload name with
    ⟨hnone, hempty⟩ | ⟨block, fs', hblock, hremove, hinputs, hload'⟩
  · rw [houtline, hnone] at hok
    cases hok
    have hself : n.dropBranch name = n := by
      rw [NodeDef.dropBranch, hempty, List.filter_nil, ← hempty]
    have hsame := hreplace fs (·.dropBranch name) (by rwa [hself]) rfl rfl
    rw [← houtline] at hsame
    exact hsame
  · rw [houtline, hblock] at hok
    cases hok
    rw [hremove]
    exact hreplace fs' (·.dropBranch name) hload' rfl hinputs

/-- Lowering numbers of branches, one after the other. -/
theorem Hosts.lowerBranches (h : S.Hosts ws₁ w ws₂) (hd : S.Carries plain d ns) (hstem : stem ∈ Form.stems)
    (hmoves : ∀ n ∈ ns, n.id = id → MovesDown stem ks n.branchNames)
    (hok : d.renumber w.name id "branches" stem ks = .ok d') : S.Carries plain d' (ns.map fun n =>
      if n.id = id then n.renameBranches (lowered stem ks) else n) := by
  induction ks generalizing d ns with
  | nil =>
    cases hok
    have hself : (ns.map fun n => if n.id = id then n.renameBranches (lowered stem []) else n) =
        ns := by
      refine (List.map_congr_left fun n _ => ?_).trans (List.map_id ns)
      have hlowered (name : String) : lowered stem [] name = name := by
        rw [lowered]
        split <;> simp
      simp [NodeDef.renameBranches, hlowered]
    rwa [hself]
  | cons k ks ih =>
    obtain ⟨line, hline, hok⟩ := bind_eq_ok.mp hok
    obtain ⟨s, fs, n, hn, hid, rfl, houtline, hload, hreplace⟩ := h.exists_line_block hd hline
    have hmine := hmoves n hn hid
    obtain ⟨hlow, hhigh⟩ := hmine.bounds k List.mem_cons_self
    obtain ⟨block, entry, fs', hblock, hentry, hrename, hinputs, hload'⟩ :=
      Slot.renameBranch_fill (s := s) hload (hmine.mem k List.mem_cons_self)
        (Form.isKey_numberedName hstem (show k - 1 < 2 ^ 64 by omega)) hmine.fresh
    have hrenamed : (n.renameBranches fun name =>
        if name = numberedName stem k then numberedName stem (k - 1) else name) =
          { n with branches := n.branches.map fun b =>
            if b.1 = numberedName stem k then (numberedName stem (k - 1), b.2) else b } := by
      refine congrArg (fun bs => { n with branches := bs }) (List.map_congr_left fun b _ => ?_)
      by_cases hb : b.1 = numberedName stem k <;> simp [hb]
    have hnew := hreplace fs' _ (hrenamed ▸ hload') (NodeDef.id_renameBranches _ n) hinputs
    simp only [houtline, hblock, hentry, hrename] at hok
    have hlater := ih hnew (fun m hm hmid => ?_) hok
    · rw [map_ite_map_ite (NodeDef.id_renameBranches _)] at hlater
      convert hlater using 1
      refine List.map_congr_left fun m hm => ?_
      split
      · rename_i hmid
        exact (hmoves m hm hmid).renameBranches_rename.symm
      · rfl
    · obtain ⟨m₀, hm₀, rfl⟩ := List.mem_map.mp hm
      by_cases hmid₀ : m₀.id = id
      · rw [if_pos hmid₀, NodeDef.branchNames_renameBranches]
        exact (hmoves m₀ hm₀ hmid₀).step
      · rw [if_neg hmid₀] at hmid
        exact absurd hmid hmid₀

/-- Resetting the references into `gone` once other parts of the nodes were changed. -/
theorem Hosts.resetGone {f : NodeDef → NodeDef} {gone : List String} (h : S.Hosts ws₁ w ws₂)
    (hids : w.nodeIds.Nodup) (hd : S.Holds d (w.nodes.map f))
    (hf : ∀ n, (f n).id = n.id ∧ (f n).inputs = n.inputs) (hok : d.resetReferences w gone = .ok d') :
    ∃ ns', S.Holds d' ns' ∧ List.Forall₂ (fun n n' => ∃ inputs, n' = (f n).withInputs inputs ∧
      (n.id ∉ gone → ResetIn (fun _ r => r ∈ gone) [] n.inputs inputs)) w.nodes ns' := by
  have hkept : (w.nodes.map f).map (·.id) = w.nodeIds := by
    rw [List.map_map]
    exact List.map_congr_left fun n _ => (hf n).1
  have hrefs : ∀ m ∈ w.nodes.map f, w.referencePaths m.id = refPathsIn [] m.inputs := by
    intro m hm
    obtain ⟨n, hn, rfl⟩ := List.mem_map.mp hm
    rw [Workflow.referencePaths, (hf n).1, (hf n).2, Workflow.node?_eq_some hids hn]
  obtain ⟨ns', hd', hreset⟩ := h.resetNodes hd
    (fun i hi => hkept ▸ List.mem_of_mem_filter hi) hrefs hok
  refine ⟨ns', hd', ((List.forall₂_and_left _ _).mpr
    ⟨fun _ hn => hn, List.forall₂_map_left_iff.mp hreset⟩).imp ?_⟩
  rintro n n' ⟨hn, inputs, rfl, hinputs⟩
  rw [(hf n).1, (hf n).2] at hinputs
  refine ⟨inputs, rfl, fun hgone => ResetIn.congr _ _ _ hinputs fun p _ => ?_⟩
  have hmem : n.id ∈ w.nodeIds := List.mem_map_of_mem hn
  simp [hmem, hgone]

/-- Nodes that were cut and reset, those outside `gone`. -/
theorem pruned_filter {c : Catalog} {gone : List String} {branch : String} {f : String → String}
    {kept : String × LinkSlot → Bool} {ns' : List NodeDef}
    (hkept : ∀ p, kept p = decide (p = (id, .branch branch)))
    (h : List.Forall₂ (fun n n' => ∃ inputs, n' = (n.cutBut c gone kept).withInputs inputs ∧
      (n.id ∉ gone → ResetIn (fun _ r => r ∈ gone) [] n.inputs inputs)) ns ns') :
    List.Forall₂ (fun n n' => ∃ inputs, ResetIn (fun _ r => r ∈ gone) [] n.inputs inputs ∧
      n' = (n.pruned c gone id branch f).withInputs inputs) (ns.filter fun n => !gone.contains n.id)
        ((ns'.map fun n => if n.id = id then (n.dropBranch branch).renameBranches f else n).filter
          fun n => !gone.contains n.id) := by
  refine kept_of_forall₂ (List.forall₂_map_right_iff.mpr (h.imp ?_))
  rintro n _ ⟨inputs, rfl, hinputs⟩
  refine ⟨by split <;> rfl, fun hgone => ⟨inputs, hinputs hgone, ?_⟩⟩
  rw [NodeDef.pruned_eq hkept hgone]
  by_cases hid : n.id = id
  · rw [if_pos hid, if_pos (by exact hid)]
    rfl
  · rw [if_neg hid, if_neg (by exact hid)]

/-- Removing a numbered branch prunes the workflow. -/
theorem Hosts.pruned_of_removeBranch {n : NodeDef} {branch : String} {least k : Nat}
    (h : S.Hosts ws₁ w ws₂) (hd : S.Holds d w.nodes) (hw : d.document.workflow? w.name = some w)
    (hn : w.node? id = some n) (hstem : d.catalog.numberedBranches? n.opcode = some (stem, least))
    (hword : stem ∈ Form.stems) (hk : ordinal? branch stem = some k)
    (hcanonical : Canonical stem (branch :: n.branchNames))
    (hok : d.removeBranch w.name id branch = .ok d') :
    ∃ g ns', LinkGraph.build w = .ok g ∧ S.Holds d' ns' ∧
      w.Pruned d.catalog (w.branchRemoval g n branch) id branch (movedDown stem k)
        { w with nodes := ns' } := by
  obtain ⟨g, gone, d₁, d₂, d₃, d₄, hg, hgone, hclear, hresets, hdrop, hlower, hremove⟩ :=
    Draft.steps_of_removeBranch hok hw hn hstem hk
  have hids := hd.nodup_ids
  have hmem := Workflow.node?_mem hn
  obtain rfl := Workflow.node?_id hn
  have hbranches : ∀ m ∈ w.nodes, m.branchNames.Nodup := fun m => (holds_iff.mp hd).nodup_branchNames
  have hd₁ := h.clearInto (holds_iff.mp hd) hw hids hbranches
    (List.forall₂_same.mpr fun m _ => ⟨m.inputs, rfl⟩) hg hclear
  obtain ⟨ns₂, hd₂, hreset⟩ :=
    h.resetGone hids (holds_iff.mpr hd₁) (fun _ => ⟨rfl, rfl⟩) hresets
  have hd₄ := h.lowerBranches (h.dropBranch (holds_iff.mp hd₂) hdrop) hword
    (fun m hm hid => ?_) hlower
  · rw [map_ite_map_ite (NodeDef.id_dropBranch branch)] at hd₄
    refine ⟨g, _, hg, holds_iff.mpr (h.removeNodes hd₄ hremove), ?_⟩
    rw [← hgone]
    exact Workflow.Pruned.congr ⟨rfl, rfl, rfl, pruned_filter (fun _ => rfl) hreset⟩ hids hmem
      fun _ hname => lowered_numbersAbove hname
  · obtain ⟨m₂, hm₂, rfl⟩ := List.mem_map.mp hm
    obtain ⟨m₀, hm₀, inputs, rfl, -⟩ := exists_mem_of_forall₂ hreset.flip hm₂
    have hid₀ : m₀.id = n.id := by
      split at hid <;> exact hid
    obtain rfl : m₀ = n := List.inj_on_of_nodup_map hids hm₀ hmem hid₀
    rw [if_pos (by rfl), NodeDef.branchNames_dropBranch, NodeDef.branchNames_withInputs,
      ← NodeDef.branchNames_dropBranch]
    refine MovesDown.of_clearHits (hbranches m₀ hm₀) hcanonical hk fun name hname => ?_
    rw [Catalog.numbersBranch, hstem]
    exact hname

end Scene

end BlockFlow
