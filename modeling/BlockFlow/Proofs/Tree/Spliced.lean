import BlockFlow.Proofs.Form.Pointer
import BlockFlow.Proofs.Tree.Added

/-!
Workflows with one more node between a pointer and where it led. Main statement: they have a tree, and
behind the last node of the main chain the new node is the last one of it.
-/

namespace BlockFlow

open Relation Outcome InputExpr

section Slots

variable {c : Catalog} {n : NodeDef} {name target : String} {present : List String}

theorem numberedCount_append (stem : String) (least : Nat) (present : List String) (name : String) :
    numberedCount stem least present ≤ numberedCount stem least (present ++ [name]) := by
  simp only [numberedCount, largest, List.filterMap_append, List.length_append, List.foldl_append]
  cases h : ordinal? name stem with
  | none => simp [h]
  | some k =>
    simp only [List.filterMap_cons, h, List.filterMap_nil, List.foldl_cons, List.foldl_nil,
      List.length_singleton]
    omega

/-- With one more branch, a node has the slots that it had. -/
theorem Catalog.branchSlots_append (c : Catalog) (opcode name : String) :
    c.branchSlots opcode present ⊆ c.branchSlots opcode (present ++ [name]) := by
  intro x hx
  unfold branchSlots at hx ⊢
  cases hslots : c.branches? opcode with
  | none =>
    rw [hslots] at hx
    cases hx
  | some slots =>
    rw [hslots] at hx
    cases slots with
    | fixed names => exact hx
    | numbered leading stem least trailing =>
      have hle := numberedCount_append stem least present name
      simp only [BranchSlots.names, List.mem_append, List.mem_map, List.mem_range] at hx ⊢
      rcases hx with (hx | ⟨i, hi, rfl⟩) | hx
      · exact .inl (.inl hx)
      · exact .inl (.inr ⟨i, by omega, rfl⟩)
      · exact .inr hx

namespace NodeDef

theorem branchNames_linkedTo (target : String) (n : NodeDef) (name : String) :
    (n.linkedTo target (.branch name)).branchNames =
      if name ∈ n.branchNames then n.branchNames else n.branchNames ++ [name] := by
  rw [linkedTo, branchNames]
  split
  · rw [List.map_map, branchNames]
    refine List.map_congr_left fun b _ => ?_
    by_cases hb : b.1 = name <;> simp [hb]
  · rw [List.map_append, branchNames]
    rfl

theorem nodup_branchNames_linkedTo (target : String) (slot : LinkSlot) (h : n.branchNames.Nodup) :
    (n.linkedTo target slot).branchNames.Nodup := by
  cases slot with
  | next => exact h
  | branch name =>
    rw [branchNames_linkedTo]
    split
    · exact h
    · rename_i hname
      refine List.nodup_append.mpr ⟨h, List.nodup_singleton _, fun x hx y hy heq => hname ?_⟩
      rw [List.mem_singleton] at hy
      exact hy ▸ heq ▸ hx

/-- Pointers of the node are those it had and the new one. -/
theorem mem_pointers_linkedTo {slot : LinkSlot} {p : LinkSlot × String} (hb : n.branchNames.Nodup)
    (h : p ∈ (n.linkedTo target slot).pointers) : p = (slot, target) ∨ p ∈ n.pointers := by
  have ht := target?_of_mem_pointers (nodup_branchNames_linkedTo target slot hb) h
  rw [(Form.repointed_linkedTo target n slot).target?, Form.pointed] at ht
  split at ht
  · rename_i hslot
    exact .inl (Prod.ext hslot (Option.some.inj ht).symm)
  · exact .inr (mem_pointers_of_target? ht)

/-- Whether a pointer may be set: a branch must be one of the slots of a node that controls flow. -/
def Takes (c : Catalog) (n : NodeDef) (slot : LinkSlot) : Prop :=
  ∀ name, slot = .branch name →
    c.isControlFlow n.opcode ∧ name ∈ c.branchSlots n.opcode n.branchNames

theorem fits_linkedTo {slot : LinkSlot} (target : String) (h : n.BranchesFit c)
    (hslot : n.Takes c slot) : (n.linkedTo target slot).BranchesFit c := by
  cases slot with
  | next => exact ⟨h.slots, h.empty⟩
  | branch name =>
    obtain ⟨hflow, hmem⟩ := hslot name rfl
    refine ⟨fun _ => ?_, fun hno => absurd hflow hno⟩
    rw [branchNames_linkedTo]
    split
    · exact h.slots hflow
    · refine List.forall_mem_append.mpr ⟨fun x hx => ?_, List.forall_mem_singleton.mpr ?_⟩
      · exact c.branchSlots_append _ _ (h.slots hflow x hx)
      · exact c.branchSlots_append _ _ hmem

end NodeDef

end Slots

namespace Workflow

variable {w w' : Workflow} {m n : NodeDef} {id x a b : String} {slot : LinkSlot}

/-- The second workflow is the first with a new node behind the node `id`, to which a pointer of that
node leads. -/
structure Spliced (w : Workflow) (id : String) (slot : LinkSlot) (m : NodeDef) (w' : Workflow) :
    Prop where
  nodes : ∃ ns₁ n ns₂, w.nodes = ns₁ ++ n :: ns₂ ∧ n.id = id ∧
    w' = { w with nodes := ns₁ ++ n.linkedTo m.id slot :: m :: ns₂ }
  new : m.id ∉ w.nodeIds

namespace Spliced

variable (h : w.Spliced id slot m w')
include h

theorem mem_nodeIds_iff : x ∈ w'.nodeIds ↔ x = m.id ∨ x ∈ w.nodeIds := by
  obtain ⟨ns₁, n, ns₂, hns, -, rfl⟩ := h.nodes
  have hid : (n.linkedTo m.id slot).id = n.id := (Form.repointed_linkedTo m.id n slot).id
  simp only [nodeIds, hns, List.map_append, List.map_cons, List.mem_append, List.mem_cons, hid]
  tauto

theorem nodup (hd : w.nodeIds.Nodup) : w'.nodeIds.Nodup := by
  have hnew := h.new
  obtain ⟨ns₁, n, ns₂, hns, -, rfl⟩ := h.nodes
  have hid : (n.linkedTo m.id slot).id = n.id := (Form.repointed_linkedTo m.id n slot).id
  have hperm : (ns₁ ++ n.linkedTo m.id slot :: m :: ns₂).Perm
      (m :: (ns₁ ++ n.linkedTo m.id slot :: ns₂)) :=
    ((List.Perm.swap _ _ ns₂).append_left ns₁).trans List.perm_middle
  have hsame : (ns₁ ++ n.linkedTo m.id slot :: ns₂).map (·.id) = w.nodeIds := by
    simp [nodeIds, hns, hid]
  refine (hperm.map _).nodup_iff.mpr (List.nodup_cons.mpr ⟨?_, ?_⟩)
  · rw [hsame]
    exact hnew
  · rw [hsame]
    exact hd

/-- What the first node with some property is called, when properties do not depend on pointers and
the new node does not have it. -/
theorem find?_id {p : NodeDef → Bool} (hp : ∀ n, p (n.linkedTo m.id slot) = p n) (hm : p m = false) :
    (w'.nodes.find? p).map (·.id) = (w.nodes.find? p).map (·.id) := by
  obtain ⟨ns₁, n, ns₂, hns, -, rfl⟩ := h.nodes
  have hid : (n.linkedTo m.id slot).id = n.id := (Form.repointed_linkedTo m.id n slot).id
  simp only [hns, List.find?_append, List.find?_cons, hp, hm]
  cases ns₁.find? p with
  | some k => rfl
  | none =>
    cases p n with
    | true => exact congrArg some hid
    | false => rfl

/-- The start node stays the start. -/
theorem startId? (hop : m.opcode ≠ startOpcode) (hid : m.id ≠ BlockFlow.startId) :
    w'.startId? = w.startId? := by
  have hsame (n : NodeDef) := Form.repointed_linkedTo m.id n slot
  unfold Workflow.startId? startNode? node?
  rw [Option.map_or, Option.map_or, h.find?_id (fun n => by rw [(hsame n).opcode]) (by simpa using hop),
    h.find?_id (fun n => by rw [(hsame n).id]) (by simpa using hid)]

theorem node?_of_ne (hx : x ≠ id) (hne : x ≠ m.id) : w'.node? x = w.node? x := by
  obtain ⟨ns₁, n, ns₂, hns, rfl, rfl⟩ := h.nodes
  have hid : (n.linkedTo m.id slot).id = n.id := (Form.repointed_linkedTo m.id n slot).id
  simp [node?, hns, List.find?_append, hid, Ne.symm hx, Ne.symm hne]

variable (hd : w.nodeIds.Nodup)
include hd

theorem node?_new : w'.node? m.id = some m := by
  refine node?_eq_some (h.nodup hd) ?_
  obtain ⟨ns₁, n, ns₂, -, -, rfl⟩ := h.nodes
  simp

/-- The node in front of the new one. -/
theorem exists_self : ∃ n, w.node? id = some n ∧ w'.node? id = some (n.linkedTo m.id slot) := by
  have hd' := h.nodup hd
  obtain ⟨ns₁, n, ns₂, hns, rfl, rfl⟩ := h.nodes
  have hid : (n.linkedTo m.id slot).id = n.id := (Form.repointed_linkedTo m.id n slot).id
  refine ⟨n, node?_eq_some hd (by simp [hns]), ?_⟩
  rw [← hid]
  exact node?_eq_some hd' (by simp)

/-- The nodes that are found under an id. -/
theorem node?_cases (hn : w'.node? x = some n) : x = m.id ∧ n = m ∨
    (∃ k, w.node? x = some k ∧ x = id ∧ n = k.linkedTo m.id slot) ∨
      x ≠ id ∧ x ≠ m.id ∧ w.node? x = some n := by
  by_cases hnew : x = m.id
  · subst hnew
    exact .inl ⟨rfl, (Option.some.inj ((h.node?_new hd).symm.trans hn)).symm⟩
  · by_cases hself : x = id
    · subst hself
      obtain ⟨k, hk, hk'⟩ := h.exists_self hd
      exact .inr (.inl ⟨k, hk, rfl, (Option.some.inj (hk'.symm.trans hn)).symm⟩)
    · exact .inr (.inr ⟨hself, hnew, h.node?_of_ne hself hnew ▸ hn⟩)

theorem exists_node? (hn : w.node? x = some n) :
    ∃ n', w'.node? x = some n' ∧ n'.reporter = n.reporter := by
  by_cases hself : x = id
  · subst hself
    obtain ⟨k, hk, hk'⟩ := h.exists_self hd
    obtain rfl : n = k := Option.some.inj (hn.symm.trans hk)
    have hsame := Form.repointed_linkedTo m.id n slot
    refine ⟨_, hk', ?_⟩
    rw [NodeDef.reporter, NodeDef.reporter, hsame.id, hsame.opcode, hsame.inputs]
  · have hne : x ≠ m.id := by
      rintro rfl
      exact h.new (mem_nodeIds_of_node? hn)
    exact ⟨n, (h.node?_of_ne hself hne).trans hn, rfl⟩

end Spliced

/-- A node that looks nothing up: its inputs are literals. It is no start node and has no branches. -/
structure Literal (c : Catalog) (m : NodeDef) : Prop where
  known : (c.get? m.opcode).isSome
  opcode : m.opcode ≠ startOpcode
  id : m.id ≠ BlockFlow.startId
  branches : m.branches = []
  inputs : ∀ i ∈ m.inputs, ∃ v, i.2 = .literal v

section Next

variable {c : Catalog} (h : w.Spliced id slot m w') (hd : w.nodeIds.Nodup)
  (hb : ∀ n ∈ w.nodes, n.branchNames.Nodup) (hm : Literal c m)
  (hp : ∀ n ∈ w.nodes, ∀ p ∈ n.pointers, p.2 ∈ w.nodeIds)
  (hnext : ∀ t ∈ m.next, w.pointer? id slot = some t ∨ w.Linked t)

include h hd hb hm

/-- The new node leads on, the one before it leads to it, and all others lead where they did. -/
theorem Spliced.names_cases (hab : w'.Names a b) : a = m.id ∧ m.next = some b ∨
    a = id ∧ b = m.id ∨ a ≠ m.id ∧ w.Names a b := by
  obtain ⟨n, hn, rfl, s, hs⟩ := hab
  rcases h.node?_cases hd (node?_eq_some (h.nodup hd) hn) with
    ⟨hid, rfl⟩ | ⟨k, hk, hid, rfl⟩ | ⟨-, hne, hk⟩
  · refine .inl ⟨hid, ?_⟩
    cases s with
    | next => exact NodeDef.mem_pointers_next.mp hs
    | branch name =>
      rw [NodeDef.mem_pointers_branch, hm.branches] at hs
      cases hs
  · rcases NodeDef.mem_pointers_linkedTo (hb k (node?_mem hk)) hs with heq | hs
    · exact .inr (.inl ⟨hid, congrArg Prod.snd heq⟩)
    · refine .inr (.inr ⟨?_, k, node?_mem hk, node?_id hk, s, hs⟩)
      rintro heq
      exact h.new (heq ▸ mem_nodeIds_of_node? hk)
  · exact .inr (.inr ⟨hne, n, node?_mem hk, rfl, s, hs⟩)

include hp hnext

/-- Nothing else is linked that was not before. -/
theorem Spliced.linked_cases (hx : w'.Linked x) :
    x = m.id ∧ w.Linked id ∨ x ≠ m.id ∧ w.Linked x := by
  have hnode {y : String} (hy : w.Linked y) : y ≠ m.id := by
    rintro rfl
    exact h.new (hy.mem_nodeIds hp)
  obtain ⟨start, hstart, hx⟩ := hx
  rw [h.startId? hm.opcode hm.id] at hstart
  induction hx with
  | refl => exact .inr ⟨hnode ⟨start, hstart, .refl⟩, start, hstart, .refl⟩
  | @tail a b _ hab ih =>
    rcases h.names_cases hd hb hm hab with ⟨rfl, hb⟩ | ⟨rfl, rfl⟩ | ⟨hne, hab⟩
    · -- Behind the new node comes what its pointer led to, or what was linked anyway.
      obtain ⟨-, hid⟩ | ⟨hne, -⟩ := ih
      · rcases hnext b hb with hold | hb
        · obtain ⟨first, hfirst, hpath⟩ := hid
          have hb : w.Linked b := ⟨first, hfirst, hpath.tail (Leads.names ⟨slot, hold⟩)⟩
          exact .inr ⟨hnode hb, hb⟩
        · exact .inr ⟨hnode hb, hb⟩
      · exact absurd rfl hne
    · obtain ⟨heq, hid⟩ | ⟨-, hid⟩ := ih
      · exact .inl ⟨rfl, hid⟩
      · exact .inl ⟨rfl, hid⟩
    · obtain ⟨heq, -⟩ | ⟨-, first, hfirst, hpath⟩ := ih
      · exact absurd heq hne
      · have hb : w.Linked b := ⟨first, hfirst, hpath.tail hab⟩
        exact .inr ⟨hnode hb, hb⟩

theorem Spliced.pointers : ∀ n ∈ w'.nodes, ∀ p ∈ n.pointers, p.2 ∈ w'.nodeIds := by
  intro n hn p hpn
  refine h.mem_nodeIds_iff.mpr ?_
  rcases h.names_cases hd hb hm ⟨n, hn, rfl, p.1, hpn⟩ with ⟨-, ht⟩ | ⟨-, ht⟩ | ⟨-, k, hk, -, s, hs⟩
  · rcases hnext _ ht with hold | hlinked
    · exact .inr (Leads.mem_nodeIds hp ⟨slot, hold⟩)
    · exact .inr (hlinked.mem_nodeIds hp)
  · exact .inl ht
  · exact .inr (hp k hk (s, p.2) hs)

end Next

section WellFormed

variable {d d' : Document} {c : Catalog} (h : w.Spliced id slot m w') (hd : w.nodeIds.Nodup)
  (hb : ∀ n ∈ w.nodes, n.branchNames.Nodup) (hm : Literal c m)
  (hnext : ∀ t ∈ m.next, w.pointer? id slot = some t ∨ w.Linked t)
  (hcalls : ∀ name, (d.workflow? name).isSome → (d'.workflow? name).isSome)
  (hwf : w.WellFormed d c w.Shown)

theorem lookups_literal {ins : Inputs} (h : ∀ i ∈ ins, ∃ v, i.2 = .literal v) :
    nodeRefsIn ins = [] ∧ opcodesIn ins = [] ∧ callsIn ins = [] ∧
      ∀ (w : Workflow) (owner : String), reportersIn w owner ins = [] := by
  induction ins with
  | nil => exact ⟨rfl, rfl, rfl, fun _ _ => rfl⟩
  | cons i ins ih =>
    obtain ⟨⟨v, hv⟩, hrest⟩ := List.forall_mem_cons.mp h
    obtain ⟨hrefs, hops, hcalls, hreporters⟩ := ih hrest
    obtain ⟨key, e⟩ := i
    obtain rfl : e = .literal v := hv
    refine ⟨?_, ?_, ?_, fun w owner => ?_⟩
    · rw [nodeRefsIn, hrefs]
      rfl
    · rw [opcodesIn, hops]
      rfl
    · rw [callsIn, hcalls]
      rfl
    · rw [reportersIn, hreporters]
      rfl

/-- A node that looks nothing up needs its opcode alone. -/
theorem Literal.sound {d : Document} {c : Catalog} (hm : Literal c m) (w : Workflow) :
    m.Sound d c w := by
  obtain ⟨hrefs, hops, hcalls, hreporters⟩ := lookups_literal hm.inputs
  refine ⟨⟨hm.known, by simp [hops], by simp [hcalls]⟩, by simp [hrefs], fun rs hrs => ?_⟩
  cases rs with
  | nil => exact List.nodup_singleton _
  | cons s rs =>
    have huses : s ∈ reportersIn w m.id m.inputs := (List.isChain_cons_cons.mp hrs).1
    rw [hreporters] at huses
    cases huses

include h hd hm in
/-- The new node references nothing, and pointers do not matter for references. -/
theorem Spliced.cites (hab : w'.Cites a b) : w.Cites a b := by
  obtain ⟨n, hn⟩ := hab.exists_node?
  have hrefs := (cites_iff hn).mp hab
  rcases h.node?_cases hd hn with ⟨-, rfl⟩ | ⟨k, hk, -, rfl⟩ | ⟨-, -, hk⟩
  · rw [(lookups_literal hm.inputs).1] at hrefs
    cases hrefs
  · rw [(Form.repointed_linkedTo m.id k slot).inputs] at hrefs
    exact (cites_iff hk).mpr hrefs
  · exact (cites_iff hk).mpr hrefs

include h hd hb hm hnext hwf

theorem Spliced.used_cases (hx : w'.Used x) : x = m.id ∨ w.Used x := by
  obtain ⟨a, ha, hax⟩ := hx
  have hpath : ReflTransGen w.Cites a x := ReflTransGen.mono (fun _ _ => h.cites hd hm) _ _ hax
  rcases h.linked_cases hd hb hm hwf.pointers hnext ha.linked with ⟨rfl, -⟩ | ⟨-, ha⟩
  · rcases ReflTransGen.cases_head hpath with rfl | ⟨y, hy, -⟩
    · exact .inl rfl
    · obtain ⟨n, hn⟩ := hy.exists_node?
      exact absurd (mem_nodeIds_of_node? hn) h.new
  · exact .inr ⟨a, (reached_iff_linked hd hb).mpr ha, hpath⟩

include hcalls in
theorem Spliced.within : (Tree.scopeOf d c w).Within (Tree.scopeOf d' c w') where
  catalog := rfl
  calls := hcalls
  nodes _ _ hn := h.exists_node? hd hn
  chain x hx hnot hin := by
    rw [Tree.mem_scopeOf_chain (h.pointers hd hb hm hwf.pointers hnext)] at hin
    rcases h.linked_cases hd hb hm hwf.pointers hnext hin with ⟨rfl, -⟩ | ⟨-, hlinked⟩
    · exact h.new hx
    · exact hnot ((Tree.mem_scopeOf_chain hwf.pointers).mpr hlinked)
  size := by
    obtain ⟨ns₁, n, ns₂, hns, -, rfl⟩ := h.nodes
    simp [Tree.scopeOf, hns]

include hcalls in
/-- Splicing a node in keeps a workflow well formed. -/
theorem Spliced.wellFormed (htakes : ∀ n, w.node? id = some n → n.Takes c slot) :
    w'.WellFormed d' c w'.Shown where
  pointers := h.pointers hd hb hm hwf.pointers hnext
  start hstart := by
    rw [h.startId? hm.opcode hm.id] at hstart
    obtain ⟨ns₁, n, ns₂, hns, -, -⟩ := h.nodes
    rw [hwf.start hstart] at hns
    simp at hns
  sound n hn := by
    have hs := h.within hd hb hm hnext hcalls hwf
    have hfound := node?_eq_some (h.nodup hd) hn.1
    rcases h.node?_cases hd hfound with ⟨-, rfl⟩ | ⟨k, hk, -, rfl⟩ | ⟨-, -, hk⟩
    · exact hm.sound w'
    · have hsame := Form.repointed_linkedTo m.id k slot
      refine Tree.sound_within hs hwf hk ?_
      rw [NodeDef.reporter, NodeDef.reporter, hsame.id, hsame.opcode, hsame.inputs]
    · exact Tree.sound_within hs hwf hk rfl
  apart a b ha hab hlinked := by
    have hcites := h.cites hd hm hab
    obtain ⟨n, hn⟩ := hcites.exists_node?
    rcases h.used_cases hd hb hm hnext hwf ha with rfl | ha
    · exact h.new (mem_nodeIds_of_node? hn)
    · rcases h.linked_cases hd hb hm hwf.pointers hnext hlinked with ⟨rfl, -⟩ | ⟨-, hlinked⟩
      · exact h.new ((hwf.sound n (shown_of_node? hn)).refs _ ((cites_iff hn).mp hcites))
      · exact hwf.apart a b ha hcites hlinked
  branches n hn hreached := by
    have hold {x : String} (hx : w'.Reached x) (hne : x ≠ m.id) : w.Reached x := by
      rcases h.linked_cases hd hb hm hwf.pointers hnext hx.linked with ⟨heq, -⟩ | ⟨-, hlinked⟩
      · exact absurd heq hne
      · exact (reached_iff_linked hd hb).mpr hlinked
    have hfits {x : String} {k : NodeDef} (hk : w.node? x = some k) (hx : w'.Reached x) :
        k.BranchesFit c := by
      have hid := node?_id hk
      refine hwf.branches k (hid ▸ hk) (hid ▸ hold hx ?_)
      rintro rfl
      exact h.new (mem_nodeIds_of_node? hk)
    rcases h.node?_cases hd hn with ⟨-, rfl⟩ | ⟨k, hk, hid, rfl⟩ | ⟨-, -, hk⟩
    · exact ⟨by simp [NodeDef.branchNames, hm.branches], by simp [hm.branches]⟩
    · exact NodeDef.fits_linkedTo m.id (hfits hk hreached) (htakes k (hid ▸ hk))
    · exact hfits hk hreached

end WellFormed

end Workflow

namespace Tree

open Workflow (Spliced Literal)

section Walk

variable {s s' : Scope} {σ σ' : List String} {fuel : Nat} {head : Option String}

/-- A walk that places no node of its own places nothing. -/
theorem run_walkChain_nil (h : (walkChain s fuel head).run σ = .ok ([], σ')) : σ' = σ := by
  cases head with
  | none => exact ((run_walkChain_none _).mp h).2
  | some id =>
    cases fuel with
    | zero => exact (run_pure_eq_ok.mp h).2
    | succ fuel =>
      rcases run_walkChain_some.mp h with ⟨-, -, rfl⟩ | ⟨-, _, -, -, _, _, _, _, _, -, -, -, hnil⟩
      · rfl
      · cases hnil

theorem run_walkChain_placed {id : String} (h : id ∈ σ) :
    (walkChain s fuel (some id)).run σ = .ok ([], σ) := by
  cases fuel with
  | zero => exact run_pure_eq_ok.mpr ⟨rfl, rfl⟩
  | succ fuel => exact run_walkChain_some.mpr (.inl ⟨h, rfl, rfl⟩)

/-- Without branches there is nothing to walk in them. -/
theorem run_walkSlots_empty {n : NodeDef} (h : n.branches = []) (slots : List String) :
    (walkSlots (walkChain s fuel) n slots).run σ = .ok (slots.map fun slot => (slot, []), σ) := by
  induction slots with
  | nil => exact run_walkSlots_nil.mpr ⟨rfl, rfl⟩
  | cons slot slots ih =>
    have hhead : n.branchHead? slot = none := by rw [NodeDef.branchHead?, h]; rfl
    refine run_walkSlots_cons.mpr ⟨[], σ, _, ?_, ih, rfl⟩
    rw [hhead]
    exact (run_walkChain_none _).mpr ⟨rfl, rfl⟩

/-- The node of the tree shows the other one, with nothing in its branches. -/
structure ShowsBare (o : TreeNode) (m : NodeDef) : Prop where
  id : o.id = m.id
  opcode : o.opcode = m.opcode
  children : ∀ b ∈ o.children, b.2 = []

/-- A node that looks nothing up is the last one of a walk that comes to it, when it leads on to a
placed one. -/
theorem exists_walkChain_literal {m : NodeDef} (hm : Literal s.catalog m)
    (hfound : s.workflow.node? m.id = some m) (hnew : m.id ∉ σ) (hnext : ∀ x ∈ m.next, x ∈ σ)
    (fuel : Nat) :
    ∃ o σ', (walkChain s (fuel + 1) (some m.id)).run σ = .ok ([o], σ') ∧ ShowsBare o m := by
  have hsound := hm.sound (d := s.document) s.workflow
  have hrefs := (Workflow.lookups_literal hm.inputs).1
  have hplace : Placeable s true m := by
    refine ⟨hsound.known.opcode, ⟨hsound.known.opcodes, hsound.known.calls, ?_⟩,
      Workflow.unrepeated_self_iff.mpr hsound.acyclic⟩
    rw [hrefs]
    simp
  obtain ⟨o, τ, hplain⟩ := (exists_plainNode (σ := m.id :: σ)).mpr hplace
  have hrest : (walkChain s fuel m.next).run τ = .ok ([], τ) := by
    cases hx : m.next with
    | none => exact (run_walkChain_none _).mpr ⟨rfl, rfl⟩
    | some x =>
      exact run_walkChain_placed ((adds_plainNode hplain x).mpr
        (.inl (List.mem_cons_of_mem _ (hnext x hx))))
  have hfit : m.BranchesFit s.catalog :=
    ⟨by simp [NodeDef.branchNames, hm.branches], by simp [hm.branches]⟩
  refine ⟨_, τ, run_walkChain_some.mpr (.inr ⟨hnew, m, hfound, hfit, o, τ, _, τ, [], hplain,
    run_walkSlots_empty hm.branches _, hrest, rfl⟩), ?_⟩
  obtain ⟨spec, -, slots, -, rfl⟩ := run_plainNode.mp hplain
  exact ⟨rfl, rfl, by simp⟩

/-- A walk whose last own node leads on to a new node instead goes on with that one. By induction on the
fuel; up to the last node both walks go alike. -/
theorem exists_walkChain_append (hs : s.Within s')
    (hp : ∀ n ∈ s.workflow.nodes, ∀ p ∈ n.pointers, p.2 ∈ s.workflow.nodeIds) {m k : NodeDef}
    {last : TreeNode} {fuel' : Nat} (hle : fuel < fuel') (hm : Literal s'.catalog m)
    (hfound : s'.workflow.node? m.id = some m) (hk : s.workflow.node? last.id = some k)
    (hk' : s'.workflow.node? last.id = some { k with next := some m.id })
    (hother : ∀ x ∈ s.workflow.nodeIds, x ≠ last.id → s'.workflow.node? x = s.workflow.node? x)
    (hnew : m.id ∉ σ') (hnext : ∀ x ∈ m.next, x ∈ σ') {nodes : List TreeNode}
    (hhead : ∀ x ∈ head, x ∈ s.workflow.nodeIds) (hroom : Room s fuel σ)
    (h : (walkChain s fuel head).run σ = .ok (nodes ++ [last], σ')) :
    ∃ o υ, (walkChain s' fuel' head).run σ = .ok (nodes ++ [last, o], υ) ∧ ShowsBare o m := by
  induction fuel generalizing fuel' head σ nodes with
  | zero => cases head <;> exact absurd (run_pure_eq_ok.mp h).1 (by simp)
  | succ fuel ih =>
    obtain ⟨j, rfl⟩ := Nat.exists_eq_succ_of_ne_zero (by omega : fuel' ≠ 0)
    cases head with
    | none => exact absurd ((run_walkChain_none _).mp h).1 (by simp)
    | some id =>
      have hwalked := walks_walkChain hp (fuel + 1) _ _ _ _ hhead hroom h
      rcases run_walkChain_some.mp h with ⟨-, hnil, -⟩ |
        ⟨hid, n, hn, hfit, node, τ, children, υ, rest, hplain, hbranches, hrest, hnodes⟩
      · exact absurd hnil (by simp)
      · have hnode : node.id = id := by
          obtain ⟨_, -, _, -, rfl⟩ := run_plainNode.mp hplain
          exact Workflow.node?_id hn
        have hnodup := hwalked.nodup
        have hall (x : String) (hx : x ∈ chainIds (nodes ++ [last])) : x ∈ s.workflow.nodeIds := by
          obtain ⟨k, hk, -⟩ := hwalked.fit x hx
          exact Workflow.mem_nodeIds_of_node? hk
        rw [hnodes, chainIds_cons, hnode] at hnodup hall
        obtain ⟨hfresh, hnodup⟩ := List.nodup_cons.mp hnodup
        obtain ⟨-, -, hdisjoint⟩ := List.nodup_append.mp hnodup
        rw [List.mem_append, not_or] at hfresh
        have halike := walkChain_alike hs hp (by omega : fuel ≤ j)
        cases nodes with
        | nil =>
          -- This is the last node. Its branches are walked as before, and then the new node comes.
          obtain ⟨rfl, rfl⟩ := List.cons.inj hnodes
          obtain rfl : id = node.id := hnode.symm
          obtain rfl : k = n := Option.some.inj (hk.symm.trans hn)
          have hsame : ({ k with next := some m.id } : NodeDef).reporter = k.reporter := rfl
          obtain ⟨hplain', hbranches', -⟩ := branches_alike hs hp halike hroom hid hn hsame rfl hplain
            hbranches fun x hx => hother x (hall x (by simp [hx])) (by rintro rfl; exact hfresh.1 hx)
          obtain rfl := run_walkChain_nil hrest
          obtain ⟨i, rfl⟩ := Nat.exists_eq_succ_of_ne_zero (by omega : j ≠ 0)
          obtain ⟨o, υ, hlast, hshows⟩ := exists_walkChain_literal hm hfound hnew hnext i
          refine ⟨o, υ, run_walkChain_some.mpr (.inr ⟨hid, _, hk', ?_, node, τ, children, σ', [o],
            hplain', hbranches', hlast, rfl⟩), hshows⟩
          rw [hs.catalog]
          exact fits_congr (n := k) rfl rfl hfit
        | cons first nodes =>
          obtain ⟨rfl, rfl⟩ := List.cons.inj hnodes
          have hlast : last.id ∈ chainIds (nodes ++ [last]) := mem_chainIds (by simp)
          have hne : id ≠ last.id := fun heq => hfresh.2 (heq ▸ hlast)
          have hsame : n.reporter = n.reporter := rfl
          obtain ⟨hplain', hbranches', hroomυ⟩ := branches_alike hs hp halike hroom hid hn hsame rfl
            hplain hbranches fun x hx => hother x (hall x (by simp [hx])) (hdisjoint x hx _ hlast)
          obtain ⟨o, ρ, hrest', hshows⟩ := ih (by omega : fuel < j) (target_mem_nodeIds hn hp .next)
            hroomυ hrest
          refine ⟨o, ρ, run_walkChain_some.mpr (.inr ⟨hid, n, ?_, hs.catalog ▸ hfit, node, τ, children,
            υ, _, hplain', hbranches', hrest', rfl⟩), hshows⟩
          rw [hother id (hall id (by simp)) hne, hn]

end Walk

variable {d d' : Document} {c : Catalog} {w w' : Workflow} {m : NodeDef} {id : String}
  {slot : LinkSlot} {t : WorkflowTree}

/-- The second tree is the first with another node behind all others of the main chain. -/
def ExtendsChain (m : NodeDef) (t t' : WorkflowTree) : Prop :=
  ∃ o, t'.nodes = t.nodes ++ [o] ∧ ShowsBare o m

/-- With a node spliced in there is a tree, and when this node comes behind the last one of the main
chain, it is the last one. -/
theorem ofWorkflow_spliced (h : w.Spliced id slot m w') (hd : w.nodeIds.Nodup)
    (hb : ∀ n ∈ w.nodes, n.branchNames.Nodup) (hm : Literal c m)
    (hnext : ∀ t ∈ m.next, w.pointer? id slot = some t ∨ w.Linked t)
    (htakes : ∀ n, w.node? id = some n → n.Takes c slot)
    (hcalls : ∀ name, (d.workflow? name).isSome → (d'.workflow? name).isSome)
    (ht : ofWorkflow d c w = .ok t) : ∃ t', ofWorkflow d' c w' = .ok t' ∧
      (slot = .next → t.nodes.getLast?.map (·.id) = some id → ExtendsChain m t t') := by
  have hwf := wellFormed_of_ofWorkflow ht
  obtain ⟨t', ht'⟩ := exists_ofWorkflow.mpr (h.wellFormed hd hb hm hnext hcalls hwf htakes)
  refine ⟨t', ht', ?_⟩
  rintro rfl hend
  obtain ⟨last, hlast, rfl⟩ := Option.map_eq_some_iff.mp hend
  obtain ⟨hp, -, σ, hrun⟩ := ofWorkflow_eq_ok.mp ht
  obtain ⟨nodes, τ, os, hnodes, -, rfl⟩ := run_placeAll.mp hrun
  obtain ⟨-, -, σ', hrun'⟩ := ofWorkflow_eq_ok.mp ht'
  obtain ⟨nodes', τ', os', hnodes', -, rfl⟩ := run_placeAll.mp hrun'
  obtain ⟨before, rfl⟩ := List.getLast?_eq_some_iff.mp hlast
  have hwalked := walked_ofWorkflow hp hnodes
  have hs := h.within (d := d) (c := c) hd hb hm hnext hcalls hwf
  obtain ⟨k, hk, hk'⟩ := h.exists_self hd
  have hother (x : String) (hx : x ∈ w.nodeIds) (hne : x ≠ last.id) : w'.node? x = w.node? x := by
    refine h.node?_of_ne hne ?_
    rintro rfl
    exact h.new hx
  have hnew : m.id ∉ τ := fun hmem => h.new (((mem_placed hp hwalked).mp hmem).mem_nodeIds hwf)
  have hplaced (x : String) (hx : x ∈ m.next) : x ∈ τ := by
    rcases hnext x hx with hold | hlinked
    · exact hwalked.closed last.id (mem_chainIds (by simp)) x ⟨.next, hold⟩
    · exact hwalked.mem ((mem_walked hp hwalked).mpr ((Workflow.reached_iff_linked hd hb).mpr hlinked))
  have hsize : w.nodes.length < w'.nodes.length := by
    obtain ⟨ns₁, n, ns₂, hns, -, rfl⟩ := h.nodes
    simp [hns]
  obtain ⟨o, υ, hwalk, hshows⟩ := exists_walkChain_append hs hp hsize hm (h.node?_new hd) hk hk' hother
    hnew hplaced (fun _ => Workflow.mem_nodeIds_of_startId?) (room_start w) hnodes
  change (walkChain (scopeOf d' c w') w'.nodes.length w'.startId?).run [] = _ at hnodes'
  rw [h.startId? hm.opcode hm.id] at hnodes'
  have hsame := Except.ok.inj (hnodes'.symm.trans hwalk)
  refine ⟨o, ?_, hshows⟩
  rw [(Prod.mk.inj hsame).1]
  simp

end Tree

end BlockFlow
