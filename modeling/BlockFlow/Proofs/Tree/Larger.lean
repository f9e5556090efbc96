import BlockFlow.Proofs.Tree.Partition

/-!
Workflows with more nodes. Main statement: what resolves and what is walked among some nodes does so
among more of them, with the same result.
-/

namespace BlockFlow.Tree

open Outcome InputExpr

variable {s s' : Scope} {inChain : Bool} {follow follow' : List String → NodeDef → Placing Slots}
  {above σ σ' : List String}

/-- The nodes of the first scope are reporters in the second one too, and those that its chain does not
lead to are not in the chain of the second. -/
structure Scope.Within (s s' : Scope) : Prop where
  catalog : s'.catalog = s.catalog
  calls : ∀ name, (s.document.workflow? name).isSome → (s'.document.workflow? name).isSome
  nodes : ∀ id n, s.workflow.node? id = some n →
    ∃ n', s'.workflow.node? id = some n' ∧ n'.reporter = n.reporter
  chain : ∀ id ∈ s.workflow.nodeIds, id ∉ s.chain → id ∉ s'.chain
  size : s.workflow.nodes.length ≤ s'.workflow.nodes.length

/-- What the second way to resolve referenced nodes gives for what the first one resolves. -/
def FollowsAlike (follow follow' : List String → NodeDef → Placing Slots) : Prop :=
  ∀ above n n' σ r, n'.reporter = n.reporter → (follow above n).run σ = .ok r →
    (follow' above n').run σ = .ok r

mutual

/-- By recursion on the value; what is behind a reference is left to `follow`. -/
theorem resolve_within (hs : s.Within s') (hf : FollowsAlike follow follow') (above : List String)
    (owner key : String) (σ σ' : List String) (v : Resolved) : (e : InputExpr) →
    (resolve s inChain follow above owner key e).run σ = .ok (v, σ') →
      (resolve s' inChain follow' above owner key e).run σ = .ok (v, σ')
  | .literal _, h => by
    rw [resolve] at h ⊢
    exact h
  | .variable _, h => by
    rw [resolve] at h ⊢
    exact h
  | .node id, h => by
    obtain ⟨ha, hfree, n, hn, hop, slots, hslots, rfl⟩ := run_resolve_node.mp h
    obtain ⟨n', hn', hsame⟩ := hs.nodes id n hn
    have hid := Workflow.mem_nodeIds_of_node? hn
    obtain ⟨hid', hop', -⟩ := Reporter.mk.inj hsame
    refine run_resolve_node.mpr ⟨ha, fun hin => hs.chain id hid (hfree hin), n', hn', ?_, slots,
      hf _ _ _ _ _ hsame hslots, ?_⟩
    · rw [hs.catalog, hop', hop]
    · rw [hid', hop']
  | .inline i opcode inputs, h => by
    obtain ⟨ha, hop, slots, hslots, rfl⟩ := run_resolve_inline.mp h
    exact run_resolve_inline.mpr ⟨ha, by rw [hs.catalog, hop], slots,
      resolveAll_within hs hf _ _ σ σ' slots inputs hslots, rfl⟩
  | .call name args, h => by
    obtain ⟨hname, slots, hslots, rfl⟩ := run_resolve_call.mp h
    exact run_resolve_call.mpr ⟨hs.calls name hname, slots,
      resolveAll_within hs hf above owner σ σ' slots args hslots, rfl⟩

theorem resolveAll_within (hs : s.Within s') (hf : FollowsAlike follow follow') (above : List String)
    (owner : String) (σ σ' : List String) (slots : Slots) : (ins : Inputs) →
    (resolveAll s inChain follow above owner ins).run σ = .ok (slots, σ') →
      (resolveAll s' inChain follow' above owner ins).run σ = .ok (slots, σ')
  | [], h => by
    rw [resolveAll] at h ⊢
    exact h
  | (key, e) :: rest, h => by
    obtain ⟨v, τ, more, hv, hmore, rfl⟩ := run_resolveAll_cons.mp h
    exact run_resolveAll_cons.mpr ⟨v, τ, more, resolve_within hs hf above owner key σ τ v e hv,
      resolveAll_within hs hf above owner τ σ' more rest hmore, rfl⟩

end

theorem followsAlike_following (hs : s.Within s') {j k : Nat} (hle : j ≤ k) :
    FollowsAlike (following s inChain j) (following s' inChain k) := by
  induction j generalizing k with
  | zero =>
    intro above n n' σ r _ h
    cases h
  | succ j ih =>
    obtain ⟨k, rfl⟩ := Nat.exists_eq_succ_of_ne_zero (by omega : k ≠ 0)
    intro above n n' σ r hsame h
    obtain ⟨hid, -, hins⟩ := Reporter.mk.inj hsame
    change (resolveInputs s inChain j above n).run σ = _ at h
    change (resolveInputs s' inChain k above n').run σ = _
    rw [resolveInputs_eq] at h ⊢
    rw [hid, hins]
    exact resolveAll_within hs (ih (by omega)) above n.id σ r.2 r.1 n.inputs h

/-- A node is placed without its branches as it is among fewer nodes. -/
theorem plainNode_within (hs : s.Within s') {n n' : NodeDef} {t : TreeNode}
    (hsame : n'.reporter = n.reporter) (h : (plainNode s inChain n).run σ = .ok (t, σ')) :
    (plainNode s' inChain n').run σ = .ok (t, σ') := by
  obtain ⟨spec, hspec, slots, hslots, rfl⟩ := run_plainNode.mp h
  obtain ⟨hid, hop, hins⟩ := Reporter.mk.inj hsame
  refine run_plainNode.mpr ⟨spec, by rw [hs.catalog, hop, hspec], slots, ?_, by rw [hid, hop]⟩
  rw [resolveInputs_eq] at hslots ⊢
  rw [hid, hins]
  exact resolveAll_within hs (followsAlike_following hs hs.size) _ _ _ _ _ _ hslots

variable {walk walk' : Option String → Placing (List TreeNode)} {n n' : NodeDef}

/-- The second walk goes as the first does, as long as that one places only nodes that both scopes
have. -/
def WalksAlike (s s' : Scope) (fuel : Nat) (walk walk' : Option String → Placing (List TreeNode)) :
    Prop :=
  ∀ head σ nodes σ', (∀ id ∈ head, id ∈ s.workflow.nodeIds) → Room s fuel σ →
    (∀ x ∈ chainIds nodes, s'.workflow.node? x = s.workflow.node? x) →
      (walk head).run σ = .ok (nodes, σ') → (walk' head).run σ = .ok (nodes, σ')

theorem walkSlots_alike {fuel : Nat} (hw : WalksAlike s s' fuel walk walk') (hends : EndsEarly walk)
    (hheads : ∀ slot, ∀ id ∈ n.branchHead? slot, id ∈ s.workflow.nodeIds)
    (hbranches : n'.branches = n.branches) (slots : List String)
    {children : List (String × List TreeNode)} (hroom : Room s fuel σ)
    (hsame : ∀ x ∈ branchIds children, s'.workflow.node? x = s.workflow.node? x)
    (h : (walkSlots walk n slots).run σ = .ok (children, σ')) :
    (walkSlots walk' n' slots).run σ = .ok (children, σ') := by
  have hhead (slot : String) : n'.branchHead? slot = n.branchHead? slot := by
    rw [NodeDef.branchHead?, NodeDef.branchHead?, hbranches]
  induction slots generalizing σ children with
  | nil => exact run_walkSlots_nil.mpr (run_walkSlots_nil.mp h)
  | cons slot slots ih =>
    obtain ⟨nodes, τ, rest, hnodes, hrest, rfl⟩ := run_walkSlots_cons.mp h
    rw [branchIds_cons, List.forall_mem_append] at hsame
    have hfirst := hw _ _ _ _ (hheads slot) hroom hsame.1 hnodes
    have hroomτ := hroom.mono (hends _ _ _ _ hnodes).1
    rw [← hhead] at hfirst
    exact run_walkSlots_cons.mpr ⟨nodes, τ, rest, hfirst, ih hroomτ hsame.2 hrest, rfl⟩

theorem walkedSlots_congr {c : Catalog} (hop : n'.opcode = n.opcode)
    (hbranches : n'.branches = n.branches) : n'.walkedSlots c = n.walkedSlots c := by
  rw [NodeDef.walkedSlots, NodeDef.walkedSlots, NodeDef.branchNames, NodeDef.branchNames, hop,
    hbranches]

theorem fits_congr {c : Catalog} (hop : n'.opcode = n.opcode) (hbranches : n'.branches = n.branches)
    (h : n.BranchesFit c) : n'.BranchesFit c := by
  refine ⟨?_, ?_⟩
  · rw [NodeDef.branchNames, hop, hbranches]
    exact h.slots
  · rw [hop, hbranches]
    exact h.empty

/-- Targets of pointers are nodes. -/
theorem target_mem_nodeIds {id : String} (hn : s.workflow.node? id = some n)
    (hp : ∀ n ∈ s.workflow.nodes, ∀ p ∈ n.pointers, p.2 ∈ s.workflow.nodeIds) (slot : LinkSlot) :
    ∀ t ∈ n.target? slot, t ∈ s.workflow.nodeIds :=
  fun _ ht => Workflow.Leads.mem_nodeIds hp (Workflow.leads_iff.mpr ⟨n, hn, slot, ht⟩)

/-- A node of the chain is placed with its branches as it is among fewer nodes, and there is room for
what comes next. -/
theorem branches_alike {fuel : Nat} {id : String} {node : TreeNode} {τ υ : List String}
    {children : List (String × List TreeNode)} (hs : s.Within s')
    (hp : ∀ n ∈ s.workflow.nodes, ∀ p ∈ n.pointers, p.2 ∈ s.workflow.nodeIds)
    (halike : WalksAlike s s' fuel (walkChain s fuel) walk') (hroom : Room s (fuel + 1) σ)
    (hid : id ∉ σ) (hn : s.workflow.node? id = some n) (hsame : n'.reporter = n.reporter)
    (hbranches : n'.branches = n.branches)
    (hplain : (plainNode s true n).run (id :: σ) = .ok (node, τ))
    (hwalk : (walkSlots (walkChain s fuel) n (n.walkedSlots s.catalog)).run τ = .ok (children, υ))
    (hids : ∀ x ∈ branchIds children, s'.workflow.node? x = s.workflow.node? x) :
    (plainNode s' true n').run (id :: σ) = .ok (node, τ) ∧
      (walkSlots walk' n' (n'.walkedSlots s'.catalog)).run τ = .ok (children, υ) ∧
        Room s fuel υ := by
  obtain ⟨j, hj, hleft⟩ := hroom.jump (Workflow.mem_nodeIds_of_node? hn) hid
  obtain rfl : fuel = j := by omega
  have hroomτ : Room s fuel τ := hleft.mono fun x hx => (adds_plainNode hplain x).mpr (.inl hx)
  have hends := endsEarly_walkChain (s := s) fuel
  refine ⟨plainNode_within hs hsame hplain, ?_, hroomτ.mono (subset_walkSlots hends _ hwalk)⟩
  rw [hs.catalog, walkedSlots_congr (Reporter.mk.inj hsame).2.1 hbranches]
  exact walkSlots_alike halike hends (fun slot => target_mem_nodeIds hn hp (.branch slot)) hbranches _
    hroomτ hids hwalk

/-- By induction on the fuel. When it is used up all nodes are placed, so neither walk finds any. -/
theorem walkChain_alike (hs : s.Within s')
    (hp : ∀ n ∈ s.workflow.nodes, ∀ p ∈ n.pointers, p.2 ∈ s.workflow.nodeIds) {fuel fuel' : Nat}
    (hle : fuel ≤ fuel') : WalksAlike s s' fuel (walkChain s fuel) (walkChain s' fuel') := by
  induction fuel generalizing fuel' with
  | zero =>
    intro head σ nodes σ' hhead hroom _ h
    cases head with
    | none => exact (run_walkChain_none _).mpr ((run_walkChain_none _).mp h)
    | some id =>
      obtain ⟨rfl, rfl⟩ := run_pure_eq_ok.mp h
      have hid : id ∈ σ' := by
        by_contra hnot
        obtain ⟨k, hk, -⟩ := hroom.jump (hhead id rfl) hnot
        omega
      cases fuel' with
      | zero => exact run_pure_eq_ok.mpr ⟨rfl, rfl⟩
      | succ k => exact run_walkChain_some.mpr (.inl ⟨hid, rfl, rfl⟩)
  | succ fuel ih =>
    obtain ⟨k, rfl⟩ := Nat.exists_eq_succ_of_ne_zero (by omega : fuel' ≠ 0)
    intro head σ nodes σ' hhead hroom hsame h
    cases head with
    | none => exact (run_walkChain_none _).mpr ((run_walkChain_none _).mp h)
    | some id =>
      rcases run_walkChain_some.mp h with ⟨hid, rfl, rfl⟩ |
        ⟨hid, n, hn, hfit, node, τ, children, υ, rest, hplain, hbranches, hrest, rfl⟩
      · exact run_walkChain_some.mpr (.inl ⟨hid, rfl, rfl⟩)
      · have hnode : node.id = id := by
          obtain ⟨_, -, _, -, rfl⟩ := run_plainNode.mp hplain
          exact Workflow.node?_id hn
        simp only [chainIds_cons, List.forall_mem_cons, List.forall_mem_append, hnode] at hsame
        have halike := ih (by omega : fuel ≤ k)
        obtain ⟨hplain', hbranches', hroomυ⟩ :=
          branches_alike hs hp halike hroom hid hn rfl rfl hplain hbranches hsame.2.1
        have hrest' := halike _ _ _ _ (target_mem_nodeIds hn hp .next) hroomυ hsame.2.2 hrest
        exact run_walkChain_some.mpr (.inr ⟨hid, n, hsame.1.trans hn, hs.catalog ▸ hfit, node, τ,
          children, υ, rest, hplain', hbranches', hrest', rfl⟩)

/-- Nodes that are not in the chain place nothing. -/
def Keeps (follow : List String → NodeDef → Placing Slots) : Prop :=
  ∀ above n σ r, (follow above n).run σ = .ok r → r.2 = σ

mutual

theorem keeps_resolve (hf : Keeps follow) (above : List String) (owner key : String)
    (σ σ' : List String) (v : Resolved) : (e : InputExpr) →
    (resolve s false follow above owner key e).run σ = .ok (v, σ') → σ' = σ
  | .literal _, h => by
    rw [resolve, run_pure_eq_ok] at h
    exact h.2
  | .variable _, h => by
    rw [resolve, run_pure_eq_ok] at h
    exact h.2
  | .node id, h => by
    obtain ⟨-, -, n, -, -, slots, hslots, -⟩ := run_resolve_node.mp h
    exact hf _ _ _ _ hslots
  | .inline i opcode inputs, h => by
    obtain ⟨-, -, slots, hslots, -⟩ := run_resolve_inline.mp h
    exact keeps_resolveAll hf _ _ σ σ' slots inputs hslots
  | .call name args, h => by
    obtain ⟨-, slots, hslots, -⟩ := run_resolve_call.mp h
    exact keeps_resolveAll hf _ _ σ σ' slots args hslots

theorem keeps_resolveAll (hf : Keeps follow) (above : List String) (owner : String)
    (σ σ' : List String) (slots : Slots) : (ins : Inputs) →
    (resolveAll s false follow above owner ins).run σ = .ok (slots, σ') → σ' = σ
  | [], h => by
    rw [resolveAll, run_pure_eq_ok] at h
    exact h.2
  | (key, e) :: rest, h => by
    obtain ⟨v, τ, more, hv, hmore, -⟩ := run_resolveAll_cons.mp h
    rw [keeps_resolveAll hf above owner τ σ' more rest hmore,
      keeps_resolve hf above owner key σ τ v e hv]

end

theorem keeps_following (jumps : Nat) : Keeps (following s false jumps) := by
  induction jumps with
  | zero =>
    intro above n σ r h
    cases h
  | succ jumps ih =>
    intro above n σ r h
    change (resolveInputs s false jumps above n).run σ = _ at h
    rw [resolveInputs_eq] at h
    exact keeps_resolveAll ih _ _ _ _ _ _ h

theorem keeps_plainNode {t : TreeNode} (h : (plainNode s false n).run σ = .ok (t, σ')) : σ' = σ := by
  obtain ⟨-, -, slots, hslots, -⟩ := run_plainNode.mp h
  rw [resolveInputs_eq] at hslots
  exact keeps_resolveAll (keeps_following _) _ _ _ _ _ _ hslots

/-- Orphans are found one after the other, and finding them places nothing. -/
theorem run_orphans_append {xs ys : List NodeDef} {os : List Orphan} :
    (orphans s (xs ++ ys)).run σ = .ok (os, σ') ↔ ∃ os₁ os₂, os = os₁ ++ os₂ ∧ σ' = σ ∧
      (orphans s xs).run σ = .ok (os₁, σ) ∧ (orphans s ys).run σ = .ok (os₂, σ) := by
  have hkeeps {ns : List NodeDef} {os : List Orphan} (h : (orphans s ns).run σ = .ok (os, σ')) :
      σ' = σ := by
    induction ns generalizing os with
    | nil => exact (run_orphans_nil.mp h).2
    | cons n ns ih =>
      rcases run_orphans_cons.mp h with ⟨-, h⟩ | ⟨-, node, τ, more, hnode, hmore, -⟩
      · exact ih h
      · obtain rfl := keeps_plainNode hnode
        exact ih hmore
  induction xs generalizing os with
  | nil =>
    constructor
    · intro h
      obtain rfl := hkeeps h
      exact ⟨[], os, rfl, rfl, run_orphans_nil.mpr ⟨rfl, rfl⟩, h⟩
    · rintro ⟨os₁, os₂, rfl, rfl, h₁, h₂⟩
      obtain ⟨rfl, -⟩ := run_orphans_nil.mp h₁
      exact h₂
  | cons n xs ih =>
    constructor
    · intro h
      rcases run_orphans_cons.mp h with ⟨hid, h⟩ | ⟨hid, node, τ, more, hnode, hmore, rfl⟩
      · obtain ⟨os₁, os₂, rfl, rfl, h₁, h₂⟩ := ih.mp h
        exact ⟨os₁, os₂, rfl, rfl, run_orphans_cons.mpr (.inl ⟨hid, h₁⟩), h₂⟩
      · obtain rfl := keeps_plainNode hnode
        obtain ⟨os₁, os₂, rfl, rfl, h₁, h₂⟩ := ih.mp hmore
        exact ⟨⟨node, n.next⟩ :: os₁, os₂, rfl, rfl,
          run_orphans_cons.mpr (.inr ⟨hid, node, _, os₁, hnode, h₁, rfl⟩), h₂⟩
    · rintro ⟨os₁, os₂, rfl, rfl, h₁, h₂⟩
      rcases run_orphans_cons.mp h₁ with ⟨hid, h₁⟩ | ⟨hid, node, τ, more, hnode, hmore, rfl⟩
      · exact run_orphans_cons.mpr (.inl ⟨hid, ih.mpr ⟨os₁, os₂, rfl, rfl, h₁, h₂⟩⟩)
      · obtain rfl := keeps_plainNode hnode
        exact run_orphans_cons.mpr (.inr ⟨hid, node, _, more ++ os₂, hnode,
          ih.mpr ⟨more, os₂, rfl, rfl, hmore, h₂⟩, rfl⟩)

theorem orphans_within (hs : s.Within s') {ns : List NodeDef} {os : List Orphan}
    (h : (orphans s ns).run σ = .ok (os, σ')) : (orphans s' ns).run σ = .ok (os, σ') := by
  induction ns generalizing os σ with
  | nil => exact run_orphans_nil.mpr (run_orphans_nil.mp h)
  | cons n ns ih =>
    rcases run_orphans_cons.mp h with ⟨hid, h⟩ | ⟨hid, node, τ, more, hnode, hmore, rfl⟩
    · exact run_orphans_cons.mpr (.inl ⟨hid, ih h⟩)
    · exact run_orphans_cons.mpr
        (.inr ⟨hid, node, τ, more, plainNode_within hs rfl hnode, ih hmore, rfl⟩)

/-- Nodes that are not placed are orphans, in the place where they are listed. -/
theorem orphans_insert (hs : s.Within s') {ns₁ ns₂ : List NodeDef} {os : List Orphan} {t : TreeNode}
    {τ : List String} (h : (orphans s (ns₁ ++ ns₂)).run σ = .ok (os, σ')) (hnew : n.id ∉ σ)
    (hn : (plainNode s' false n).run σ = .ok (t, τ)) : ∃ os₁ os₂, os = os₁ ++ os₂ ∧
      (orphans s' (ns₁ ++ n :: ns₂)).run σ = .ok (os₁ ++ ⟨t, n.next⟩ :: os₂, σ') := by
  obtain ⟨os₁, os₂, rfl, rfl, h₁, h₂⟩ := run_orphans_append.mp h
  obtain rfl := keeps_plainNode hn
  exact ⟨os₁, os₂, rfl, run_orphans_append.mpr ⟨os₁, ⟨t, n.next⟩ :: os₂, rfl, rfl,
    orphans_within hs h₁,
    run_orphans_cons.mpr (.inr ⟨hnew, t, _, os₂, hn, orphans_within hs h₂, rfl⟩)⟩⟩

end BlockFlow.Tree
