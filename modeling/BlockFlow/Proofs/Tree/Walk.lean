import BlockFlow.Proofs.Tree.Resolve

/-!
Walks through the chain of a workflow. A walk places only nodes that were not placed, and it ends
where it meets a placed one; whoever placed that node walks on from there. Main statements: what a
walk leaves behind, and when it succeeds.
-/

namespace BlockFlow

open Relation Outcome InputExpr

namespace NodeDef

variable {c : Catalog} {n : NodeDef} {t : String}

/-- The branches of a node are slots of its opcode. A node that controls no flow has no chain in a
branch. -/
structure BranchesFit (c : Catalog) (n : NodeDef) : Prop where
  slots : c.isControlFlow n.opcode → ∀ name ∈ n.branchNames,
    name ∈ c.branchSlots n.opcode n.branchNames
  empty : ¬ c.isControlFlow n.opcode → ∀ b ∈ n.branches, b.2 = none

/-- The branches that the tree of a node shows. -/
def walkedSlots (c : Catalog) (n : NodeDef) : List String :=
  if c.isControlFlow n.opcode then c.branchSlots n.opcode n.branchNames else []

/-- The first nodes of the chains below a node. -/
def heads (c : Catalog) (n : NodeDef) : List String :=
  ((n.walkedSlots c).flatMap fun slot => (n.branchHead? slot).toList) ++ n.next.toList

theorem exists_slot_of_mem_heads (h : t ∈ n.heads c) : ∃ slot, n.target? slot = some t := by
  simp only [heads, List.mem_append, List.mem_flatMap, Option.mem_toList] at h
  rcases h with ⟨name, -, h⟩ | h
  · exact ⟨.branch name, h⟩
  · exact ⟨.next, h⟩

/-- No pointer of a node is left out when its branches fit. -/
theorem mem_heads (hb : n.BranchesFit c) {slot : LinkSlot} (h : n.target? slot = some t) :
    t ∈ n.heads c := by
  simp only [heads, List.mem_append, List.mem_flatMap, Option.mem_toList]
  cases slot with
  | next => exact .inr h
  | branch name =>
    have hmem := mem_of_firstOf? (Option.join_eq_some_iff.mp h)
    refine .inl ⟨name, ?_, h⟩
    by_cases hc : c.isControlFlow n.opcode
    · have hname : name ∈ n.branchNames := List.mem_map.mpr ⟨_, hmem, rfl⟩
      simpa [walkedSlots, hc] using hb.slots hc name hname
    · exact absurd (hb.empty hc _ hmem) (by simp)

end NodeDef

namespace Tree

variable {s : Scope} {σ σ' τ : List String}

/-- The ids of the nodes of a chain and of everything in their branches. -/
def chainIds (nodes : List TreeNode) : List String := (TreeNode.chainNodes nodes).map (·.id)

def branchIds (children : List (String × List TreeNode)) : List String :=
  (TreeNode.branchNodes children).map (·.id)

@[simp] theorem chainIds_nil : chainIds [] = [] := by
  simp [chainIds, TreeNode.chainNodes]

@[simp] theorem chainIds_cons (t : TreeNode) (rest : List TreeNode) :
    chainIds (t :: rest) = t.id :: (branchIds t.children ++ chainIds rest) := by
  cases t
  simp [chainIds, branchIds, TreeNode.chainNodes, TreeNode.subtree]

@[simp] theorem branchIds_nil : branchIds [] = [] := by
  simp [branchIds, TreeNode.branchNodes]

@[simp] theorem branchIds_cons (slot : String) (nodes : List TreeNode)
    (rest : List (String × List TreeNode)) :
    branchIds ((slot, nodes) :: rest) = chainIds nodes ++ branchIds rest := by
  simp [chainIds, branchIds, TreeNode.branchNodes]

/-- Walks the branches of a node. -/
def walkSlots (walk : Option String → Placing (List TreeNode)) (n : NodeDef)
    (slots : List String) : Placing (List (String × List TreeNode)) :=
  slots.mapM fun slot => do
    let nodes ← walk (n.branchHead? slot)
    pure (slot, nodes)

variable {walk : Option String → Placing (List TreeNode)} {n : NodeDef}

theorem run_walkSlots_nil {children : List (String × List TreeNode)} :
    (walkSlots walk n []).run σ = .ok (children, σ') ↔ children = [] ∧ σ' = σ := by
  rw [walkSlots, List.mapM_nil, run_pure_eq_ok]

theorem run_walkSlots_cons {slot : String} {slots : List String}
    {children : List (String × List TreeNode)} :
    (walkSlots walk n (slot :: slots)).run σ = .ok (children, σ') ↔ ∃ nodes τ rest,
      (walk (n.branchHead? slot)).run σ = .ok (nodes, τ) ∧
      (walkSlots walk n slots).run τ = .ok (rest, σ') ∧ children = (slot, nodes) :: rest := by
  simp only [walkSlots, List.mapM_cons, run_bind_eq_ok, run_pure_eq_ok]
  constructor
  · intro h
    obtain ⟨_, _, ⟨nodes, τ, hnodes, rfl, rfl⟩, rest, _, hrest, rfl, rfl⟩ := h
    exact ⟨nodes, _, rest, hnodes, hrest, rfl⟩
  · intro h
    obtain ⟨nodes, τ, rest, hnodes, hrest, rfl⟩ := h
    exact ⟨_, τ, ⟨nodes, τ, hnodes, rfl, rfl⟩, rest, σ', hrest, rfl, rfl⟩

/-- Adds the branches to a node of the chain, after checking them. -/
def placeBranches (s : Scope) (walk : Option String → Placing (List TreeNode)) (n : NodeDef)
    (node : TreeNode) : Placing TreeNode :=
  if s.catalog.isControlFlow n.opcode then
    let slots := s.catalog.branchSlots n.opcode n.branchNames
    match n.branchNames.find? fun name => !slots.contains name with
    | some name => throw (.unknownBranch n.id name)
    | none => do
      let children ← walkSlots walk n slots
      pure { node with children := children }
  else
    match n.branches.find? (·.2.isSome) with
    | some (name, _) => throw (.unknownBranch n.id name)
    | none => pure node

theorem chainNode_eq : chainNode s walk n = plainNode s true n >>= placeBranches s walk n := rfl

/-- Branches are added exactly when they fit. -/
theorem run_placeBranches {node t : TreeNode} (hnode : node.children = []) :
    (placeBranches s walk n node).run σ = .ok (t, σ') ↔ n.BranchesFit s.catalog ∧ ∃ children,
      (walkSlots walk n (n.walkedSlots s.catalog)).run σ = .ok (children, σ') ∧
      t = { node with children := children } := by
  unfold placeBranches NodeDef.walkedSlots
  by_cases hc : s.catalog.isControlFlow n.opcode
  · simp only [hc, if_true]
    cases hfind : n.branchNames.find? fun name =>
        !(s.catalog.branchSlots n.opcode n.branchNames).contains name with
    | some name =>
      have hmem := List.mem_of_find?_eq_some hfind
      have hnot := List.find?_some hfind
      simp only [run_throw_eq_ok, false_iff]
      intro hex
      obtain ⟨hfit, -⟩ := hex
      simp [hfit.slots hc name hmem] at hnot
    | none =>
      have hfit : n.BranchesFit s.catalog := by
        refine ⟨fun _ name hname => ?_, fun h => absurd hc h⟩
        simpa using List.find?_eq_none.mp hfind name hname
      simp only [run_bind_eq_ok, run_pure_eq_ok, hfit, true_and]
      constructor
      · intro hex
        obtain ⟨children, _, hrun, rfl, rfl⟩ := hex
        exact ⟨children, hrun, rfl⟩
      · intro hex
        obtain ⟨children, hrun, rfl⟩ := hex
        exact ⟨children, σ', hrun, rfl, rfl⟩
  · simp only [hc, Bool.false_eq_true, if_false]
    cases hfind : n.branches.find? (·.2.isSome) with
    | some b =>
      have hmem := List.mem_of_find?_eq_some hfind
      have hsome := List.find?_some hfind
      simp only [run_throw_eq_ok, false_iff]
      intro hex
      obtain ⟨hfit, -⟩ := hex
      simp [hfit.empty hc b hmem] at hsome
    | none =>
      have hfit : n.BranchesFit s.catalog := by
        refine ⟨fun h => absurd h hc, fun _ b hb => ?_⟩
        simpa using List.find?_eq_none.mp hfind b hb
      have hsame : { node with children := [] } = node := by
        cases node
        cases hnode
        rfl
      simp only [run_pure_eq_ok, run_walkSlots_nil, hfit, true_and]
      constructor
      · intro hex
        obtain ⟨rfl, rfl⟩ := hex
        exact ⟨[], ⟨rfl, rfl⟩, hsame.symm⟩
      · intro hex
        obtain ⟨_, ⟨rfl, rfl⟩, rfl⟩ := hex
        exact ⟨hsame, rfl⟩

/-- A node of the chain is placed, its branches must fit, and then they are walked. -/
theorem run_chainNode {t : TreeNode} :
    (chainNode s walk n).run σ = .ok (t, σ') ↔ n.BranchesFit s.catalog ∧ ∃ node τ children,
      (plainNode s true n).run σ = .ok (node, τ) ∧
      (walkSlots walk n (n.walkedSlots s.catalog)).run τ = .ok (children, σ') ∧
      t = { node with children := children } := by
  have hbare {node τ} (h : (plainNode s true n).run σ = .ok (node, τ)) : node.children = [] := by
    obtain ⟨_, -, _, -, rfl⟩ := run_plainNode.mp h
    rfl
  rw [chainNode_eq, run_bind_eq_ok]
  constructor
  · intro hex
    obtain ⟨node, τ, hnode, h⟩ := hex
    obtain ⟨hfit, children, hwalk, rfl⟩ := (run_placeBranches (hbare hnode)).mp h
    exact ⟨hfit, node, τ, children, hnode, hwalk, rfl⟩
  · intro hex
    obtain ⟨hfit, node, τ, children, hnode, hwalk, rfl⟩ := hex
    exact ⟨node, τ, hnode, (run_placeBranches (hbare hnode)).mpr ⟨hfit, children, hwalk, rfl⟩⟩

theorem run_walkChain_none (fuel : Nat) {nodes : List TreeNode} :
    (walkChain s fuel none).run σ = .ok (nodes, σ') ↔ nodes = [] ∧ σ' = σ := by
  cases fuel <;> rw [walkChain, run_pure_eq_ok]

/-- A step of a walk: it ends at a node that was placed, and else places the node and walks its
branches and what comes next. -/
theorem run_walkChain_some {fuel : Nat} {id : String} {nodes : List TreeNode} :
    (walkChain s (fuel + 1) (some id)).run σ = .ok (nodes, σ') ↔
      id ∈ σ ∧ nodes = [] ∧ σ' = σ ∨
      id ∉ σ ∧ ∃ n, s.workflow.node? id = some n ∧ n.BranchesFit s.catalog ∧
        ∃ node τ children υ rest, (plainNode s true n).run (id :: σ) = .ok (node, τ) ∧
        (walkSlots (walkChain s fuel) n (n.walkedSlots s.catalog)).run τ = .ok (children, υ) ∧
        (walkChain s fuel n.next).run υ = .ok (rest, σ') ∧
        nodes = { node with children := children } :: rest := by
  rw [walkChain, run_get_bind]
  simp only [List.contains_iff_mem]
  by_cases hid : id ∈ σ
  · simp only [hid, if_true, run_pure_eq_ok, not_true_eq_false, false_and, or_false, true_and]
  · simp only [hid, if_false, false_and, false_or, not_false_eq_true, true_and]
    cases hn : s.workflow.node? id with
    | none => simp only [run_throw_eq_ok, reduceCtorEq, false_and, exists_false]
    | some n =>
      simp only [Option.some.injEq, exists_eq_left', run_bind_eq_ok, run_place, run_chainNode,
        run_pure_eq_ok]
      constructor
      · intro h
        obtain ⟨_, _, rfl, _, υ, ⟨hfit, node, τ, children, hnode, hbranches, rfl⟩, rest, _, hrest,
          rfl, rfl⟩ := h
        exact ⟨hfit, node, τ, children, υ, rest, hnode, hbranches, hrest, rfl⟩
      · intro h
        obtain ⟨hfit, node, τ, children, υ, rest, hnode, hbranches, hrest, rfl⟩ := h
        exact ⟨(), _, rfl, _, υ, ⟨hfit, node, τ, children, hnode, hbranches, rfl⟩, rest, σ', hrest,
          rfl, rfl⟩

/-- What holds of all nodes that each walk of a branch places holds of all nodes in the branches. -/
theorem forall_walkSlots {P : TreeNode → Prop}
    (hw : ∀ head σ nodes σ', (walk head).run σ = .ok (nodes, σ') →
      ∀ t ∈ TreeNode.chainNodes nodes, P t)
    (slots : List String) {children : List (String × List TreeNode)}
    (h : (walkSlots walk n slots).run σ = .ok (children, σ')) :
    ∀ t ∈ TreeNode.branchNodes children, P t := by
  induction slots generalizing σ children with
  | nil =>
    obtain ⟨rfl, -⟩ := run_walkSlots_nil.mp h
    simp [TreeNode.branchNodes]
  | cons slot slots ih =>
    obtain ⟨nodes, τ, rest, hnodes, hrest, rfl⟩ := run_walkSlots_cons.mp h
    rw [TreeNode.branchNodes, List.forall_mem_append]
    exact ⟨hw _ _ _ _ hnodes, ih hrest⟩

/-- What holds of each node when its branches have been walked holds of all nodes that a walk places,
those in branches included. -/
theorem forall_walkChain {P : TreeNode → Prop}
    (hP : ∀ fuel n σ τ υ node children, s.workflow.node? n.id = some n →
      (plainNode s true n).run σ = .ok (node, τ) →
      (walkSlots (walkChain s fuel) n (n.walkedSlots s.catalog)).run τ = .ok (children, υ) →
      P { node with children := children }) (fuel : Nat) {head : Option String}
    {nodes : List TreeNode} (h : (walkChain s fuel head).run σ = .ok (nodes, σ')) :
    ∀ t ∈ TreeNode.chainNodes nodes, P t := by
  induction fuel generalizing head σ nodes σ' with
  | zero =>
    cases head <;> obtain ⟨rfl, -⟩ := run_pure_eq_ok.mp h <;> simp [TreeNode.chainNodes]
  | succ fuel ih =>
    cases head with
    | none =>
      obtain ⟨rfl, -⟩ := (run_walkChain_none _).mp h
      simp [TreeNode.chainNodes]
    | some id =>
      rcases run_walkChain_some.mp h with ⟨-, rfl, -⟩ |
        ⟨-, n, hn, -, node, τ, children, υ, rest, hplain, hbranches, hrest, rfl⟩
      · simp [TreeNode.chainNodes]
      · have hnode : s.workflow.node? n.id = some n := by rw [Workflow.node?_id hn, hn]
        simp only [TreeNode.chainNodes, TreeNode.subtree, List.cons_append, List.forall_mem_cons,
          List.forall_mem_append]
        refine ⟨hP _ _ _ _ _ _ _ hnode hplain hbranches, ?_, ih hrest⟩
        exact forall_walkSlots (fun _ _ _ _ => ih) _ hbranches

/-- What is walked before is not walked again: a walk that starts where another one started, and
after it, finds nothing. -/
def EndsEarly (walk : Option String → Placing (List TreeNode)) : Prop :=
  ∀ head σ nodes σ', (walk head).run σ = .ok (nodes, σ') → σ ⊆ σ' ∧
    ∀ τ more τ', σ' ⊆ τ → (walk head).run τ = .ok (more, τ') → more = []

theorem subset_walkSlots (hw : EndsEarly walk) (slots : List String)
    {children : List (String × List TreeNode)}
    (h : (walkSlots walk n slots).run σ = .ok (children, σ')) : σ ⊆ σ' := by
  induction slots generalizing σ children with
  | nil =>
    obtain ⟨-, rfl⟩ := run_walkSlots_nil.mp h
    exact List.Subset.refl _
  | cons slot slots ih =>
    obtain ⟨nodes, τ, rest, hnodes, hrest, -⟩ := run_walkSlots_cons.mp h
    have hfirst := (hw _ _ _ _ hnodes).1
    exact List.Subset.trans hfirst (ih hrest)

theorem endsEarly_walkChain (fuel : Nat) : EndsEarly (walkChain s fuel) := by
  induction fuel with
  | zero =>
    intro head σ nodes σ' h
    have hnone {τ more τ'} (hrun : (walkChain s 0 head).run τ = .ok (more, τ')) :
        more = [] ∧ τ' = τ := by
      cases head <;> exact run_pure_eq_ok.mp hrun
    refine ⟨?_, fun τ more τ' _ hrun => (hnone hrun).1⟩
    rw [(hnone h).2]
    exact List.Subset.refl _
  | succ fuel ih =>
    intro head σ nodes σ' h
    cases head with
    | none =>
      obtain ⟨-, rfl⟩ := (run_walkChain_none _).mp h
      exact ⟨List.Subset.refl _, fun _ _ _ _ hrun => ((run_walkChain_none _).mp hrun).1⟩
    | some id =>
      have hplaced : σ ⊆ σ' ∧ id ∈ σ' := by
        rcases run_walkChain_some.mp h with ⟨hid, -, rfl⟩ |
          ⟨-, n, -, -, node, τ, children, υ, rest, hplain, hbranches, hrest, -⟩
        · exact ⟨List.Subset.refl _, hid⟩
        · have hnode : id :: σ ⊆ τ := fun x hx => (adds_plainNode hplain x).mpr (.inl hx)
          have hbelow : τ ⊆ υ := subset_walkSlots ih _ hbranches
          have hbehind : υ ⊆ σ' := (ih _ _ _ _ hrest).1
          have hall : id :: σ ⊆ σ' := fun x hx => hbehind (hbelow (hnode hx))
          exact ⟨fun x hx => hall (List.mem_cons_of_mem _ hx), hall (List.mem_cons_self ..)⟩
      refine ⟨hplaced.1, ?_⟩
      intro τ more τ' hsub hrun
      rcases run_walkChain_some.mp hrun with ⟨-, hmore, -⟩ | ⟨hid, -⟩
      · exact hmore
      · exact absurd (hsub hplaced.2) hid

/-- Of the branches of one name only the first one shows nodes. -/
def FirstOnly (children : List (String × List TreeNode)) : Prop :=
  children.Pairwise fun a b => a.1 = b.1 → b.2 = []

theorem empty_of_walked_before (hw : EndsEarly walk) {slot : String} {nodes : List TreeNode}
    (hfirst : (walk (n.branchHead? slot)).run σ = .ok (nodes, σ')) (slots : List String)
    {τ υ : List String} {children : List (String × List TreeNode)} (hsub : σ' ⊆ τ)
    (h : (walkSlots walk n slots).run τ = .ok (children, υ)) :
    ∀ b ∈ children, slot = b.1 → b.2 = [] := by
  induction slots generalizing τ children with
  | nil =>
    obtain ⟨rfl, -⟩ := run_walkSlots_nil.mp h
    simp
  | cons other slots ih =>
    obtain ⟨kids, τ', rest, hkids, hrest, rfl⟩ := run_walkSlots_cons.mp h
    have hgrown : σ' ⊆ τ' := List.Subset.trans hsub (hw _ _ _ _ hkids).1
    rw [List.forall_mem_cons]
    refine ⟨?_, ih hgrown hrest⟩
    intro hsame
    change slot = other at hsame
    rw [← hsame] at hkids
    exact (hw _ _ _ _ hfirst).2 _ _ _ hsub hkids

theorem firstOnly_walkSlots (hw : EndsEarly walk) (slots : List String)
    {children : List (String × List TreeNode)}
    (h : (walkSlots walk n slots).run σ = .ok (children, σ')) : FirstOnly children := by
  induction slots generalizing σ children with
  | nil =>
    obtain ⟨rfl, -⟩ := run_walkSlots_nil.mp h
    exact .nil
  | cons slot slots ih =>
    obtain ⟨nodes, τ, rest, hnodes, hrest, rfl⟩ := run_walkSlots_cons.mp h
    have hlater := empty_of_walked_before hw hnodes slots (List.Subset.refl _) hrest
    exact .cons hlater (ih hrest)

/-- What a walk from `heads` leaves behind: it placed the nodes `ids` with all that their references
lead to, and nothing that pointers of these nodes lead to is left unplaced. -/
structure Walked (s : Scope) (heads σ ids σ' : List String) : Prop where
  nodup : ids.Nodup
  new : ∀ x ∈ ids, x ∉ σ
  placed : ∀ x, x ∈ σ' ↔ x ∈ σ ∨ CitedFrom s ids x
  reached : ∀ x ∈ ids, ∃ h ∈ heads, ReflTransGen s.workflow.Leads h x
  started : ∀ h ∈ heads, h ∈ σ'
  closed : ∀ x ∈ ids, ∀ y, s.workflow.Leads x y → y ∈ σ'
  fit : ∀ x ∈ ids, ∃ n, s.workflow.node? x = some n ∧ Placeable s true n ∧
    n.BranchesFit s.catalog

namespace Walked

variable {heads ids more rest : List String} {id : String}

theorem nil (h : ∀ x ∈ heads, x ∈ σ) : Walked s heads σ [] σ := by
  refine ⟨.nil, ?_, ?_, ?_, h, ?_, ?_⟩ <;> simp [CitedFrom]

theorem subset (h : Walked s heads σ ids σ') : σ ⊆ σ' :=
  fun x hx => (h.placed x).mpr (.inl hx)

theorem mem (h : Walked s heads σ ids σ') {x : String} (hx : x ∈ ids) : x ∈ σ' :=
  (h.placed x).mpr (.inr ⟨x, hx, .refl⟩)

/-- One walk after the other. -/
theorem append (h : Walked s heads σ ids τ) (k : Walked s more τ rest σ') :
    Walked s (heads ++ more) σ (ids ++ rest) σ' where
  nodup := by
    refine List.nodup_append.mpr ⟨h.nodup, k.nodup, fun x hx y hy => ?_⟩
    intro hex
    subst hex
    exact k.new x hy (h.mem hx)
  new := List.forall_mem_append.mpr ⟨h.new, fun x hx hs => k.new x hx (h.subset hs)⟩
  placed x := by rw [k.placed, h.placed, citedFrom_append, or_assoc]
  reached := by
    refine List.forall_mem_append.mpr ⟨fun x hx => ?_, fun x hx => ?_⟩
    · obtain ⟨a, ha, hl⟩ := h.reached x hx
      exact ⟨a, List.mem_append_left _ ha, hl⟩
    · obtain ⟨a, ha, hl⟩ := k.reached x hx
      exact ⟨a, List.mem_append_right _ ha, hl⟩
  started := List.forall_mem_append.mpr ⟨fun x hx => k.subset (h.started x hx), k.started⟩
  closed := List.forall_mem_append.mpr
    ⟨fun x hx y hl => k.subset (h.closed x hx y hl), k.closed⟩
  fit := List.forall_mem_append.mpr ⟨h.fit, k.fit⟩

/-- Placing a node and then walking all its chains. -/
theorem cons {n : NodeDef} {node : TreeNode} (hn : s.workflow.node? id = some n) (hid : id ∉ σ)
    (hplain : (plainNode s true n).run (id :: σ) = .ok (node, τ)) (hfit : n.BranchesFit s.catalog)
    (k : Walked s (n.heads s.catalog) τ ids σ') : Walked s [id] σ (id :: ids) σ' := by
  have hadds := adds_plainNode hplain
  have hplaced : id ∈ τ := (hadds id).mpr (.inl (List.mem_cons_self ..))
  refine ⟨?_, ?_, fun x => ?_, ?_, ?_, ?_, ?_⟩
  · exact List.nodup_cons.mpr ⟨fun hmem => k.new id hmem hplaced, k.nodup⟩
  · refine List.forall_mem_cons.mpr ⟨hid, fun x hx hs => k.new x hx ?_⟩
    exact (hadds x).mpr (.inl (List.mem_cons_of_mem _ hs))
  · rw [k.placed, hadds, citedFrom_cons hn, List.mem_cons]
    tauto
  · refine List.forall_mem_cons.mpr ⟨⟨id, by simp, .refl⟩, fun x hx => ⟨id, by simp, ?_⟩⟩
    obtain ⟨a, ha, hl⟩ := k.reached x hx
    exact .head (Workflow.leads_iff.mpr ⟨n, hn, NodeDef.exists_slot_of_mem_heads ha⟩) hl
  · exact List.forall_mem_singleton.mpr (k.subset hplaced)
  · refine List.forall_mem_cons.mpr ⟨fun y hl => ?_, k.closed⟩
    obtain ⟨m, hm, slot, ht⟩ := Workflow.leads_iff.mp hl
    obtain rfl : n = m := Option.some.inj (hn.symm.trans hm)
    exact k.started y (NodeDef.mem_heads hfit ht)
  · exact List.forall_mem_cons.mpr ⟨⟨n, hn, exists_plainNode.mp ⟨_, _, hplain⟩, hfit⟩, k.fit⟩

end Walked

/-- Walks leave behind what they should as long as at most `fuel` nodes are not placed. -/
def Walks (s : Scope) (fuel : Nat) (walk : Option String → Placing (List TreeNode)) : Prop :=
  ∀ head σ nodes σ', (∀ id ∈ head, id ∈ s.workflow.nodeIds) → Room s fuel σ →
    (walk head).run σ = .ok (nodes, σ') → Walked s head.toList σ (chainIds nodes) σ'

theorem walked_walkSlots {fuel : Nat} (hw : Walks s fuel walk)
    (hheads : ∀ slot, ∀ id ∈ n.branchHead? slot, id ∈ s.workflow.nodeIds) (slots : List String)
    (children : List (String × List TreeNode)) (hroom : Room s fuel σ)
    (h : (walkSlots walk n slots).run σ = .ok (children, σ')) :
    Walked s (slots.flatMap fun slot => (n.branchHead? slot).toList) σ (branchIds children) σ' := by
  induction slots generalizing σ children with
  | nil =>
    obtain ⟨rfl, rfl⟩ := run_walkSlots_nil.mp h
    have hnil : Walked s [] σ' [] σ' := .nil (by simp)
    simpa using hnil
  | cons slot slots ih =>
    obtain ⟨nodes, τ, rest, hnodes, hrest, rfl⟩ := run_walkSlots_cons.mp h
    have hfirst := hw _ _ _ _ (hheads slot) hroom hnodes
    have hothers := ih rest (hroom.mono hfirst.subset) hrest
    rw [List.flatMap_cons, branchIds_cons]
    exact hfirst.append hothers

/-- By induction on the fuel. When it is used up all nodes are placed, so there is nothing to walk. -/
theorem walks_walkChain (hp : ∀ n ∈ s.workflow.nodes, ∀ p ∈ n.pointers, p.2 ∈ s.workflow.nodeIds)
    (fuel : Nat) : Walks s fuel (walkChain s fuel) := by
  induction fuel with
  | zero =>
    intro head σ nodes σ' hhead hroom h
    have hdone : ∀ x ∈ head.toList, x ∈ σ := by
      intro x hx
      by_contra hnot
      obtain ⟨k, hk, -⟩ := hroom.jump (hhead x (by simpa using hx)) hnot
      omega
    cases head with
    | none =>
      obtain ⟨rfl, rfl⟩ := (run_walkChain_none 0).mp h
      simpa using Walked.nil hdone
    | some id =>
      obtain ⟨rfl, rfl⟩ := run_pure_eq_ok.mp h
      simpa using Walked.nil hdone
  | succ fuel ih =>
    intro head σ nodes σ' hhead hroom h
    cases head with
    | none =>
      obtain ⟨rfl, rfl⟩ := (run_walkChain_none _).mp h
      have hnil : Walked s [] σ' [] σ' := .nil (by simp)
      simpa using hnil
    | some id =>
      rcases run_walkChain_some.mp h with ⟨hid, rfl, rfl⟩ |
        ⟨hid, n, hn, hfit, node, τ, children, υ, rest, hplain, hbranches, hrest, rfl⟩
      · have hnil : Walked s [id] σ' [] σ' := .nil (by simpa using hid)
        simpa using hnil
      · have htarget (slot : LinkSlot) : ∀ t ∈ n.target? slot, t ∈ s.workflow.nodeIds :=
          fun t ht => Workflow.Leads.mem_nodeIds hp (Workflow.leads_iff.mpr ⟨n, hn, slot, ht⟩)
        obtain ⟨k, hk, hleft⟩ := hroom.jump (hhead id rfl) hid
        obtain rfl : fuel = k := by omega
        have hroomτ : Room s fuel τ :=
          hleft.mono fun x hx => (adds_plainNode hplain x).mpr (.inl hx)
        have hbelow := walked_walkSlots ih (fun slot => htarget (.branch slot)) _ _ hroomτ hbranches
        have hnext := ih _ _ _ _ (htarget .next) (hroomτ.mono hbelow.subset) hrest
        obtain ⟨_, -, _, -, rfl⟩ := run_plainNode.mp hplain
        simpa [Workflow.node?_id hn] using Walked.cons hn hid hplain hfit (hbelow.append hnext)

/-- What it takes to walk from a node: all that pointers lead to from it can be placed with its
branches. -/
def Walkable (s : Scope) (id : String) : Prop :=
  ∀ x, ReflTransGen s.workflow.Leads id x → ∃ n, s.workflow.node? x = some n ∧
    Placeable s true n ∧ n.BranchesFit s.catalog

theorem exists_walkSlots
    (hw : ∀ slot σ, ∃ nodes σ', (walk (n.branchHead? slot)).run σ = .ok (nodes, σ'))
    (slots : List String) (σ : List String) :
    ∃ children σ', (walkSlots walk n slots).run σ = .ok (children, σ') := by
  induction slots generalizing σ with
  | nil => exact ⟨[], σ, run_walkSlots_nil.mpr ⟨rfl, rfl⟩⟩
  | cons slot slots ih =>
    obtain ⟨nodes, τ, hnodes⟩ := hw slot σ
    obtain ⟨rest, σ', hrest⟩ := ih τ
    exact ⟨_, σ', run_walkSlots_cons.mpr ⟨nodes, τ, rest, hnodes, hrest, rfl⟩⟩

theorem exists_walkChain (fuel : Nat) (head : Option String) (σ : List String)
    (h : ∀ id ∈ head, Walkable s id) :
    ∃ nodes σ', (walkChain s fuel head).run σ = .ok (nodes, σ') := by
  induction fuel generalizing head σ with
  | zero =>
    cases head with
    | none => exact ⟨[], σ, (run_walkChain_none 0).mpr ⟨rfl, rfl⟩⟩
    | some id => exact ⟨[], σ, run_pure_eq_ok.mpr ⟨rfl, rfl⟩⟩
  | succ fuel ih =>
    cases head with
    | none => exact ⟨[], σ, (run_walkChain_none _).mpr ⟨rfl, rfl⟩⟩
    | some id =>
      by_cases hid : id ∈ σ
      · exact ⟨[], σ, run_walkChain_some.mpr (.inl ⟨hid, rfl, rfl⟩)⟩
      · obtain ⟨n, hn, hplace, hfit⟩ := h id rfl id .refl
        have htarget (slot : LinkSlot) : ∀ t ∈ n.target? slot, Walkable s t :=
          fun t ht x hx => h id rfl x (.head (Workflow.leads_iff.mpr ⟨n, hn, slot, ht⟩) hx)
        obtain ⟨node, τ, hplain⟩ := (exists_plainNode (σ := id :: σ)).mpr hplace
        obtain ⟨children, υ, hbranches⟩ := exists_walkSlots
          (fun slot σ => ih _ σ (htarget (.branch slot))) (n.walkedSlots s.catalog) τ
        obtain ⟨rest, σ', hrest⟩ := ih n.next υ (htarget .next)
        exact ⟨_, σ', run_walkChain_some.mpr (.inr ⟨hid, n, hn, hfit, node, τ, children, υ, rest,
          hplain, hbranches, hrest, rfl⟩)⟩

end Tree

end BlockFlow
