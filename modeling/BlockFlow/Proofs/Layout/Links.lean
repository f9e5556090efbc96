import BlockFlow.Layout.Geometry
import BlockFlow.Proofs.Tree.Containers

/-!
The pointers that a drawing shows. Main statement: those drawn within a chain lead from its first
node to each of its nodes, and to each but the first exactly once.
-/

namespace BlockFlow

open Relation
open BlockFlow.Tree (chainIds branchIds chainIds_nil chainIds_cons branchIds_nil branchIds_cons
  Follows BranchesFollow follows_cons)

/-- The pointer to the first node of a chain, if there is one. -/
def headLink (source : String) (slot : LinkSlot) :
    List TreeNode → List (String × LinkSlot × String)
  | [] => []
  | n :: _ => [(source, slot, n.id)]

section Equations

variable {source name : String} {slot : LinkSlot} {n : TreeNode} {nodes rest : List TreeNode}
  {children : List (String × List TreeNode)}

@[simp] theorem headLink_nil : headLink source slot [] = [] := rfl

@[simp] theorem headLink_cons : headLink source slot (n :: rest) = [(source, slot, n.id)] := rfl

@[simp] theorem chainLinks_nil : chainLinks [] = [] := by rw [chainLinks]

theorem chainLinks_cons : chainLinks (n :: rest) =
    branchLinks n.id n.children ++ (headLink n.id .next rest ++ chainLinks rest) := by
  cases n
  cases rest <;> simp [chainLinks]

@[simp] theorem branchLinks_nil : branchLinks source [] = [] := by rw [branchLinks]

theorem branchLinks_cons : branchLinks source ((name, nodes) :: children) =
    headLink source (.branch name) nodes ++ chainLinks nodes ++ branchLinks source children := by
  cases nodes <;> simp [branchLinks]

end Equations

mutual

/-- The pointers into a chain and within it lead once to each node, in the order of the nodes. -/
theorem targets_headLink : ∀ (source : String) (slot : LinkSlot) (nodes : List TreeNode),
    (headLink source slot nodes ++ chainLinks nodes).map (·.2.2) = chainIds nodes
  | _, _, [] => by simp
  | _, _, ⟨id, opcode, kind, inputs, children⟩ :: rest => by
    have hbelow := targets_branchLinks id children
    have hrest := targets_headLink id .next rest
    rw [headLink_cons, chainLinks_cons, chainIds_cons, List.singleton_append, List.map_cons,
      List.map_append, hbelow, hrest]
termination_by _ _ nodes => sizeOf nodes

theorem targets_branchLinks : ∀ (owner : String) (children : List (String × List TreeNode)),
    (branchLinks owner children).map (·.2.2) = branchIds children
  | _, [] => by simp
  | owner, (name, nodes) :: rest => by
    have hfirst := targets_headLink owner (.branch name) nodes
    have hrest := targets_branchLinks owner rest
    rw [branchLinks_cons, List.map_append, hfirst, hrest, branchIds_cons]
termination_by _ children => sizeOf children

end

theorem targets_chainLinks (nodes : List TreeNode) :
    (chainLinks nodes).map (·.2.2) = (chainIds nodes).tail := by
  cases nodes with
  | nil => simp
  | cons n rest =>
    have hall := targets_headLink n.id .next (n :: rest)
    rw [headLink_cons, List.singleton_append, List.map_cons] at hall
    rw [← hall, List.tail_cons]

/-- A drawn pointer is one of the workflow and leaves one of the shown nodes, by a branch that the
node shows. -/
structure Drawn (w : Workflow) (shown : List TreeNode) (l : String × LinkSlot × String) : Prop where
  pointer : w.pointer? l.1 l.2.1 = some l.2.2
  source : ∃ n ∈ shown, n.id = l.1 ∧ ∀ name, l.2.1 = .branch name → name ∈ n.branchNames

section Drawn

variable {w : Workflow} {shown : List TreeNode}

theorem drawn_headLink {m : TreeNode} {n : NodeDef} {nodes : List TreeNode} (hm : m ∈ shown)
    (hn : w.node? m.id = some n) (slot : LinkSlot)
    (hslot : ∀ name, slot = .branch name → name ∈ m.branchNames)
    (h : Follows w (n.target? slot) nodes) : ∀ l ∈ headLink m.id slot nodes, Drawn w shown l := by
  cases nodes with
  | nil => simp
  | cons k rest =>
    obtain ⟨hhead, -⟩ := follows_cons.mp h
    refine List.forall_mem_singleton.mpr ⟨?_, m, hm, rfl, hslot⟩
    rw [Workflow.pointer?, hn]
    exact hhead

mutual

theorem drawn_chainLinks : ∀ {head : Option String} {nodes : List TreeNode},
    Follows w head nodes → TreeNode.chainNodes nodes ⊆ shown →
      ∀ l ∈ chainLinks nodes, Drawn w shown l
  | _, [], _, _ => by simp
  | _, ⟨id, opcode, kind, inputs, children⟩ :: rest, h, hshown => by
    set m : TreeNode := ⟨id, opcode, kind, inputs, children⟩
    obtain ⟨-, n, hn, hbranches, hrest⟩ := follows_cons.mp h
    rw [TreeNode.chainNodes, TreeNode.subtree, List.cons_append, List.cons_subset,
      List.append_subset] at hshown
    obtain ⟨hm, hbelow, hbehind⟩ := hshown
    rw [chainLinks_cons, List.forall_mem_append, List.forall_mem_append]
    refine ⟨drawn_branchLinks hm hn (fun child hchild => ?_) hbranches hbelow, ?_, ?_⟩
    · exact List.mem_map_of_mem hchild
    · exact drawn_headLink hm hn .next (by simp) hrest
    · exact drawn_chainLinks hrest hbehind

theorem drawn_branchLinks {m : TreeNode} {n : NodeDef} (hm : m ∈ shown)
    (hn : w.node? m.id = some n) : ∀ {children : List (String × List TreeNode)},
    (∀ child ∈ children, child.1 ∈ m.branchNames) → BranchesFollow w n children →
      TreeNode.branchNodes children ⊆ shown → ∀ l ∈ branchLinks m.id children, Drawn w shown l
  | [], _, _, _ => by simp
  | (name, nodes) :: rest, hnames, h, hshown => by
    rw [List.forall_mem_cons] at hnames
    rw [BranchesFollow] at h
    rw [TreeNode.branchNodes, List.append_subset] at hshown
    rw [branchLinks_cons, List.forall_mem_append, List.forall_mem_append]
    refine ⟨⟨drawn_headLink hm hn (.branch name) ?_ h.1, ?_⟩, ?_⟩
    · rintro _ ⟨⟩
      exact hnames.1
    · exact drawn_chainLinks h.1 hshown.1
    · exact drawn_branchLinks hm hn hnames.2 h.2 hshown.2

end

end Drawn

section Spans

variable {links : List (String × LinkSlot × String)}

/-- One of the links leads from the first node to the second. -/
def Joins (links : List (String × LinkSlot × String)) (a b : String) : Prop :=
  ∃ slot, (a, slot, b) ∈ links

mutual

/-- Links that hold those into a chain and within it lead to all its nodes. -/
theorem joins_chainLinks : ∀ {source : String} {slot : LinkSlot} {nodes : List TreeNode},
    headLink source slot nodes ++ chainLinks nodes ⊆ links → ∀ id ∈ chainIds nodes,
      ReflTransGen (Joins links) source id
  | _, _, [], _ => by simp
  | source, slot, ⟨id, opcode, kind, inputs, children⟩ :: rest, h => by
    rw [headLink_cons, chainLinks_cons, List.singleton_append, List.cons_subset,
      List.append_subset] at h
    obtain ⟨hhead, hbelow, hbehind⟩ := h
    have hfirst : Joins links source id := ⟨slot, hhead⟩
    rw [chainIds_cons, List.forall_mem_cons, List.forall_mem_append]
    refine ⟨.single hfirst, fun x hx => ?_, fun x hx => ?_⟩
    · exact .head hfirst (joins_branchLinks hbelow x hx)
    · exact .head hfirst (joins_chainLinks hbehind x hx)
termination_by _ _ nodes => sizeOf nodes

theorem joins_branchLinks : ∀ {owner : String} {children : List (String × List TreeNode)},
    branchLinks owner children ⊆ links → ∀ id ∈ branchIds children,
      ReflTransGen (Joins links) owner id
  | _, [], _ => by simp
  | owner, (name, nodes) :: rest, h => by
    rw [branchLinks_cons, List.append_subset] at h
    rw [branchIds_cons, List.forall_mem_append]
    exact ⟨joins_chainLinks h.1, joins_branchLinks h.2⟩
termination_by _ children => sizeOf children

end

/-- The pointers drawn within a chain lead from its first node to all others. -/
theorem spans_chainLinks {nodes : List TreeNode} {start : String}
    (hstart : (chainIds nodes).head? = some start) (h : chainLinks nodes ⊆ links) :
    ∀ id ∈ chainIds nodes, ReflTransGen (Joins links) start id := by
  cases nodes with
  | nil => simp
  | cons n rest =>
    rw [chainIds_cons, List.head?_cons, Option.some.injEq] at hstart
    rw [chainLinks_cons, List.append_subset] at h
    rw [chainIds_cons, List.forall_mem_cons, List.forall_mem_append, ← hstart]
    exact ⟨.refl, joins_branchLinks h.1, joins_chainLinks h.2⟩

end Spans

end BlockFlow
