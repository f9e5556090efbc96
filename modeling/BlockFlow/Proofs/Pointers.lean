import BlockFlow.LinkGraph
import BlockFlow.Proofs.Outcome
import BlockFlow.Proofs.Reach

/-!
Where the pointers of a workflow lead. A pointer slot of a node holds one target; the link graph
also holds what a branch name points to that is listed a second time. Main statement: the graph
reaches exactly what chains of pointers reach.
-/

namespace BlockFlow

open Relation

theorem mem_of_firstOf? {α : Type} {name : String} {entries : List (String × α)} {v : α}
    (h : firstOf? name entries = some v) : (name, v) ∈ entries := by
  obtain ⟨e, he, rfl⟩ := Option.map_eq_some_iff.mp h
  have hname : e.1 = name := by simpa using List.find?_some he
  rw [← hname]
  exact List.mem_of_find?_eq_some he

theorem firstOf?_of_mem {α : Type} {name : String} {entries : List (String × α)} {v : α}
    (hd : (entries.map (·.1)).Nodup) (h : (name, v) ∈ entries) :
    firstOf? name entries = some v := by
  induction entries with
  | nil => simp at h
  | cons e rest ih =>
    simp only [List.map_cons, List.nodup_cons] at hd
    rcases List.mem_cons.mp h with rfl | h
    · simp [firstOf?]
    · have hne : e.1 ≠ name := by
        intro hex
        subst hex
        exact hd.1 (List.mem_map.mpr ⟨_, h, rfl⟩)
      have hrest := ih hd.2 h
      simpa [firstOf?, hne] using hrest

theorem exists_firstOf? {α : Type} {name : String} {entries : List (String × α)}
    (h : name ∈ entries.map (·.1)) : ∃ v, firstOf? name entries = some v := by
  obtain ⟨e, he, hname⟩ := List.mem_map.mp h
  have hsome : (entries.find? (·.1 = name)).isSome := by
    rw [List.find?_isSome]
    exact ⟨e, he, by simpa using hname⟩
  obtain ⟨found, hfound⟩ := Option.isSome_iff_exists.mp hsome
  exact ⟨found.2, by rw [firstOf?, hfound, Option.map_some]⟩

theorem isSome_firstOf? {α : Type} {name : String} {entries : List (String × α)} :
    (firstOf? name entries).isSome ↔ name ∈ entries.map (·.1) := by
  constructor
  · intro h
    obtain ⟨v, hv⟩ := Option.isSome_iff_exists.mp h
    exact List.mem_map_of_mem (mem_of_firstOf? hv)
  · intro h
    obtain ⟨v, hv⟩ := exists_firstOf? h
    rw [hv]
    rfl

namespace NodeDef

variable {n : NodeDef} {slot : LinkSlot} {t : String}

theorem mem_pointers_next : (LinkSlot.next, t) ∈ n.pointers ↔ n.next = some t := by
  simp [pointers, eq_comm]

theorem mem_pointers_branch {name : String} :
    (LinkSlot.branch name, t) ∈ n.pointers ↔ (name, some t) ∈ n.branches := by
  simp [pointers]

theorem mem_pointers_of_target? (h : n.target? slot = some t) : (slot, t) ∈ n.pointers := by
  cases slot with
  | next => exact mem_pointers_next.mpr h
  | branch name => exact mem_pointers_branch.mpr (mem_of_firstOf? (Option.join_eq_some_iff.mp h))

/-- A node that lists each branch once has no pointers but those in its slots. -/
theorem target?_of_mem_pointers (hd : n.branchNames.Nodup) (h : (slot, t) ∈ n.pointers) :
    n.target? slot = some t := by
  cases slot with
  | next => exact mem_pointers_next.mp h
  | branch name =>
    exact Option.join_eq_some_iff.mpr (firstOf?_of_mem hd (mem_pointers_branch.mp h))

end NodeDef

namespace Workflow

variable {w : Workflow} {n : NodeDef} {a b id : String}

theorem mem_nodeIds : id ∈ w.nodeIds ↔ ∃ n ∈ w.nodes, n.id = id := List.mem_map

theorem node?_mem (h : w.node? id = some n) : n ∈ w.nodes := List.mem_of_find?_eq_some h

theorem node?_id (h : w.node? id = some n) : n.id = id := by
  simpa using List.find?_some h

theorem mem_nodeIds_of_node? (h : w.node? id = some n) : id ∈ w.nodeIds :=
  mem_nodeIds.mpr ⟨n, node?_mem h, node?_id h⟩

theorem exists_node? (h : id ∈ w.nodeIds) : ∃ n, w.node? id = some n := by
  obtain ⟨n, hn, hid⟩ := mem_nodeIds.mp h
  have hs : (w.node? id).isSome := List.find?_isSome.mpr ⟨n, hn, by simpa using hid⟩
  exact Option.isSome_iff_exists.mp hs

/-- Where ids are distinct, each node is the one found under its id. -/
theorem node?_eq_some (hd : w.nodeIds.Nodup) (hn : n ∈ w.nodes) : w.node? n.id = some n :=
  find?_of_nodup hd hn

theorem startNode?_mem (h : w.startNode? = some n) : n ∈ w.nodes := by
  rcases Option.or_eq_some_iff.mp h with h | ⟨-, h⟩
  · exact List.mem_of_find?_eq_some h
  · exact node?_mem h

theorem mem_nodeIds_of_startId? (h : w.startId? = some id) : id ∈ w.nodeIds := by
  obtain ⟨n, hn, hid⟩ := Option.map_eq_some_iff.mp h
  exact mem_nodeIds.mpr ⟨n, startNode?_mem hn, hid⟩

/-- A pointer slot of `a` holds `b`. Of several entries for one branch the first counts. -/
def Leads (w : Workflow) (a b : String) : Prop := ∃ slot, w.pointer? a slot = some b

/-- An entry for a pointer of `a` names `b`, whether it is the first for its slot or not. -/
def Names (w : Workflow) (a b : String) : Prop :=
  ∃ n ∈ w.nodes, n.id = a ∧ ∃ slot, (slot, b) ∈ n.pointers

/-- Pointer slots lead from the start node to the node. -/
def Reached (w : Workflow) (id : String) : Prop :=
  ∃ start, w.startId? = some start ∧ ReflTransGen w.Leads start id

/-- Entries for pointers lead from the start node to the node. -/
def Linked (w : Workflow) (id : String) : Prop :=
  ∃ start, w.startId? = some start ∧ ReflTransGen w.Names start id

theorem leads_iff : w.Leads a b ↔ ∃ n, w.node? a = some n ∧ ∃ slot, n.target? slot = some b := by
  simp only [Leads, pointer?, Option.bind_eq_some_iff]
  exact ⟨fun ⟨slot, n, hn, ht⟩ => ⟨n, hn, slot, ht⟩, fun ⟨n, hn, slot, ht⟩ => ⟨slot, n, hn, ht⟩⟩

theorem Leads.names (h : w.Leads a b) : w.Names a b := by
  obtain ⟨n, hn, slot, ht⟩ := leads_iff.mp h
  exact ⟨n, node?_mem hn, node?_id hn, slot, NodeDef.mem_pointers_of_target? ht⟩

theorem Leads.mem_nodeIds (hp : ∀ n ∈ w.nodes, ∀ p ∈ n.pointers, p.2 ∈ w.nodeIds)
    (h : w.Leads a b) : b ∈ w.nodeIds := by
  obtain ⟨n, hn, -, slot, hb⟩ := h.names
  exact hp n hn _ hb

theorem Reached.mem_nodeIds (hp : ∀ n ∈ w.nodes, ∀ p ∈ n.pointers, p.2 ∈ w.nodeIds)
    (h : w.Reached id) : id ∈ w.nodeIds := by
  obtain ⟨start, hs, hr⟩ := h
  rcases ReflTransGen.cases_tail hr with rfl | ⟨a, -, hlead⟩
  · exact mem_nodeIds_of_startId? hs
  · exact hlead.mem_nodeIds hp

theorem Linked.mem_nodeIds (hp : ∀ n ∈ w.nodes, ∀ p ∈ n.pointers, p.2 ∈ w.nodeIds)
    (h : w.Linked id) : id ∈ w.nodeIds := by
  obtain ⟨start, hs, hr⟩ := h
  rcases ReflTransGen.cases_tail hr with rfl | ⟨a, -, n, hn, -, slot, hslot⟩
  · exact mem_nodeIds_of_startId? hs
  · exact hp n hn _ hslot

theorem Reached.linked (h : w.Reached id) : w.Linked id := by
  obtain ⟨start, hs, hr⟩ := h
  exact ⟨start, hs, ReflTransGen.mono (fun _ _ => Leads.names) _ _ hr⟩

/-- Where ids and the branch names of each node are distinct, slots and entries are the same. -/
theorem leads_iff_names (hd : w.nodeIds.Nodup) (hb : ∀ n ∈ w.nodes, n.branchNames.Nodup) :
    w.Leads a b ↔ w.Names a b := by
  constructor
  · exact Leads.names
  · intro h
    obtain ⟨n, hn, rfl, slot, hp⟩ := h
    have ht := NodeDef.target?_of_mem_pointers (hb n hn) hp
    exact leads_iff.mpr ⟨n, node?_eq_some hd hn, slot, ht⟩

theorem reached_iff_linked (hd : w.nodeIds.Nodup) (hb : ∀ n ∈ w.nodes, n.branchNames.Nodup) :
    w.Reached id ↔ w.Linked id := by
  have hsame : w.Leads = w.Names := by
    funext a b
    exact propext (leads_iff_names hd hb)
  rw [Reached, Linked, hsame]

/-- All pointers of a workflow, node by node. -/
def links (w : Workflow) : List Link :=
  w.nodes.flatMap fun n => n.pointers.map fun (slot, target) => ⟨n.id, slot, target⟩

theorem mem_links {l : Link} :
    l ∈ w.links ↔ ∃ n ∈ w.nodes, n.id = l.source ∧ (l.slot, l.target) ∈ n.pointers := by
  simp only [links, List.mem_flatMap, List.mem_map]
  constructor
  · intro h
    obtain ⟨n, hn, p, hp, rfl⟩ := h
    exact ⟨n, hn, rfl, hp⟩
  · intro h
    obtain ⟨n, hn, hid, hp⟩ := h
    exact ⟨n, hn, _, hp, by rw [hid]⟩

end Workflow

namespace LinkGraph

variable {w : Workflow} {g : LinkGraph} {a b : String}

theorem nodeLinks_eq_ok {ids : List String} {n : NodeDef} {ls : List Link} :
    nodeLinks ids n = .ok ls ↔ (∀ p ∈ n.pointers, p.2 ∈ ids) ∧
      ls = n.pointers.map fun (slot, target) => ⟨n.id, slot, target⟩ := by
  apply Outcome.mapM_check_eq_ok
  intro p l
  by_cases hp : p.2 ∈ ids <;> simp [hp, eq_comm]

/-- The graph exists exactly when all pointers name nodes. -/
theorem build_eq_ok : build w = .ok g ↔
    (∀ n ∈ w.nodes, ∀ p ∈ n.pointers, p.2 ∈ w.nodeIds) ∧ g = ⟨w.nodeIds, w.links⟩ := by
  have hlists (ls : List (List Link)) : w.nodes.mapM (nodeLinks w.nodeIds) = .ok ls ↔ _ :=
    Outcome.mapM_check_eq_ok fun _ _ => nodeLinks_eq_ok
  simp only [build, Outcome.bind_eq_ok, hlists, Except.ok.injEq]
  constructor
  · intro h
    obtain ⟨ls, ⟨hp, rfl⟩, rfl⟩ := h
    exact ⟨hp, by rw [Workflow.links, List.flatMap_def]⟩
  · intro h
    obtain ⟨hp, rfl⟩ := h
    exact ⟨_, ⟨hp, rfl⟩, by rw [Workflow.links, List.flatMap_def]⟩

theorem mem_outgoing (hg : build w = .ok g) {slot : LinkSlot} :
    (b, slot) ∈ g.outgoing a ↔ ∃ n ∈ w.nodes, n.id = a ∧ (slot, b) ∈ n.pointers := by
  obtain ⟨-, rfl⟩ := build_eq_ok.mp hg
  simp only [outgoing, List.mem_map, List.mem_filter, Workflow.mem_links, decide_eq_true_eq,
    Prod.mk.injEq]
  constructor
  · intro h
    obtain ⟨l, ⟨⟨n, hn, hid, hp⟩, rfl⟩, rfl, rfl⟩ := h
    exact ⟨n, hn, hid, hp⟩
  · intro h
    obtain ⟨n, hn, hid, hp⟩ := h
    exact ⟨⟨a, slot, b⟩, ⟨⟨n, hn, hid, hp⟩, rfl⟩, rfl, rfl⟩

theorem mem_incoming (hg : build w = .ok g) {slot : LinkSlot} :
    (a, slot) ∈ g.incoming b ↔ ∃ n ∈ w.nodes, n.id = a ∧ (slot, b) ∈ n.pointers := by
  obtain ⟨-, rfl⟩ := build_eq_ok.mp hg
  simp only [incoming, List.mem_map, List.mem_filter, Workflow.mem_links, decide_eq_true_eq,
    Prod.mk.injEq]
  constructor
  · intro h
    obtain ⟨l, ⟨⟨n, hn, hid, hp⟩, rfl⟩, rfl, rfl⟩ := h
    exact ⟨n, hn, hid, hp⟩
  · intro h
    obtain ⟨n, hn, hid, hp⟩ := h
    exact ⟨⟨a, slot, b⟩, ⟨⟨n, hn, hid, hp⟩, rfl⟩, rfl, rfl⟩

/-- Where ids and the branch names of each node are distinct, a pointer leads to the node that its
slot holds. -/
theorem mem_incoming_iff (hg : build w = .ok g) (hd : w.nodeIds.Nodup)
    (hb : ∀ n ∈ w.nodes, n.branchNames.Nodup) {n : NodeDef} (hn : n ∈ w.nodes) {slot : LinkSlot} :
    (n.id, slot) ∈ g.incoming b ↔ n.target? slot = some b := by
  rw [mem_incoming hg]
  constructor
  · intro h
    obtain ⟨m, hm, hid, hp⟩ := h
    obtain rfl : m = n := List.inj_on_of_nodup_map hd hm hn hid
    exact NodeDef.target?_of_mem_pointers (hb m hm) hp
  · intro h
    exact ⟨n, hn, rfl, NodeDef.mem_pointers_of_target? h⟩

theorem mem_successors (hg : build w = .ok g) : b ∈ g.successors a ↔ w.Names a b := by
  rw [successors, List.mem_map]
  constructor
  · intro h
    obtain ⟨⟨_, slot⟩, hmem, rfl⟩ := h
    obtain ⟨n, hn, hid, hp⟩ := (mem_outgoing hg).mp hmem
    exact ⟨n, hn, hid, slot, hp⟩
  · intro h
    obtain ⟨n, hn, hid, slot, hp⟩ := h
    exact ⟨(b, slot), (mem_outgoing hg).mpr ⟨n, hn, hid, hp⟩, rfl⟩

/-- The graph reaches from a node exactly what chains of pointers reach. -/
theorem mem_reachableFrom (hg : build w = .ok g) :
    b ∈ g.reachableFrom a ↔ a ∈ w.nodeIds ∧ ReflTransGen w.Names a b := by
  obtain ⟨hp, rfl⟩ := build_eq_ok.mp hg
  have hnames : ∀ a, ∀ b ∈ successors ⟨w.nodeIds, w.links⟩ a, b ∈ w.nodeIds := by
    intro a b hb
    obtain ⟨n, hn, -, slot, hmem⟩ := (mem_successors hg).mp hb
    exact hp n hn _ hmem
  have hstep : (fun a b => b ∈ successors ⟨w.nodeIds, w.links⟩ a) = w.Names := by
    funext a b
    exact propext (mem_successors hg)
  unfold reachableFrom
  split
  · rename_i ha
    rw [Reach.mem_closure hnames le_rfl, hstep]
    simpa using fun _ => by simpa using ha
  · rename_i ha
    simpa using fun h => absurd h (by simpa using ha)

theorem isAncestor_iff (hg : build w = .ok g) :
    g.isAncestor a b ↔ a ∈ w.nodeIds ∧ b ∈ w.nodeIds ∧ b ∈ g.reachableFrom a := by
  have hids : g.ids = w.nodeIds := by rw [(build_eq_ok.mp hg).2]
  simp [isAncestor, hids, and_assoc]

end LinkGraph

end BlockFlow
