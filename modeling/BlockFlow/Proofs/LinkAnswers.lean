import BlockFlow.Proofs.Removal

/-!
What the link graph answers. Main statement: it exists exactly when all pointers name nodes, its
searches find what chains of pointers lead to, and its two lists of pointers of a node are those of
the document, in order, each as often as it is there.
-/

namespace BlockFlow.LinkGraph

open Relation

variable {w : Workflow} {g : LinkGraph} {n : NodeDef} {a b id : String} {slot : LinkSlot}

/-- A graph answers for a workflow. -/
structure Answers (g : LinkGraph) (w : Workflow) : Prop where
  reachableFrom : ∀ a id, id ∈ g.reachableFrom a ↔ a ∈ w.nodeIds ∧ ReflTransGen w.Names a id
  isAncestor : ∀ a id, g.isAncestor a id ↔
    a ∈ w.nodeIds ∧ id ∈ w.nodeIds ∧ id ∈ g.reachableFrom a
  branchDescendants : ∀ a id, id ∈ g.branchDescendants a ↔ id ≠ a ∧ ∃ n ∈ w.nodes, n.id = a ∧
    ∃ name head, (name, some head) ∈ n.branches ∧ ReflTransGen w.Names head id
  converse : ∀ a b slot, (g.outgoing a).count (b, slot) = (g.incoming b).count (a, slot)
  outgoing : ∀ n ∈ w.nodes, g.outgoing n.id = (n.next.toList.map fun t => (t, LinkSlot.next)) ++
    n.branches.filterMap fun (name, head) => head.map fun t => (t, LinkSlot.branch name)
  incoming : ∀ id, g.incoming id = w.nodes.flatMap fun n =>
    (n.pointers.filter (·.2 = id)).map fun p => (n.id, p.1)

theorem exists_build_iff : (∃ g, build w = .ok g) ↔ ∀ n ∈ w.nodes,
    (∀ t ∈ n.next, t ∈ w.nodeIds) ∧ ∀ name t, (name, some t) ∈ n.branches → t ∈ w.nodeIds := by
  simp only [build_eq_ok, exists_and_left, exists_eq, and_true]
  refine forall₂_congr fun n hn => ?_
  constructor
  · intro h
    exact ⟨fun t ht => h (.next, t) (NodeDef.mem_pointers_next.mpr ht),
      fun name t ht => h (.branch name, t) (NodeDef.mem_pointers_branch.mpr ht)⟩
  · intro h p hp
    obtain ⟨slot, t⟩ := p
    cases slot with
    | next => exact h.1 t (NodeDef.mem_pointers_next.mp hp)
    | branch name => exact h.2 name t (NodeDef.mem_pointers_branch.mp hp)

theorem count_map_filter {p : Link → Bool} {f : Link → String × LinkSlot} {x : String × LinkSlot}
    {l : Link} (h : ∀ m, f m = x ∧ p m ↔ m = l) (ls : List Link) :
    ((ls.filter p).map f).count x = ls.count l := by
  simp only [List.count, List.countP_map, List.countP_filter]
  refine List.countP_congr fun m _ => ?_
  simpa using h m

/-- A pointer is listed at its source as often as at its target. -/
theorem count_outgoing_eq (g : LinkGraph) (a b : String) (slot : LinkSlot) :
    (g.outgoing a).count (b, slot) = (g.incoming b).count (a, slot) := by
  have hout : (g.outgoing a).count (b, slot) = g.links.count ⟨a, slot, b⟩ := by
    refine count_map_filter (fun ⟨source, slot, target⟩ => ?_) _
    simp only [Prod.mk.injEq, decide_eq_true_eq, Link.mk.injEq]
    tauto
  have hin : (g.incoming b).count (a, slot) = g.links.count ⟨a, slot, b⟩ := by
    refine count_map_filter (fun ⟨source, slot, target⟩ => ?_) _
    simp only [Prod.mk.injEq, decide_eq_true_eq, Link.mk.injEq]
    tauto
  rw [hout, hin]

/-- Of the pointers of a node, those of a node `id` are all or none. -/
theorem filter_source (n : NodeDef) (id : String) :
    ((n.pointers.map fun (slot, target) => (⟨n.id, slot, target⟩ : Link)).filter
      (·.source = id)).map (fun l => (l.target, l.slot)) =
        if n.id = id then n.pointers.map fun p => (p.2, p.1) else [] := by
  by_cases hid : n.id = id <;> simp [List.filter_map, Function.comp_def, hid]

/-- Where ids are distinct, the pointers of a node are those it lists. -/
theorem outgoing_eq (hg : build w = .ok g) (hd : w.nodeIds.Nodup) (hn : n ∈ w.nodes) :
    g.outgoing n.id = n.pointers.map fun p => (p.2, p.1) := by
  obtain ⟨-, rfl⟩ := build_eq_ok.mp hg
  obtain ⟨above, below, hnodes⟩ := List.append_of_mem hn
  have hids : ((above ++ n :: below).map (·.id)).Nodup := by rwa [← hnodes]
  obtain ⟨habove, hbelow⟩ := ne_of_nodup hids
  have hnone (ms : List NodeDef) (hms : ∀ m ∈ ms, m.id ≠ n.id) :
      (ms.flatMap fun m => if m.id = n.id then m.pointers.map fun p => (p.2, p.1) else []) = [] :=
    List.flatMap_eq_nil_iff.mpr fun m hm => if_neg (hms m hm)
  simp only [LinkGraph.outgoing, Workflow.links, List.filter_flatMap, List.map_flatMap,
    filter_source]
  rw [hnodes, List.flatMap_append, List.flatMap_cons, hnone _ habove, hnone _ hbelow, if_pos rfl,
    List.append_nil, List.nil_append]

theorem incoming_eq (hg : build w = .ok g) (id : String) :
    g.incoming id = w.nodes.flatMap fun n =>
      (n.pointers.filter (·.2 = id)).map fun p => (n.id, p.1) := by
  obtain ⟨-, rfl⟩ := build_eq_ok.mp hg
  simp only [LinkGraph.incoming, Workflow.links, List.filter_flatMap, List.map_flatMap,
    List.filter_map, List.map_map]
  rfl

/-- The graph of a workflow exists exactly when all its pointers name nodes, and then it answers for
the workflow. -/
theorem answers_of_build (w : Workflow) (hd : w.nodeIds.Nodup) :
    ((∃ g, build w = .ok g) ↔ ∀ n ∈ w.nodes, (∀ t ∈ n.next, t ∈ w.nodeIds) ∧
      ∀ name t, (name, some t) ∈ n.branches → t ∈ w.nodeIds) ∧
    ∀ g, build w = .ok g → g.Answers w := by
  refine ⟨exists_build_iff, fun g hg => ?_⟩
  constructor
  case reachableFrom => exact fun a id => mem_reachableFrom hg
  case isAncestor => exact fun a id => isAncestor_iff hg
  case branchDescendants => exact fun a id => mem_branchDescendants hg
  case converse => exact g.count_outgoing_eq
  case outgoing =>
    intro n hn
    rw [outgoing_eq hg hd hn, NodeDef.pointers, List.map_append, List.map_map, List.map_filterMap]
    simp only [Option.map_map]
    rfl
  case incoming => exact incoming_eq hg

/-- A node that leads to itself and twice to another one, which leads back, and a node apart. -/
def crossed : Workflow where
  name := "m"
  interface := {}
  vars := []
  nodes := [
    ⟨"a", "control_if_else", [], some "a", [("THEN", some "b"), ("ELSE", some "b")]⟩,
    ⟨"b", "control_while", [], none, [("BODY", some "a"), ("END", none)]⟩,
    ⟨"c", "io_print", [], some "b", []⟩]

theorem crossed_answers : crossed.nodeIds.Nodup ∧ ∃ g, build crossed = .ok g ∧ g.Answers crossed ∧
    g.outgoing "a" = [("a", .next), ("b", .branch "THEN"), ("b", .branch "ELSE")] ∧
    g.incoming "b" = [("a", .branch "THEN"), ("a", .branch "ELSE"), ("c", .next)] := by
  have hd : crossed.nodeIds.Nodup := by decide
  obtain ⟨g, hg⟩ := Outcome.isOk_iff.mp (show (build crossed).isOk by decide +kernel)
  have hans := (answers_of_build crossed hd).2 g hg
  refine ⟨hd, g, hg, hans, ?_, ?_⟩
  · rw [hans.outgoing ⟨"a", "control_if_else", [], some "a",
      [("THEN", some "b"), ("ELSE", some "b")]⟩ (by simp [crossed])]
    rfl
  · rw [hans.incoming]
    decide

end BlockFlow.LinkGraph
