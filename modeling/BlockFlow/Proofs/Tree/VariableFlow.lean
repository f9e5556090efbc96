import BlockFlow.Proofs.Tree.Selections
import BlockFlow.Selection.Variables

/-!
The variables that a selection reads and writes. Main statement: its inputs are the names read before
any selected node writes them, its outputs those written and read outside, its locals those written
and neither of both; and they depend only on which nodes are selected.
-/

namespace BlockFlow

namespace Resolved

/-- A value reads a variable: it is the variable, or the value of one of its slots reads it. -/
inductive Reads : Resolved → String → Prop
  | variable {name : String} : Reads (.variable name) name
  | slot {v value : Resolved} {key name : String} (hslot : (key, value) ∈ v.slots)
      (hreads : value.Reads name) : Reads v name

variable {name : String}

/-- Values other than variables read what their slots read. -/
theorem reads_iff {v : Resolved} (hv : ∀ x, v ≠ .variable x) :
    v.Reads name ↔ ∃ s ∈ v.slots, s.2.Reads name := by
  constructor
  · rintro (_ | ⟨hslot, hreads⟩)
    · exact absurd rfl (hv name)
    · exact ⟨_, hslot, hreads⟩
  · rintro ⟨s, hslot, hreads⟩
    exact .slot hslot hreads

mutual

theorem mem_variableRefs : (v : Resolved) → (name ∈ v.variableRefs ↔ v.Reads name)
  | .literal _ => by
    rw [reads_iff (by simp)]
    simp [variableRefs, slots]
  | .variable x => by
    rw [variableRefs, List.mem_singleton]
    constructor
    · rintro rfl
      exact .variable
    · rintro (_ | ⟨hslot, -⟩)
      · rfl
      · cases hslot
  | .reporter _ _ inputs => by
    rw [reads_iff (by simp), variableRefs, mem_variableRefsIn inputs]
    rfl
  | .call _ args => by
    rw [reads_iff (by simp), variableRefs, mem_variableRefsIn args]
    rfl

theorem mem_variableRefsIn : (ss : Slots) → (name ∈ variableRefsIn ss ↔ ∃ s ∈ ss, s.2.Reads name)
  | [] => by simp [variableRefsIn]
  | (_, v) :: rest => by
    rw [variableRefsIn, List.mem_append, mem_variableRefs v, mem_variableRefsIn rest,
      List.exists_mem_cons_iff]

end

end Resolved

namespace TreeNode

/-- A node reads a variable in one of its inputs. -/
def Reads (n : TreeNode) (name : String) : Prop := ∃ input ∈ n.inputs, input.2.Reads name

/-- A node writes a variable: the input of its opcode for the name of a variable holds the name. -/
def Writes (c : Catalog) (n : TreeNode) (name : String) : Prop :=
  name ≠ "" ∧ ∃ spec param, c.get? n.opcode = some spec ∧ spec.assigns = some param ∧
    n.input? param = some (.literal (.str name))

end TreeNode

namespace Selection

variable {c : Catalog} {n : TreeNode} {ns : List TreeNode} {name : String}
  {names done inputs written : List String}

theorem mem_reads : name ∈ reads n ↔ n.Reads name := by
  rw [reads, List.mem_flatMap]
  exact exists_congr fun input => and_congr_right fun _ => Resolved.mem_variableRefs input.2

theorem str?_eq_some {v : Resolved} : v.str? = some name ↔ v = .literal (.str name) := by
  constructor
  · intro h
    rw [Resolved.str?.eq_def] at h
    split at h
    · rw [Option.some.inj h]
    · cases h
  · rintro rfl
    rfl

theorem writes?_eq_some : writes? c n = some name ↔ n.Writes c name := by
  simp only [writes?, Option.bind_eq_bind, Option.bind_eq_some_iff, str?_eq_some,
    Option.ite_none_left_eq_some, String.isEmpty_iff, Option.some.injEq]
  constructor
  · rintro ⟨spec, hspec, param, hparam, value, hvalue, _, rfl, hne, rfl⟩
    exact ⟨hne, spec, param, hspec, hparam, hvalue⟩
  · rintro ⟨hne, spec, param, hspec, hparam, hvalue⟩
    exact ⟨spec, hspec, param, hparam, _, hvalue, name, rfl, hne, rfl⟩

theorem mem_addNew {other : String} : name ∈ addNew names other ↔ name ∈ names ∨ name = other := by
  rw [addNew]
  split
  · rename_i hin
    rw [List.contains_iff_mem] at hin
    constructor
    · exact .inl
    · rintro (h | rfl)
      · exact h
      · exact hin
  · rw [List.mem_append, List.mem_singleton]

theorem nodup_addNew (h : names.Nodup) (other : String) : (addNew names other).Nodup := by
  rw [addNew]
  split
  · exact h
  · rename_i hnew
    rw [List.contains_iff_mem] at hnew
    exact h.append (List.nodup_singleton _) (by simpa using hnew)

theorem mem_foldl_addNew : name ∈ names.foldl addNew done ↔ name ∈ done ∨ name ∈ names := by
  induction names generalizing done with
  | nil => simp
  | cons other names ih => rw [List.foldl_cons, ih, mem_addNew, List.mem_cons, or_assoc]

theorem nodup_foldl_addNew (h : done.Nodup) : (names.foldl addNew done).Nodup := by
  induction names generalizing done with
  | nil => exact h
  | cons other names ih => exact ih (nodup_addNew h other)

section Until

variable {α : Type} {P Q : α → Prop} {x : α} {xs : List α}

/-- Some element has one property, and those before it have another. -/
def HoldsUntil (P Q : α → Prop) (xs : List α) : Prop :=
  ∃ before x after, xs = before ++ x :: after ∧ Q x ∧ ∀ y ∈ before, P y

theorem holdsUntil_nil : ¬ HoldsUntil P Q [] := by
  rintro ⟨before, x, after, h, -⟩
  simp at h

theorem holdsUntil_cons : HoldsUntil P Q (x :: xs) ↔ Q x ∨ P x ∧ HoldsUntil P Q xs := by
  constructor
  · rintro ⟨before, y, after, heq, hy, hbefore⟩
    cases before with
    | nil =>
      obtain ⟨rfl, -⟩ := List.cons.inj heq
      exact .inl hy
    | cons z before =>
      obtain ⟨rfl, rfl⟩ := List.cons.inj heq
      obtain ⟨hx, hbefore⟩ := List.forall_mem_cons.mp hbefore
      exact .inr ⟨hx, before, y, after, rfl, hy, hbefore⟩
  · rintro (hx | ⟨hx, before, y, after, rfl, hy, hbefore⟩)
    · exact ⟨[], x, xs, rfl, hx, by simp⟩
    · exact ⟨x :: before, y, after, rfl, hy, List.forall_mem_cons.mpr ⟨hx, hbefore⟩⟩

/-- Elements that are filtered out do not count. -/
theorem holdsUntil_filter {p : α → Bool} {S : α → Prop} (hp : ∀ x ∈ xs, p x ↔ S x) :
    HoldsUntil P Q (xs.filter p) ↔ HoldsUntil (fun x => S x → P x) (fun x => S x ∧ Q x) xs := by
  induction xs with
  | nil => exact iff_of_false holdsUntil_nil holdsUntil_nil
  | cons x xs ih =>
    obtain ⟨hx, hxs⟩ := List.forall_mem_cons.mp hp
    rw [holdsUntil_cons, ← ih hxs]
    by_cases hS : S x
    · rw [List.filter_cons_of_pos (hx.mpr hS), holdsUntil_cons]
      simp [hS]
    · rw [List.filter_cons_of_neg fun h => hS (hx.mp h)]
      simp [hS]

end Until

/-- What the nodes add to the names read first and to the names written. -/
theorem mem_flow (c : Catalog) (name : String) (ns : List TreeNode) (inputs written : List String) :
    (name ∈ (flow c inputs written ns).1 ↔ name ∈ inputs ∨ name ∉ written ∧
      HoldsUntil (fun m => ¬ m.Writes c name) (fun n => n.Reads name) ns) ∧
    (name ∈ (flow c inputs written ns).2 ↔ name ∈ written ∨ ∃ n ∈ ns, n.Writes c name) := by
  induction ns generalizing inputs written with
  | nil => simp [flow, holdsUntil_nil]
  | cons n ns ih =>
    obtain ⟨hread, hwritten⟩ := ih
      (((reads n).filter fun name => !written.contains name).foldl addNew inputs)
      ((writes? c n).toList.foldl addNew written)
    have hwrites : name ∈ (writes? c n).toList ↔ n.Writes c name := by
      rw [Option.mem_toList, writes?_eq_some]
    have hfilter : (name ∈ (reads n).filter fun name => !written.contains name) ↔
        n.Reads name ∧ name ∉ written := by
      rw [List.mem_filter, mem_reads]
      simp
    rw [flow, hread, hwritten, mem_foldl_addNew, mem_foldl_addNew, hwrites, hfilter,
      holdsUntil_cons, List.exists_mem_cons_iff]
    refine ⟨?_, or_assoc⟩
    by_cases hw : name ∈ written
    · simp [hw]
    · simp only [hw, not_false_eq_true, and_true, false_or, true_and, or_assoc]

theorem nodup_flow (c : Catalog) (ns : List TreeNode) (hinputs : inputs.Nodup)
    (hwritten : written.Nodup) :
    (flow c inputs written ns).1.Nodup ∧ (flow c inputs written ns).2.Nodup := by
  induction ns generalizing inputs written with
  | nil => exact ⟨hinputs, hwritten⟩
  | cons n ns ih => exact ih (nodup_foldl_addNew hinputs) (nodup_foldl_addNew hwritten)

/-- The ids select a node: it is one of the chain nodes with these ids, or is contained in one. -/
def Selected (t : WorkflowTree) (ids : List String) (n : TreeNode) : Prop :=
  ∃ m ∈ t.chainNodes, m.id ∈ ids ∧ n ∈ m.subtree

/-- A variable is read by a selected node and written by none before, in the order of the chain. -/
def ReadFirst (t : WorkflowTree) (c : Catalog) (ids : List String) (name : String) : Prop :=
  ∃ before n after, t.chainNodes = before ++ n :: after ∧ (Selected t ids n ∧ n.Reads name) ∧
    ∀ m ∈ before, Selected t ids m → ¬ m.Writes c name

/-- A variable is written by a selected node. -/
def Written (t : WorkflowTree) (c : Catalog) (ids : List String) (name : String) : Prop :=
  ∃ n ∈ t.chainNodes, Selected t ids n ∧ n.Writes c name

/-- A variable is read by a chain node that is not selected, or by an orphan. -/
def ReadOutside (t : WorkflowTree) (ids : List String) (name : String) : Prop :=
  (∃ n ∈ t.chainNodes, ¬ Selected t ids n ∧ n.Reads name) ∨ ∃ o ∈ t.orphans, o.node.Reads name

/-- The variables of a selection are what they are called, without repetition. -/
structure Variables.Classify (vs : Variables) (t : WorkflowTree) (c : Catalog) (ids : List String) :
    Prop where
  nodup : vs.inputs.Nodup ∧ vs.outputs.Nodup ∧ vs.locals.Nodup
  inputs : ∀ name, name ∈ vs.inputs ↔ ReadFirst t c ids name
  outputs : ∀ name, name ∈ vs.outputs ↔ Written t c ids name ∧ ReadOutside t ids name
  locals : ∀ name, name ∈ vs.locals ↔
    Written t c ids name ∧ name ∉ vs.outputs ∧ name ∉ vs.inputs

/-- The ids of what is selected. -/
def members (t : WorkflowTree) (ids : List String) : List String :=
  ids.flatMap fun id => ((t.find? id).map (·.subtree.map (·.id))).getD []

/-- The selected chain nodes. -/
def inside (t : WorkflowTree) (ids : List String) : List TreeNode :=
  t.chainNodes.filter fun n => (members t ids).contains n.id

/-- What the other chain nodes and the orphans read. -/
def readOutside (t : WorkflowTree) (ids : List String) : List String :=
  (t.chainNodes.filter fun n => !(members t ids).contains n.id).flatMap reads ++
    t.orphans.flatMap fun o => reads o.node

section Classified

open BlockFlow.Tree (exists_workflow_of_tree nodup_chainNodes)

variable {t : WorkflowTree} {tree : Tree} {ids ids' : List String}

theorem usage_none (h : tree.workflow? name = none) : usage tree c name ids = {} := by
  rw [usage, h]

theorem usage_eq (h : tree.workflow? name = some t) : usage tree c name ids =
    { inputs := (flow c [] [] (inside t ids)).1
      outputs := (flow c [] [] (inside t ids)).2.filter (readOutside t ids).contains
      locals := (flow c [] [] (inside t ids)).2.filter fun name =>
        !(readOutside t ids).contains name && !(flow c [] [] (inside t ids)).1.contains name } := by
  rw [usage, h]
  simp only [List.partition_eq_filter_filter]
  rfl

/-- Where chain nodes are told by their ids, so are the selected ones. -/
theorem mem_members (hnodup : (t.chainNodes.map (·.id)).Nodup) (hn : n ∈ t.chainNodes) :
    n.id ∈ members t ids ↔ Selected t ids n := by
  rw [members, List.mem_flatMap]
  constructor
  · rintro ⟨id, hid, hmem⟩
    cases hfind : t.find? id with
    | none => simp [hfind] at hmem
    | some m =>
      rw [hfind, Option.map_some, Option.getD_some] at hmem
      obtain ⟨k, hk, hkid⟩ := List.mem_map.mp hmem
      have hm : m ∈ t.chainNodes := List.mem_of_find?_eq_some hfind
      have hmid : m.id = id := by simpa using List.find?_some hfind
      obtain rfl := List.inj_on_of_nodup_map hnodup (mem_chain_of_subtree hk t.nodes hm) hn hkid
      exact ⟨m, hm, hmid ▸ hid, hk⟩
  · rintro ⟨m, hm, hid, hn⟩
    refine ⟨m.id, hid, ?_⟩
    rw [show t.find? m.id = some m from find?_of_nodup hnodup hm]
    exact List.mem_map_of_mem hn

theorem mem_readOutside (hnodup : (t.chainNodes.map (·.id)).Nodup) :
    name ∈ readOutside t ids ↔ ReadOutside t ids name := by
  have hchain : name ∈ (t.chainNodes.filter fun n => !(members t ids).contains n.id).flatMap reads ↔
      ∃ n ∈ t.chainNodes, ¬ Selected t ids n ∧ n.Reads name := by
    simp only [List.mem_flatMap, List.mem_filter, mem_reads, Bool.not_eq_true', and_assoc,
      List.contains_eq_mem, decide_eq_false_iff_not]
    refine exists_congr fun n => and_congr_right fun hn => ?_
    rw [mem_members hnodup hn]
  have horphans : name ∈ t.orphans.flatMap (fun o => reads o.node) ↔
      ∃ o ∈ t.orphans, o.node.Reads name := by
    simp only [List.mem_flatMap, mem_reads]
  rw [readOutside, List.mem_append, hchain, horphans, ReadOutside]

theorem mem_flow_inside (hnodup : (t.chainNodes.map (·.id)).Nodup) :
    (name ∈ (flow c [] [] (inside t ids)).1 ↔ ReadFirst t c ids name) ∧
    (name ∈ (flow c [] [] (inside t ids)).2 ↔ Written t c ids name) := by
  have hselected : ∀ n ∈ t.chainNodes, (members t ids).contains n.id ↔ Selected t ids n := by
    intro n hn
    rw [List.contains_iff_mem, mem_members hnodup hn]
  obtain ⟨hread, hwritten⟩ := mem_flow c name (inside t ids) [] []
  constructor
  · rw [hread, inside, holdsUntil_filter hselected]
    simp [HoldsUntil, ReadFirst]
  · rw [hwritten]
    simp only [inside, List.mem_filter, and_assoc, List.not_mem_nil, false_or]
    exact exists_congr fun n => and_congr_right fun hn => by rw [hselected n hn]

theorem classify_usage (hnodup : (t.chainNodes.map (·.id)).Nodup)
    (ht : tree.workflow? name = some t) : (usage tree c name ids).Classify t c ids := by
  rw [usage_eq ht]
  obtain ⟨hinputs, hwritten⟩ := nodup_flow c (inside t ids) List.nodup_nil List.nodup_nil
  refine ⟨⟨hinputs, hwritten.filter _, hwritten.filter _⟩, fun x => ?_, fun x => ?_, fun x => ?_⟩
  · exact (mem_flow_inside hnodup).1
  · rw [List.mem_filter, (mem_flow_inside hnodup).2, List.contains_iff_mem, mem_readOutside hnodup]
  · simp only [List.mem_filter, Bool.and_eq_true, Bool.not_eq_true', List.contains_eq_mem,
      decide_eq_false_iff_not, decide_eq_true_eq, (mem_flow_inside hnodup).2]
    refine and_congr_right fun hin => ?_
    rw [not_and, imp_iff_right hin]

/-- Only which ids are selected matters. -/
theorem usage_congr (h : ∀ id, id ∈ ids ↔ id ∈ ids') : usage tree c name ids' = usage tree c name ids := by
  cases ht : tree.workflow? name with
  | none => rw [usage_none ht, usage_none ht]
  | some t =>
    have hmembers (id : String) : (members t ids').contains id = (members t ids).contains id := by
      rw [Bool.eq_iff_iff, List.contains_iff_mem, List.contains_iff_mem]
      simp [members, h]
    rw [usage_eq ht, usage_eq ht]
    simp only [inside, readOutside, hmembers]

/-- The variables of a selection are what they are called. Each name that is written is among them,
and the locals are neither inputs nor outputs. Only which ids are selected matters. -/
theorem usage_follows_reads_and_writes (d : Document) (c c' : Catalog) (tree : Tree) (name : String)
    (ids : List String) (h : Tree.ofDocument d c = .ok tree) :
    (tree.workflow? name = none → usage tree c' name ids = {}) ∧
    (∀ t, tree.workflow? name = some t → (usage tree c' name ids).Classify t c' ids ∧
      ∀ x, Written t c' ids x → x ∈ (usage tree c' name ids).inputs ∨
        x ∈ (usage tree c' name ids).outputs ∨ x ∈ (usage tree c' name ids).locals) ∧
    (usage tree c' name ids).locals.Disjoint (usage tree c' name ids).inputs ∧
    (usage tree c' name ids).locals.Disjoint (usage tree c' name ids).outputs ∧
    ∀ ids', (∀ id, id ∈ ids ↔ id ∈ ids') → usage tree c' name ids' = usage tree c' name ids := by
  have hclassify (t : WorkflowTree) (ht : tree.workflow? name = some t) :
      (usage tree c' name ids).Classify t c' ids := by
    obtain ⟨w, -, hw⟩ := exists_workflow_of_tree h ht
    exact classify_usage (nodup_chainNodes hw) ht
  have hlocal (x : String) (hx : x ∈ (usage tree c' name ids).locals) :
      x ∉ (usage tree c' name ids).outputs ∧ x ∉ (usage tree c' name ids).inputs := by
    cases ht : tree.workflow? name with
    | none =>
      rw [usage_none ht] at hx
      cases hx
    | some t => exact (((hclassify t ht).locals x).mp hx).2
  refine ⟨usage_none, fun t ht => ⟨hclassify t ht, fun x hx => ?_⟩,
    fun x hx hin => (hlocal x hx).2 hin, fun x hx hin => (hlocal x hx).1 hin,
    fun ids' => usage_congr⟩
  have hlocals := (hclassify t ht).locals x
  tauto

/-- A catalog with an opcode that writes the variable it names. -/
def storeCatalog : Catalog :=
  Tree.pickCatalog.register { opcode := "store", category := .data, assigns := some "NAME" }

/-- The node `a` stores `x` from `y`, which a reporter reads, `b` stores `z` from `x` in a branch, and
`e` reads `z` behind it. -/
def storing : Document :=
  ⟨[⟨"m", {}, [],
    [⟨"start", startOpcode, [], some "a", []⟩,
      ⟨"a", "store", [("NAME", .literal (.str "x")),
        ("VALUE", .inline (some "r") "pick" [("IN", .variable "y")])], some "p", []⟩,
      ⟨"p", "pick", [], some "e", [("1", some "b")]⟩,
      ⟨"b", "store", [("NAME", .literal (.str "z")), ("VALUE", .variable "x")], none, []⟩,
      ⟨"e", "pick", [("IN", .variable "z")], none, []⟩]⟩]⟩

theorem storing_follows : ∃ tree, Tree.ofDocument storing storeCatalog = .ok tree ∧
    usage tree storeCatalog "m" ["a", "b"] = ⟨["y"], ["z"], ["x"]⟩ ∧
    (∀ t, tree.workflow? "m" = some t →
      (usage tree storeCatalog "m" ["a", "b"]).Classify t storeCatalog ["a", "b"]) ∧
    usage tree storeCatalog "m" ["b", "a", "b"] = ⟨["y"], ["z"], ["x"]⟩ := by
  obtain ⟨tree, htree, husage⟩ : ∃ tree, Tree.ofDocument storing storeCatalog = .ok tree ∧
      usage tree storeCatalog "m" ["a", "b"] = ⟨["y"], ["z"], ["x"]⟩ := ⟨_, rfl, by decide +kernel⟩
  obtain ⟨-, hclassify, -, -, hcongr⟩ := usage_follows_reads_and_writes storing storeCatalog
    storeCatalog tree "m" ["a", "b"] htree
  have hsame (id : String) : id ∈ ["a", "b"] ↔ id ∈ ["b", "a", "b"] := by
    simp only [List.mem_cons, List.not_mem_nil, or_false]
    tauto
  refine ⟨tree, htree, husage, fun t ht => (hclassify t ht).1, ?_⟩
  rw [hcongr _ hsame, husage]

end Classified

end Selection

end BlockFlow
