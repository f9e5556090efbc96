import BlockFlow.Proofs.Edit.Lifting
import BlockFlow.Proofs.Edit.Start
import BlockFlow.Proofs.FreshId
import BlockFlow.Proofs.Loops

/-!
Whether an edit makes pointers come back to where they began. Main statement: the pointers that
edits write close no loop, unless the successor chosen for a new node leads to the node it is put
behind.
-/

namespace BlockFlow

open Relation Outcome

/-- Entries for pointers of the workflow of that name lead from `a` to `b`. -/
def Document.Names (d : Document) (name a b : String) : Prop :=
  ∃ w, d.workflow? name = some w ∧ w.Names a b

namespace NewNode

/-- The pointer that shall lead to a new node. -/
def entry? (args : NewNode) (w : Workflow) : Option (String × LinkSlot) :=
  args.after.or (w.chainEnd?.map fun id => (id, .next))

/-- The node that a new node shall lead to. -/
def onward? (args : NewNode) (w : Workflow) : Option String :=
  args.successor.or ((args.entry? w).bind fun (id, slot) => w.pointer? id slot)

/-- The id of a new node. -/
def newId (args : NewNode) (d : Document) : String := (IdSource.take {} d args.opcode).1

/-- The successor chosen for a new node leads to the node that it is put behind. -/
def LeadsBack (args : NewNode) (d : Document) : Prop :=
  ∃ w, d.workflow? args.workflow = some w ∧ ∃ b, args.successor = some b ∧
    ∃ a slot, args.entry? w = some (a, slot) ∧ ReflTransGen w.Names b a

end NewNode

namespace Draft

/-- The ids that lifting a run makes: those of copied reporters, of the call and of the return
node. -/
def liftIds (d : Draft) (w : Workflow) (g : LinkGraph) (run : Selection.Report) :
    List (String × String) × String × String :=
  let (copies, ids) := d.copyIds (w.sharedReporters (w.removalSet g run.orderedIds)) {}
  let (call, ids) := ids.take d.document "call"
  (copies, call, (ids.take d.document "workflow_return").1)

variable {d : Draft}

theorem copyIds_new (shared : List String) (s : IdSource) :
    (∀ id ∈ s.given, id ∈ (d.copyIds shared s).2.given) ∧
      ∀ p ∈ (d.copyIds shared s).1,
        p.2 ∉ d.document.allIds ∧ p.2 ∈ (d.copyIds shared s).2.given := by
  induction shared generalizing s with
  | nil => simp [copyIds]
  | cons id shared ih =>
    obtain ⟨hgiven, hcopies⟩ := ih (s.take d.document id).2
    simp only [copyIds, List.forall_mem_cons]
    have hnew := (s.take_new d.document id).1
    rw [IdSource.given_take] at hgiven
    exact ⟨fun x hx => hgiven x (List.mem_cons_of_mem _ hx),
      ⟨hnew, hgiven _ (List.mem_cons_self ..)⟩, hcopies⟩

/-- The ids that lifting a run makes are new, and the return node is none of the copies. -/
theorem liftIds_new (w : Workflow) (g : LinkGraph) (run : Selection.Report) :
    (∀ p ∈ (d.liftIds w g run).1, p.2 ∉ d.document.allIds ∧ p.2 ≠ (d.liftIds w g run).2.2) ∧
      (d.liftIds w g run).2.1 ∉ d.document.allIds ∧
      (d.liftIds w g run).2.2 ∉ d.document.allIds := by
  let shared := w.sharedReporters (w.removalSet g run.orderedIds)
  obtain ⟨-, hcopies⟩ := copyIds_new (d := d) shared {}
  refine ⟨fun p hp => ?_, (IdSource.take_new ..).1, (IdSource.take_new ..).1⟩
  obtain ⟨hnew, hgiven⟩ := hcopies p hp
  refine ⟨hnew, fun heq => ?_⟩
  have hreturn := (((d.copyIds shared {}).2.take d.document "call").2.take_new d.document
    "workflow_return").2
  rw [IdSource.given_take] at hreturn
  have hmem : (d.liftIds w g run).2.2 ∈ (d.copyIds shared {}).2.given := heq ▸ hgiven
  exact hreturn (List.mem_cons_of_mem _ hmem)

end Draft

namespace Edit

/-- The pointers that an edit writes: in the workflow of that name, from `a` to `b`. -/
inductive Links (d : Draft) : Edit → (name a b : String) → Prop where
  | entry {args : NewNode} {w : Workflow} {a : String} {slot : LinkSlot}
    (hw : d.document.workflow? args.workflow = some w) (ha : args.entry? w = some (a, slot)) :
    Links d (.addNode args) args.workflow a (args.newId d.document)
  | onward {args : NewNode} {w : Workflow} {b : String}
    (hw : d.document.workflow? args.workflow = some w) (hb : args.onward? w = some b) :
    Links d (.addNode args) args.workflow (args.newId d.document) b
  | connected {name a b : String} {slot : LinkSlot} : Links d (.connect name a slot b) name a b
  | bridged {w : Workflow} {n : NodeDef} {name id a b : String}
    (hw : d.document.workflow? name = some w) (ha : w.Names a id) (hn : w.node? id = some n)
    (hb : n.next = some b) : Links d (.deleteNode name id) name a b
  | called {args : Extraction} {w : Workflow} {g : LinkGraph} {run : Selection.Report}
    {head last a : String} (h : d.Lifts args w g run head last a) :
    Links d (.extract args) args.workflow a (d.liftIds w g run).2.1
  | resumed {args : Extraction} {w : Workflow} {g : LinkGraph} {run : Selection.Report}
    {head last before b : String} (h : d.Lifts args w g run head last before)
    (hb : run.successorId = some b) :
    Links d (.extract args) args.workflow (d.liftIds w g run).2.1 b
  | started {args : Extraction} {w : Workflow} {g : LinkGraph} {run : Selection.Report}
    {head last before : String} (h : d.Lifts args w g run head last before) :
    Links d (.extract args) args.newName startId head
  | moved {args : Extraction} {w : Workflow} {g : LinkGraph} {run : Selection.Report}
    {head last before a b : String} (h : d.Lifts args w g run head last before)
    (hab : w.Names a b) (hb : b ∈ w.removalSet g run.orderedIds ∨ ∀ x, ¬ w.Names x a) :
    Links d (.extract args) args.newName a b
  | returned {args : Extraction} {w : Workflow} {g : LinkGraph} {run : Selection.Report}
    {head last before : String} (h : d.Lifts args w g run head last before) :
    Links d (.extract args) args.newName last (d.liftIds w g run).2.2
  | copied {args : Extraction} {w : Workflow} {g : LinkGraph} {run : Selection.Report}
    {head last before id copy b : String} (h : d.Lifts args w g run head last before)
    (hcopy : (id, copy) ∈ (d.liftIds w g run).1)
    (hb : w.Names id b) : Links d (.extract args) args.newName copy b

end Edit

namespace Edit

variable {c : Catalog} {d after : Draft} {e : Edit} {name id source target : String}

/-- What is known of a document that has a tree and no loops. -/
structure Loopfree (d : Document) : Prop where
  built : ∀ w ∈ d.workflows, ∃ g, LinkGraph.build w = .ok g
  noLoop : ∀ w ∈ d.workflows, w.NoLoop

namespace Loopfree

variable {d : Document} {w : Workflow} {name a b x : String}

theorem names (h : Loopfree d) (name : String) : Loopless (d.Names name) := by
  cases hw : d.workflow? name with
  | none =>
    intro a ha
    obtain ⟨b, ⟨w, hw', -⟩, -⟩ := TransGen.head'_iff.mp ha
    simp [hw] at hw'
  | some w =>
    refine (h.noLoop w (List.mem_of_find?_eq_some hw)).mono fun a b hab => ?_
    obtain ⟨w', hw', hab⟩ := hab
    obtain rfl : w = w' := Option.some.inj (hw.symm.trans hw')
    exact .single hab

theorem mem_allIds (h : Loopfree d) (hab : d.Names name a b) : a ∈ d.allIds ∧ b ∈ d.allIds := by
  obtain ⟨w, hw, hab⟩ := hab
  have hmem := List.mem_of_find?_eq_some hw
  obtain ⟨g, hg⟩ := h.built w hmem
  obtain ⟨n, hn, rfl, slot, hp⟩ := hab
  obtain ⟨m, hm, hid⟩ := Workflow.mem_nodeIds.mp ((LinkGraph.build_eq_ok.mp hg).1 n hn _ hp)
  refine ⟨Document.mem_allIds hmem hn, ?_⟩
  rw [← show m.id = b from hid]
  exact Document.mem_allIds hmem hm

theorem not_names (h : Loopfree d) (hx : x ∉ d.allIds) :
    ∀ y, ¬ d.Names name y x ∧ ¬ d.Names name x y :=
  fun _ => ⟨fun hyx => hx (h.mem_allIds hyx).2, fun hxy => hx (h.mem_allIds hxy).1⟩

end Loopfree

theorem names_iff {d : Document} {w : Workflow} {a b : String} (hw : d.workflow? name = some w) :
    d.Names name a b ↔ w.Names a b := by
  simp [Document.Names, hw]

/-- Connecting checks that the target does not lead to the source. -/
theorem not_reaches_of_connect {slot : LinkSlot} {w : Workflow}
    (h : d.connect name source slot target = .ok after) (hw : d.document.workflow? name = some w) :
    ¬ ReflTransGen w.Names target source := by
  unfold Draft.connect at h
  simp only [bind_eq_ok, Draft.workflow_eq_ok, Draft.node_eq_ok, hw, Option.some.injEq,
    exists_eq_left'] at h
  obtain ⟨s, hs, t, ht, -, -, h⟩ := h
  split at h
  · cases h
  · simp only [bind_eq_ok, Draft.graph_eq_ok] at h
    obtain ⟨g, hg, h⟩ := h
    split at h
    · cases h
    · rename_i hfree
      intro hway
      have htarget := Workflow.mem_nodeIds_of_node? ht
      refine hfree ?_
      simp [LinkGraph.isAncestor_iff hg, LinkGraph.mem_reachableFrom hg, htarget, hway,
        Workflow.mem_nodeIds_of_node? hs]

/-- The pointer that a new node is put behind is the one that shall lead to it. -/
theorem insertionPoint_eq {args : NewNode} {w : Workflow} {point : Option (String × LinkSlot)}
    (h : d.insertionPoint w args = .ok point) : point = args.entry? w := by
  unfold Draft.insertionPoint at h
  unfold NewNode.entry?
  split at h
  · rename_i hafter
    cases h
    rw [hafter, Option.none_or]
  · rename_i id slot hafter
    simp only [bind_eq_ok, Except.ok.injEq] at h
    obtain ⟨_, -, -, -, rfl⟩ := h
    rw [hafter, Option.some_or]

theorem lastFrom_mem {w : Workflow} {g : LinkGraph} (hg : LinkGraph.build w = .ok g) (fuel : Nat)
    (seen : List String) (hid : id ∈ w.nodeIds) : w.lastFrom fuel seen id ∈ w.nodeIds := by
  induction fuel generalizing seen id with
  | zero => exact hid
  | succ fuel ih =>
    rw [Workflow.lastFrom]
    split
    · exact hid
    · rename_i next hnext
      split
      · exact hid
      · obtain ⟨n, hn, hnext⟩ := Option.bind_eq_some_iff.mp hnext
        have hp := (LinkGraph.build_eq_ok.mp hg).1 n (Workflow.node?_mem hn) (.next, next)
          (NodeDef.mem_pointers_next.mpr hnext)
        exact ih _ hp

/-- A new node and the nodes that it stands between. -/
theorem mem_nodeIds_of_addNode {args : NewNode} {w : Workflow} {g : LinkGraph}
    (h : d.addNode args = .ok (after, id)) (hw : d.document.workflow? args.workflow = some w)
    (hg : LinkGraph.build w = .ok g) :
    (∀ p ∈ args.entry? w, p.1 ∈ w.nodeIds) ∧ ∀ b ∈ args.onward? w, b ∈ w.nodeIds := by
  unfold Draft.addNode at h
  split at h
  · cases h
  · simp only [bind_eq_ok, Draft.workflow_eq_ok, hw, Option.some.injEq, exists_eq_left'] at h
    obtain ⟨point, hpoint, _, hsuccessor, -⟩ := h
    have hentry : ∀ p ∈ args.entry? w, p.1 ∈ w.nodeIds := by
      intro p hp
      unfold NewNode.entry? at hp
      rcases Option.or_eq_some_iff.mp hp with hafter | ⟨-, hend⟩
      · simp only [Draft.insertionPoint, hafter, bind_eq_ok, Draft.node_eq_ok] at hpoint
        obtain ⟨n, hn, -⟩ := hpoint
        exact Workflow.mem_nodeIds_of_node? hn
      · obtain ⟨last, hlast, rfl⟩ := Option.map_eq_some_iff.mp hend
        obtain ⟨start, hstart, rfl⟩ := Option.map_eq_some_iff.mp hlast
        exact lastFrom_mem hg _ _ (Workflow.mem_nodeIds_of_startId? hstart)
    refine ⟨hentry, fun b hb => ?_⟩
    rcases Option.or_eq_some_iff.mp hb with hchosen | ⟨-, hdisplaced⟩
    · rw [hchosen] at hsuccessor
      obtain ⟨_, hfound, -⟩ := bind_eq_ok.mp hsuccessor
      cases hn : w.node? b with
      | none => simp [Draft.node, hn, Except.map] at hfound
      | some n => exact Workflow.mem_nodeIds_of_node? hn
    · obtain ⟨⟨a, slot⟩, -, hpointer⟩ := Option.bind_eq_some_iff.mp hdisplaced
      exact Workflow.Leads.mem_nodeIds (LinkGraph.build_eq_ok.mp hg).1 ⟨slot, hpointer⟩

/-- A new node takes the place of a pointer, or it leads to a node that does not lead back. -/
theorem loopless_addNode {args : NewNode} (hd : Loopfree d.document)
    (h : d.addNode args = .ok (after, id)) (hback : ¬ args.LeadsBack d.document) (name : String) :
    Loopless fun a b => d.document.Names name a b ∨ Links d (.addNode args) name a b := by
  cases hw : d.document.workflow? args.workflow with
  | none =>
    refine (hd.names name).mono fun a b hab => ?_
    rcases hab with hold | hnew
    · exact .single hold
    · cases hnew <;> simp_all
  | some w =>
    have hmem := List.mem_of_find?_eq_some hw
    obtain ⟨g, hg⟩ := hd.built w hmem
    obtain ⟨hentry, honward⟩ := mem_nodeIds_of_addNode h hw hg
    have hnew : args.newId d.document ∉ d.document.allIds := (IdSource.take_new ..).1
    have hids : ∀ x ∈ w.nodeIds, x ∈ d.document.allIds := by
      intro x hx
      obtain ⟨n, hn, rfl⟩ := Workflow.mem_nodeIds.mp hx
      exact Document.mem_allIds hmem hn
    have hway : ∀ a ∈ (args.entry? w).map (·.1), ∀ b ∈ args.onward? w,
        ¬ ReflTransGen (d.document.Names args.workflow) b a := by
      intro a ha b hb hway
      obtain ⟨⟨a', slot⟩, hslot, heq⟩ := Option.map_eq_some_iff.mp ha
      obtain rfl : a' = a := heq
      rcases Option.or_eq_some_iff.mp hb with hchosen | ⟨-, hdisplaced⟩
      · refine hback ⟨w, hw, b, hchosen, a', slot, hslot, ?_⟩
        exact ReflTransGen.mono (fun _ _ => (names_iff hw).mp) _ _ hway
      · rw [hslot, Option.bind_some] at hdisplaced
        have hleads : w.Leads a' b := ⟨slot, hdisplaced⟩
        exact hd.names args.workflow a' (.head' ((names_iff hw).mpr hleads.names) hway)
    have hall := (hd.names args.workflow).insert_between (hd.not_names hnew)
      (fun hp => by
        obtain ⟨p, hp, heq⟩ := Option.map_eq_some_iff.mp hp
        exact hnew (heq ▸ hids _ (hentry p hp)))
      (fun hq => hnew (hids _ (honward _ hq))) hway
    by_cases hname : name = args.workflow
    · subst hname
      refine hall.mono fun a b hab => .single ?_
      rcases hab with hold | hlink
      · exact .inl (.inl hold)
      · cases hlink with
        | entry hw' ha =>
          obtain rfl : w = _ := Option.some.inj (hw.symm.trans hw')
          exact .inr ⟨by simp [ha], rfl⟩
        | onward hw' hb =>
          obtain rfl : w = _ := Option.some.inj (hw.symm.trans hw')
          exact .inl (.inr ⟨rfl, hb⟩)
    · refine (hd.names name).mono fun a b hab => .single (hab.resolve_right fun hlink => ?_)
      cases hlink <;> exact hname rfl

/-- In the workflow of a run, the call stands between the node before the run, from which pointers
lead to the successor of the run, and this successor. -/
theorem loopless_calling {args : Extraction} {w : Workflow} {g : LinkGraph}
    {run : Selection.Report} {head last before : String} (hd : Loopfree d.document)
    (h : d.Lifts args w g run head last before) :
    Loopless fun a b => d.document.Names args.workflow a b ∨
      Links d (.extract args) args.workflow a b := by
  have haround := h.around
  have hmem := List.mem_of_find?_eq_some h.workflow
  have hleads : ∀ {a b}, TransGen w.Leads a b → TransGen (d.document.Names args.workflow) a b :=
    fun hway => TransGen.mono
      (fun _ _ (hab : w.Leads _ _) => (names_iff h.workflow).mpr hab.names) _ _ hway
  obtain ⟨-, hnew, -⟩ := Draft.liftIds_new (d := d) w g run
  have hback : ∀ a ∈ some before, ∀ b ∈ run.successorId,
      ¬ ReflTransGen (d.document.Names args.workflow) b a := by
    intro a ha b hb hway
    obtain rfl := Option.some.inj ha
    exact hd.names _ _ ((hleads (haround.onward b hb)).trans_left hway)
  have hall := (hd.names args.workflow).insert_between (hd.not_names hnew)
    (fun hp => by
      obtain ⟨n, hn, hid⟩ := Workflow.mem_nodeIds.mp haround.before
      exact hnew (Option.some.inj hp ▸ hid ▸ Document.mem_allIds hmem hn))
    (fun hq => by
      obtain ⟨_, -, hlast⟩ := TransGen.tail'_iff.mp (hleads (haround.onward _ hq))
      exact hnew (hd.mem_allIds hlast).2) hback
  refine hall.mono fun a b hab => .single ?_
  rcases hab with hold | hlink
  · exact .inl (.inl hold)
  · have hother := h.newName_ne.symm
    generalize args.workflow = name at hlink hother
    cases hlink with
    | called h' =>
      obtain ⟨rfl, rfl, rfl, rfl, rfl, rfl⟩ := h.unique h'
      exact .inr ⟨rfl, rfl⟩
    | resumed h' hb =>
      obtain ⟨rfl, rfl, rfl, rfl, rfl, rfl⟩ := h.unique h'
      exact .inl (.inr ⟨rfl, hb⟩)
    | _ => exact absurd rfl hother

section Lifted

variable {args : Extraction} {w : Workflow} {g : LinkGraph} {run : Selection.Report}
  {head last before a b : String}

/-- Pointers of nodes that move, the pointer to the return node and that of the new start node. -/
def Started (d : Draft) (args : Extraction) (w : Workflow) (g : LinkGraph) (run : Selection.Report)
    (head last a b : String) : Prop :=
  b ≠ startId ∧ (d.document.Names args.workflow a b ∨ a = last ∧ b = (d.liftIds w g run).2.2) ∨
    a = startId ∧ b = head

/-- Nothing leads to copies of reporters, and to some of the reporters that move. -/
def Unled (d : Draft) (w : Workflow) (g : LinkGraph) (run : Selection.Report) (x : String) : Prop :=
  (∃ p ∈ (d.liftIds w g run).1, p.2 = x) ∨ x ∈ w.nodeIds ∧ ∀ y, ¬ w.Names y x

theorem loopless_started (hd : Loopfree d.document) (h : d.Lifts args w g run head last before)
    (hstart : startId ∉ w.removalSet g run.orderedIds) :
    Loopless (Started d args w g run head last) := by
  have haround := h.around
  have hmem := List.mem_of_find?_eq_some h.workflow
  obtain ⟨-, -, hreturn⟩ := Draft.liftIds_new (d := d) w g run
  have hhead : head ≠ startId := fun heq => hstart (heq ▸ haround.moved)
  -- The return node leads nowhere, and nothing leads to the start node.
  have hended := ((hd.names args.workflow).insert_iff (a := last)
    (b := (d.liftIds w g run).2.2)).mpr fun hway => by
      rcases ReflTransGen.cases_head hway with heq | ⟨y, hfirst, -⟩
      · obtain ⟨n, hn, hid⟩ := Workflow.mem_nodeIds.mp haround.behind
        rw [heq, ← hid] at hreturn
        exact hreturn (Document.mem_allIds hmem hn)
      · exact (hd.not_names hreturn y).2 hfirst
  refine hended.of_sources (· = startId) (fun a b hab => ?_) fun a b hab => ?_
  · exact hab.elim And.left fun hab => hab.2 ▸ hhead
  · exact hab.imp And.right And.left

theorem not_unled_of_names (hd : Loopfree d.document)
    (hw : d.document.workflow? args.workflow = some w) (hab : w.Names a b) :
    ¬ Unled d w g run b := by
  intro hout
  rcases hout with ⟨p, hp, rfl⟩ | ⟨-, hfree⟩
  · exact ((Draft.liftIds_new w g run).1 p hp).1 (hd.mem_allIds ((names_iff hw).mpr hab)).2
  · exact hfree a hab

theorem not_unled_of_links (hd : Loopfree d.document) (h : d.Lifts args w g run head last before)
    (hlink : Links d (.extract args) args.newName a b) : ¬ Unled d w g run b := by
  have hother := h.newName_ne
  generalize args.newName = name at hlink hother
  cases hlink with
  | started h' =>
    obtain ⟨rfl, rfl, rfl, rfl, rfl, rfl⟩ := h.unique h'
    obtain ⟨_, -, hlast⟩ := TransGen.tail'_iff.mp h.around.entry
    exact not_unled_of_names hd h.workflow hlast.names
  | moved h' hab =>
    obtain ⟨rfl, rfl, rfl, rfl, rfl, rfl⟩ := h.unique h'
    exact not_unled_of_names hd h.workflow hab
  | returned h' =>
    obtain ⟨rfl, rfl, rfl, rfl, rfl, rfl⟩ := h.unique h'
    obtain ⟨hcopies, -, hreturn⟩ := Draft.liftIds_new (d := d) w g run
    intro hout
    rcases hout with ⟨p, hp, heq⟩ | ⟨hnode, -⟩
    · exact (hcopies p hp).2 heq
    · obtain ⟨n, hn, hid⟩ := Workflow.mem_nodeIds.mp hnode
      rw [← hid] at hreturn
      exact hreturn (Document.mem_allIds (List.mem_of_find?_eq_some h.workflow) hn)
  | copied h' _ hb =>
    obtain ⟨rfl, rfl, rfl, rfl, rfl, rfl⟩ := h.unique h'
    exact not_unled_of_names hd h.workflow hb
  | _ => exact absurd rfl hother

theorem started_of_links (h : d.Lifts args w g run head last before)
    (hstart : startId ∉ w.removalSet g run.orderedIds)
    (hlink : Links d (.extract args) args.newName a b) :
    Started d args w g run head last a b ∨ Unled d w g run a := by
  have hother := h.newName_ne
  generalize args.newName = name at hlink hother
  cases hlink with
  | started h' =>
    obtain ⟨rfl, rfl, rfl, rfl, rfl, rfl⟩ := h.unique h'
    exact .inl (.inr ⟨rfl, rfl⟩)
  | moved h' hab hb =>
    obtain ⟨rfl, rfl, rfl, rfl, rfl, rfl⟩ := h.unique h'
    rcases hb with hb | hfree
    · exact .inl (.inl ⟨fun heq => hstart (heq ▸ hb), .inl ((names_iff h.workflow).mpr hab)⟩)
    · obtain ⟨n, hn, hid, -⟩ := hab
      exact .inr (.inr ⟨Workflow.mem_nodeIds.mpr ⟨n, hn, hid⟩, hfree⟩)
  | returned h' =>
    obtain ⟨rfl, rfl, rfl, rfl, rfl, rfl⟩ := h.unique h'
    exact .inl (.inl ⟨freeId_ne_startId _ _, .inr ⟨rfl, rfl⟩⟩)
  | copied h' hcopy _ =>
    obtain ⟨rfl, rfl, rfl, rfl, rfl, rfl⟩ := h.unique h'
    exact .inr (.inl ⟨_, hcopy, rfl⟩)
  | _ => exact absurd rfl hother

/-- In the workflow that is made, the start node leads to the run, whose pointers are old ones, and
nothing leads to the copies of reporters. -/
theorem loopless_lifted (hd : Loopfree d.document) (h : d.Lifts args w g run head last before)
    (hstart : startId ∉ w.removalSet g run.orderedIds) :
    Loopless fun a b => d.document.Names args.newName a b ∨
      Links d (.extract args) args.newName a b := by
  have hnone {a b : String} : ¬ d.document.Names args.newName a b := by
    simp [Document.Names, h.unused]
  refine (loopless_started hd h hstart).of_sources (Unled d w g run) (fun a b hab => ?_)
    fun a b hab => ?_
  · exact not_unled_of_links hd h (hab.resolve_left hnone)
  · exact started_of_links h hstart (hab.resolve_left hnone)

end Lifted

theorem loopless_extract {args : Extraction} (hd : Loopfree d.document)
    (h : d.extract args = .ok (after, id))
    (hstart : ∀ w g run head last before, d.Lifts args w g run head last before →
      startId ∉ w.removalSet g run.orderedIds) (name : String) :
    Loopless fun a b => d.document.Names name a b ∨ Links d (.extract args) name a b := by
  obtain ⟨w, g, run, head, last, before, hlifts, -⟩ := Draft.exists_lifts h
  by_cases hsource : name = args.workflow
  · subst hsource
    exact loopless_calling hd hlifts
  · by_cases hmade : name = args.newName
    · subst hmade
      exact loopless_lifted hd hlifts (hstart _ _ _ _ _ _ hlifts)
    · refine (hd.names name).mono fun a b hab => .single (hab.resolve_right fun hlink => ?_)
      cases hlink <;> first | exact hsource rfl | exact hmade rfl

/-- The pointers that were there and those that an edit writes make no loop, if a new node does not
lead back and no node is moved under the id of the new start node. -/
theorem loopless_of_run {made : Option String} (hd : Loopfree d.document)
    (h : e.run d = .ok (after, made))
    (hback : ∀ args, e = .addNode args → ¬ args.LeadsBack d.document)
    (hstart : ∀ args w g run head last before, e = .extract args →
      d.Lifts args w g run head last before → startId ∉ w.removalSet g run.orderedIds)
    (name : String) : Loopless fun a b => d.document.Names name a b ∨ Links d e name a b := by
  have hold := hd.names name
  cases e with
  | addNode args =>
    obtain ⟨id, -, h⟩ := run_made h
    exact loopless_addNode hd h (hback args rfl) name
  | extract args =>
    obtain ⟨id, -, h⟩ := run_made h
    exact loopless_extract hd h (fun w g run head last before =>
      hstart args w g run head last before rfl) name
  | connect workflow source slot target =>
    have hconnect := run_changed h
    by_cases hname : name = workflow
    · subst hname
      obtain ⟨w, hw, -⟩ := bind_eq_ok.mp hconnect
      rw [Draft.workflow_eq_ok] at hw
      have hback := not_reaches_of_connect hconnect hw
      refine (hold.insert_iff (a := source) (b := target)).mpr ?_ |>.mono fun a b hab => .single ?_
      · exact fun hway => hback (ReflTransGen.mono (fun _ _ => (names_iff hw).mp) _ _ hway)
      · refine hab.imp_right fun hlink => ?_
        cases hlink
        exact ⟨rfl, rfl⟩
    · refine hold.mono fun a b hab => .single (hab.resolve_right fun hlink => ?_)
      cases hlink
      exact hname rfl
  | deleteNode workflow node =>
    refine hold.mono fun a b hab => ?_
    rcases hab with hab | hlink
    · exact .single hab
    · cases hlink with
      | bridged hw ha hn hb =>
        have hnext := NodeDef.mem_pointers_next.mpr hb
        exact .tail (.single ⟨_, hw, ha⟩)
          ⟨_, hw, _, Workflow.node?_mem hn, Workflow.node?_id hn, .next, hnext⟩
  | _ => exact hold.mono fun a b hab => .single (hab.resolve_right nofun)

/-- One step of a run of edits: the text has a tree, and the pointers of the text that is left are
pointers that were there or that the edit writes. Where a node is added its chosen successor does
not lead back, and where a run is lifted no node is moved under the id of the new start node. -/
structure Rewires (c : Catalog) (text : String) (e : Edit) (r : Edited) : Prop where
  applied : e.apply c text = .ok r
  parsed : ∃ t, Tree.parse c text = .ok t
  pointers : ∀ d d', Document.load text = .ok d → Document.load r.text = .ok d' →
    ∀ w ∈ d'.workflows, ∀ a b, w.Names a b →
      d.Names w.name a b ∨ Links ⟨c, d, Outline.ofChars text.toList⟩ e w.name a b
  onward : ∀ d args, Document.load text = .ok d → e = .addNode args → ¬ args.LeadsBack d
  starts : ∀ d args w g run head last before, Document.load text = .ok d → e = .extract args →
    Draft.Lifts ⟨c, d, Outline.ofChars text.toList⟩ args w g run head last before →
      startId ∉ w.removalSet g run.orderedIds

/-- One such edit after the other. -/
inductive Rewiring (c : Catalog) : String → List Edit → String → Prop where
  | nil {text : String} : Rewiring c text [] text
  | cons {e : Edit} {es : List Edit} {text edited : String} {r : Edited}
    (first : Rewires c text e r) (rest : Rewiring c r.text es edited) :
    Rewiring c text (e :: es) edited

/-- A step leaves no loop when there was none. -/
theorem noLoop_of_rewires {text : String} {r : Edited} {d d' : Document}
    (h : Rewires c text e r) (hd : Document.load text = .ok d)
    (hd' : Document.load r.text = .ok d') (hloop : ∀ w ∈ d.workflows, w.NoLoop) :
    ∀ w ∈ d'.workflows, w.NoLoop := by
  obtain ⟨t, ht⟩ := h.parsed
  rw [Tree.parse_eq_ofDocument hd] at ht
  obtain ⟨d₀, after, made, _, hd₀, hrun, -, -⟩ := exists_run h.applied
  obtain rfl : d = d₀ := by simpa [hd] using hd₀
  have hfree : Loopfree d := ⟨Tree.exists_build ht, hloop⟩
  intro w hw
  have hlinks := loopless_of_run hfree hrun (fun args => h.onward d args hd)
    (fun args w g run head last before => h.starts d args w g run head last before hd) w.name
  exact hlinks.mono fun a b hab => .single (h.pointers d d' hd hd' w hw a b hab)

/-- The node `p` behind the start node. -/
def oneNode : String :=
  "workflows:
  - name: m
    nodes:
      start: {opcode: workflow_start, next: p}
      p:
        opcode: io_print
"

/-- Whether all pointers of a document are pointers of another one or the entry of a new node. -/
def addsEntry (args : NewNode) (d d' : Document) : Bool :=
  d'.workflows.all fun w => w.links.all fun l => (d.workflow? w.name).any fun v =>
    v.links.any (fun k => k.source = l.source && k.target = l.target) ||
      (w.name = args.workflow && (args.entry? v).any (·.1 = l.source) && l.target = args.newId d)

theorem links_of_addsEntry {args : NewNode} {d d' : Document} {o : Outline}
    (h : addsEntry args d d') {w : Workflow} (hw : w ∈ d'.workflows) {a b : String}
    (hab : w.Names a b) : d.Names w.name a b ∨ Links ⟨c, d, o⟩ (.addNode args) w.name a b := by
  obtain ⟨n, hn, hid, slot, hp⟩ := hab
  have hl := List.all_eq_true.mp (List.all_eq_true.mp h w hw) ⟨a, slot, b⟩
    (Workflow.mem_links.mpr ⟨n, hn, hid, hp⟩)
  obtain ⟨v, hv, hlink⟩ := (Option.any_eq_true _ _).mp hl
  simp only [Bool.or_eq_true, Bool.and_eq_true, decide_eq_true_eq, List.any_eq_true,
    Option.any_eq_true] at hlink
  rcases hlink with ⟨k, hk, rfl, rfl⟩ | ⟨⟨hname, ⟨_, slot'⟩, hentry, rfl⟩, rfl⟩
  · obtain ⟨m, hm, hmid, hmp⟩ := Workflow.mem_links.mp hk
    exact .inl ⟨v, hv, m, hm, hmid, k.slot, hmp⟩
  · rw [hname] at hv ⊢
    exact .inr (.entry hv hentry)

/-- A new node behind `p`. -/
def behindP : NewNode := ⟨"m", "io_print", some ("p", .next), none⟩

/-- A new node behind `p` that leads back to `p`. -/
def backToP : NewNode := ⟨"m", "io_print", some ("p", .next), some "p"⟩

end Edit

end BlockFlow
