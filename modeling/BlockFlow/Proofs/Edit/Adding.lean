import BlockFlow.Proofs.Edit.Inserting
import BlockFlow.Proofs.Edit.Linking
import BlockFlow.Proofs.Tree.Spliced

/-!
What adding a node leaves behind. Main statement: in a text in block style the node stands between a
pointer and where it led, and nothing else changes; behind the last node of the main chain it is the
last node of that chain.
-/

namespace BlockFlow

open Outcome InputExpr

namespace OpcodeSpec

/-- The inputs of a new node, with their types. -/
def newInputs (spec : OpcodeSpec) : List (String × String) :=
  spec.params.map (fun p => (p.name, p.type)) ++
    match spec.numberedInputs with
    | some n => (List.range n.least).map fun i => (numberedName n.stem (i + 1), n.type)
    | none => []

/-- The inputs of a new node, with the literals that they hold. -/
def defaults (spec : OpcodeSpec) : Inputs :=
  spec.newInputs.map fun p => (p.1, .literal (defaultLiteral p.2))

theorem literal_defaults (spec : OpcodeSpec) : ∀ i ∈ spec.defaults, ∃ v, i.2 = .literal v := by
  intro i hi
  obtain ⟨p, -, rfl⟩ := List.mem_map.mp hi
  exact ⟨_, rfl⟩

theorem distinctIn_literals {ins : Inputs} (h : ∀ i ∈ ins, ∃ v, i.2 = .literal v)
    (hnodup : (ins.map (·.1)).Nodup) : DistinctIn ins := by
  induction ins with
  | nil => trivial
  | cons i ins ih =>
    obtain ⟨key, e⟩ := i
    obtain ⟨⟨v, hv⟩, hrest⟩ := List.forall_mem_cons.mp h
    obtain rfl : e = .literal v := hv
    obtain ⟨hkey, hnodup⟩ := List.nodup_cons.mp hnodup
    exact ⟨hkey, trivial, ih hrest hnodup⟩

theorem inlineIdsIn_literals {ins : Inputs} (h : ∀ i ∈ ins, ∃ v, i.2 = .literal v) :
    inlineIdsIn ins = [] := by
  induction ins with
  | nil => rfl
  | cons i ins ih =>
    obtain ⟨key, e⟩ := i
    obtain ⟨⟨v, hv⟩, hrest⟩ := List.forall_mem_cons.mp h
    obtain rfl : e = .literal v := hv
    rw [inlineIdsIn, ih hrest]
    rfl

/-- The lines of literals, input by input. -/
theorem mappingLines_literals (ps : List (String × String)) : Outline.mappingLines
    ((ps.map fun p => (p.1, InputExpr.literal (defaultLiteral p.2))).map
      fun i => (.str i.1, i.2.toYaml)) =
        ps.flatMap fun p => Outline.nested p.1 (Outline.field "literal" (defaultLiteral p.2)) := by
  induction ps with
  | nil => rfl
  | cons p ps ih =>
    rw [List.map_cons, List.map_cons, Outline.mappingLines, ih, List.flatMap_cons]
    simp [toYaml, Outline.entryLines, Outline.inline?, Outline.valueLines, Outline.mappingLines,
      Outline.nested, Outline.field, Outline.renderKey]

/-- A new node is written as any node with literals for its inputs. -/
theorem nodeLines_eq (spec : OpcodeSpec) (hdistinct : DistinctIn spec.defaults) (id : String)
    (successor : Option String) : spec.nodeLines id successor =
      Outline.nested id (Outline.field "opcode" (.str spec.opcode) ++
        (if spec.defaults.isEmpty then [] else Outline.field "inputs" (inputsToYaml spec.defaults)) ++
          successor.toList.flatMap fun t => Outline.field "next" (.str t)) := by
  let inputs := spec.newInputs.flatMap fun p =>
    Outline.nested p.1 (Outline.field "literal" (defaultLiteral p.2))
  have hlines : Outline.mappingLines (entriesToYaml spec.defaults []) = inputs := by
    rw [entriesToYaml_eq hdistinct]
    exact mappingLines_literals spec.newInputs
  have hinputs : (if inputs.isEmpty then [] else Outline.nested "inputs" inputs) =
      if spec.defaults.isEmpty then [] else Outline.field "inputs" (inputsToYaml spec.defaults) := by
    cases hps : spec.newInputs with
    | nil => simp [inputs, defaults, hps]
    | cons p ps =>
      have hne : spec.defaults.isEmpty = false := by simp [defaults, hps]
      have hfull : inputs.isEmpty = false := by simp [inputs, hps, Outline.nested]
      rw [hne, hfull, if_neg Bool.false_ne_true, if_neg Bool.false_ne_true, inputsToYaml, ← hlines]
      rw [Outline.field, Outline.valueLines, entriesToYaml_eq hdistinct, defaults, hps]
      rfl
  rw [← hinputs]
  rfl

/-- New nodes of built-in opcodes are read back from where they are written. -/
theorem written_defaults {opcode : String} {spec : OpcodeSpec} {next : Option String}
    (h : Catalog.builtin.get? opcode = some spec) (hnext : ∀ t ∈ next, Form.isKey t) :
    Form.Written spec.opcode spec.defaults next := by
  have hall : Catalog.builtin.specs.all fun spec => areWritable spec.defaults &&
      decide (spec.defaults.map (·.1)).Nodup := by decide +kernel
  obtain ⟨hwritable, hnodup⟩ := (Bool.and_eq_true _ _).mp
    (List.all_eq_true.mp hall spec (List.mem_of_find?_eq_some h))
  have hopcode : spec.opcode = opcode := by simpa using List.find?_some h
  have hknown : (Catalog.builtin.get? spec.opcode).isSome := by rw [hopcode, h]; rfl
  refine ⟨(Form.isKey_opcode hknown).1, hwritable, ?_, ?_, hnext⟩
  · exact distinctIn_literals spec.literal_defaults (of_decide_eq_true hnodup)
  · rw [inlineIdsIn_literals spec.literal_defaults]
    simp

end OpcodeSpec

namespace Draft

variable {d d' : Draft} {w : Workflow} {args : NewNode} {id : String}

/-- Where a new node goes in a workflow with a start node: behind the given node, or behind the last one
that next pointers lead to. -/
def IsPoint (w : Workflow) (args : NewNode) (p : String × LinkSlot) : Prop :=
  args.after = some p ∨ args.after = none ∧ w.chainEnd? = some p.1 ∧ p.2 = .next

theorem IsPoint.unique {p p' : String × LinkSlot} (h : IsPoint w args p) (h' : IsPoint w args p') :
    p = p' := by
  rcases h with hafter | ⟨hafter, hend, hnext⟩ <;> rcases h' with hafter' | ⟨hafter', hend', hnext'⟩
  · exact Option.some.inj (hafter.symm.trans hafter')
  · cases hafter.symm.trans hafter'
  · cases hafter.symm.trans hafter'
  · exact Prod.ext (Option.some.inj (hend.symm.trans hend')) (hnext.trans hnext'.symm)

/-- The node that is made to be added. -/
def newNode (d : Document) (spec : OpcodeSpec) (w : Workflow) (args : NewNode)
    (p : String × LinkSlot) : NodeDef :=
  ⟨(IdSource.take {} d args.opcode).1, spec.opcode, spec.defaults,
    args.successor.or (w.pointer? p.1 p.2), []⟩

theorem checkSlot_eq_ok {n : NodeDef} {slot : LinkSlot} : d.checkSlot n slot = .ok () ↔
    ∀ name, slot = .branch name → name ∈ d.catalog.branchSlots n.opcode n.branchNames := by
  cases slot with
  | next => simp [checkSlot]
  | branch name => simp [checkSlot]

/-- The pointer is one that its node may have. -/
theorem exists_point {point : Option (String × LinkSlot)} (h : d.insertionPoint w args = .ok point)
    (hstart : w.startId?.isSome) : ∃ p, point = some p ∧ IsPoint w args p ∧
      ∀ k, w.node? p.1 = some k → d.checkSlot k p.2 = .ok () := by
  unfold insertionPoint at h
  split at h
  · rename_i hafter
    obtain ⟨start, hstart⟩ := Option.isSome_iff_exists.mp hstart
    have hend : w.chainEnd? = some (w.lastFrom w.nodes.length [start] start) := by
      rw [Workflow.chainEnd?, hstart, Option.map_some]
    rw [hend] at h
    cases h
    exact ⟨_, rfl, .inr ⟨hafter, hend, rfl⟩, fun _ _ => rfl⟩
  · rename_i id slot hafter
    simp only [bind_eq_ok, node_eq_ok] at h
    obtain ⟨n, hn, _, hslot, h⟩ := h
    cases h
    refine ⟨_, rfl, .inl hafter, fun k hk => ?_⟩
    obtain rfl : n = k := Option.some.inj (hn.symm.trans hk)
    exact hslot

/-- Adding a node inserts its lines and sets a pointer to it. -/
theorem exists_insertNode_of_addNode (h : d.addNode args = .ok (d', id))
    (hw : d.document.workflow? args.workflow = some w) (hstart : (w.startId?).isSome) :
    ∃ spec p m, d.catalog.get? args.opcode = some spec ∧ IsPoint w args p ∧
      (∀ k, w.node? p.1 = some k → d.checkSlot k p.2 = .ok ()) ∧
      (∀ s ∈ args.successor, s ∈ w.nodeIds) ∧
      id = (newNode d.document spec w args p).id ∧
      d.insertNode w.name (some p.1)
        (spec.nodeLines id (args.successor.or (w.pointer? p.1 p.2))) = .ok m ∧
      m.setPointer w.name p.1 p.2 (some id) = .ok d' := by
  unfold addNode at h
  split at h
  · cases h
  · rename_i spec hspec
    simp only [bind_eq_ok, workflow_eq_ok] at h
    obtain ⟨v, hv, point, hpoint, _, hsucc, m, hm, after, hset, h⟩ := h
    obtain rfl : w = v := Option.some.inj (hw.symm.trans hv)
    cases h
    obtain ⟨p, rfl, hp, hslot⟩ := exists_point hpoint hstart
    have hsuccessor : ∀ s ∈ args.successor, s ∈ w.nodeIds := by
      intro s hs
      rw [Option.mem_def.mp hs] at hsucc
      cases hk : w.node? s with
      | none =>
        have hnone : node w s = .error (.nodeNotFound w.name s) := by rw [node, hk]
        simp [hnone, Except.map, bind, Except.bind] at hsucc
      | some k => exact Workflow.mem_nodeIds_of_node? hk
    refine ⟨spec, p, m, hspec, hp, hslot, hsuccessor, rfl, hm, ?_⟩
    simpa [setPointers, newNode] using hset

end Draft

namespace Scene

variable {S : Scene} {ws₁ ws₂ : List Workflow} {w : Workflow} {es : List (String × Form)}
  {ns : List NodeDef} {d d' : Draft} {id target : String} {slot : LinkSlot} {args : NewNode}
  {spec : OpcodeSpec} {p : String × LinkSlot}

/-- Setting a pointer in a scene changes the node that it belongs to. -/
theorem Hosts.linkPointer (h : S.Hosts ws₁ w ws₂) (hes : Nodes es ns)
    (hd : d.outline = S.slot.fill (.map es)) (ht : Form.isKey target)
    (hslot : ∀ name, slot = .branch name → Form.isKey name)
    (hok : d.setPointer w.name id slot (some target) = .ok d') : ∃ es',
      d'.outline = S.slot.fill (.map es') ∧
        Nodes es' (ns.map fun n => if n.id = id then n.linkedTo target slot else n) := by
  obtain ⟨i, hi, hok⟩ := bind_eq_ok.mp hok
  cases hok
  obtain ⟨span, hspan, hi⟩ := bind_eq_ok.mp hi
  cases hi
  obtain ⟨es₁, fs, es₂, ns₁, n, ns₂, rfl, rfl, rfl, h₁, hload, h₂, rfl⟩ := h.exists_node hes hd hspan
  obtain ⟨-, hk, -, hsound₂⟩ := Slot.sound_entry hes.sound
  obtain ⟨fs', hset, hload', -⟩ := Slot.linkPointer_fill (s := S.slot.inner es₁ es₂ n.id hk hsound₂)
    (d.isNumbered w.name n.id slot) hload ht hslot
  rw [Slot.fill_inner, Slot.fill_inner, Slot.line_inner] at hset
  refine ⟨es₁ ++ (n.id, .map fs') :: es₂, ?_, ?_⟩
  · rw [Draft.withOutline, hd, Outline.span, hset]
  · rw [map_middle hes.nodup_ids fun n => n.linkedTo target slot]
    exact hes.replace h₁ h₂ hload' (Form.repointed_linkedTo target n slot).id

/-- Adding a node splices it in behind the node that leads to it. -/
theorem Hosts.addNode {d : Document} {o : Outline} (h : S.Hosts ws₁ w ws₂) (hes : Nodes es w.nodes)
    (ho : o = S.slot.fill (.map es)) (hw : d.workflow? args.workflow = some w)
    (hstart : w.startId?.isSome) (hp : ∀ n ∈ w.nodes, ∀ q ∈ n.pointers, q.2 ∈ w.nodeIds)
    (hlen : d.allIds.length + 1 < 2 ^ 64)
    (hkey : ∀ id name, args.after = some (id, .branch name) → Form.isKey name)
    (hspec : Catalog.builtin.get? args.opcode = some spec) (hpoint : Draft.IsPoint w args p)
    (hok : Draft.addNode ⟨Catalog.builtin, d, o⟩ args = .ok (d', id)) : ∃ es' ns',
      d'.outline = S.slot.fill (.map es') ∧ Nodes es' ns' ∧
        w.Spliced p.1 p.2 (Draft.newNode d spec w args p) { w with nodes := ns' } := by
  obtain ⟨spec', p', m, hspec', hpoint', -, hsucc, rfl, hinsert, hset⟩ :=
    Draft.exists_insertNode_of_addNode hok hw hstart
  obtain rfl : spec = spec' := Option.some.inj (hspec.symm.trans hspec')
  obtain rfl : p = p' := hpoint.unique hpoint'
  have hworkflow : w ∈ d.workflows := List.mem_of_find?_eq_some hw
  have hknown : (Catalog.builtin.get? args.opcode).isSome := by rw [hspec]; rfl
  have hid : Form.isKey (Draft.newNode d spec w args p).id :=
    Form.isKey_freeId hknown (by simpa using hlen)
  have hnext : ∀ t ∈ args.successor.or (w.pointer? p.1 p.2), Form.isKey t := by
    intro t ht
    have hmem : t ∈ w.nodeIds := by
      rcases Option.or_eq_some_iff.mp ht with ht | ⟨-, ht⟩
      · exact hsucc t ht
      · exact Workflow.Leads.mem_nodeIds hp ⟨p.2, ht⟩
    obtain ⟨n, hn, rfl⟩ := Workflow.mem_nodeIds.mp hmem
    exact hes.isKey hn
  have hnew : (Draft.newNode d spec w args p).id ∉ w.nodes.map (·.id) := fun hmem => by
    obtain ⟨n, hn, heq⟩ := List.mem_map.mp hmem
    have hin := Document.mem_allIds hworkflow hn
    rw [heq] at hin
    exact (IdSource.take_new {} d args.opcode).1 hin
  have hwritten := spec.written_defaults hspec hnext
  obtain ⟨es₁, ns₁, n, ns₂, hns, hn, rfl, hes₁⟩ := h.insertNode hes ho hid
    (hwritten.loads (Draft.newNode d spec w args p).id) hnew
    ((hwritten.lines_eq hid).trans (spec.nodeLines_eq hwritten.distinct _ _).symm) hinsert
  have hslot (name : String) (hname : p.2 = .branch name) : Form.isKey name := by
    rcases hpoint with hafter | ⟨-, -, hslot⟩
    · exact hkey p.1 name (hname ▸ hafter)
    · cases hslot.symm.trans hname
  obtain ⟨es₂, hfill, hes₂⟩ := h.linkPointer hes₁ rfl hid hslot hset
  refine ⟨es₂, _, hfill, hes₂, ⟨ns₁, n, ns₂, hns, hn, ?_⟩, hnew⟩
  rw [← hn, map_middle hes₁.nodup_ids fun n => n.linkedTo (Draft.newNode d spec w args p).id p.2]

end Scene

/-- Only built-in opcodes that control flow have branches. -/
theorem Catalog.isControlFlow_of_branchSlots {opcode name : String} {present : List String}
    (h : name ∈ Catalog.builtin.branchSlots opcode present) :
    Catalog.builtin.isControlFlow opcode := by
  have hall : Catalog.builtin.specs.all fun spec => !spec.branches.isSome || spec.isControlFlow := by
    decide +kernel
  rw [branchSlots, branches?] at h
  rw [isControlFlow]
  cases hspec : Catalog.builtin.get? opcode with
  | none =>
    rw [hspec] at h
    cases h
  | some spec =>
    have hone := List.all_eq_true.mp hall spec (List.mem_of_find?_eq_some hspec)
    rw [hspec, Option.bind_some] at h
    cases hbranches : spec.branches with
    | none =>
      rw [hbranches] at h
      cases h
    | some slots => simpa [hbranches] using hone

namespace Edit

variable {F : Form} {d : Document} {w : Workflow} {args : NewNode} {r : Edited} {spec : OpcodeSpec}
  {p : String × LinkSlot}

/-- In a text in block style, a new node is spliced in at its place. -/
theorem exists_added (hF : F.isDocument) (hd : Document.load (String.ofList F.chars) = .ok d)
    (hw : d.workflow? args.workflow = some w) (hstart : w.startId?.isSome)
    (hp : ∀ n ∈ w.nodes, ∀ q ∈ n.pointers, q.2 ∈ w.nodeIds) (hlen : d.allIds.length + 1 < 2 ^ 64)
    (hkey : ∀ id name, args.after = some (id, .branch name) → Form.isKey name)
    (hr : (addNode args).apply Catalog.builtin (String.ofList F.chars) = .ok r) :
    ∃ (F' : Form) (d' : Document) (spec : OpcodeSpec) (p : String × LinkSlot), F'.isDocument ∧
      r.text = String.ofList F'.chars ∧ Document.load r.text = .ok d' ∧
      Catalog.builtin.get? args.opcode = some spec ∧ Draft.IsPoint w args p ∧
      (∀ n, w.node? p.1 = some n → n.Takes Catalog.builtin p.2) ∧
      r.nodeId = some (Draft.newNode d spec w args p).id ∧
      d.Changed args.workflow (fun v v' => v.Spliced p.1 p.2 (Draft.newNode d spec w args p) v') d' := by
  obtain ⟨d₀, after, d', hd₀, hrun, -, -⟩ := exists_run_made hr
  obtain rfl : d = d₀ := Except.ok.inj (hd.symm.trans hd₀)
  obtain ⟨id, hmade, hrun⟩ := run_made hrun
  obtain ⟨spec, p, -, hspec, hpoint, hslot, -, rfl, -, -⟩ :=
    Draft.exists_insertNode_of_addNode hrun hw hstart
  have hne : w.nodes ≠ [] := by
    obtain ⟨start, hstart⟩ := Option.isSome_iff_exists.mp hstart
    obtain ⟨n, hn, -⟩ := Workflow.mem_nodeIds.mp (Workflow.mem_nodeIds_of_startId? hstart)
    exact List.ne_nil_of_mem hn
  have hname : w.name = args.workflow := by simpa using List.find?_some hw
  obtain ⟨F', d', hF', htext, hd', hchange⟩ :=
    exists_changed (R := fun v v' => v.Spliced p.1 p.2 (Draft.newNode d spec w args p) v') hF hd hw hne
      hr fun S _ _ es after made hhosts hes _ hrun => by
        obtain ⟨id, -, hrun⟩ := run_made hrun
        exact hhosts.addNode hes rfl hw hstart hp hlen hkey hspec hpoint hrun
  refine ⟨F', d', spec, p, hF', htext, hd', hspec, hpoint, fun n hn name hname => ?_, hmade, hchange⟩
  have hmem := Draft.checkSlot_eq_ok.mp (hslot n hn) name hname
  exact ⟨Catalog.isControlFlow_of_branchSlots hmem, hmem⟩

/-- In a text in block style that the built-in parser accepts, a new node is put behind the node of the
given pointer, or behind the last one that next pointers lead to from the start node. Its id is new, that
pointer leads to it and it leads to the requested node, or else where the pointer led; nothing else of the
document changes. When it is no start node and the requested node is linked, the new text has a tree
again. When the default place is behind the last node of the main chain, the new node is the last one of
the main chain then. -/
theorem spliced_of_apply (F : Form) (d : Document) (t : Tree) (w : Workflow) (args : NewNode)
    (r : Edited) (hF : F.isDocument) (hd : Document.load (String.ofList F.chars) = .ok d)
    (ht : Tree.parse Catalog.builtin (String.ofList F.chars) = .ok t)
    (hw : d.workflow? args.workflow = some w) (hne : w.nodes ≠ [])
    (hlen : d.allIds.length + 1 < 2 ^ 64)
    (hkey : ∀ id name, args.after = some (id, .branch name) → Form.isKey name)
    (hr : (addNode args).apply Catalog.builtin (String.ofList F.chars) = .ok r) :
    ∃ (F' : Form) (d' : Document) (spec : OpcodeSpec) (p : String × LinkSlot) (m : NodeDef),
      F'.isDocument ∧ r.text = String.ofList F'.chars ∧ Document.load r.text = .ok d' ∧
      Catalog.builtin.get? args.opcode = some spec ∧ Draft.IsPoint w args p ∧
      m = Draft.newNode d spec w args p ∧ r.nodeId = some m.id ∧ m.id ∉ d.allIds ∧
      d.Changed args.workflow (fun v v' => v.Spliced p.1 p.2 m v') d' ∧
      (args.opcode ≠ startOpcode → (∀ s ∈ args.successor, w.Linked s) →
        ∃ t', Tree.parse Catalog.builtin r.text = .ok t' ∧
          t.Changed args.workflow (fun u u' => args.after = none →
            u.nodes.getLast?.map (·.id) = w.chainEnd? → Tree.ExtendsChain m u u') t') := by
  have hwf := (Tree.exists_parse hd).mp ⟨t, ht⟩ w (List.mem_of_find?_eq_some hw)
  have hstart : w.startId?.isSome :=
    Option.isSome_iff_ne_none.mpr fun hnone => hne (hwf.start hnone)
  obtain ⟨F', d', spec, p, hF', htext, hd', hspec, hpoint, htakes, hmade, hchange⟩ :=
    exists_added hF hd hw hstart hwf.pointers hlen hkey hr
  refine ⟨F', d', spec, p, _, hF', htext, hd', hspec, hpoint, rfl, hmade,
    (IdSource.take_new {} d args.opcode).1, hchange, fun hop hsucc => ?_⟩
  obtain ⟨hids, hbranches⟩ := Scene.nodup_of_isDocument hF hd hw
  obtain ⟨ws₁, ws₂, w', rfl, rfl, hname, hspliced, hother⟩ :=
    hchange.exists_split hw (Document.names_nodup_of_load hd)
  have hsame : w'.name = w.name := by
    obtain ⟨-, -, -, -, -, rfl⟩ := hspliced.nodes
    rfl
  have hopcode : spec.opcode = args.opcode := by simpa using List.find?_some hspec
  have hliteral : Workflow.Literal Catalog.builtin (Draft.newNode ⟨ws₁ ++ w :: ws₂⟩ spec w args p) := by
    refine ⟨?_, fun h => hop (hopcode.symm.trans h), freeId_ne_startId _ _, rfl,
      spec.literal_defaults⟩
    rw [Draft.newNode, hopcode, hspec]
    rfl
  have hnext (s : String) (hs : s ∈ args.successor.or (w.pointer? p.1 p.2)) :
      w.pointer? p.1 p.2 = some s ∨ w.Linked s := by
    rcases Option.or_eq_some_iff.mp hs with hs | ⟨-, hs⟩
    · exact .inr (hsucc s hs)
    · exact .inl hs
  rw [Tree.parse_eq_ofDocument hd] at ht
  rw [Tree.parse_eq_ofDocument hd']
  refine hname ▸ Tree.ofDocument_changed ht hsame (hname ▸ hother) fun u hu => ?_
  obtain ⟨u', hu', hextends⟩ := Tree.ofWorkflow_spliced hspliced hids hbranches hliteral hnext htakes
    (fun _ => Tree.isSome_workflow?_replace hsame) hu
  refine ⟨u', hu', fun hafter hend => ?_⟩
  rcases hpoint with hpoint | ⟨-, hpoint, hslot⟩
  · cases hafter.symm.trans hpoint
  · exact hextends hslot (hend.trans hpoint)

/-- A print node for the workflow `m`, at the default place. -/
def printing : NewNode := { workflow := "m", opcode := "io_print" }

set_option maxRecDepth 2000 in
theorem branched_spliced : ∃ (d d' : Document) (t t' : Tree) (w : Workflow) (r : Edited)
    (p : String × LinkSlot) (m : NodeDef),
    Document.load (String.ofList branched.chars) = .ok d ∧
    Tree.parse Catalog.builtin (String.ofList branched.chars) = .ok t ∧
    d.workflow? "m" = some w ∧
    (addNode printing).apply Catalog.builtin (String.ofList branched.chars) = .ok r ∧
    Document.load r.text = .ok d' ∧ Draft.IsPoint w printing p ∧ r.nodeId = some m.id ∧
    m.id ∉ d.allIds ∧ d.Changed "m" (fun v v' => v.Spliced p.1 p.2 m v') d' ∧
    Tree.parse Catalog.builtin r.text = .ok t' ∧
    t.Changed "m" (fun u u' => printing.after = none →
      u.nodes.getLast?.map (·.id) = w.chainEnd? → Tree.ExtendsChain m u u') t' := by
  have hF : branched.isDocument := by decide +kernel
  have hcheck : (documents? Catalog.builtin (.addNode printing) branched.chars).any fun p =>
      (Tree.ofDocument p.1 Catalog.builtin).isOk && decide (p.1.allIds.length + 1 < 2 ^ 64) &&
        (p.1.workflow? "m").any fun w => !w.nodes.isEmpty := by decide +kernel
  obtain ⟨d, r, d₀, hd, hr, -, hall⟩ := exists_apply rfl hcheck
  simp only [Bool.and_eq_true, Option.any_eq_true, isOk_iff, decide_eq_true_eq, Bool.not_eq_true',
    List.isEmpty_eq_false_iff] at hall
  obtain ⟨⟨⟨t, ht⟩, hlen⟩, w, hw, hne⟩ := hall
  rw [← Tree.parse_eq_ofDocument hd] at ht
  obtain ⟨F', d', spec, p, m, -, -, hd', -, hpoint, -, hmade, hfresh, hchange, htree⟩ :=
    spliced_of_apply branched d t w printing r hF hd ht hw hne hlen (by simp [printing]) hr
  obtain ⟨t', ht', hextends⟩ := htree (by decide) (by simp [printing])
  exact ⟨d, d', t, t', w, r, p, m, hd, ht, hw, hr, hd', hpoint, hmade, hfresh, hchange, ht', hextends⟩

/-- The node `b` is in the branch of `a` and comes next as well. -/
def rejoined : String :=
  "workflows:
  - name: m
    nodes:
      start:
        opcode: workflow_start
        next: a
      a:
        opcode: control_if
        branches:
          THEN: b
        next: b
      b:
        opcode: io_print
"

set_option maxRecDepth 2000 in
/-- The new node comes behind `b`, in the branch. -/
theorem add_rejoined : ¬ ∀ (text : String) (args : NewNode) (t : Tree) (r : Edited),
    Tree.parse Catalog.builtin text = .ok t → (addNode args).apply Catalog.builtin text = .ok r →
    ∃ t' id, Tree.parse Catalog.builtin r.text = .ok t' ∧ r.nodeId = some id ∧
      (args.after = none → ∀ u u', t.workflow? args.workflow = some u →
        t'.workflow? args.workflow = some u' →
          u'.nodes.map (·.id) = u.nodes.map (·.id) ++ [id]) := by
  intro h
  obtain ⟨cs, htext, hcheck⟩ : ∃ cs, rejoined = String.ofList cs ∧
      (documents? Catalog.builtin (.addNode printing) cs).any (fun p =>
        (Tree.ofDocument p.1 Catalog.builtin).toOption.any fun t =>
          (Tree.ofDocument p.2 Catalog.builtin).toOption.any fun t' =>
            (t.workflow? "m").any fun u => (t'.workflow? "m").any fun u' =>
              u'.nodes.map (·.id) = u.nodes.map (·.id)) := ⟨_, rfl, by decide +kernel⟩
  obtain ⟨d, r, d', hd, hr, hd', hdocs⟩ := exists_apply htext hcheck
  simp only [Option.any_eq_true, toOption_eq_some, decide_eq_true_eq] at hdocs
  obtain ⟨t, ht, t', ht', u, hu, u', hu', hsame⟩ := hdocs
  rw [← Tree.parse_eq_ofDocument hd] at ht
  rw [← Tree.parse_eq_ofDocument hd'] at ht'
  obtain ⟨t₂, id, ht₂, -, hchain⟩ := h rejoined printing t r ht hr
  obtain rfl : t' = t₂ := Except.ok.inj (ht'.symm.trans ht₂)
  have hlonger := hchain rfl u u' hu hu'
  rw [hsame] at hlonger
  simp at hlonger

end Edit

end BlockFlow
