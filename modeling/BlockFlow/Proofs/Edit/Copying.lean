import BlockFlow.Proofs.Copies
import BlockFlow.Proofs.Edit.Draft
import BlockFlow.Proofs.Edit.Inserting
import BlockFlow.Proofs.Tree.Added

/-!
What copying a node leaves behind. Main statement: in a text in block style the copy is read back as it
was made, right behind its source, and the tree has it as another orphan.
-/

namespace BlockFlow

open Outcome InputExpr

namespace InputExpr

mutual

/-- Whether a value can be written does not depend on ids. -/
theorem isWritable_withoutIds : (e : InputExpr) → e.withoutIds.isWritable = e.isWritable
  | .literal _ | .variable _ | .node _ => rfl
  | .inline _ _ inputs => congrArg (_ && ·) (areWritable_withoutIdsIn inputs)
  | .call _ args => congrArg (_ && ·) (areWritable_withoutIdsIn args)

theorem areWritable_withoutIdsIn : (ins : Inputs) → areWritable (withoutIdsIn ins) = areWritable ins
  | [] => rfl
  | (_, e) :: rest =>
    congrArg₂ (_ && · && ·) (isWritable_withoutIds e) (areWritable_withoutIdsIn rest)

end

end InputExpr

/-- A copy of a node: it has no pointers, and ids that are not in use. -/
structure NodeDef.Copied (d : Document) (n copy : NodeDef) : Prop where
  opcode : copy.opcode = n.opcode
  inputs : withoutIdsIn copy.inputs = withoutIdsIn n.inputs
  next : copy.next = none
  branches : copy.branches = []
  distinct : (copy.id :: inlineIdsIn copy.inputs).Nodup
  fresh : ∀ id ∈ copy.id :: inlineIdsIn copy.inputs, id ∉ d.allIds

/-- The second workflow is the first with a copy right behind a node. -/
def Workflow.Duplicated (d : Document) (id : String) (copy : NodeDef) (w w' : Workflow) : Prop :=
  ∃ ns₁ n ns₂, w.nodes = ns₁ ++ n :: ns₂ ∧ n.id = id ∧ n.Copied d copy ∧
    w' = { w with nodes := ns₁ ++ n :: copy :: ns₂ }

/-- What a source has handed out for a document is new to it, and given once. Among fewer ids than fit
64 bits it can stand as a key. -/
structure IdSource.Fresh (d : Document) (s : IdSource) : Prop where
  nodup : s.given.Nodup
  new : ∀ id ∈ s.given, id ∉ d.allIds
  keys : d.allIds.length + s.given.length < 2 ^ 64 → ∀ id ∈ s.given, Form.isKey id

namespace IdSource

variable {s : IdSource} {d : Document} {opcode : String}

theorem fresh_start (d : Document) : Fresh d {} := ⟨.nil, by simp, by simp⟩

theorem Fresh.take (h : s.Fresh d) (hop : (Catalog.builtin.get? opcode).isSome) :
    (s.take d opcode).2.Fresh d := by
  obtain ⟨hnew, hgiven⟩ := take_new s d opcode
  refine ⟨?_, ?_, fun hlen => ?_⟩
  · rw [given_take]
    exact List.nodup_cons.mpr ⟨hgiven, h.nodup⟩
  · rw [given_take]
    exact List.forall_mem_cons.mpr ⟨hnew, h.new⟩
  · rw [given_take, List.length_cons] at hlen
    rw [given_take]
    refine List.forall_mem_cons.mpr ⟨Form.isKey_freeId hop ?_, h.keys (by omega)⟩
    rw [List.length_append]
    omega

end IdSource

namespace NodeDef

variable {d : Document} {n : NodeDef}

/-- The copy of a node that is made for a document. -/
def copyFor (d : Document) (n : NodeDef) : NodeDef :=
  let (id, ids) := IdSource.take {} d n.opcode
  ⟨id, n.opcode, (entriesWithNewIds d n.inputs ids).1, none, []⟩

/-- The opcodes of a node, its own first. -/
def opcodes (n : NodeDef) : List String := n.opcode :: opcodesIn n.inputs

theorem given_copyFor (d : Document) (n : NodeDef) :
    (entriesWithNewIds d n.inputs (IdSource.take {} d n.opcode).2).2.given =
      (inlineIdsIn (n.copyFor d).inputs).reverse ++ [(n.copyFor d).id] := by
  rw [given_entriesWithNewIds, IdSource.given_take]
  rfl

theorem fresh_copyFor (h : ∀ o ∈ n.opcodes, (Catalog.builtin.get? o).isSome) :
    (entriesWithNewIds d n.inputs (IdSource.take {} d n.opcode).2).2.Fresh d := by
  obtain ⟨hown, hinner⟩ := List.forall_mem_cons.mp h
  exact entriesWithNewIds_preserves n.inputs _ (fun s o ho hs => hs.take (hinner o ho))
    ((IdSource.fresh_start d).take hown)

theorem copied_copyFor (h : ∀ o ∈ n.opcodes, (Catalog.builtin.get? o).isSome) :
    n.Copied d (n.copyFor d) := by
  have hfresh := fresh_copyFor (d := d) h
  have hperm : ((inlineIdsIn (n.copyFor d).inputs).reverse ++ [(n.copyFor d).id]).Perm
      ((n.copyFor d).id :: inlineIdsIn (n.copyFor d).inputs) :=
    (List.perm_append_singleton _ _).trans ((List.reverse_perm _).cons _)
  refine ⟨rfl, withoutIds_entriesWithNewIds d n.inputs _, rfl, rfl, ?_, fun id hid => ?_⟩
  · exact hperm.nodup_iff.mp (given_copyFor d n ▸ hfresh.nodup)
  · exact hfresh.new id (given_copyFor d n ▸ hperm.mem_iff.mpr hid)

theorem length_ids_le {w : Workflow} (hw : w ∈ d.workflows) (hn : n ∈ w.nodes) :
    (inlineIdsIn n.inputs).length + 1 ≤ d.allIds.length := by
  have hnode := List.sublist_flatten_of_mem
    (List.mem_map_of_mem (f := fun n : NodeDef => n.id :: inlineIdsIn n.inputs) hn)
  have hworkflow := List.sublist_flatten_of_mem (List.mem_map_of_mem
    (f := fun w : Workflow => w.nodes.flatMap fun n => n.id :: inlineIdsIn n.inputs) hw)
  exact (hnode.trans hworkflow).length_le

/-- The ids of the copy can stand as keys. -/
theorem isKey_copyFor {w : Workflow} {id : String} (hw : w ∈ d.workflows) (hn : n ∈ w.nodes)
    (hops : ∀ o ∈ n.opcodes, (Catalog.builtin.get? o).isSome) (hlen : d.allIds.length < 2 ^ 63)
    (hid : id ∈ (n.copyFor d).id :: inlineIdsIn (n.copyFor d).inputs) : Form.isKey id := by
  have hfresh := fresh_copyFor (d := d) hops
  have hcount : (inlineIdsIn (n.copyFor d).inputs).length = (inlineIdsIn n.inputs).length := by
    rw [← length_inlineIdsIn_withoutIds, ← length_inlineIdsIn_withoutIds n.inputs,
      (copied_copyFor hops).inputs]
  have hle := length_ids_le hw hn
  refine hfresh.keys ?_ id ?_
  · rw [given_copyFor, List.length_append, List.length_reverse, hcount, List.length_singleton]
    omega
  · rw [given_copyFor]
    exact ((List.perm_append_singleton _ _).trans ((List.reverse_perm _).cons _)).mem_iff.mpr hid

/-- The copy is read back from where it is written. -/
theorem written_copyFor {w : Workflow} (hw : w ∈ d.workflows) (hn : n ∈ w.nodes)
    (hops : ∀ o ∈ n.opcodes, (Catalog.builtin.get? o).isSome) (hlen : d.allIds.length < 2 ^ 63)
    (hwritable : areWritable n.inputs) (hdistinct : DistinctIn n.inputs) :
    Form.Written n.opcode (n.copyFor d).inputs none where
  opcode := (Form.isKey_opcode (hops _ List.mem_cons_self)).1
  writable := by
    rw [← areWritable_withoutIdsIn, (copied_copyFor hops).inputs, areWritable_withoutIdsIn]
    exact hwritable
  distinct := by
    rw [← distinctIn_withoutIds, (copied_copyFor hops).inputs, distinctIn_withoutIds]
    exact hdistinct
  ids i hi := Form.Leaf.isSound_string (isKey_copyFor hw hn hops hlen (List.mem_cons_of_mem _ hi))
  next := by simp

/-- A copy needs what its source needs, where a workflow has it among its nodes. -/
theorem Copied.sound {copy : NodeDef} {d' : Document} {c : Catalog} {w w' : Workflow}
    (h : n.Copied d copy) (hi : w.Inserted copy w')
    (hcalls : ∀ name, (d.workflow? name).isSome → (d'.workflow? name).isSome)
    (hn : n.Sound d c w) (hacyclic : w'.Acyclic copy.reporter) : copy.Sound d' c w' where
  known := {
    opcode := h.opcode ▸ hn.known.opcode
    opcodes := by
      rw [← opcodesIn_withoutIds, h.inputs, opcodesIn_withoutIds]
      exact hn.known.opcodes
    calls := by
      rw [← callsIn_withoutIds, h.inputs, callsIn_withoutIds]
      exact fun name hname => hcalls name (hn.known.calls name hname) }
  refs := by
    rw [← nodeRefsIn_withoutIds, h.inputs, nodeRefsIn_withoutIds]
    exact fun r hr => hi.mem_nodeIds_iff.mpr (.inr (hn.refs r hr))
  acyclic := hacyclic

end NodeDef

namespace Draft

variable {d d' : Draft} {name id copy : String}

/-- Copying a node inserts the lines of the copy behind it. -/
theorem exists_insertNode_of_duplicateNode (h : d.duplicateNode name id = .ok (d', copy)) :
    ∃ w n, d.document.workflow? name = some w ∧ w.node? id = some n ∧ n.opcode ≠ startOpcode ∧
      copy = (n.copyFor d.document).id ∧ d.insertNode name (some id)
        (unlinkedNodeLines copy n.opcode (n.copyFor d.document).inputs) = .ok d' := by
  simp only [duplicateNode, bind_eq_ok, workflow_eq_ok, node_eq_ok] at h
  obtain ⟨w, hw, n, hn, h⟩ := h
  split at h
  · cases h
  · rename_i hstart
    obtain ⟨after, hafter, h⟩ := bind_eq_ok.mp h
    cases h
    exact ⟨w, n, hw, hn, hstart, rfl, hafter⟩

end Draft

theorem Workflow.Duplicated.inserted {d : Document} {w w' : Workflow} {id : String} {copy : NodeDef}
    (h : w.Duplicated d id copy w') (hw : w ∈ d.workflows) : w.Inserted copy w' := by
  obtain ⟨ns₁, n, ns₂, hns, -, hcopy, rfl⟩ := h
  refine ⟨⟨ns₁ ++ [n], ns₂, by simpa using hns, by simp⟩, fun hmem => ?_⟩
  obtain ⟨m, hm, hid⟩ := List.mem_map.mp hmem
  exact hcopy.fresh copy.id List.mem_cons_self (hid ▸ Document.mem_allIds hw hm)

section Scene

open Scene

variable {S : Scene} {ws₁ ws₂ : List Workflow} {w : Workflow} {es : List (String × Form)} {id : String}
  {n : NodeDef} {d : Document} {o : Outline} {d' : Draft} {copy : String}

/-- Copying a node that can be written inserts its copy behind it. -/
theorem Scene.Hosts.duplicateNode (h : S.Hosts ws₁ w ws₂) (hes : Nodes es w.nodes)
    (hw : d.workflow? w.name = some w) (hn : w.node? id = some n)
    (hops : ∀ o ∈ n.opcodes, (Catalog.builtin.get? o).isSome) (hlen : d.allIds.length < 2 ^ 63)
    (hwritable : areWritable n.inputs) (ho : o = S.slot.fill (.map es))
    (hok : Draft.duplicateNode ⟨Catalog.builtin, d, o⟩ w.name id = .ok (d', copy)) : ∃ es' ns',
      d'.outline = S.slot.fill (.map es') ∧ Nodes es' ns' ∧
        w.Duplicated d id (n.copyFor d) { w with nodes := ns' } := by
  obtain ⟨v, m, hv, hm, -, rfl, hinsert⟩ := Draft.exists_insertNode_of_duplicateNode hok
  obtain rfl : w = v := Option.some.inj (hw.symm.trans hv)
  obtain rfl : n = m := Option.some.inj (hn.symm.trans hm)
  have hworkflow : w ∈ d.workflows := List.mem_of_find?_eq_some hw
  have hmem := Workflow.node?_mem hn
  have hcopy := n.copied_copyFor (d := d) hops
  have hwritten := NodeDef.written_copyFor hworkflow hmem hops hlen hwritable (hes.distinct hmem)
  have hkey := NodeDef.isKey_copyFor hworkflow hmem hops hlen List.mem_cons_self
  have hnew : (n.copyFor d).id ∉ w.nodes.map (·.id) := fun hin => by
    obtain ⟨m, hm, hid⟩ := List.mem_map.mp hin
    exact hcopy.fresh _ List.mem_cons_self (hid ▸ Document.mem_allIds hworkflow hm)
  obtain ⟨es', ns₁, n', ns₂, hns, hn', rfl, hes'⟩ := h.insertNode hes ho hkey
    (hwritten.loads (n.copyFor d).id) hnew (by simpa [unlinkedNodeLines] using hwritten.lines_eq hkey)
    hinsert
  obtain rfl : n' = n := by
    have hfound :=
      Workflow.node?_eq_some hes.nodup_ids (hns ▸ List.mem_append_right _ List.mem_cons_self)
    rw [hn', hn] at hfound
    exact (Option.some.inj hfound).symm
  exact ⟨es', _, rfl, hes', ns₁, n', ns₂, hns, hn', hcopy, rfl⟩

end Scene

namespace Edit

variable {F : Form} {d : Document} {w : Workflow} {name id : String} {r : Edited} {n : NodeDef}

/-- In a text in block style, the copy of a node that can be written comes right behind it. -/
theorem exists_copy (hF : F.isDocument) (hd : Document.load (String.ofList F.chars) = .ok d)
    (hw : d.workflow? name = some w) (hn : w.node? id = some n)
    (hops : ∀ o ∈ n.opcodes, (Catalog.builtin.get? o).isSome) (hlen : d.allIds.length < 2 ^ 63)
    (hwritable : areWritable n.inputs)
    (hr : (duplicateNode name id).apply Catalog.builtin (String.ofList F.chars) = .ok r) :
    ∃ (F' : Form) (d' : Document), F'.isDocument ∧ r.text = String.ofList F'.chars ∧
      Document.load r.text = .ok d' ∧ r.nodeId = some (n.copyFor d).id ∧
        d.Changed name (Workflow.Duplicated d id (n.copyFor d)) d' := by
  obtain ⟨d₀, after, d', hd₀, hrun, -, -⟩ := exists_run_made hr
  obtain rfl : d = d₀ := Except.ok.inj (hd.symm.trans hd₀)
  obtain ⟨copy, hmade, hrun⟩ := run_made hrun
  obtain ⟨v, m, hv, hm, -, rfl, -⟩ := Draft.exists_insertNode_of_duplicateNode hrun
  obtain rfl : w = v := Option.some.inj (hw.symm.trans hv)
  obtain rfl : n = m := Option.some.inj (hn.symm.trans hm)
  obtain rfl : w.name = name := by simpa using List.find?_some hw
  obtain ⟨F', d', hF', htext, hd', hchange⟩ :=
    exists_changed (R := Workflow.Duplicated d id (n.copyFor d)) hF hd hw
      (List.ne_nil_of_mem (Workflow.node?_mem hn)) hr fun S _ _ es after made hhosts hes _ hrun => by
        obtain ⟨copy, -, hrun⟩ := run_made hrun
        exact hhosts.duplicateNode hes hw hn hops hlen hwritable rfl hrun
  exact ⟨F', d', hF', htext, hd', hmade, hchange⟩

/-- In a text in block style that the built-in parser accepts, the copy of a node whose inputs are read
back from where they are written comes right behind it, without pointers. All its ids are new, and its
inputs differ from those of the source in the ids of reporters alone; nothing else of the document
changes. The new text has a tree exactly when no way down from the copy repeats an id; this tree is the
old one with the copy as another orphan. -/
theorem duplicated_of_apply (F : Form) (d : Document) (t : Tree) (w : Workflow) (name id : String)
    (r : Edited) (hF : F.isDocument) (hd : Document.load (String.ofList F.chars) = .ok d)
    (ht : Tree.parse Catalog.builtin (String.ofList F.chars) = .ok t)
    (hw : d.workflow? name = some w) (hlen : d.allIds.length < 2 ^ 63)
    (hwritable : ∀ n ∈ w.nodes, n.id = id → areWritable n.inputs)
    (hr : (duplicateNode name id).apply Catalog.builtin (String.ofList F.chars) = .ok r) :
    ∃ (F' : Form) (d' : Document) (w' : Workflow) (copy : NodeDef),
      F'.isDocument ∧ r.text = String.ofList F'.chars ∧ Document.load r.text = .ok d' ∧
      r.nodeId = some copy.id ∧ d'.workflow? name = some w' ∧
      d.Changed name (Workflow.Duplicated d id copy) d' ∧
      ((∃ t', Tree.parse Catalog.builtin r.text = .ok t') ↔ w'.Acyclic copy.reporter) ∧
      ∀ t', Tree.parse Catalog.builtin r.text = .ok t' →
        t.Changed name (Tree.AddsOrphan copy) t' := by
  obtain ⟨d₀, after, d', hd₀, hrun, -, -⟩ := exists_run_made hr
  obtain rfl : d = d₀ := Except.ok.inj (hd.symm.trans hd₀)
  obtain ⟨copy, -, hrun⟩ := run_made hrun
  obtain ⟨v, n, hv, hn, hstart, -, -⟩ := Draft.exists_insertNode_of_duplicateNode hrun
  obtain rfl : w = v := Option.some.inj (hw.symm.trans hv)
  have hworkflow : w ∈ d.workflows := List.mem_of_find?_eq_some hw
  have hsound := ((Tree.exists_parse hd).mp ⟨t, ht⟩ w hworkflow).sound n
    (Workflow.shown_of_node? hn)
  have hops : ∀ o ∈ n.opcodes, (Catalog.builtin.get? o).isSome :=
    List.forall_mem_cons.mpr ⟨hsound.known.opcode, hsound.known.opcodes⟩
  obtain ⟨F', d', hF', htext, hd', hmade, hchange⟩ := exists_copy hF hd hw hn hops hlen
    (hwritable n (Workflow.node?_mem hn) (Workflow.node?_id hn)) hr
  obtain ⟨ws₁, ws₂, w', rfl, rfl, rfl, hcopy, hne⟩ :=
    hchange.exists_split hw (Document.names_nodup_of_load hd)
  have hinserted := hcopy.inserted hworkflow
  have hname : w'.name = w.name := by
    obtain ⟨-, -, -, -, -, -, rfl⟩ := hcopy
    rfl
  have hmem : w' ∈ ws₁ ++ w' :: ws₂ := List.mem_append_right _ List.mem_cons_self
  -- The old tree with the copy in it, once the copy is acyclic.
  have hmake (h : w'.Acyclic (n.copyFor ⟨ws₁ ++ w :: ws₂⟩).reporter) : ∃ t',
      Tree.parse Catalog.builtin r.text = .ok t' ∧
        t.Changed w.name (Tree.AddsOrphan (n.copyFor ⟨ws₁ ++ w :: ws₂⟩)) t' := by
    rw [Tree.parse_eq_ofDocument hd] at ht
    rw [Tree.parse_eq_ofDocument hd']
    have hcalls (name : String) (h : (Document.workflow? ⟨ws₁ ++ w :: ws₂⟩ name).isSome) :
        (Document.workflow? ⟨ws₁ ++ w' :: ws₂⟩ name).isSome := Tree.isSome_workflow?_replace hname h
    refine Tree.ofDocument_changed ht hname hne fun m hm => ?_
    refine Tree.ofWorkflow_inserted hinserted ⟨hstart, freeId_ne_startId _ _, rfl⟩ hcalls
      (List.ne_nil_of_mem (Workflow.node?_mem hn)) hm ?_
    exact (NodeDef.copied_copyFor hops).sound hinserted hcalls hsound h
  have hneeds (t' : Tree) (h : Tree.parse Catalog.builtin r.text = .ok t') :
      w'.Acyclic (n.copyFor ⟨ws₁ ++ w :: ws₂⟩).reporter :=
    (((Tree.exists_parse hd').mp ⟨t', h⟩ w' hmem).sound _
      (Workflow.shown_of_node? hinserted.node?_new)).acyclic
  refine ⟨F', _, w', _, hF', htext, hd', hmade, hname ▸ Document.workflow?_of_mem hd' hmem, hchange,
    ⟨?_, ?_⟩, fun t' h => ?_⟩
  · rintro ⟨t', h⟩
    exact hneeds t' h
  · intro h
    obtain ⟨t', h, -⟩ := hmake h
    exact ⟨t', h⟩
  · obtain ⟨t'', h'', hadds⟩ := hmake (hneeds t' h)
    obtain rfl : t'' = t' := Except.ok.inj (h''.symm.trans h)
    exact hadds

/-- The node `p` prints what a reporter joins. -/
def concatenated : Form :=
  let word (s : String) : Form := .leaf (.plain s.toList)
  .map [("workflows", .seq [.map [("name", word "m"), ("nodes", .map [
    ("start", .map [("opcode", word "workflow_start"), ("next", word "p")]),
    ("p", .map [("opcode", word "io_print"), ("inputs", .map [("STRING", .map [
      ("id", word "q"), ("opcode", word "str_concat"), ("inputs", .map [("ITEM1", .map [
        ("literal", word "x")])])])])])])]])]

set_option maxRecDepth 2000 in
theorem concatenated_duplicated : ∃ (t : Tree) (d d' : Document) (w w' : Workflow) (r : Edited)
    (copy : NodeDef), Tree.parse Catalog.builtin (String.ofList concatenated.chars) = .ok t ∧
      Document.load (String.ofList concatenated.chars) = .ok d ∧ d.workflow? "m" = some w ∧
      (duplicateNode "m" "p").apply Catalog.builtin (String.ofList concatenated.chars) = .ok r ∧
      Document.load r.text = .ok d' ∧ r.nodeId = some copy.id ∧ d'.workflow? "m" = some w' ∧
      d.Changed "m" (Workflow.Duplicated d "p" copy) d' ∧
      ((∃ t', Tree.parse Catalog.builtin r.text = .ok t') ↔ w'.Acyclic copy.reporter) ∧
      ∀ t', Tree.parse Catalog.builtin r.text = .ok t' →
        t.Changed "m" (Tree.AddsOrphan copy) t' := by
  have hF : concatenated.isDocument := by decide +kernel
  have hcheck : (documents? Catalog.builtin (.duplicateNode "m" "p") concatenated.chars).any fun p =>
      (Tree.ofDocument p.1 Catalog.builtin).isOk && decide (p.1.allIds.length < 2 ^ 63) &&
        (p.1.workflow? "m").any fun w => w.nodes.all fun n => areWritable n.inputs := by
    decide +kernel
  obtain ⟨d, r, d₀, hd, hr, -, hall⟩ := exists_apply rfl hcheck
  simp only [Bool.and_eq_true, Option.any_eq_true, isOk_iff, decide_eq_true_eq,
    List.all_eq_true] at hall
  obtain ⟨⟨⟨t, ht⟩, hlen⟩, w, hw, hwritable⟩ := hall
  rw [← Tree.parse_eq_ofDocument hd] at ht
  obtain ⟨F', d', w', copy, -, -, hd', hmade, hw', hchange, htree⟩ :=
    duplicated_of_apply concatenated d t w
    "m" "p" r hF hd ht hw hlen (fun n hn _ => hwritable n hn) hr
  exact ⟨t, d, d', w, w', r, copy, ht, hd, hw, hr, hd', hmade, hw', hchange, htree⟩

/-- The node `p` prints a string with a line break in it that is no line feed. -/
def otherBreak : String :=
  "workflows:
  - name: m
    nodes:
      start:
        opcode: workflow_start
        next: p
      p:
        opcode: io_print
        inputs:
          STRING:
            literal: \"a\\Nb\"
"

/-- Whether the input `STRING` is a literal with the given text. -/
def printsText (text : String) (ins : Inputs) : Bool :=
  match firstOf? "STRING" ins with
  | some (.literal v) => v.isStr text
  | _ => false

set_option maxRecDepth 2000 in
/-- The copy of `p` prints another string. -/
theorem duplicate_otherBreak : ¬ ∀ (text name id : String) (d : Document) (t : Tree) (r : Edited),
    Tree.parse Catalog.builtin text = .ok t → Document.load text = .ok d →
    (duplicateNode name id).apply Catalog.builtin text = .ok r →
    ∃ d' copy, Document.load r.text = .ok d' ∧ r.nodeId = some copy.id ∧
      d.Changed name (Workflow.Duplicated d id copy) d' := by
  intro h
  obtain ⟨cs, htext, hcheck⟩ : ∃ cs, otherBreak = String.ofList cs ∧
      (documents? Catalog.builtin (.duplicateNode "m" "p") cs).any (fun p =>
        (Tree.ofDocument p.1 Catalog.builtin).isOk && (p.1.workflow? "m").any fun w =>
          (p.2.workflow? "m").any fun w' => w'.nodes.any fun m =>
            printsText "a b" (withoutIdsIn m.inputs) && w.nodes.all fun n =>
              !printsText "a b" (withoutIdsIn n.inputs)) := ⟨_, rfl, by decide +kernel⟩
  obtain ⟨d, r, d', hd, hr, hd', hdocs⟩ := exists_apply htext hcheck
  simp only [Bool.and_eq_true, Option.any_eq_true, isOk_iff, List.any_eq_true, List.all_eq_true,
    Bool.not_eq_true'] at hdocs
  obtain ⟨⟨t, ht⟩, w, hw, w', hw', m, hm, htext, hother⟩ := hdocs
  rw [← Tree.parse_eq_ofDocument hd] at ht
  obtain ⟨d₂, copy, hd₂, -, hchange⟩ := h otherBreak "m" "p" d t r ht hd hr
  obtain rfl : d' = d₂ := Except.ok.inj (hd'.symm.trans hd₂)
  have hname (v v' : Workflow) (h : v.Duplicated d "p" copy v') : v'.name = v.name := by
    obtain ⟨-, -, -, -, -, -, rfl⟩ := h
    rfl
  obtain ⟨v, hv, ns₁, n, ns₂, hns, -, hcopy, rfl⟩ := hchange.exists_workflow? hname hw
  obtain rfl := Option.some.inj (hw'.symm.trans hv)
  -- Every node is a node of the old workflow or has the inputs of one.
  have hmem : ∃ k ∈ w.nodes, withoutIdsIn m.inputs = withoutIdsIn k.inputs := by
    rw [hns]
    rcases List.mem_append.mp hm with hm | hm
    · exact ⟨m, List.mem_append_left _ hm, rfl⟩
    · rcases List.mem_cons.mp hm with rfl | hm
      · exact ⟨m, List.mem_append_right _ List.mem_cons_self, rfl⟩
      · rcases List.mem_cons.mp hm with rfl | hm
        · exact ⟨n, List.mem_append_right _ List.mem_cons_self, hcopy.inputs⟩
        · exact ⟨m, List.mem_append_right _ (List.mem_cons_of_mem _ hm), rfl⟩
  obtain ⟨k, hk, heq⟩ := hmem
  rw [heq, hother k hk] at htext
  cases htext

end Edit

end BlockFlow
