import BlockFlow.Proofs.Edit.Fitting
import BlockFlow.Proofs.Edit.Folding
import BlockFlow.Proofs.Edit.Reload
import BlockFlow.Proofs.Tree.Orphans

/-!
Moving orphans into inputs. Main statement: in a text in block style, where an orphan fits into a node,
an input of it resolves to the orphan once it was moved there, and elsewhere the text has no tree.
-/

namespace BlockFlow

open InputExpr
open Outcome
open Relation

namespace Workflow

variable {d : Document} {c : Catalog} {w w' : Workflow} {m m' : WorkflowTree} {g : LinkGraph}
  {o target key : String} {e : InputExpr} {moved : List String}

/-- The tree shows an orphan that edits find, with what its inputs resolve to. -/
theorem exists_shown_orphan (hids : w.nodeIds.Nodup) (hg : LinkGraph.build w = .ok g)
    (h : Tree.ofWorkflow d c w = .ok m) (ho : o ∈ w.orphanIds g) : ∃ x ∈ m.orphans, x.node.id = o ∧
      ∀ owner key, w.Resolves owner key (.node o) (.reporter x.node.opcode o x.node.inputs) := by
  have hagree := Tree.orphansAgree_of_partitions hids hg (Tree.partitions_ofWorkflow hids h)
  obtain ⟨x, hx, rfl⟩ := List.mem_map.mp (hagree.shown ho)
  obtain ⟨n, hn, hopcode, hinputs⟩ := Tree.showsNode_of_mem_orphans hids h x hx
  refine ⟨x, hx, rfl, fun owner key => ?_⟩
  rw [hopcode]
  have hresolves := Resolves.node owner key hn hinputs
  rwa [node?_id hn] at hresolves

/-- The input that an orphan was moved into resolves to what a reference to the orphan did. -/
theorem MovedIn.gives {v : Resolved} (h : w.MovedIn c moved target key e w')
    (hfolds : w.Folds o e moved) (hfree : ¬ TransGen w.Cites o o)
    (htarget : ¬ TransGen w.Cites o target) (hids : w.nodeIds.Nodup) (ht : target ∈ w.nodeIds)
    (hout : target ∉ moved) (hm' : Tree.ofWorkflow d c w' = .ok m')
    (hv : w.Resolves target key (.node o) v) : Tree.Gives w' m' target key v := by
  obtain ⟨_, inputs, -, -, ht'⟩ := h.exists_target ht hout
  have hvalue := (h.agreeOn hfolds hfree htarget).resolves (hv.inPlace hfolds.inPlace)
    hfolds.outside_refs
  exact Tree.gives_of_resolves (h.nodup_nodeIds hids) hm' ht' firstOf?_put hvalue

end Workflow

namespace Edit

/-- The text that is left once an orphan was moved, in block style. -/
theorem exists_movedIn {F : Form} {d : Document} {w : Workflow} {name orphan target input : String}
    {r : Edited} (hF : F.isDocument) (hcalls : F.callsPlain)
    (hd : Document.load (String.ofList F.chars) = .ok d) (hw : d.workflow? name = some w)
    (hwell : w.WellFormed d Catalog.builtin (· ∈ w.nodes)) (hinput : Form.isKey input)
    (hwritable : ∀ n ∈ w.nodes, areWritable n.inputs)
    (hplaced : ∀ n ∈ w.nodes, ∀ i ∈ inlineIdsIn n.inputs, (Form.Leaf.string i).isSound)
    (hr : (Edit.convertOrphan name orphan target input).apply Catalog.builtin
      (String.ofList F.chars) = .ok r) :
    ∃ (g : LinkGraph) (e : InputExpr) (moved : List String) (F' : Form) (d' : Document),
      LinkGraph.build w = .ok g ∧ orphan ∈ w.orphanIds g ∧ target ∈ w.nodeIds ∧ target ∉ moved ∧
      w.inlineOrphan (w.orphanIds g) (w.nodes.length + 1) orphan [] = (e, moved) ∧
      w.Folds orphan e moved ∧ ¬ TransGen w.Cites orphan orphan ∧
      F'.isDocument ∧ r.text = String.ofList F'.chars ∧ Document.load r.text = .ok d' ∧
      d.Changed name (Workflow.MovedIn Catalog.builtin moved target input e) d' := by
  obtain ⟨d₀, after, d', made, hd₀, hrun, -, -⟩ := exists_run hr
  obtain rfl : d = d₀ := Except.ok.inj (hd.symm.trans hd₀)
  obtain rfl : w.name = name := by simpa using List.find?_some hw
  obtain ⟨g, e, moved, -, -, -, hg, horphan, htarget, hout, hmoved, -⟩ :=
    Draft.steps_of_convertOrphan (run_changed hrun) hw
  obtain ⟨k, hk⟩ := Workflow.exists_node? ((Workflow.mem_orphanIds hg).mp horphan).1
  have hfree := Workflow.not_cites_self hk (hwell.sound k (Workflow.node?_mem hk)).acyclic
  have hfolds : w.Folds orphan e moved := by
    have hfolds := Workflow.folds_inlineOrphan hg horphan hfree w.nodes.length
    rwa [hmoved] at hfolds
  obtain ⟨F', d', hF', htext, hd', hchange⟩ := exists_changed (R := Workflow.MovedIn Catalog.builtin
    moved target input e) hF hd hw (List.ne_nil_of_mem (Workflow.node?_mem hk)) hr
    fun S ws₁ ws₂ es after made hhosts hes hplain hrun => by
      have hkeys (n : NodeDef) (hn : n ∈ w.nodes) : Form.isKey n.id ∧ Form.isKey n.opcode :=
        ⟨hes.isKey hn, (Form.isKey_opcode (hwell.sound n hn).known.opcode).1⟩
      have hvalue := hfolds.isFaithful hkeys hwritable hplaced fun n hn => hes.distinct hn
      obtain ⟨ns', ⟨es', hfill, hes', -⟩, hmovedIn⟩ := hhosts.movedIn_of_convertOrphan
        ⟨es, rfl, hes, hplain hcalls⟩ hw hg hmoved hinput hvalue (run_changed hrun)
      exact ⟨es', ns', hfill, hes', hmovedIn⟩
  exact ⟨g, e, moved, F', d', hg, horphan, htarget, hout, hmoved, hfolds, hfree, hF', htext, hd',
    hchange⟩

/-- In a text in block style that the built-in parser accepts, where inputs are read back from where they
are written, moving an orphan into an input leaves the document without the orphans that are moved, with
the first of them written in the input. No reporter contains itself in the new text exactly where the
orphan shares no id with the target and what refers to it, and the new text has a tree exactly where the
orphan fits there. In this tree the input has the orphan's id and opcode, and the orphan's inputs as they
were. -/
theorem movedIn_of_apply (F : Form) (t : Tree) (d : Document) (w : Workflow) (m : WorkflowTree)
    (name orphan target input : String) (r : Edited) (hF : F.isDocument) (hcalls : F.callsPlain)
    (ht : Tree.parse Catalog.builtin (String.ofList F.chars) = .ok t)
    (hd : Document.load (String.ofList F.chars) = .ok d) (hw : d.workflow? name = some w)
    (hm : t.workflow? name = some m) (hinput : Form.isKey input)
    (hwritable : ∀ n ∈ w.nodes, areWritable n.inputs)
    (hplaced : ∀ n ∈ w.nodes, ∀ i ∈ inlineIdsIn n.inputs, (Form.Leaf.string i).isSound)
    (hr : (Edit.convertOrphan name orphan target input).apply Catalog.builtin
      (String.ofList F.chars) = .ok r) :
    ∃ (o : Orphan) (g : LinkGraph) (e : InputExpr) (moved : List String) (F' : Form) (d' : Document)
      (w' : Workflow), o ∈ m.orphans ∧ o.node.id = orphan ∧ LinkGraph.build w = .ok g ∧
      w.inlineOrphan (w.orphanIds g) (w.nodes.length + 1) orphan [] = (e, moved) ∧
      F'.isDocument ∧ r.text = String.ofList F'.chars ∧ Document.load r.text = .ok d' ∧
      d'.workflow? name = some w' ∧
      d.Changed name (Workflow.MovedIn Catalog.builtin moved target input e) d' ∧
      ((∀ n ∈ w'.nodes, w'.Acyclic n.reporter) ↔ w.SharesNone orphan target) ∧
      ((∃ t', Tree.parse Catalog.builtin r.text = .ok t') ↔ w.FitsIn orphan target) ∧
      ∀ t' m', Tree.parse Catalog.builtin r.text = .ok t' → t'.workflow? name = some m' →
        Tree.Gives w' m' target input (.reporter o.node.opcode orphan o.node.inputs) := by
  obtain rfl : w.name = name := by simpa using List.find?_some hw
  obtain ⟨hids, hbranches⟩ := Scene.nodup_of_isDocument hF hd hw
  have hwell := (Tree.exists_parse hd).mp ⟨t, ht⟩ w (List.mem_of_find?_eq_some hw)
  rw [Workflow.shown_eq hids] at hwell
  have hacyclic (n : NodeDef) (hn : n ∈ w.nodes) := (hwell.sound n hn).acyclic
  obtain ⟨g, e, moved, F', d', hg, horphan, htarget, hout, hmoved, hfolds, hfree, hF', htext, hd',
    hchange⟩ := exists_movedIn hF hcalls hd hw hwell hinput hwritable hplaced hr
  obtain ⟨ws₁, ws₂, w', rfl, rfl, -, hmovedIn, hne⟩ :=
    hchange.exists_split hw (Document.names_nodup_of_load hd)
  have hmem : w' ∈ ws₁ ++ w' :: ws₂ := List.mem_append_right _ List.mem_cons_self
  have hw' : Document.workflow? ⟨ws₁ ++ w' :: ws₂⟩ w.name = some w' :=
    hmovedIn.name ▸ Document.workflow?_of_mem hd' hmem
  have hids' := hmovedIn.nodup_nodeIds hids
  have hfits : w'.WellFormed ⟨ws₁ ++ w' :: ws₂⟩ Catalog.builtin (· ∈ w'.nodes) ↔
      w.FitsIn orphan target := Workflow.wellFormed_iff hmovedIn hfolds hwell hids hbranches htarget
    hout fun _ => Tree.isSome_workflow?_replace hmovedIn.name
  rw [← Workflow.shown_eq hids'] at hfits
  rw [Tree.parse_eq_ofDocument hd] at ht
  obtain ⟨m₀, hm₀, htree⟩ := Tree.exists_workflow? ht hw
  obtain rfl : m = m₀ := Option.some.inj (hm.symm.trans hm₀)
  obtain ⟨o, ho, hoid, hresolves⟩ := Workflow.exists_shown_orphan hids hg htree horphan
  refine ⟨o, g, e, moved, F', _, w', ho, hoid, hg, hmoved, hF', htext, hd', hw', hchange,
    Workflow.acyclic_nodes_iff hmovedIn hfolds hacyclic htarget hout hids, ⟨?_, fun h => ?_⟩, ?_⟩
  · exact fun h => hfits.mp ((Tree.exists_parse hd').mp h w' hmem)
  · rw [Tree.parse_eq_ofDocument hd']
    obtain ⟨t', ht', -⟩ := Tree.ofDocument_changed (R := fun _ _ => True) ht hmovedIn.name hne
      fun _ _ => (Tree.ofWorkflow_of_wellFormed (hfits.mpr h)).imp fun _ h => ⟨h, trivial⟩
    exact ⟨t', ht'⟩
  · intro t' m' ht' hm'
    have hfit := hfits.mp ((Tree.exists_parse hd').mp ⟨t', ht'⟩ w' hmem)
    rw [Tree.parse_eq_ofDocument hd'] at ht'
    obtain ⟨m₁, hm₁, htree'⟩ := Tree.exists_workflow? ht' hw'
    obtain rfl : m' = m₁ := Option.some.inj (hm'.symm.trans hm₁)
    exact hmovedIn.gives hfolds hfree (hfit.shares.not_cites htarget) hids htarget hout htree'
      (hresolves target input)

/-- The node `p` prints a string, and the orphan `r` joins what the orphan `s` joins. -/
def gathered : Form :=
  let word (s : String) : Form := .leaf (.plain s.toList)
  .map [("workflows", .seq [.map [("name", word "m"), ("nodes", .map [
    ("start", .map [("opcode", word "workflow_start"), ("next", word "p")]),
    ("p", .map [("opcode", word "io_print"), ("inputs", .map [
      ("STRING", .map [("literal", word "y")])])]),
    ("r", .map [("opcode", word "str_concat"), ("inputs", .map [
      ("ITEM1", .map [("node", word "s")])])]),
    ("s", .map [("opcode", word "str_concat"), ("inputs", .map [
      ("ITEM1", .map [("literal", word "x")])])])])]])]

set_option maxRecDepth 2000 in
theorem gathered_movedIn : ∃ (t t' : Tree) (d d' : Document) (w w' : Workflow) (m m' : WorkflowTree)
    (o : Orphan) (r : Edited), Tree.parse Catalog.builtin (String.ofList gathered.chars) = .ok t ∧
    Document.load (String.ofList gathered.chars) = .ok d ∧ d.workflow? "m" = some w ∧
    t.workflow? "m" = some m ∧ (Edit.convertOrphan "m" "r" "p" "STRING").apply Catalog.builtin
      (String.ofList gathered.chars) = .ok r ∧ Document.load r.text = .ok d' ∧
    d'.workflow? "m" = some w' ∧ Tree.parse Catalog.builtin r.text = .ok t' ∧
    t'.workflow? "m" = some m' ∧ o ∈ m.orphans ∧ o.node.id = "r" ∧ w.FitsIn "r" "p" ∧
    Tree.Gives w' m' "p" "STRING" (.reporter o.node.opcode "r" o.node.inputs) := by
  have hF : gathered.isDocument := by decide +kernel
  have hcalls : gathered.callsPlain := by decide +kernel
  have hinput : Form.isKey "STRING" := by decide +kernel
  have hcheck : (documents? Catalog.builtin (.convertOrphan "m" "r" "p" "STRING") gathered.chars).any
      fun p => (Tree.ofDocument p.1 Catalog.builtin).isOk &&
        (Tree.ofDocument p.2 Catalog.builtin).isOk && (p.1.workflow? "m").any fun w =>
          w.nodes.all fun n => areWritable n.inputs &&
            (inlineIdsIn n.inputs).all fun i => (Form.Leaf.string i).isSound := by decide +kernel
  obtain ⟨d, r, d', hd, hr, hd', hdocs⟩ := exists_apply rfl hcheck
  simp only [Option.any_eq_true, Bool.and_eq_true, isOk_iff, List.all_eq_true] at hdocs
  obtain ⟨⟨⟨t, ht⟩, t', ht'⟩, w, hw, hnodes⟩ := hdocs
  obtain ⟨m, hm, -⟩ := Tree.exists_workflow? ht hw
  rw [← Tree.parse_eq_ofDocument hd] at ht
  obtain ⟨o, g, e, moved, F', d₂, w', ho, hoid, -, -, -, -, hd₂, hw', -, -, hfits, hgives⟩ :=
    movedIn_of_apply gathered t d w m "m" "r" "p" "STRING" r hF hcalls ht hd hw hm hinput
      (fun n hn => (hnodes n hn).1) (fun n hn => (hnodes n hn).2) hr
  obtain rfl : d' = d₂ := Except.ok.inj (hd'.symm.trans hd₂)
  obtain ⟨m', hm', -⟩ := Tree.exists_workflow? ht' hw'
  rw [← Tree.parse_eq_ofDocument hd'] at ht'
  exact ⟨t, t', d, d', w, w', m, m', o, r, ht, hd, hw, hm, hr, hd', hw', ht', hm', ho, hoid,
    hfits.mp ⟨t', ht'⟩, hgives t' m' ht' hm'⟩

/-- The orphans `r` and `t` both use the orphan `s`. -/
def twiceUsed : String :=
  "workflows:
  - name: m
    nodes:
      start:
        opcode: workflow_start
      r:
        opcode: str_concat
        inputs:
          ITEM1:
            node: s
      s:
        opcode: str_concat
        inputs:
          ITEM1:
            literal: x
      t:
        opcode: io_print
        inputs:
          STRING:
            node: s
"

set_option maxRecDepth 2000 in
/-- Moving an orphan into a node that it uses, along with another one, makes a circle. -/
theorem convert_twiceUsed : ¬ ∀ (text name orphan target input : String) (r : Edited) (t : Tree),
    Tree.parse Catalog.builtin text = .ok t →
    (Edit.convertOrphan name orphan target input).apply Catalog.builtin text = .ok r →
    ∃ t', Tree.parse Catalog.builtin r.text = .ok t' := by
  intro h
  obtain ⟨cs, htext, hcheck⟩ : ∃ cs, twiceUsed = String.ofList cs ∧
      (documents? Catalog.builtin (.convertOrphan "m" "r" "s" "ITEM1") cs).any (fun p =>
        (Tree.ofDocument p.1 Catalog.builtin).isOk &&
          !(Tree.ofDocument p.2 Catalog.builtin).isOk) :=
    ⟨_, rfl, by decide +kernel⟩
  obtain ⟨d, r, d', hd, hr, hd', hdocs⟩ := exists_apply htext hcheck
  obtain ⟨hok, hfails⟩ := (Bool.and_eq_true _ _).mp hdocs
  obtain ⟨t, ht⟩ := isOk_iff.mp hok
  rw [← Tree.parse_eq_ofDocument hd] at ht
  have hparse := h twiceUsed "m" "r" "s" "ITEM1" r t ht hr
  rw [Tree.parse_eq_ofDocument hd', ← isOk_iff] at hparse
  simp [hparse] at hfails

end Edit

end BlockFlow
