import BlockFlow.Proofs.Edit.Clearing
import BlockFlow.Proofs.Edit.Reload

/-!
Which nodes go along with inputs that are cleared. Main statement: only nodes that nothing needs go,
exactly where what is left is apart from the contents of their branches.
-/

namespace BlockFlow

open InputExpr Outcome

namespace Workflow

/-- The second workflow lacks only nodes that nothing needs: no start node, none that a node which is
left pointed at, and none that it references now. -/
structure LosesUnneeded (w w' : Workflow) : Prop where
  start : ∀ x ∈ w.nodeIds, x ∉ w'.nodeIds → w.startId? ≠ some x
  unlinked : ∀ x ∈ w.nodeIds, x ∉ w'.nodeIds → ∀ a ∈ w'.nodeIds, ¬ w.Names a x
  unused : ∀ x ∈ w.nodeIds, x ∉ w'.nodeIds → ∀ a, ¬ w'.Cites a x

/-- Nothing that is left needs what goes along with the node `x` through its branches: it is not the
start node, and nothing that is left points at it or references it. Of the references to `x` itself,
one is cleared. -/
structure Apart (w : Workflow) (g : LinkGraph) (gone : List String) (x : String) : Prop where
  start : ∀ s, w.startId? = some s → s ∉ gone
  unlinked : ∀ y ∈ gone, y = x ∨ y ∈ g.branchDescendants x → ∀ a ∈ w.nodeIds, a ∉ gone →
    ¬ w.Names a y
  unused : ∀ y ∈ gone, y ∈ g.branchDescendants x → ∀ a ∈ w.nodeIds, a ∉ gone → ¬ w.Cites a y

/-- Checks that nothing that is left needs any of the nodes that go, but `x`. -/
def keepsApart (w : Workflow) (gone : List String) (x : String) : Bool :=
  (w.startId?.all fun s => !gone.contains s) && w.nodes.all fun n => gone.contains n.id ||
    (n.pointers.all fun p => !gone.contains p.2) &&
    (w.reporterRefs n.id).all fun r => r = x || !gone.contains r

theorem apart_of_check {w : Workflow} {g : LinkGraph} {gone : List String} {x : String}
    (hg : LinkGraph.build w = .ok g) (h : w.keepsApart gone x) : w.Apart g gone x := by
  simp only [keepsApart, Bool.and_eq_true, List.all_eq_true, Option.all_eq_true, Bool.or_eq_true,
    Bool.not_eq_true', List.contains_eq_mem, decide_eq_true_eq, decide_eq_false_iff_not] at h
  refine ⟨h.1, fun y hy _ a _ hkept hnames => ?_, fun y hy hbranch a _ hkept hcites => ?_⟩
  · obtain ⟨n, hn, rfl, slot, hslot⟩ := hnames
    exact ((h.2 n hn).resolve_left hkept).1 _ hslot hy
  · obtain ⟨n, hn⟩ := hcites.exists_node?
    obtain rfl := node?_id hn
    rcases ((h.2 n (node?_mem hn)).resolve_left hkept).2 y hcites with rfl | hstays
    · exact ((LinkGraph.mem_branchDescendants hg).mp hbranch).1 rfl
    · exact hstays hy

namespace Cleared

variable {w w' : Workflow} {host : NodeDef} {value : InputExpr} {inputs : Inputs}
  {gone : List String} {g : LinkGraph} {e : Edit} {x : String}

/-- Where the nodes that go are those that go along with the node that only the cleared input
referenced, only nodes that nothing needs are lost exactly if the rest is apart from them. -/
theorem losesUnneeded_iff (h : Cleared host value inputs gone w w') (hids : w.nodeIds.Nodup)
    (hg : LinkGraph.build w = .ok g) (hvalue : value = .node x)
    (hcount : w.useCount x = 1) (hgone : gone = w.removalSet g [x]) :
    w.LosesUnneeded w' ↔ w.Apart g gone x := by
  have hmem (y : String) (hy : y ∈ gone) : y ∈ w.nodeIds ∧
      (y = x ∨ y ∈ g.branchDescendants x ∨ w.Unneeded gone y) := by
    rw [hgone] at hy ⊢
    obtain ⟨hid, hcases⟩ := (mem_removalSet hg).mp hy
    simp only [List.mem_singleton, exists_eq_left] at hcases
    exact ⟨hid, hcases.imp_right fun h => h.imp_right And.left⟩
  have hmissing (y : String) (hy : y ∈ w.nodeIds) : y ∉ w'.nodeIds ↔ y ∈ gone := by
    rw [h.mem_nodeIds, not_and, not_not, imp_iff_right hy]
  have hothers (y : String) (hy : y ≠ x) : y ∉ value.nodeRefs := by
    simpa [hvalue, nodeRefs] using hy
  constructor
  · intro hloses
    refine ⟨fun s hs hin => ?_, fun y hy _ a ha hkept hnames => ?_,
      fun y hy hbranch a ha hkept hcites => ?_⟩
    · have hid := (hmem s hin).1
      exact hloses.start s hid ((hmissing s hid).mpr hin) hs
    · have hid := (hmem y hy).1
      exact hloses.unlinked y hid ((hmissing y hid).mpr hy) a (h.mem_nodeIds.mpr ⟨ha, hkept⟩) hnames
    · have hid := (hmem y hy).1
      have hne : y ≠ x := ((LinkGraph.mem_branchDescendants hg).mp hbranch).1
      exact hloses.unused y hid ((hmissing y hid).mpr hy) a
        ((h.cites_iff hids hkept (hothers y hne)).mpr hcites)
  · intro hapart
    refine ⟨fun y hid hy hs => ?_, fun y hid hy a ha hnames => ?_, fun y hid hy a hcites => ?_⟩
    · exact hapart.start y hs ((hmissing y hid).mp hy)
    · have hy := (hmissing y hid).mp hy
      obtain ⟨ha, hkept⟩ := h.mem_nodeIds.mp ha
      rcases (hmem y hy).2 with heq | hbranch | hunneeded
      · exact hapart.unlinked y hy (.inl heq) a ha hkept hnames
      · exact hapart.unlinked y hy (.inr hbranch) a ha hkept hnames
      · exact hunneeded.unlinked a hnames
    · have hy := (hmissing y hid).mp hy
      by_cases hne : y = x
      · subst hne
        exact h.not_cites hids hvalue hcount hcites
      · obtain ⟨ha, hkept⟩ := h.mem_nodeIds.mp hcites.mem_nodeIds
        rw [h.cites_iff hids hkept (hothers y hne)] at hcites
        rcases (hmem y hy).2.resolve_left hne with hbranch | hunneeded
        · exact hapart.unused y hy hbranch a ha hkept hcites
        · exact hkept (hunneeded.unused a hcites)

/-- Where an edit clears an input, only nodes that nothing needs are lost exactly if the rest is apart
from those that go along with it. -/
theorem losesUnneeded_dropped (h : Cleared host value inputs (e.dropped w g value) w w')
    (hids : w.nodeIds.Nodup) (hg : LinkGraph.build w = .ok g) :
    w.LosesUnneeded w' ↔ ∀ x, value = .node x → w.Apart g (e.dropped w g value) x := by
  rcases e.dropped_cases w g value with hnone | ⟨x, rfl, hcount, hgone⟩
  · have hkept (y : String) (hy : y ∈ w.nodeIds) : y ∈ w'.nodeIds :=
      h.mem_nodeIds.mpr ⟨hy, hnone ▸ List.not_mem_nil⟩
    rw [hnone]
    exact ⟨fun _ _ _ => ⟨fun _ _ => List.not_mem_nil, fun _ hy => absurd hy List.not_mem_nil,
        fun _ hy => absurd hy List.not_mem_nil⟩,
      fun _ => ⟨fun y hy hgone => absurd (hkept y hy) hgone,
        fun y hy hgone => absurd (hkept y hy) hgone, fun y hy hgone => absurd (hkept y hy) hgone⟩⟩
  · have hpos := h.useCount_pos hids rfl
    rw [h.losesUnneeded_iff hids hg rfl (by omega) hgone]
    constructor
    · rintro hapart _ ⟨⟩
      exact hapart
    · exact fun hapart => hapart x rfl

end Cleared

end Workflow

namespace Edit

/-- Clearing an input of a text in block style takes out of one node the references in the value, and
the nodes that go along with it. Only nodes that nothing needs are lost exactly where these are apart
from the rest. -/
theorem losesUnneeded_of_apply (F : Form) (t : Tree) (d : Document) (w : Workflow) (name : String)
    (e : Edit) (value : InputExpr) (r : Edited) (hF : F.isDocument) (hcalls : F.callsPlain)
    (ht : Tree.parse Catalog.builtin (String.ofList F.chars) = .ok t)
    (hd : Document.load (String.ofList F.chars) = .ok d) (hw : d.workflow? name = some w)
    (hclears : e.Clears w name value)
    (hr : e.apply Catalog.builtin (String.ofList F.chars) = .ok r) :
    ∃ (g : LinkGraph) (F' : Form) (d' : Document) (w' : Workflow), LinkGraph.build w = .ok g ∧
      F'.isDocument ∧ r.text = String.ofList F'.chars ∧ Document.load r.text = .ok d' ∧
      d'.workflow? name = some w' ∧
      Document.Changed name (fun w w' => ∃ host inputs,
        Workflow.Cleared host value inputs (e.dropped w g value) w w') d d' ∧
      (w.LosesUnneeded w' ↔ ∀ x, value = .node x → w.Apart g (e.dropped w g value) x) := by
  obtain rfl : w.name = name := by simpa using List.find?_some hw
  have hwell := (Tree.exists_parse hd).mp ⟨t, ht⟩ w (List.mem_of_find?_eq_some hw)
  have hg := LinkGraph.build_eq_ok.mpr ⟨hwell.pointers, rfl⟩
  obtain ⟨n, hn⟩ := hclears.exists_mem
  obtain ⟨F', d', hF', htext, hd', hchange⟩ := exists_changed (R := fun w w' => ∃ host inputs,
    Workflow.Cleared host value inputs (e.dropped w _ value) w w') hF hd hw
    (List.ne_nil_of_mem hn) hr
    fun S ws₁ ws₂ es after made hhosts hes hplain hrun => by
      obtain ⟨host, inputs, ns', ⟨es', hfill, hes', -⟩, hcleared⟩ :=
        hhosts.cleared_of_run ⟨es, rfl, hes, hplain hcalls⟩ hw rfl hg hclears hrun
      exact ⟨es', ns', hfill, hes', host, inputs, hcleared⟩
  obtain ⟨w', hw', host, inputs, hcleared⟩ := hchange.exists_workflow?
    (fun _ _ ⟨_, _, h⟩ => by rw [h.result]) hw
  obtain ⟨hids, -⟩ := Scene.nodup_of_isDocument hF hd hw
  exact ⟨_, F', d', w', hg, hF', htext, hd', hw', hchange, hcleared.losesUnneeded_dropped hids hg⟩

/-- The list `x` with the reporter `r` in front and a literal behind it. -/
def listed : Form :=
  let word (s : String) : Form := .leaf (.plain s.toList)
  .map [("workflows", .seq [.map [("name", word "m"), ("nodes", .map [
    ("start", .map [("opcode", word "workflow_start")]),
    ("r", .map [("opcode", word "io_input")]),
    ("x", .map [("opcode", word "data_list_create"), ("inputs", .map [
      ("ITEM1", .map [("node", word "r")]),
      ("ITEM2", word "b")])])])]])]

set_option maxRecDepth 2000 in
theorem listed_losesUnneeded : ∃ (t : Tree) (d d' : Document) (w w' : Workflow) (r : Edited),
    Tree.parse Catalog.builtin (String.ofList listed.chars) = .ok t ∧
    Document.load (String.ofList listed.chars) = .ok d ∧ d.workflow? "m" = some w ∧
    (Edit.removeInput "m" "x" "ITEM1").apply Catalog.builtin (String.ofList listed.chars) = .ok r ∧
    Document.load r.text = .ok d' ∧ d'.workflow? "m" = some w' ∧ w.LosesUnneeded w' := by
  have hF : listed.isDocument := by decide +kernel
  have hcalls : listed.callsPlain := by decide +kernel
  have hcheck : (documents? Catalog.builtin (.removeInput "m" "x" "ITEM1") listed.chars).any fun p =>
      (Tree.ofDocument p.1 Catalog.builtin).isOk && (p.1.workflow? "m").any fun w =>
        ((w.node? "x").any fun n => Draft.ownReporter? w n "ITEM1" = some "r" &&
          Canonical "ITEM" (n.inputs.map (·.1)) && Canonical "PART" (n.inputs.map (·.1))) &&
        (LinkGraph.build w).toOption.any fun g => w.keepsApart (w.removalSet g ["r"]) "r" := by
    decide +kernel
  obtain ⟨d, r, _, hd, hr, -, hdocs⟩ := exists_apply rfl hcheck
  simp only [Option.any_eq_true, toOption_eq_some, Bool.and_eq_true, isOk_iff,
    decide_eq_true_eq] at hdocs
  obtain ⟨⟨t, ht⟩, w, hw, ⟨n, hn, ⟨howned, hitems⟩, hparts⟩, g, hg, hcheck⟩ := hdocs
  rw [← Tree.parse_eq_ofDocument hd] at ht
  obtain ⟨hvalue, hcount⟩ := Draft.ownReporter?_eq_some.mp howned
  have hcanonical : ∀ stem, Form.isStem stem → Canonical stem (n.inputs.map (·.1)) := by
    intro stem hstem
    simp only [Form.isStem, Bool.or_eq_true, decide_eq_true_eq] at hstem
    rcases hstem with rfl | rfl
    · exact hitems
    · exact hparts
  obtain ⟨g', -, d', w', hg', -, -, hd', hw', -, hloses⟩ := losesUnneeded_of_apply listed t d w "m"
    _ _ r hF hcalls ht hd hw (.numbered hn hvalue hcanonical) hr
  obtain rfl : g = g' := Except.ok.inj (hg.symm.trans hg')
  refine ⟨t, d, d', w, w', r, ht, hd, hw, hr, hd', hw', hloses.mpr fun x hx => ?_⟩
  cases hx
  simp only [dropped, hcount, if_true]
  exact Workflow.apart_of_check hg hcheck

/-- The node `p` comes after the start node, and the orphan `x` uses it as well. -/
def borrowed : String :=
  "workflows:
  - name: m
    nodes:
      start:
        opcode: workflow_start
        next: p
      p:
        opcode: io_print
      x:
        opcode: data_list_create
        inputs:
          ITEM1:
            node: p
"

set_option maxRecDepth 2000 in
/-- Removing the input of `x` removes the node behind the start node. -/
theorem remove_borrowed : ¬ ∀ (text name id : String) (e : Edit) (r : Edited) (t : Tree)
    (d d' : Document) (w w' : Workflow), Tree.parse Catalog.builtin text = .ok t →
    Document.load text = .ok d → d.workflow? name = some w →
    ((∃ path, e = .deleteReporter name id path) ∨ ∃ input, e = .removeInput name id input) →
    e.apply Catalog.builtin text = .ok r → Document.load r.text = .ok d' →
    d'.workflow? name = some w' → w.LosesUnneeded w' := by
  intro h
  obtain ⟨cs, htext, hcheck⟩ : ∃ cs, borrowed = String.ofList cs ∧
      (documents? Catalog.builtin (.removeInput "m" "x" "ITEM1") cs).any (fun p =>
        (Tree.ofDocument p.1 Catalog.builtin).isOk && (p.1.workflow? "m").any fun w =>
          w.pointer? "start" .next = some "p" && w.nodeIds.contains "p" &&
          (p.2.workflow? "m").any fun w' =>
            !w'.nodeIds.contains "p" && w'.nodeIds.contains "start") := ⟨_, rfl, by decide +kernel⟩
  obtain ⟨d, r, d', hd, hr, hd', hdocs⟩ := exists_apply htext hcheck
  simp only [Bool.and_eq_true, Option.any_eq_true, isOk_iff, decide_eq_true_eq, Bool.not_eq_true',
    List.contains_eq_mem, decide_eq_false_iff_not] at hdocs
  obtain ⟨⟨t, ht⟩, w, hw, ⟨hpointer, hmem⟩, w', hw', hgone, hstart⟩ := hdocs
  rw [← Tree.parse_eq_ofDocument hd] at ht
  have hloses := h borrowed "m" "x" _ r t d d' w w' ht hd hw (.inr ⟨"ITEM1", rfl⟩) hr hd' hw'
  obtain ⟨n, hn, htarget⟩ := Option.bind_eq_some_iff.mp hpointer
  have hnames : w.Names "start" "p" :=
    ⟨n, Workflow.node?_mem hn, Workflow.node?_id hn, .next, NodeDef.mem_pointers_of_target? htarget⟩
  exact hloses.unlinked "p" hmem hgone "start" hstart hnames

end Edit

end BlockFlow
