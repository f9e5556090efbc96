import BlockFlow.Proofs.Edit.Reload
import BlockFlow.Proofs.Form.Write

/-!
What creating a workflow leaves behind. Main statement: in a text in block style the new workflow
comes behind the others, which stay as they are.
-/

namespace BlockFlow

open Form (entriesSound itemsSound mappingLines itemLines)
open Outcome

/-- A workflow with a start node only. -/
def Workflow.started (name : String) : Workflow :=
  ⟨name, {}, [], [⟨startId, startOpcode, [], none, []⟩]⟩

namespace Form

variable {name : String} {w : Workflow}

/-- The node map of a new workflow. -/
def startNodes : List (String × Form) := [(startId, .map [("opcode", pointer startOpcode)])]

/-- The entries of a new workflow behind its name. -/
def bodyEntries : List (String × Form) :=
  [("interface", .map [("inputs", .leaf .noItems), ("outputs", .leaf .noItems)]),
    ("variables", .leaf .noEntries), ("nodes", .map startNodes)]

/-- The entries of a new workflow. -/
def created (name : String) : List (String × Form) :=
  ("name", .leaf (.string name)) :: bodyEntries

theorem isSound_created (h : (Leaf.string name).isSound) : (map (created name)).isSound := by
  have hbody : entriesSound bodyEntries := by decide +kernel
  refine isSound_map.mpr ⟨List.cons_ne_nil _ _, by simp [created, bodyEntries], ?_⟩
  exact entriesSound_cons.mpr ⟨isKey_ownWord (by decide), h, hbody⟩

/-- A new workflow is read back. -/
theorem eq_started (h : (Leaf.string name).isSound)
    (hw : Document.loadWorkflow (map (created name)).value = .ok w) : w = Workflow.started name := by
  obtain ⟨wname, interface, vars, nodes⟩ := w
  obtain ⟨-, hlookup, hinterface, hvars, hnodes⟩ := Document.loadWorkflow_map_eq_ok.mp hw
  rw [created, entryValues, value, Leaf.value_string h] at hlookup
  obtain rfl : name = wname := Yaml.Value.str.inj (Option.some.inj hlookup)
  obtain rfl : ({} : Interface) = interface := Except.ok.inj hinterface
  obtain rfl : [] = vars := Except.ok.inj hvars
  have hopcode : (pointer startOpcode).value = .str startOpcode :=
    value_pointer (isKey_ownWord (by decide))
  have hstart : Document.loadNodes name (Document.field? "nodes" (entryValues (created name))) =
      .ok (Workflow.started name).nodes := by
    simp only [created, bodyEntries, startNodes, entryValues, value, hopcode]
    rfl
  obtain rfl : (Workflow.started name).nodes = nodes := Except.ok.inj (hstart.symm.trans hnodes)
  rfl

/-- The lines of a new workflow. -/
theorem itemLines_created (name : String) :
    itemLines (map (created name)) (map (created name)).lines =
      Outline.workflowLines name {} [] (startNodeLines none) := by
  have hkey {k : String} (h : k ∈ ownWords) := renderString_of_isKey (isKey_ownWord h)
  have hnodes : startNodeLines none = mappingLines startNodes := by
    simp [startNodeLines, Outline.nested, Outline.field, Outline.entryLines, Outline.inline?,
      startNodes, mappingLines, entryLines, lines, pointer, Leaf.text, hkey (k := startId) (by decide),
      hkey (k := "opcode") (by decide), hkey (k := startOpcode) (by decide)]
  have hindent : Line.indentAll 4 (startNodeLines none) =
      (mappingLines startNodes).map (·.deeper 4) := by
    rw [hnodes, Line.indentAll_eq_map (solid_mappingLines _ (by decide +kernel))]
  have hitems : Leaf.text .noItems = "[]".toList := rfl
  have hentries : Leaf.text .noEntries = "\x7b\x7d".toList := rfl
  rw [Outline.workflowLines, hindent]
  simp [created, bodyEntries, Outline.interfaceLines, Outline.listLines, Outline.variablesLines,
    Outline.nested, mappingLines, entryLines, itemLines, lines, Leaf.text_string, hitems, hentries,
    hkey (k := "interface") (by decide), hkey (k := "inputs") (by decide),
    hkey (k := "outputs") (by decide), Outline.keyed, Slot.deeper_deeper]

end Form

namespace Site

variable {T : Site} {o : Outline} {g : Form} {roots : List (String × Form)} {name : String}
  {d : Document}

/-- What is behind the key of the list of workflows gives way to items. -/
theorem ensureWorkflows_fill (hg : g.isSound) :
    (T.root.fill g).ensureWorkflows = (T.root.fill (Slot.opened g), T.root.line) := by
  have hvalue := Slot.value_fill (s := T.root) hg
  rw [Outline.ensureWorkflows, workflowsLine?_fill]
  simp only [hvalue]
  cases g with
  | leaf l =>
    have hempty : (Form.written (.leaf l)).isEmpty = false := by
      simpa [Form.written] using Slot.text_ne_nil hg
    have hkey : Line.deeper 0 ("workflows".toList ++ [':']) = "workflows:".toList := by decide
    have hline : (T.root.fill (.leaf l)).setLine T.root.line "workflows:".toList = T.root.fill .bare :=
      hkey ▸ Slot.setLine_head (s := T.root) (.leaf l) .bare rfl
    rw [hempty, if_neg Bool.false_ne_true]
    exact Prod.ext hline rfl
  | _ => rfl

/-- The list of workflows is added where there is none. -/
theorem ensureWorkflows_none (hfresh : "workflows" ∉ T.above.map (·.1)) (hbelow : T.below = []) :
    Outline.ensureWorkflows ⟨mappingLines T.above, true⟩ = (T.root.fill .bare, T.root.line) := by
  have hfill : Outline.insert ⟨mappingLines T.above, true⟩ (mappingLines T.above).length
      ["workflows:".toList] = T.root.fill .bare := by
    refine congrArg (Outline.mk · true) ?_
    simp [root, hbelow, mappingLines, Form.entryLines, Form.lines]
    rfl
  have hvalue := Slot.value_fill (s := T.root) (f := .bare) rfl
  rw [Outline.ensureWorkflows, Outline.workflowsLine?, Form.findIdx?_workflows T.aboveSound hfresh]
  simp only [Outline.size, hfill]
  rw [show (mappingLines T.above).length = T.root.line from rfl, hvalue]
  rfl

/-- The new workflow comes behind the items of the list of workflows. -/
theorem insertWorkflow_fill (hname : (Form.Leaf.string name).isSound) (hafter : T.after = [])
    (ho : o.ensureWorkflows = (T.root.fill (.seq T.before), T.root.line)) :
    o.insertWorkflow none (Outline.workflowLines name {} [] (startNodeLines none)) =
      T.dash.fill (Form.created name) := by
  have hsound := (Form.isSound_map.mp (Form.isSound_created hname)).2.2
  have hsolid : Form.Solid (Outline.workflowLines name {} [] (startNodeLines none)) := by
    rw [← Form.itemLines_created]
    exact Form.solid_itemLines (Form.solid_mappingLines _ hsound)
  have hdepth := Slot.itemDepth_fill (s := T.root) T.beforeSound
  rw [Outline.insertWorkflow, ho]
  simp only [Option.getD_none]
  rw [show (2 : Nat) = T.root.column + 2 from rfl, hdepth, Line.indentAll_eq_map hsolid,
    ← Form.itemLines_created, Slot.insert_item T.beforeSound, fill_dash, items, hafter]

/-- The workflows of a text, and what the list of them is when it is written as items. -/
theorem workflows_of_whole (hg : g.isSound) (hd : Document.ofValue (T.whole g).value = .ok d) :
    Scene.Workflows g.listed d.workflows ∧
      T.root.fill (Slot.opened g) = T.root.fill (.seq g.listed) := by
  have hlookup : Yaml.Value.lookup "workflows" (Form.entryValues
      (T.above ++ ("workflows", g) :: T.below)) = some g.value := by
    rw [Form.lookup_entryValues, Form.firstOf?_append not_mem_above, Option.map_some]
  rw [whole, Form.value, Document.ofValue, Document.field?, hlookup] at hd
  cases g with
  | seq items =>
    obtain ⟨ws, hws, hok⟩ := bind_eq_ok.mp hd
    cases hok
    exact ⟨(Scene.loadWorkflows_itemValues.mp hws).1, rfl⟩
  | bare =>
    cases hd
    exact ⟨.nil, rfl⟩
  | map es => cases hd
  | leaf l =>
    refine ⟨?_, rfl⟩
    have hnil : d.workflows = [] := by
      cases hv : l.value with
      | null =>
        rw [Form.value, hv] at hd
        cases hd
        rfl
      | seq vs =>
        rw [Form.value, hv, Form.value_leaf_seq hv] at hd
        cases hd
        rfl
      | _ =>
        rw [Form.value, hv] at hd
        cases hd
    rw [hnil]
    exact .nil

/-- What a text holds under `workflows`, and the place behind all that is listed there. -/
theorem exists_whole (hroots : entriesSound roots) (hnodup : (roots.map (·.1)).Nodup)
    (hmem : "workflows" ∈ roots.map (·.1)) :
    ∃ (T : Site) (g : Form), roots = T.above ++ ("workflows", g) :: T.below ∧ g.isSound ∧
      T.before = g.listed ∧ T.after = [] := by
  obtain ⟨above, g, below, rfl, -, -⟩ := Form.exists_split hmem hnodup
  obtain ⟨habove, -, hg, hbelow⟩ := Slot.sound_entry hroots
  let T : Site := {
    above, below
    before := g.listed
    after := []
    aboveSound := habove
    belowSound := hbelow
    beforeSound := Form.itemsSound_listed hg
    afterSound := rfl
    rootKeys := by simpa using hnodup }
  exact ⟨T, g, rfl, hg, rfl, rfl⟩

/-- The place of a new workflow in a text. -/
theorem exists_last (hroots : entriesSound roots) (hnodup : (roots.map (·.1)).Nodup)
    (hd : Document.ofValue (Form.map roots).value = .ok d) :
    ∃ T : Site, Scene.Workflows T.before d.workflows ∧ T.after = [] ∧
      Outline.ensureWorkflows ⟨mappingLines roots, true⟩ =
        (T.root.fill (.seq T.before), T.root.line) := by
  by_cases hmem : "workflows" ∈ roots.map (·.1)
  · obtain ⟨T, g, rfl, hg, hbefore, hafter⟩ := exists_whole hroots hnodup hmem
    obtain ⟨hworkflows, hfill⟩ := workflows_of_whole hg hd
    have hensure := ensureWorkflows_fill (T := T) hg
    rw [fill_root, hfill, ← hbefore] at hensure
    exact ⟨T, hbefore ▸ hworkflows, hafter, hensure⟩
  · let T : Site := {
      above := roots
      below := []
      before := []
      after := []
      aboveSound := hroots
      belowSound := rfl
      beforeSound := rfl
      afterSound := rfl
      rootKeys := List.nodup_append.mpr ⟨hnodup, List.nodup_singleton _, fun k hk k' hk' heq =>
        hmem (List.mem_singleton.mp hk' ▸ heq ▸ hk)⟩ }
    have hnone : Document.field? "workflows" (Form.entryValues roots) = none := by
      rw [Document.field?, Form.lookup_entryValues, Form.firstOf?_eq_none hmem]
      rfl
    rw [Form.value, Document.ofValue, hnone] at hd
    cases hd
    exact ⟨T, .nil, rfl, ensureWorkflows_none (T := T) hmem rfl⟩

end Site

/-- Whether a text is in block style, or empty. -/
def IsBlockText (text : String) : Prop :=
  text = "" ∨ ∃ F : Form, F.isSound ∧ F.isBlock ∧ text = String.ofList F.chars

/-- The entries of a text. -/
theorem IsBlockText.exists_roots {text : String} {d : Document} (h : IsBlockText text)
    (hd : Document.load text = .ok d) :
    ∃ roots, entriesSound roots ∧ (roots.map (·.1)).Nodup ∧
      Outline.ofChars text.toList = ⟨mappingLines roots, true⟩ ∧
        Document.ofValue (Form.map roots).value = .ok d := by
  rcases h with rfl | ⟨F, hF, hblock, rfl⟩
  · have hempty : (Document.ofChars []).toOption.any (·.workflows = []) := by decide +kernel
    rw [Document.load, show "".toList = [] from rfl] at hd
    rw [hd] at hempty
    obtain ⟨ws⟩ := d
    obtain rfl : ws = [] := of_decide_eq_true hempty
    exact ⟨[], rfl, .nil, rfl, rfl⟩
  · rw [Document.load, String.toList_ofList] at hd
    have hvalue := Form.ofValue_of_ofChars hF hblock hd
    cases F with
    | map roots =>
      obtain ⟨hne, hnodup, hsound⟩ := Form.isSound_map.mp hF
      refine ⟨roots, hsound, hnodup, ?_, hvalue⟩
      rw [String.toList_ofList, Form.outline_chars hF (Form.mappingLines_ne_nil hne)]
      rfl
    | seq items => cases hvalue
    | _ => cases hblock

namespace Edit

/-- In a text in block style, and in an empty one, a workflow that is created comes behind the others,
when its name is read back. Nothing else changes, and the text is in block style again. -/
theorem appended_of_apply (c : Catalog) (text name : String) (d : Document) (r : Edited)
    (htext : IsBlockText text) (hname : (Form.Leaf.string name).isSound)
    (hd : Document.load text = .ok d) (hr : (createWorkflow name).apply c text = .ok r) :
    Document.load r.text = .ok ⟨d.workflows ++ [Workflow.started name]⟩ ∧ IsBlockText r.text := by
  obtain ⟨d₀, after, id, d', hd₀, hrun, hafter, hd'⟩ := exists_run hr
  obtain rfl : d = d₀ := Except.ok.inj (hd.symm.trans hd₀)
  obtain ⟨roots, hroots, hnodup, houtline, hvalue⟩ := htext.exists_roots hd
  obtain ⟨T, hbefore, hlast, hensure⟩ := Site.exists_last hroots hnodup hvalue
  have hinsert := Site.insertWorkflow_fill hname hlast hensure
  have hsound := T.isSound_form (Form.isSound_created hname)
  have hchars : after.outline.toChars = (T.form (.map (Form.created name))).chars := by
    simp only [run, Draft.createWorkflow, houtline] at hrun
    split at hrun
    · cases hrun
    · cases hrun
      rw [Draft.withOutline, hinsert, Site.fill_eq_form, Form.toChars_lines T.lines_form_ne_nil]
  rw [hchars] at hafter
  refine ⟨?_, .inr ⟨_, hsound, rfl, hafter⟩⟩
  rw [hafter, Document.load, String.toList_ofList] at hd' ⊢
  obtain ⟨ws₁, w, ws₂, rfl, haround, hw⟩ := T.ofValue_form.mp (Form.ofValue_of_ofChars hsound rfl hd')
  obtain rfl : ws₁ = d.workflows := Scene.workflows_unique haround.before hbefore
  obtain rfl : ws₂ = [] := List.forall₂_nil_left_iff.mp (hlast ▸ haround.after)
  obtain rfl := Form.eq_started hname hw
  exact hd'

/-- The workflow `a` without nodes. -/
def single : Form :=
  .map [("workflows", .seq [.map [("name", .leaf (.string "a")), ("nodes", .leaf .noEntries)]])]

set_option maxRecDepth 2000 in
theorem single_appended : ∃ (d : Document) (r : Edited),
    IsBlockText (String.ofList single.chars) ∧ (Form.Leaf.string "b").isSound ∧
    Document.load (String.ofList single.chars) = .ok d ∧
    (createWorkflow "b").apply Catalog.builtin (String.ofList single.chars) = .ok r ∧
    Document.load r.text = .ok ⟨d.workflows ++ [Workflow.started "b"]⟩ ∧ IsBlockText r.text := by
  have htext : IsBlockText (String.ofList single.chars) :=
    .inr ⟨single, by decide +kernel, rfl, rfl⟩
  have hname : (Form.Leaf.string "b").isSound := by decide +kernel
  have hcheck : (documents? Catalog.builtin (.createWorkflow "b") single.chars).any
      fun _ => true := by decide +kernel
  obtain ⟨d, r, -, hd, hr, -, -⟩ := exists_apply rfl hcheck
  exact ⟨d, r, htext, hname, hd, hr,
    appended_of_apply Catalog.builtin _ "b" d r htext hname hd hr⟩

/-- The workflow `a` between brackets, behind the key of the list. -/
def bracketed : String := "workflows: [\x7bname: a, nodes: \x7b\x7d\x7d]\n"

set_option maxRecDepth 2000 in
/-- Creating a workflow beside `a` removes `a`. -/
theorem create_bracketed : ¬ ∀ (text name : String) (d : Document) (r : Edited),
    Document.load text = .ok d → (createWorkflow name).apply Catalog.builtin text = .ok r →
    Document.load r.text = .ok ⟨d.workflows ++ [Workflow.started name]⟩ := by
  intro h
  obtain ⟨cs, htext, hcheck⟩ : ∃ cs, bracketed = String.ofList cs ∧
      (documents? Catalog.builtin (.createWorkflow "b") cs).any (fun ds =>
        ds.1.workflows.map (·.name) = ["a"] && ds.2.workflows.map (·.name) = ["b"]) :=
    ⟨_, rfl, by decide +kernel⟩
  obtain ⟨d, r, d', hd, hr, hd', hdocs⟩ := exists_apply htext hcheck
  obtain ⟨hold, hnew⟩ := (Bool.and_eq_true _ _).mp hdocs
  obtain rfl := Except.ok.inj (hd'.symm.trans (h bracketed "b" d r hd hr))
  have hnames : (d.workflows ++ [Workflow.started "b"]).map (·.name) = ["b"] :=
    of_decide_eq_true hnew
  rw [List.map_append, of_decide_eq_true hold] at hnames
  exact absurd hnames (by decide)

end Edit

end BlockFlow
