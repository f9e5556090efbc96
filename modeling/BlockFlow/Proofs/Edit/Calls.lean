import BlockFlow.Proofs.Edit.Creating
import BlockFlow.Proofs.Edit.Draft
import BlockFlow.Proofs.Edit.Start
import BlockFlow.Proofs.Form.Renamed
import BlockFlow.Proofs.Reporters

/-!
What renaming a workflow leaves behind. Main statement: in a text in block style, where nothing but
calls reads as a call of the workflow, the workflow has another name where it stands and where it is
called, and nothing else changes.
-/

namespace BlockFlow

open Form (entriesSound mappingLines headLine respellEntries respellItems variableEntries)
open InputExpr (respell respellInputs)
open Outcome
open Yaml (Value)

/-- The workflow in which another one has a new name where it is called, at any depth. -/
def Workflow.renameCalls (old new : String) (w : Workflow) : Workflow :=
  { w with nodes := w.nodes.map fun n =>
      { n with inputs := respellInputs "workflow_call" old new n.inputs } }

/-- The document in which a workflow has a new name, where it stands and where it is called. -/
def Document.renameWorkflow (old new : String) (d : Document) : Document :=
  ⟨d.workflows.map fun w =>
    { w.renameCalls old new with name := if w.name = old then new else w.name }⟩

/-- Whether something in a workflow that is no call reads as a call of the workflow `name`. -/
def Workflow.readsAsCall (name : String) (w : Workflow) : Bool :=
  Value.entriesRead "workflow_call" name (variableEntries w.vars) ||
    w.nodes.any (·.reads "workflow_call" name)

namespace InputExpr

variable {word old : String}

mutual

theorem respell_self : (e : InputExpr) → e.respell word old old = e
  | .literal _ => rfl
  | .variable name => by rw [respell, ite_eq_right_iff.mpr fun h => h.2.symm]
  | .node _ => rfl
  | .inline id opcode inputs => by rw [respell, respellInputs_self inputs]
  | .call workflow args => by
    rw [respell, respellInputs_self args, ite_eq_right_iff.mpr fun h => h.2.symm]

theorem respellInputs_self : (ins : Inputs) → respellInputs word old old ins = ins
  | [] => rfl
  | (key, e) :: ins => by rw [respellInputs, respell_self e, respellInputs_self ins]

end

end InputExpr

/-- A workflow that keeps its name. -/
theorem Document.renameWorkflow_self {old : String} (d : Document) : d.renameWorkflow old old = d := by
  have hname (w : Workflow) : (if w.name = old then old else w.name) = w.name :=
    ite_eq_right_iff.mpr Eq.symm
  simp only [renameWorkflow, Workflow.renameCalls, InputExpr.respellInputs_self, hname, List.map_id']

namespace Document

variable {owner owner' : String}

theorem keyName_owner {k : Value} {name : String} (h : keyName owner k = .ok name) :
    keyName owner' k = .ok name := by
  cases k <;> first | exact h | cases h

/-- The name of a workflow only stands in what is reported when its parts do not load. -/
theorem loadInterface_owner {v : Option Value} {interface : Interface}
    (h : loadInterface owner v = .ok interface) : loadInterface owner' v = .ok interface := by
  cases v with
  | none => exact h
  | some v =>
    cases v with
    | map vs => exact loadInterface_map.mpr (loadInterface_map.mp h)
    | _ => cases h

theorem loadVariables_owner {v : Option Value} {vars : List (String × Value)}
    (h : loadVariables owner v = .ok vars) : loadVariables owner' v = .ok vars := by
  cases v with
  | none => exact h
  | some v =>
    cases v with
    | map vs =>
      refine mapM_eq_ok.mpr ((mapM_eq_ok.mp h).imp fun e p he => ?_)
      obtain ⟨name, hname, he⟩ := bind_eq_ok.mp he
      exact bind_eq_ok.mpr ⟨name, keyName_owner hname, he⟩
    | _ => cases h

theorem loadNodes_owner {v : Option Value} {ns : List NodeDef}
    (h : loadNodes owner v = .ok ns) : loadNodes owner' v = .ok ns := by
  cases v with
  | none => exact h
  | some v =>
    cases v with
    | map vs =>
      refine mapM_eq_ok.mpr ((mapM_eq_ok.mp h).imp fun e n he => ?_)
      obtain ⟨id, hid, he⟩ := bind_eq_ok.mp he
      exact bind_eq_ok.mpr ⟨id, keyName_owner hid, he⟩
    | _ => cases h

end Document

namespace Form

variable {word old new : String} {F : Form} {roots : List (String × Form)} {items : List Form}
  {ws : List Workflow} {d : Document}

/-- A text loads when the items of its list of workflows do. -/
theorem ofValue_of_items (h : firstOf? "workflows" roots = some (.seq items)) :
    Document.ofValue (map roots).value = .ok d ↔
      Scene.Workflows items d.workflows ∧ (d.workflows.map (·.name)).Nodup := by
  obtain ⟨ws⟩ := d
  have hfield : Document.field? "workflows" (entryValues roots) = some (.seq (itemValues items)) := by
    rw [Document.field?, lookup_entryValues, h]
    rfl
  simp only [value, Document.ofValue, hfield, bind_eq_ok, Scene.loadWorkflows_itemValues,
    Except.ok.injEq, Document.mk.injEq, exists_eq_right]

theorem respellItems_eq_map :
    respellItems word old new items = items.map (·.respell word old new false) := by
  induction items with
  | nil => rfl
  | cons f items ih => rw [respellItems, ih, List.map_cons]

/-- A workflow calls the new one where it called the old one. -/
theorem loadWorkflow_renameCalls {f : Form} {w : Workflow} (hnew : (Leaf.string new).isSound)
    (h : Document.loadWorkflow f.value = .ok w) (hclear : w.readsAsCall old = false) :
    Document.loadWorkflow (f.respell "workflow_call" old new false).value =
      .ok (w.renameCalls old new) := by
  obtain ⟨es, rfl⟩ := exists_map_of_loadWorkflow h
  simp only [Workflow.readsAsCall, Bool.or_eq_false_iff, List.any_eq_false, Bool.not_eq_true]
    at hclear
  exact loadWorkflow_respell _ (by decide) hnew h hclear.1 hclear.2

theorem workflows_renameCalls (hnew : (Leaf.string new).isSound) (h : Scene.Workflows items ws)
    (hclear : ∀ w ∈ ws, w.readsAsCall old = false) :
    Scene.Workflows (respellItems "workflow_call" old new items) (ws.map (·.renameCalls old new)) := by
  induction h with
  | nil => exact .nil
  | cons hw _ ih =>
    obtain ⟨hw', hclear⟩ := List.forall_mem_cons.mp hclear
    exact .cons (loadWorkflow_renameCalls hnew hw hw') (ih hclear)

/-- The entries of a workflow with another name. -/
theorem loadWorkflow_name {es₁ es₂ : List (String × Form)} {g : Form} {w : Workflow}
    (h : Document.loadWorkflow (map (es₁ ++ ("name", g) :: es₂)).value = .ok w) (hne : new ≠ "")
    (hnew : (Leaf.string new).isSound) (hfresh : "name" ∉ es₁.map (·.1)) :
    Document.loadWorkflow (map (es₁ ++ ("name", .leaf (.string new)) :: es₂)).value =
      .ok { w with name := new } := by
  obtain ⟨-, -, hinterface, hvars, hnodes⟩ := Document.loadWorkflow_map_eq_ok.mp h
  have hbeside : Beside "name" (es₁ ++ ("name", g) :: es₂)
      (es₁ ++ ("name", .leaf (.string new)) :: es₂) := fun k hk => Slot.firstOf?_replace hk
  have hfield (k : String) (hk : k ≠ "name") := Document.field?_congr (hbeside.lookup hk)
  refine Document.loadWorkflow_map_eq_ok.mpr ⟨hne, ?_, ?_, ?_, ?_⟩
  · rw [lookup_entryValues, firstOf?_append hfresh, Option.map_some, value, Leaf.value_string hnew]
  · rw [hfield "interface" (by decide)]
    exact Document.loadInterface_owner hinterface
  · rw [hfield "variables" (by decide)]
    exact Document.loadVariables_owner hvars
  · rw [hfield "nodes" (by decide)]
    exact Document.loadNodes_owner hnodes

end Form

namespace Dash

variable {d : Dash} {es₁ es₂ : List (String × Form)} {k : String} {l l' : Form.Leaf}

/-- A scalar of an item is replaced, on the line of the item and below it. -/
theorem setScalar_fill (hes : entriesSound (es₁ ++ (k, .leaf l) :: es₂))
    (hfresh : k ∉ es₁.map (·.1)) :
    (d.fill (es₁ ++ (k, .leaf l) :: es₂)).setScalar d.line k l'.text =
      d.fill (es₁ ++ (k, .leaf l') :: es₂) := by
  obtain ⟨-, hk, hl, h₂⟩ := Slot.sound_entry hes
  have hkey := Form.renderString_of_isKey hk
  rw [Outline.setScalar, find?_fill_append hes rfl hfresh]
  cases es₁ with
  | nil =>
    have hdepth : (d.fill ((k, .leaf l) :: es₂)).depth d.line = d.column :=
      Outline.depth_of_indent? indent?_fill
    simp only [List.nil_append, mappingLines, List.length_nil, Nat.add_zero, if_true, hdepth, hkey]
    refine congrArg (Outline.mk · true) ?_
    simp [line, fill, mappingLines, Form.itemLines, Form.entryLines]
  | cons e es₁ =>
    have hne : d.line + (mappingLines (e :: es₁)).length ≠ d.line := by
      have := Form.mappingLines_ne_nil (List.cons_ne_nil e es₁)
      rw [← List.length_pos_iff] at this
      omega
    have hdepth := Slot.depth_fill (s := d.inner e es₁ es₂ k hk h₂) (f := .leaf l)
    have hreplace := Slot.replace_fill (s := d.inner e es₁ es₂ k hk h₂)
      (Form.solid_lines (.leaf l) hl) (.leaf l')
    rw [line_inner] at hdepth hreplace
    rw [fill_inner] at hdepth hreplace
    rw [fill_inner] at hreplace
    simp only [if_neg hne, List.cons_append, hdepth]
    rw [← hreplace]
    simp [Outline.entryLine, hkey, Form.entryLines, inner]

end Dash

namespace Form

variable {es es₁ es₂ : List (String × Form)} {l l' : Leaf} {w : Workflow}

/-- The name of a workflow is a scalar. -/
theorem exists_name (hes : (map es).isSound) (h : Document.loadWorkflow (map es).value = .ok w) :
    ∃ es₁ l es₂, es = es₁ ++ ("name", .leaf l) :: es₂ ∧ "name" ∉ es₁.map (·.1) := by
  obtain ⟨-, hname, -⟩ := Document.loadWorkflow_map_eq_ok.mp h
  rw [lookup_entryValues] at hname
  obtain ⟨g, hfirst, hg⟩ := Option.map_eq_some_iff.mp hname
  obtain ⟨es₁, es₂, rfl, hfresh⟩ := exists_split_of_firstOf? hfirst
  have hshown : g.value.shown? = some w.name := by rw [hg]; rfl
  obtain ⟨l, rfl⟩ := leaf_of_shown? (Slot.sound_entry (isSound_map.mp hes).2.2).2.2.1 hshown
  exact ⟨es₁, l, es₂, rfl, hfresh⟩

theorem isSound_scalar (hes : (map (es₁ ++ ("name", .leaf l) :: es₂)).isSound) (hl : l'.isSound) :
    (map (es₁ ++ ("name", .leaf l') :: es₂)).isSound := by
  obtain ⟨-, hkeys, hsound⟩ := isSound_map.mp hes
  obtain ⟨h₁, hk, -, h₂⟩ := Slot.sound_entry hsound
  exact isSound_map.mpr ⟨by simp, by simpa using hkeys,
    entriesSound_append.mpr ⟨h₁, entriesSound_cons.mpr ⟨hk, hl, h₂⟩⟩⟩

end Form

namespace Site

variable {T : Site} {es₁ es₂ : List (String × Form)} {l : Form.Leaf} {w : Workflow} {old new : String}
  {ws₁ ws₂ : List Workflow} {d : Document}

/-- The text in which the workflow has another name, where it stands and where it is called. -/
def renamed (T : Site) (es₁ es₂ : List (String × Form)) (old new : String) : Form :=
  (T.form (.map (es₁ ++ ("name", .leaf (.string new)) :: es₂))).respell "workflow_call" old new true

theorem isSound_renamed (hes : (Form.map (es₁ ++ ("name", .leaf l) :: es₂)).isSound)
    (hnew : (Form.Leaf.string new).isSound) : (T.renamed es₁ es₂ old new).isSound :=
  Form.isSound_respell hnew _ true (T.isSound_form (Form.isSound_scalar hes hnew))

theorem lines_renamed_ne_nil : (T.renamed es₁ es₂ old new).lines ≠ [] := by
  refine Form.mappingLines_ne_nil fun hnil => ?_
  have hkeys := @Form.keys_respellEntries "workflow_call" old new true (T.above ++ ("workflows",
    .seq (T.items (.map (es₁ ++ ("name", .leaf (.string new)) :: es₂)))) :: T.below)
  rw [hnil] at hkeys
  simp at hkeys

/-- First the name is changed where the workflow stands, then the lines of the text are renamed one by
one. -/
theorem rename_fill (hes : (Form.map (es₁ ++ ("name", .leaf l) :: es₂)).isSound)
    (hnew : (Form.Leaf.string new).isSound) (hfresh : "name" ∉ es₁.map (·.1)) :
    let o := (T.dash.fill (es₁ ++ ("name", .leaf l) :: es₂)).setScalar T.dash.line "name"
      (Outline.renderString new)
    o.mapLines 0 o.size (·.renameCall old new) = ⟨(T.renamed es₁ es₂ old new).lines, true⟩ := by
  have hset : (T.dash.fill (es₁ ++ ("name", .leaf l) :: es₂)).setScalar T.dash.line "name"
      (Form.Leaf.string new).text = T.dash.fill (es₁ ++ ("name", .leaf (.string new)) :: es₂) :=
    Dash.setScalar_fill (Form.isSound_map.mp hes).2.2 hfresh
  have hroots := Form.isSound_map.mp (T.isSound_form (Form.isSound_scalar hes hnew))
  have hlines : (T.renamed es₁ es₂ old new).lines =
      (T.form (.map (es₁ ++ ("name", .leaf (.string new)) :: es₂))).lines.map (·.renameCall old new) :=
    Form.mappingLines_respell (Line.renameCall_respells old new) _ hroots.2.2
  rw [← Form.Leaf.text_string, hset, fill_eq_form, hlines]
  simp [Outline.mapLines, Outline.splice, Outline.slice, Outline.size]

/-- The workflows of the text. -/
theorem workflows_renamed (hnew : (Form.Leaf.string new).isSound)
    (hfresh : "name" ∉ es₁.map (·.1)) (haround : T.Around ws₁ w ws₂)
    (hload : Document.loadWorkflow (Form.map (es₁ ++ ("name", .leaf l) :: es₂)).value = .ok w)
    (hclear : ∀ v ∈ ws₁ ++ w :: ws₂, v.readsAsCall old = false)
    (hd : Document.ofValue (T.renamed es₁ es₂ old new).value = .ok d) :
    d.workflows = ws₁.map (·.renameCalls old new) ++
      { w.renameCalls old new with name := new } :: ws₂.map (·.renameCalls old new) := by
  let f : Form := .map (es₁ ++ ("name", .leaf (.string new)) :: es₂)
  have hfirst : firstOf? "workflows" (respellEntries "workflow_call" old new true
      (T.above ++ ("workflows", .seq (T.items f)) :: T.below)) =
        some (.seq (respellItems "workflow_call" old new (T.items f))) := by
    rw [Form.firstOf?_respellEntries (by decide), Form.firstOf?_append not_mem_above]
    rfl
  obtain ⟨hitems, -⟩ := (Form.ofValue_of_items hfirst).mp hd
  -- The new name is not empty, because the text loads.
  have hne : new ≠ "" := by
    have hmem : f.respell "workflow_call" old new false ∈
        respellItems "workflow_call" old new (T.items f) := by
      rw [Form.respellItems_eq_map]
      exact List.mem_map_of_mem (List.mem_append_right _ List.mem_cons_self)
    obtain ⟨v, -, hv⟩ := exists_mem_of_forall₂ hitems hmem
    obtain ⟨hne, hname, -⟩ := Document.loadWorkflow_map_eq_ok.mp hv
    have hlookup : Value.lookup "name" (Form.entryValues
        (es₁ ++ ("name", .leaf (.string new)) :: es₂)) = some (.str new) := by
      rw [Form.lookup_entryValues, Form.firstOf?_append hfresh, Option.map_some, Form.value,
        Form.Leaf.value_string hnew]
    rw [Form.lookup_respell_str (by decide) hlookup] at hname
    exact Value.str.inj (Option.some.inj hname) ▸ hne
  simp only [List.forall_mem_append, List.forall_mem_cons] at hclear
  obtain ⟨hclear₁, hclear, hclear₂⟩ := hclear
  have hrenamed := Form.loadWorkflow_name hload hne hnew hfresh
  refine Scene.workflows_unique hitems ?_
  rw [Form.respellItems_eq_map, items, List.map_append, List.map_cons,
    ← Form.respellItems_eq_map, ← Form.respellItems_eq_map]
  exact List.rel_append (Form.workflows_renameCalls hnew haround.before hclear₁)
    (.cons (Form.loadWorkflow_renameCalls hnew hrenamed hclear)
      (Form.workflows_renameCalls hnew haround.after hclear₂))

end Site

/-- One workflow has another name, and all have other calls. -/
theorem Document.renameWorkflow_middle {ws₁ ws₂ : List Workflow} {w : Workflow} {new : String}
    (hnames : ((ws₁ ++ w :: ws₂).map (·.name)).Nodup) :
    Document.renameWorkflow w.name new ⟨ws₁ ++ w :: ws₂⟩ = ⟨ws₁.map (·.renameCalls w.name new) ++
      { w.renameCalls w.name new with name := new } :: ws₂.map (·.renameCalls w.name new)⟩ := by
  obtain ⟨hne₁, hne₂⟩ := ne_of_nodup hnames
  have hother {ws : List Workflow} (h : ∀ v ∈ ws, v.name ≠ w.name) :
      (ws.map fun v => { v.renameCalls w.name new with
        name := if v.name = w.name then new else v.name }) = ws.map (·.renameCalls w.name new) :=
    List.map_congr_left fun v hv => by rw [if_neg (h v hv)]; rfl
  rw [renameWorkflow, List.map_append, List.map_cons, hother hne₁, hother hne₂, if_pos rfl]

/-- The workflows that the inputs of a document call. -/
def Document.calls (d : Document) : List String :=
  d.workflows.flatMap fun w => w.nodes.flatMap fun n => InputExpr.callsIn n.inputs

namespace Edit

/-- In a text in block style, where nothing but calls reads as a call of the workflow, renaming a
workflow changes its name where it stands and in each call at any depth, and nothing else. The text is
in block style again. -/
theorem respelled_of_apply (c : Catalog) (F : Form) (d : Document) (old new : String) (r : Edited)
    (hF : F.isSound) (hblock : F.isBlock) (hnew : (Form.Leaf.string new).isSound)
    (hd : Document.load (String.ofList F.chars) = .ok d)
    (hclear : ∀ w ∈ d.workflows, w.readsAsCall old = false)
    (hr : (renameWorkflow old new).apply c (String.ofList F.chars) = .ok r) :
    Document.load r.text = .ok (d.renameWorkflow old new) ∧
      ∃ F' : Form, F'.isSound ∧ F'.isBlock ∧ r.text = String.ofList F'.chars := by
  obtain ⟨d₀, after, id, d', hd₀, hrun, htext, hd'⟩ := exists_run hr
  obtain rfl : d = d₀ := Except.ok.inj (hd.symm.trans hd₀)
  rw [String.toList_ofList] at hrun
  obtain ⟨w, hw, hok⟩ := bind_eq_ok.mp (run_changed hrun)
  have hwhole := Form.ofValue_of_ofChars hF hblock
    (by rwa [Document.load, String.toList_ofList] at hd)
  obtain ⟨T, es, ws₁, ws₂, rfl, hes, rfl, haround, hload⟩ := Site.exists_site hF hwhole
    (List.mem_of_find?_eq_some (Draft.workflow_eq_ok.mp hw))
  have houtline := Form.outline_chars hF T.lines_form_ne_nil
  by_cases hsame : old = new
  · -- Nothing is written, and nothing is to change.
    subst hsame
    rw [if_pos rfl] at hok
    cases hok
    rw [houtline, Form.toChars_lines T.lines_form_ne_nil] at htext
    exact ⟨by rw [Document.renameWorkflow_self, htext, hd], _, hF, hblock, htext⟩
  · rw [if_neg hsame] at hok
    split at hok
    · cases hok
    · obtain rfl : w.name = old := by
        simpa using List.find?_some (Draft.workflow_eq_ok.mp hw)
      obtain ⟨i, hi, hok⟩ := bind_eq_ok.mp hok
      have hline := T.workflowLine?_fill hes haround.before hload
        (fresh_of_nodup haround.names).1
      rw [Site.fill_eq_form, ← houtline] at hline
      obtain rfl := Option.some.inj (hline.symm.trans (Draft.workflowLine_eq_ok.mp hi))
      obtain ⟨es₁, l, es₂, rfl, hfresh⟩ := Form.exists_name hes hload
      have hsound : (T.renamed es₁ es₂ w.name new).isSound := T.isSound_renamed hes hnew
      have hafter : after.outline = ⟨(T.renamed es₁ es₂ w.name new).lines, true⟩ := by
        cases hok
        rw [← T.rename_fill hes hnew hfresh, Site.fill_eq_form, ← houtline]
        rfl
      rw [hafter, Form.toChars_lines T.lines_renamed_ne_nil] at htext
      refine ⟨?_, _, hsound, rfl, htext⟩
      rw [htext] at hd' ⊢
      have hofValue := hd'
      rw [Document.load, String.toList_ofList] at hofValue
      have hworkflows := Site.workflows_renamed hnew hfresh haround hload hclear
        (Form.ofValue_of_ofChars hsound rfl hofValue)
      rw [hd', Document.renameWorkflow_middle haround.names, ← hworkflows]

/-- The workflow `a` is called, in an argument too. -/
def calling : Form :=
  let word (s : String) : Form := .leaf (.plain s.toList)
  .map [("workflows", .seq [.map [("name", word "a"), ("nodes", .leaf .noEntries)],
    .map [("name", word "m"), ("nodes", .map [("p", .map [("opcode", word "io_print"),
      ("inputs", .map [("STRING", .map [("workflow_call", word "a"),
        ("args", .map [("x", .map [("workflow_call", word "a")])])])])])])]])]

set_option maxRecDepth 2000 in
theorem calling_respelled : ∃ (d : Document) (r : Edited),
    calling.isSound ∧ calling.isBlock ∧ (Form.Leaf.string "b").isSound ∧
    Document.load (String.ofList calling.chars) = .ok d ∧
    (∀ w ∈ d.workflows, w.readsAsCall "a" = false) ∧
    (renameWorkflow "a" "b").apply Catalog.builtin (String.ofList calling.chars) = .ok r ∧
    Document.load r.text = .ok (d.renameWorkflow "a" "b") ∧
      ∃ F' : Form, F'.isSound ∧ F'.isBlock ∧ r.text = String.ofList F'.chars := by
  have hF : calling.isSound ∧ calling.isBlock ∧ (Form.Leaf.string "b").isSound := by decide +kernel
  have hcheck : (documents? Catalog.builtin (.renameWorkflow "a" "b") calling.chars).any
      fun ds => ds.1.workflows.all fun w => !w.readsAsCall "a" := by decide +kernel
  obtain ⟨d, r, d', hd, hr, -, hall⟩ := exists_apply rfl hcheck
  have hclear (w : Workflow) (hw : w ∈ d.workflows) : w.readsAsCall "a" = false := by
    simpa using List.all_eq_true.mp hall w hw
  exact ⟨d, r, hF.1, hF.2.1, hF.2.2, hd, hclear, hr,
    respelled_of_apply Catalog.builtin calling d "a" "b" r hF.1 hF.2.1 hF.2.2 hd hclear hr⟩

/-- A call of the workflow `a` inside inputs in braces. -/
def calledInBraces : String :=
  "workflows:
  - name: a
    nodes: \x7b\x7d
  - name: m
    nodes:
      p:
        opcode: io_print
        inputs: \x7bSTRING: \x7bworkflow_call: a\x7d\x7d
"

set_option maxRecDepth 2000 in
/-- The call of `a` stays when `a` is renamed. -/
theorem rename_calledInBraces : ¬ ∀ (text old new : String) (d : Document) (r : Edited),
    Document.load text = .ok d →
    (renameWorkflow old new).apply Catalog.builtin text = .ok r →
    Document.load r.text = .ok (d.renameWorkflow old new) := by
  intro h
  obtain ⟨cs, htext, hcheck⟩ : ∃ cs, calledInBraces = String.ofList cs ∧
      (documents? Catalog.builtin (.renameWorkflow "a" "b") cs).any (fun ds =>
        ds.2.calls = ["a"] && (ds.1.renameWorkflow "a" "b").calls = ["b"]) :=
    ⟨_, rfl, by decide +kernel⟩
  obtain ⟨d, r, d', hd, hr, hd', hdocs⟩ := exists_apply htext hcheck
  obtain rfl := Except.ok.inj (hd'.symm.trans (h calledInBraces "a" "b" d r hd hr))
  simp only [Bool.and_eq_true, decide_eq_true_eq] at hdocs
  exact absurd (hdocs.1.symm.trans hdocs.2) (by decide)

end Edit

end BlockFlow
