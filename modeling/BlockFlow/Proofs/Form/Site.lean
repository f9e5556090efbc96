import BlockFlow.Proofs.Form.Items
import BlockFlow.Proofs.Form.Pointer

/-!
One workflow among all that a text holds. Main statements: where it is found in the outline, and that
nothing but the workflow changes with its entries.
-/

namespace BlockFlow

open Form (entriesSound itemsSound mappingLines sequenceLines)
open Outcome

/-- A text around a workflow: entries above and below the list of workflows, and items before and
after the workflow. -/
structure Site where
  above : List (String × Form)
  below : List (String × Form)
  before : List Form
  after : List Form
  aboveSound : entriesSound above
  belowSound : entriesSound below
  beforeSound : itemsSound before
  afterSound : itemsSound after
  rootKeys : (above.map (·.1) ++ "workflows" :: below.map (·.1)).Nodup

theorem map_deeper_zero (ls : List Line) : ls.map (Line.deeper 0) = ls := List.map_id ls

namespace Form

theorem isKey_workflows : isKey "workflows" := isKey_ownWord (by decide)

theorem itemsSound_append {items more : List Form} :
    itemsSound (items ++ more) ↔ itemsSound items ∧ itemsSound more := by
  induction items with
  | nil => simp [itemsSound]
  | cons f items ih => rw [List.cons_append, itemsSound_cons, itemsSound_cons, ih, and_assoc]

/-- Lines of entries that are not deeper hold keys. -/
theorem key?_of_mem_mappingLines {es : List (String × Form)} {l : Line} (hes : entriesSound es)
    (hl : l ∈ mappingLines es) (hd : l.indent? = some 0) : ∃ e ∈ es, l.key? = some e.1.toList := by
  induction es with
  | nil => cases hl
  | cons e es ih =>
    obtain ⟨k, f⟩ := e
    obtain ⟨hk, hf, hrest⟩ := entriesSound_cons.mp hes
    rw [mappingLines, entryLines_eq] at hl
    rcases List.mem_append.mp hl with hl | hl
    · rcases List.mem_cons.mp hl with rfl | hl
      · exact ⟨(k, f), List.mem_cons_self, key?_headLine hk⟩
      · obtain ⟨d, hd', hle⟩ := (solid_lines f hf).deeper 2 l hl
        rw [hd] at hd'
        cases hd'
        omega
    · obtain ⟨e, he, hkey⟩ := ih hrest hl
      exact ⟨e, List.mem_cons_of_mem _ he, hkey⟩

theorem findIdx?_workflows {es : List (String × Form)} (hes : entriesSound es)
    (h : "workflows" ∉ es.map (·.1)) : (mappingLines es).findIdx? (fun l => l.indent? = some 0 &&
      l.key? = some "workflows".toList) = none := by
  rw [List.findIdx?_eq_none_iff]
  intro l hl
  by_cases hd : l.indent? = some 0
  · obtain ⟨e, he, hkey⟩ := key?_of_mem_mappingLines hes hl hd
    have hne : e.1.toList ≠ "workflows".toList := fun heq =>
      h (String.toList_inj.mp heq ▸ List.mem_map_of_mem he)
    simp only [hkey, Option.some.injEq, hne, decide_false, Bool.and_false]
  · simp only [hd, decide_false, Bool.false_and]

end Form

namespace Site

variable {T : Site} {f g : Form} {es : List (String × Form)}

/-- The items of the list of workflows. -/
def items (T : Site) (f : Form) : List Form := T.before ++ f :: T.after

/-- The whole text, with a list of workflows given. -/
def whole (T : Site) (g : Form) : Form := .map (T.above ++ ("workflows", g) :: T.below)

/-- The whole text, with the workflow given. -/
def form (T : Site) (f : Form) : Form := T.whole (.seq (T.items f))

/-- The place of the list of workflows. -/
def root (T : Site) : Slot where
  above := mappingLines T.above
  rest := mappingLines T.below
  column := 0
  key := "workflows"
  isKey := Form.isKey_workflows
  ends := by
    have hnone : Ends 0 false [] := by rintro l ⟨⟩
    have hends := ends_mappingLines T.belowSound hnone
    rwa [List.append_nil, map_deeper_zero] at hends

/-- The place of the workflow. -/
def dash (T : Site) : Dash := T.root.dash T.before T.after T.afterSound

theorem not_mem_above : "workflows" ∉ T.above.map (·.1) := fun hmem =>
  (List.nodup_append.mp T.rootKeys).2.2 _ hmem _ List.mem_cons_self rfl

theorem fill_root : T.root.fill g = ⟨(T.whole g).lines, true⟩ := by
  have hlines : (T.root.fill g).lines = (T.whole g).lines := by
    have hzero (l : Line) : Line.deeper 0 l = l := rfl
    simp [Slot.fill, root, whole, Form.lines, Form.mappingLines_append, mappingLines, hzero]
  exact congrArg (Outline.mk · true) hlines

theorem fill_dash : T.dash.fill es = T.root.fill (.seq (T.items (.map es))) := Slot.fill_dash

theorem fill_eq_form : T.dash.fill es = ⟨(T.form (.map es)).lines, true⟩ := by
  rw [fill_dash, fill_root, form]

theorem lines_form_ne_nil : (T.form f).lines ≠ [] := Form.mappingLines_ne_nil (by simp)

theorem isSound_whole (hg : g.isSound) : (T.whole g).isSound := by
  refine Form.isSound_map.mpr ⟨by simp, by simpa using T.rootKeys, ?_⟩
  exact Form.entriesSound_append.mpr ⟨T.aboveSound,
    Form.entriesSound_cons.mpr ⟨Form.isKey_workflows, hg, T.belowSound⟩⟩

theorem itemsSound_items (hf : f.isSound) : itemsSound (T.items f) :=
  Form.itemsSound_append.mpr ⟨T.beforeSound, Form.itemsSound_cons.mpr ⟨hf, T.afterSound⟩⟩

theorem isSound_seq_items (hf : f.isSound) : (Form.seq (T.items f)).isSound :=
  Form.isSound_seq.mpr ⟨by simp [items], itemsSound_items hf⟩

theorem isSound_form (hf : f.isSound) : (T.form f).isSound := isSound_whole (isSound_seq_items hf)

theorem workflowsLine?_fill : (T.root.fill g).workflowsLine? = some T.root.line := by
  have habove := Form.findIdx?_workflows T.aboveSound not_mem_above
  have hhead : (decide (((Form.headLine "workflows" g).deeper 0).indent? = some 0) &&
      decide (((Form.headLine "workflows" g).deeper 0).key? = some "workflows".toList)) = true := by
    rw [Line.indent?_deeper, Form.indent?_headLine Form.isKey_workflows, Line.key?_deeper,
      Form.key?_headLine Form.isKey_workflows]
    simp
  rw [Outline.workflowsLine?, Slot.lines_fill, List.findIdx?_append]
  simp only [root, habove, Option.none_or, List.findIdx?_cons, hhead, if_true, Option.map_some,
    Nat.zero_add, Slot.line]

end Site

open Yaml (Value)

namespace Form

variable {f : Form} {es : List (String × Form)}

/-- A form is a mapping when its value is one that has a key. -/
theorem exists_map_of_lookup {vs : List (Value × Value)} {k : String} {v : Value}
    (hf : f.value = .map vs) (hv : Value.lookup k vs = some v) : ∃ es, f = .map es := by
  cases f with
  | map es => exact ⟨es, rfl⟩
  | leaf l =>
    rw [value_leaf_map hf] at hv
    cases hv
  | bare => cases hf
  | seq items => cases hf

/-- A text in block style is read as the document of its form. -/
theorem ofValue_of_ofChars {F : Form} {d : Document} (hF : F.isSound) (hblock : F.isBlock)
    (hd : Document.ofChars F.chars = .ok d) : Document.ofValue F.value = .ok d := by
  rw [Document.ofChars, load?_chars hF hblock] at hd
  split at hd
  · rename_i v hv
    obtain rfl : F.value = v := Option.some.inj (Option.ite_none_right_eq_some.mp hv).2
    exact hd
  · cases hd

theorem exists_map_of_loadWorkflow {w : Workflow} (h : Document.loadWorkflow f.value = .ok w) :
    ∃ es, f = .map es := by
  obtain ⟨vs, hvs, -⟩ := Document.loadWorkflow_eq_ok h
  rw [hvs] at h
  exact exists_map_of_lookup hvs (Document.loadWorkflow_map_eq_ok.mp h).2.1

end Form

/-- A workflow that loads is called by its name where it stands. -/
theorem Dash.workflowName?_fill {d : Dash} {w : Workflow} {es : List (String × Form)}
    (hes : entriesSound es) (h : Document.loadWorkflow (Form.map es).value = .ok w) :
    (d.fill es).workflowName? d.line = some w.name := by
  obtain ⟨-, hname, -⟩ := Document.loadWorkflow_map_eq_ok.mp h
  rw [Form.lookup_entryValues] at hname
  obtain ⟨g, hfirst, hg⟩ := Option.map_eq_some_iff.mp hname
  obtain ⟨es₁, es₂, heq, h₁⟩ := Form.exists_split_of_firstOf? hfirst
  have hsound := (Form.entriesSound_cons.mp (Form.entriesSound_append.mp (heq ▸ hes)).2).2.1
  rw [Outline.workflowName?, Dash.find?_fill_append hes heq h₁, Option.bind_some, Outline.scalar?,
    Line.scalar?, Dash.value_fill hes heq]
  cases g with
  | leaf l =>
    have hvalue : l.value = .str w.name := hg
    simp [Form.written, Slot.text_ne_nil hsound, Form.load?_leaf hsound, hvalue]
  | _ => cases hg

namespace Scene

variable {items : List Form} {ws ws' : List Workflow}

/-- Workflows that items load as. -/
def Workflows (items : List Form) (ws : List Workflow) : Prop :=
  List.Forall₂ (fun f w => Document.loadWorkflow f.value = .ok w) items ws

theorem workflows_unique (h : Workflows items ws) (h' : Workflows items ws') : ws = ws' := by
  refine List.right_unique_forall₂' ?_ h h'
  intro f w w' hw hw'
  exact Except.ok.inj (hw.symm.trans hw')

theorem loadWorkflows_itemValues {items : List Form} :
    Document.loadWorkflows [] (Form.itemValues items) = .ok ws ↔
      Workflows items ws ∧ (ws.map (·.name)).Nodup := by
  rw [Document.loadWorkflows_eq_ok, Form.itemValues_eq_map]
  simp only [List.nil_append, exists_eq_left', List.forall₂_map_left_iff, List.map_nil,
    List.not_mem_nil, not_false_eq_true, implies_true, and_true, Workflows]

end Scene

namespace Site

open Scene (Workflows loadWorkflows_itemValues)

variable {T : Site} {f : Form} {es : List (String × Form)} {w : Workflow} {ws ws₁ ws₂ : List Workflow}
  {F : Form} {d : Document}

/-- The workflow is found by its name. -/
theorem workflowLine?_fill (hes : (Form.map es).isSound) (hbefore : Workflows T.before ws)
    (hw : Document.loadWorkflow (Form.map es).value = .ok w)
    (hnew : w.name ∉ ws.map (·.name)) : (T.dash.fill es).workflowLine? w.name = some T.dash.line := by
  have hitems := itemsSound_items (T := T) hes
  have hplace (b a : List Form) (es' : List (String × Form)) (heq : T.items (.map es) = b ++ .map es' :: a) :
      ∃ d : Dash, d.line = T.root.line + 1 + (sequenceLines b).length ∧
        d.fill es' = T.dash.fill es ∧ entriesSound es' := by
    rw [heq] at hitems
    obtain ⟨hmap, ha⟩ := Form.itemsSound_cons.mp (Form.itemsSound_append.mp hitems).2
    refine ⟨T.root.dash b a ha, Slot.line_dash, ?_, (Form.isSound_map.mp hmap).2.2⟩
    rw [Slot.fill_dash, fill_dash, heq]
  rw [Outline.workflowLine?_eq_some]
  refine ⟨T.root.line, ?_, ?_, ?_, ?_⟩
  · rw [fill_dash, workflowsLine?_fill]
  · rw [fill_dash, items_fill hitems, mem_itemPlaces]
    exact ⟨T.before, _, T.after, rfl, Slot.line_dash⟩
  · exact Dash.workflowName?_fill (Form.isSound_map.mp hes).2.2 hw
  · intro j hj hlt
    rw [fill_dash, items_fill hitems, mem_itemPlaces] at hj
    obtain ⟨b, g, a, heq, rfl⟩ := hj
    have hlt : (sequenceLines b).length < (sequenceLines T.before).length := by
      have hline : T.dash.line = T.root.line + 1 + (sequenceLines T.before).length := Slot.line_dash
      omega
    have hmem : g ∈ T.before := by
      rcases List.append_eq_append_iff.mp heq with ⟨c, rfl, hc⟩ | ⟨c, hc, hrest⟩
      · rw [Form.sequenceLines_append, List.length_append] at hlt
        omega
      · rw [hc] at hlt ⊢
        cases c with
        | nil => simp at hlt
        | cons g' c =>
          cases hrest
          simp
    obtain ⟨v, hv, hload⟩ := exists_mem_of_forall₂ hbefore hmem
    obtain ⟨es', rfl⟩ := Form.exists_map_of_loadWorkflow hload
    obtain ⟨d, hline, hfill, hes'⟩ := hplace b a es' heq
    have hname := Dash.workflowName?_fill (d := d) hes' hload
    rw [hfill, hline] at hname
    rw [hname]
    intro hsame
    exact hnew (List.mem_map.mpr ⟨v, hv, Option.some.inj hsame⟩)

theorem field?_workflows {items : List Form} : Document.field? "workflows" (Form.entryValues
    (T.above ++ ("workflows", .seq items) :: T.below)) = some (.seq (Form.itemValues items)) := by
  rw [Document.field?, Form.lookup_entryValues, Form.firstOf?_append not_mem_above]
  rfl

/-- The workflows around one. -/
structure Around (T : Site) (ws₁ : List Workflow) (w : Workflow) (ws₂ : List Workflow) : Prop where
  before : Workflows T.before ws₁
  after : Workflows T.after ws₂
  names : ((ws₁ ++ w :: ws₂).map (·.name)).Nodup

theorem Around.congr {w' : Workflow} (h : T.Around ws₁ w ws₂) (hname : w'.name = w.name) :
    T.Around ws₁ w' ws₂ := ⟨h.before, h.after, by simpa [hname] using h.names⟩

/-- The text loads when all of its workflows do. -/
theorem ofValue_form : Document.ofValue (T.form f).value = .ok d ↔
    ∃ ws₁ w ws₂, d = ⟨ws₁ ++ w :: ws₂⟩ ∧ T.Around ws₁ w ws₂ ∧
      Document.loadWorkflow f.value = .ok w := by
  rw [form, whole, Form.value, Document.ofValue]
  simp only [field?_workflows, bind_eq_ok, loadWorkflows_itemValues, Except.ok.injEq]
  constructor
  · rintro ⟨ws, ⟨hws, hnames⟩, rfl⟩
    obtain ⟨ws₁, rest, rfl, hbefore, hrest⟩ := exists_append_of_forall₂ hws
    cases hrest with
    | cons hw hafter => exact ⟨ws₁, _, _, rfl, ⟨hbefore, hafter, hnames⟩, hw⟩
  · rintro ⟨ws₁, w, ws₂, rfl, ⟨hbefore, hafter, hnames⟩, hw⟩
    exact ⟨_, ⟨List.rel_append hbefore (.cons hw hafter), hnames⟩, rfl⟩

/-- The items of the list of workflows. -/
theorem exists_items (hF : F.isSound) (hd : Document.ofValue F.value = .ok d) (hw : w ∈ d.workflows) :
    ∃ above items below, F = .map (above ++ ("workflows", .seq items) :: below) ∧
      "workflows" ∉ above.map (·.1) ∧ Workflows items d.workflows ∧
        (d.workflows.map (·.name)).Nodup := by
  unfold Document.ofValue at hd
  split at hd
  · cases hd
    cases hw
  · rename_i vs hvs
    split at hd
    · cases hd
      cases hw
    · rename_i vitems hfield
      obtain ⟨ws, hws, hok⟩ := bind_eq_ok.mp hd
      cases hok
      have hlookup : Value.lookup "workflows" vs = some (.seq vitems) := by
        unfold Document.field? at hfield
        split at hfield
        · cases hfield
        · exact hfield
      obtain ⟨roots, rfl⟩ := Form.exists_map_of_lookup hvs hlookup
      cases hvs
      rw [Form.lookup_entryValues] at hlookup
      obtain ⟨g, hfirst, hg⟩ := Option.map_eq_some_iff.mp hlookup
      obtain ⟨above, below, rfl, hfresh⟩ := Form.exists_split_of_firstOf? hfirst
      cases g with
      | seq items =>
        cases hg
        obtain ⟨hitems, hnames⟩ := loadWorkflows_itemValues.mp hws
        exact ⟨above, items, below, rfl, hfresh, hitems, hnames⟩
      | leaf l =>
        rw [Form.value_leaf_seq hg] at hws
        cases hws
        cases hw
      | bare => cases hg
      | map es => cases hg
    · cases hd
  · cases hd

/-- The place of a workflow in a text. -/
theorem exists_site (hF : F.isSound) (hd : Document.ofValue F.value = .ok d) (hw : w ∈ d.workflows) :
    ∃ (T : Site) (es : List (String × Form)) (ws₁ ws₂ : List Workflow), F = T.form (.map es) ∧
      (Form.map es).isSound ∧ d = ⟨ws₁ ++ w :: ws₂⟩ ∧ T.Around ws₁ w ws₂ ∧
        Document.loadWorkflow (Form.map es).value = .ok w := by
  obtain ⟨above, items, below, rfl, -, hitems, hnames⟩ := exists_items hF hd hw
  obtain ⟨ws⟩ := d
  obtain ⟨ws₁, ws₂, rfl⟩ := List.append_of_mem hw
  obtain ⟨before, rest, rfl, hbefore, hrest⟩ := exists_append_of_forall₂ hitems.flip
  obtain ⟨item, after, hitem, hafter, rfl⟩ := List.forall₂_cons_left_iff.mp hrest
  obtain ⟨es, rfl⟩ := Form.exists_map_of_loadWorkflow hitem
  obtain ⟨-, hroots, hsound⟩ := Form.isSound_map.mp hF
  obtain ⟨habove, hsound⟩ := Form.entriesSound_append.mp hsound
  obtain ⟨-, hseq, hbelowSound⟩ := Form.entriesSound_cons.mp hsound
  obtain ⟨hbeforeSound, hsound⟩ := Form.itemsSound_append.mp (Form.isSound_seq.mp hseq).2
  obtain ⟨hmap, hafterSound⟩ := Form.itemsSound_cons.mp hsound
  let T : Site := {
    above, below, before, after
    aboveSound := habove
    belowSound := hbelowSound
    beforeSound := hbeforeSound
    afterSound := hafterSound
    rootKeys := by simpa using hroots }
  exact ⟨T, es, ws₁, ws₂, rfl, hmap, rfl, ⟨hbefore.flip, hafter.flip, hnames⟩, hitem⟩

end Site

end BlockFlow
