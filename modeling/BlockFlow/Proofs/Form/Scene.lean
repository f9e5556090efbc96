import BlockFlow.Proofs.Form.Site

/-!
The nodes of one workflow among all that a text holds. Main statements: where nodes are found in the
outline, and that nothing but the nodes of the workflow changes with them.
-/

namespace BlockFlow

open Form (entriesSound itemsSound mappingLines sequenceLines)
open Outcome

/-- A text around the nodes of a workflow: entries above and below the list of workflows, items before
and after the workflow, and its own entries before and behind the nodes. -/
structure Scene where
  above : List (String × Form)
  below : List (String × Form)
  before : List Form
  after : List Form
  first : String × Form
  front : List (String × Form)
  back : List (String × Form)
  aboveSound : entriesSound above
  belowSound : entriesSound below
  beforeSound : itemsSound before
  afterSound : itemsSound after
  frontSound : entriesSound (first :: front)
  backSound : entriesSound back
  rootKeys : (above.map (·.1) ++ "workflows" :: below.map (·.1)).Nodup
  itemKeys : (first.1 :: (front.map (·.1) ++ "nodes" :: back.map (·.1))).Nodup

theorem Form.isKey_nodes : Form.isKey "nodes" := Form.isKey_ownWord (by decide)

namespace Scene

variable {S : Scene} {f g : Form} {es es' : List (String × Form)} {name id : String}

/-- The entries of the workflow. -/
def entries (S : Scene) (f : Form) : List (String × Form) :=
  S.first :: (S.front ++ ("nodes", f) :: S.back)

/-- The place of the workflow, whatever its entries are. -/
def site (S : Scene) : Site where
  above := S.above
  below := S.below
  before := S.before
  after := S.after
  aboveSound := S.aboveSound
  belowSound := S.belowSound
  beforeSound := S.beforeSound
  afterSound := S.afterSound
  rootKeys := S.rootKeys

/-- The items of the list of workflows. -/
def items (S : Scene) (f : Form) : List Form := S.before ++ .map (S.entries f) :: S.after

/-- The whole text, with a list of workflows given. -/
def whole (S : Scene) (g : Form) : Form := .map (S.above ++ ("workflows", g) :: S.below)

/-- The whole text, with nodes given. -/
def form (S : Scene) (f : Form) : Form := S.whole (.seq (S.items f))

/-- The place of the list of workflows. -/
def root (S : Scene) : Slot where
  above := mappingLines S.above
  rest := mappingLines S.below
  column := 0
  key := "workflows"
  isKey := Form.isKey_workflows
  ends := by
    have hnone : Ends 0 false [] := by rintro l ⟨⟩
    have hends := ends_mappingLines S.belowSound hnone
    rwa [List.append_nil, map_deeper_zero] at hends

/-- The place of the workflow. -/
def dash (S : Scene) : Dash := S.root.dash S.before S.after S.afterSound

/-- The place of the nodes. -/
def slot (S : Scene) : Slot := S.dash.inner S.first S.front S.back "nodes" Form.isKey_nodes S.backSound

theorem fill_root : S.root.fill g = ⟨(S.whole g).lines, true⟩ := S.site.fill_root

theorem fill_dash : S.dash.fill (S.entries f) = S.root.fill (.seq (S.items f)) := Slot.fill_dash

theorem fill_slot : S.slot.fill f = S.dash.fill (S.entries f) := Dash.fill_inner _ _

theorem fill_eq_form : S.slot.fill f = ⟨(S.form f).lines, true⟩ := by
  rw [fill_slot, fill_dash, fill_root, form]

theorem entriesSound_entries (hf : f.isSound) : entriesSound (S.entries f) := by
  rw [entries, ← List.cons_append]
  exact Form.entriesSound_append.mpr ⟨S.frontSound,
    Form.entriesSound_cons.mpr ⟨Form.isKey_nodes, hf, S.backSound⟩⟩

theorem isSound_whole (hg : g.isSound) : (S.whole g).isSound := S.site.isSound_whole hg

theorem isSound_entries (hf : f.isSound) : (Form.map (S.entries f)).isSound :=
  Form.isSound_map.mpr ⟨by simp [entries], by simpa [entries] using S.itemKeys,
    entriesSound_entries hf⟩

theorem isSound_form (hf : f.isSound) : (S.form f).isSound :=
  S.site.isSound_form (isSound_entries hf)

theorem workflowsLine?_fill : (S.root.fill g).workflowsLine? = some S.root.line :=
  S.site.workflowsLine?_fill

end Scene

open Yaml (Value)

namespace Form

variable {f : Form} {es : List (String × Form)}

theorem exists_map_of_loadNode {n : NodeDef} {id : String}
    (h : Document.loadNode id f.value = .ok n) : ∃ es, f = .map es := by
  obtain ⟨vs, hvs, -⟩ := Document.loadNode_eq_ok h
  rw [hvs] at h
  exact exists_map_of_lookup hvs (Document.loadNode_map_eq_ok.mp h).2.2.1

end Form

namespace Scene

variable {S : Scene} {f : Form} {es es' : List (String × Form)} {w : Workflow}
  {ws : List Workflow}

/-- The workflow is found by its name. -/
theorem workflowLine?_fill (hf : f.isSound) (hbefore : Workflows S.before ws)
    (hw : Document.loadWorkflow (Form.map (S.entries f)).value = .ok w)
    (hnew : w.name ∉ ws.map (·.name)) :
    (S.slot.fill f).workflowLine? w.name = some S.dash.line := by
  rw [fill_slot]
  exact S.site.workflowLine?_fill (isSound_entries hf) hbefore hw hnew

/-- Whether a node is loaded from an entry. -/
def IsNode (e : String × Form) (n : NodeDef) : Prop :=
  ∃ fs, e = (n.id, .map fs) ∧ Form.Loads fs n

/-- Entries that nodes are loaded from. -/
structure Nodes (es : List (String × Form)) (ns : List NodeDef) : Prop where
  sound : entriesSound es
  nodup : (es.map (·.1)).Nodup
  loads : List.Forall₂ IsNode es ns

/-- The mapping of some entries. -/
def block (es : List (String × Form)) : Form := if es = [] then .bare else .map es

theorem isSound_block (hes : entriesSound es) (hnodup : (es.map (·.1)).Nodup) :
    (block es).isSound := by
  unfold block
  split
  · rfl
  · rename_i hne
    exact Form.isSound_map.mpr ⟨hne, hnodup, hes⟩

theorem fill_block {s : Slot} : s.fill (block es) = s.fill (.map es) := by
  unfold block
  split
  · rename_i hnil
    rw [hnil, Slot.fill_bare]
  · rfl

variable {name : String} {ns : List NodeDef}

theorem loadNodes_map : Document.loadNodes name (some (.map (Form.entryValues es))) = .ok ns ↔
    List.Forall₂ (fun e n => Document.loadNode e.1 e.2.value = .ok n) es ns := by
  rw [Document.loadNodes, Form.entryValues_eq_map, List.mapM_map, mapM_eq_ok]
  rfl

theorem not_mem_front : "nodes" ∉ (S.first :: S.front).map (·.1) := by
  have hkeys := S.itemKeys
  rw [← List.cons_append] at hkeys
  intro hmem
  exact (List.nodup_append.mp hkeys).2.2 _ hmem _ List.mem_cons_self rfl

theorem field?_nodes : Document.field? "nodes" (Form.entryValues (S.entries f)) =
    match f.value with
    | .null => none
    | v => some v := by
  have hfirst : firstOf? "nodes" (S.entries f) = some f := by
    rw [entries, ← List.cons_append]
    exact Form.firstOf?_append not_mem_front
  rw [Document.field?, Form.lookup_entryValues, hfirst, Option.map_some]
  generalize f.value = v
  cases v <;> rfl

/-- The other entries of the workflow do not change with its nodes. -/
theorem lookup_entries {k : String} (hk : k ≠ "nodes") (f g : Form) :
    Value.lookup k (Form.entryValues (S.entries f)) =
      Value.lookup k (Form.entryValues (S.entries g)) := by
  have hsame : firstOf? k (S.entries f) = firstOf? k (S.entries g) := by
    simp [firstOf?, entries, List.find?_append, List.find?_cons, Ne.symm hk]
  rw [Form.lookup_entryValues, Form.lookup_entryValues, hsame]

theorem field?_entries {k : String} (hk : k ≠ "nodes") (f g : Form) :
    Document.field? k (Form.entryValues (S.entries f)) =
      Document.field? k (Form.entryValues (S.entries g)) :=
  Document.field?_congr (lookup_entries hk f g)

theorem nodes_of_load (hf : f.isSound) (hne : ns ≠ [])
    (h : Document.loadNodes name (Document.field? "nodes" (Form.entryValues (S.entries f))) = .ok ns) :
    ∃ es, f = .map es ∧ Nodes es ns := by
  rw [field?_nodes] at h
  cases f with
  | map es =>
    obtain ⟨-, hnodup, hes⟩ := Form.isSound_map.mp hf
    refine ⟨es, rfl, hes, hnodup, ?_⟩
    have hloads := (List.forall₂_and_left _ _).mpr
      ⟨Form.entriesSound_iff.mp hes, loadNodes_map.mp h⟩
    refine hloads.imp ?_
    rintro ⟨k, g⟩ n ⟨⟨-, hg⟩, hload⟩
    obtain ⟨fs, rfl⟩ := Form.exists_map_of_loadNode hload
    obtain ⟨-, hkeys, hfs⟩ := Form.isSound_map.mp hg
    obtain ⟨-, -, hid, -⟩ := Document.loadNode_eq_ok hload
    subst hid
    exact ⟨fs, rfl, hfs, hkeys, hload⟩
  | bare =>
    cases h
    exact absurd rfl hne
  | seq items => cases h
  | leaf l =>
    rw [Form.value] at h
    cases hv : l.value with
    | null =>
      rw [hv] at h
      cases h
      exact absurd rfl hne
    | map vs =>
      rw [hv, Form.value_leaf_map hv] at h
      cases h
      exact absurd rfl hne
    | _ =>
      rw [hv] at h
      cases h

theorem load_of_nodes (h : Nodes es ns) : Document.loadNodes name
    (Document.field? "nodes" (Form.entryValues (S.entries (block es)))) = .ok ns := by
  rw [field?_nodes]
  unfold block
  by_cases hnil : es = []
  · subst hnil
    cases h.loads
    rfl
  · rw [if_neg hnil]
    refine loadNodes_map.mpr (h.loads.imp ?_)
    rintro e n ⟨fs, rfl, hload⟩
    exact hload.load

/-- The workflows around the one with the nodes. -/
structure Around (S : Scene) (ws₁ : List Workflow) (w : Workflow) (ws₂ : List Workflow) : Prop where
  before : Workflows S.before ws₁
  after : Workflows S.after ws₂
  names : ((ws₁ ++ w :: ws₂).map (·.name)).Nodup

/-- The text loads when all of its workflows do. -/
theorem ofValue_form {d : Document} : Document.ofValue (S.form f).value = .ok d ↔
    ∃ ws₁ w ws₂, d = ⟨ws₁ ++ w :: ws₂⟩ ∧ S.Around ws₁ w ws₂ ∧
      Document.loadWorkflow (Form.map (S.entries f)).value = .ok w := by
  refine (S.site.ofValue_form (f := .map (S.entries f))).trans ?_
  constructor
  · rintro ⟨ws₁, w, ws₂, hd, ⟨hbefore, hafter, hnames⟩, hw⟩
    exact ⟨ws₁, w, ws₂, hd, ⟨hbefore, hafter, hnames⟩, hw⟩
  · rintro ⟨ws₁, w, ws₂, hd, ⟨hbefore, hafter, hnames⟩, hw⟩
    exact ⟨ws₁, w, ws₂, hd, ⟨hbefore, hafter, hnames⟩, hw⟩

/-- Other nodes in the workflow that loads. -/
theorem loadWorkflow_block (hw : Document.loadWorkflow (Form.map (S.entries f)).value = .ok w)
    (h : Nodes es ns) : Document.loadWorkflow (Form.map (S.entries (block es))).value =
      .ok { w with nodes := ns } := by
  obtain ⟨hname, hlookup, hinterface, hvars, -⟩ := Document.loadWorkflow_map_eq_ok.mp hw
  refine Document.loadWorkflow_map_eq_ok.mpr ⟨hname, ?_, ?_, ?_, load_of_nodes h⟩
  · rw [lookup_entries (by decide) (block es) f, hlookup]
  · rw [field?_entries (by decide) (block es) f, hinterface]
  · rw [field?_entries (by decide) (block es) f, hvars]

end Scene

namespace Form

/-- Whether no workflow begins with its nodes, on the line of its item. -/
def nodesBelow : Form → Bool
  | map roots =>
    match firstOf? "workflows" roots with
    | some (seq items) => items.all fun
      | map ((k, _) :: _) => k ≠ "nodes"
      | _ => true
    | _ => true
  | _ => true

end Form

namespace Scene

variable {F : Form} {d : Document} {w : Workflow}

/-- The place of the nodes of a workflow that has the key for them, below its first one. -/
theorem exists_of_site {T : Site} {entries : List (String × Form)}
    (hmap : (Form.map entries).isSound) (hbelow : (T.form (.map entries)).nodesBelow)
    (hmem : "nodes" ∈ entries.map (·.1)) :
    ∃ (S : Scene) (f : Form), S.site = T ∧ S.entries f = entries ∧ f.isSound := by
  obtain ⟨-, hkeys, hentries⟩ := Form.isSound_map.mp hmap
  obtain ⟨es₁, f, back, rfl, -, -⟩ := Form.exists_split hmem hkeys
  cases es₁ with
  | nil =>
    rw [Site.form, Site.whole, Form.nodesBelow, Form.firstOf?_append Site.not_mem_above] at hbelow
    have hitem := List.all_eq_true.mp hbelow (.map (("nodes", f) :: back)) (by simp [Site.items])
    simp at hitem
  | cons first front =>
    rw [List.cons_append] at hkeys hentries
    have hparts := Form.entriesSound_append.mp (List.cons_append ▸ hentries)
    obtain ⟨-, hf, hback⟩ := Form.entriesSound_cons.mp hparts.2
    let S : Scene := {
      above := T.above
      below := T.below
      before := T.before
      after := T.after
      first, front, back
      aboveSound := T.aboveSound
      belowSound := T.belowSound
      beforeSound := T.beforeSound
      afterSound := T.afterSound
      frontSound := hparts.1
      backSound := hback
      rootKeys := T.rootKeys
      itemKeys := by simpa using hkeys }
    exact ⟨S, f, rfl, rfl, hf⟩

/-- The nodes of a workflow that has some, in a text. -/
theorem exists_form (hF : F.isSound) (hbelow : F.nodesBelow)
    (hd : Document.ofValue F.value = .ok d) (hw : w ∈ d.workflows) (hne : w.nodes ≠ []) :
    ∃ (S : Scene) (es : List (String × Form)) (ws₁ ws₂ : List Workflow), F = S.form (.map es) ∧
      Nodes es w.nodes ∧ d = ⟨ws₁ ++ w :: ws₂⟩ ∧ S.Around ws₁ w ws₂ ∧
        Document.loadWorkflow (Form.map (S.entries (.map es))).value = .ok w := by
  obtain ⟨T, entries, ws₁, ws₂, rfl, hmap, hdoc, haround, hitem⟩ := Site.exists_site hF hd hw
  obtain ⟨-, -, -, -, hnodes⟩ := Document.loadWorkflow_map_eq_ok.mp hitem
  have hmem : "nodes" ∈ entries.map (·.1) := by
    by_contra hnot
    rw [Document.field?, Form.lookup_entryValues, Form.firstOf?_eq_none hnot] at hnodes
    exact hne (Except.ok.inj hnodes).symm
  obtain ⟨S, f, rfl, rfl, hf⟩ := exists_of_site hmap hbelow hmem
  obtain ⟨es, rfl, hes⟩ := nodes_of_load (S := S) hf hne hnodes
  exact ⟨S, es, ws₁, ws₂, rfl, hes, hdoc, ⟨haround.before, haround.after, haround.names⟩, hitem⟩

/-- The workflow that a scene is about, and those around it. -/
structure Hosts (S : Scene) (ws₁ : List Workflow) (w : Workflow) (ws₂ : List Workflow) : Prop
    extends S.Around ws₁ w ws₂ where
  load : ∃ f, Document.loadWorkflow (Form.map (S.entries f)).value = .ok w

variable {S : Scene} {ws₁ ws₂ : List Workflow} {es es' es₁ es₂ : List (String × Form)}
  {ns ns' : List NodeDef} {n : NodeDef} {id : String} {fs : List (String × Form)}

/-- The text with other nodes loads with these. -/
theorem Hosts.ofValue_block (h : S.Hosts ws₁ w ws₂) (hes : Nodes es ns) :
    Document.ofValue (S.form (block es)).value = .ok ⟨ws₁ ++ { w with nodes := ns } :: ws₂⟩ := by
  obtain ⟨f, hf⟩ := h.load
  refine ofValue_form.mpr ⟨ws₁, _, ws₂, rfl, ⟨h.before, h.after, ?_⟩, loadWorkflow_block hf hes⟩
  simpa using h.names

/-- The document that the outline with other nodes is read as. -/
theorem Hosts.eq_of_ofChars (h : S.Hosts ws₁ w ws₂) (hes : Nodes es ns)
    (hd : Document.ofChars (S.slot.fill (.map es)).toChars = .ok d) :
    d = ⟨ws₁ ++ { w with nodes := ns } :: ws₂⟩ := by
  have hsound := isSound_form (S := S) (isSound_block hes.sound hes.nodup)
  have hne : (S.form (block es)).lines ≠ [] := Form.mappingLines_ne_nil (by simp)
  rw [← fill_block, fill_eq_form, Form.toChars_lines hne] at hd
  have hvalue := Form.ofValue_of_ofChars hsound rfl hd
  rw [h.ofValue_block hes] at hvalue
  exact (Except.ok.inj hvalue).symm

theorem Hosts.workflowLine? (h : S.Hosts ws₁ w ws₂) (hes : Nodes es ns) :
    (S.slot.fill (.map es)).workflowLine? w.name = some S.dash.line := by
  obtain ⟨f, hf⟩ := h.load
  have hfresh : w.name ∉ ws₁.map (·.name) := (fresh_of_nodup h.names).1
  rw [← fill_block]
  exact workflowLine?_fill (w := { w with nodes := ns }) (isSound_block hes.sound hes.nodup)
    h.before (loadWorkflow_block hf hes) hfresh

/-- The key `nodes` of the workflow is found, whatever it holds. -/
theorem find?_slot {f : Form} (hf : f.isSound) :
    (S.slot.fill f).find? S.dash.line "nodes" = some S.slot.line := by
  have hline : S.slot.line = S.dash.line + (mappingLines (S.first :: S.front)).length :=
    Dash.line_inner _ _
  rw [fill_slot, hline]
  exact Dash.find?_fill_append (entriesSound_entries hf) rfl not_mem_front

theorem find?_nodes (hes : Nodes es ns) :
    (S.slot.fill (.map es)).find? S.dash.line "nodes" = some S.slot.line := by
  rw [← fill_block]
  exact find?_slot (isSound_block hes.sound hes.nodup)

theorem Nodes.ids (h : Nodes es ns) : es.map (·.1) = ns.map (·.id) := by
  refine List.forall₂_eq_eq_eq ▸ (List.forall₂_map_left_iff.mpr (List.forall₂_map_right_iff.mpr
    (h.loads.imp ?_)))
  rintro e n ⟨fs, rfl, -⟩
  rfl

theorem Nodes.nodup_ids (h : Nodes es ns) : (ns.map (·.id)).Nodup := h.ids ▸ h.nodup

/-- A node and its entry, and those around it. -/
theorem Nodes.exists_split (h : Nodes es ns) (hid : id ∈ es.map (·.1)) :
    ∃ es₁ fs es₂ ns₁ n ns₂, es = es₁ ++ (n.id, .map fs) :: es₂ ∧ ns = ns₁ ++ n :: ns₂ ∧
      n.id = id ∧ List.Forall₂ IsNode es₁ ns₁ ∧ Form.Loads fs n ∧ List.Forall₂ IsNode es₂ ns₂ := by
  obtain ⟨es₁, g, es₂, rfl, -, -⟩ := Form.exists_split hid h.nodup
  obtain ⟨ns₁, rest, rfl, h₁, hrest⟩ := exists_append_of_forall₂ h.loads
  obtain ⟨n, ns₂, ⟨fs, heq, hload⟩, h₂, rfl⟩ := List.forall₂_cons_left_iff.mp hrest
  obtain ⟨rfl, rfl⟩ := Prod.mk.inj heq
  exact ⟨es₁, fs, es₂, ns₁, n, ns₂, rfl, rfl, rfl, h₁, hload, h₂⟩

section Middle

variable {ns₁ ns₂ : List NodeDef} {fs' : List (String × Form)} {n' : NodeDef}
  (h : Nodes (es₁ ++ (n.id, .map fs) :: es₂) (ns₁ ++ n :: ns₂))
  (h₁ : List.Forall₂ IsNode es₁ ns₁) (h₂ : List.Forall₂ IsNode es₂ ns₂)

include h h₁ h₂

theorem Nodes.replace (hload : Form.Loads fs' n') (hid : n'.id = n.id) :
    Nodes (es₁ ++ (n.id, .map fs') :: es₂) (ns₁ ++ n' :: ns₂) := by
  obtain ⟨hsound₁, hk, -, hsound₂⟩ := Slot.sound_entry h.sound
  refine ⟨?_, by simpa using h.nodup, List.rel_append h₁ (.cons ⟨fs', by rw [hid], hload⟩ h₂)⟩
  exact Form.entriesSound_append.mpr ⟨hsound₁,
    Form.entriesSound_cons.mpr ⟨hk, hload.sound_map, hsound₂⟩⟩

theorem Nodes.remove : Nodes (es₁ ++ es₂) (ns₁ ++ ns₂) := by
  obtain ⟨hsound₁, -, -, hsound₂⟩ := Slot.sound_entry h.sound
  refine ⟨Form.entriesSound_append.mpr ⟨hsound₁, hsound₂⟩, ?_, List.rel_append h₁ h₂⟩
  have hnodup := h.nodup
  rw [List.map_append, List.map_cons] at hnodup
  rw [List.map_append]
  exact (List.nodup_middle.mp hnodup).of_cons

end Middle

/-- Where a workflow begins does not depend on its nodes. -/
theorem nodesBelow_form (f g : Form) (h : (S.form f).nodesBelow) : (S.form g).nodesBelow := by
  have hfresh : "workflows" ∉ S.above.map (·.1) := S.site.not_mem_above
  rw [form, whole, Form.nodesBelow, Form.firstOf?_append hfresh] at h ⊢
  simp only [items, List.all_append, List.all_cons] at h ⊢
  exact h

end Scene

/-- Whether a form is a document in block style. -/
def Form.isDocument (F : Form) : Bool := F.isSound && F.isBlock && F.nodesBelow

namespace Scene

variable {F : Form} {d : Document} {w : Workflow} {S : Scene} {ws₁ ws₂ : List Workflow}
  {es : List (String × Form)} {ns : List NodeDef} {name : String}

/-- The scene of a workflow that has nodes, in a text that is loaded. -/
theorem exists_scene (hF : F.isDocument) (hd : Document.load (String.ofList F.chars) = .ok d)
    (hw : d.workflow? name = some w) (hne : w.nodes ≠ []) :
    ∃ (S : Scene) (es : List (String × Form)) (ws₁ ws₂ : List Workflow), S.Hosts ws₁ w ws₂ ∧
      Nodes es w.nodes ∧ d = ⟨ws₁ ++ w :: ws₂⟩ ∧ F = S.form (.map es) ∧
        Outline.ofChars F.chars = S.slot.fill (.map es) := by
  simp only [Form.isDocument, Bool.and_eq_true] at hF
  obtain ⟨⟨hsound, hblock⟩, hbelow⟩ := hF
  rw [Document.load, String.toList_ofList] at hd
  obtain ⟨S, es, ws₁, ws₂, rfl, hes, hdoc, haround, hload⟩ := exists_form hsound hbelow
    (Form.ofValue_of_ofChars hsound hblock hd) (List.mem_of_find?_eq_some hw) hne
  refine ⟨S, es, ws₁, ws₂, ⟨haround, _, hload⟩, hes, hdoc, rfl, ?_⟩
  rw [fill_eq_form, Form.outline_chars hsound]
  exact Form.mappingLines_ne_nil (by simp)

/-- The text with other nodes. -/
theorem Hosts.exists_document (h : S.Hosts ws₁ w ws₂) (hes : Nodes es ns) {f : Form}
    (hform : (S.form f).isDocument)
    (hd : Document.load (String.ofList (S.slot.fill (.map es)).toChars) = .ok d) :
    d = ⟨ws₁ ++ { w with nodes := ns } :: ws₂⟩ ∧ ∃ F : Form, F.isDocument ∧
      (S.slot.fill (.map es)).toChars = F.chars := by
  rw [Document.load, String.toList_ofList] at hd
  have hsound := isSound_block hes.sound hes.nodup
  refine ⟨h.eq_of_ofChars hes hd, S.form (block es), ?_, ?_⟩
  · simp only [Form.isDocument, Bool.and_eq_true] at hform ⊢
    exact ⟨⟨isSound_form hsound, rfl⟩, nodesBelow_form _ _ hform.2⟩
  · have hne : (S.form (block es)).lines ≠ [] := Form.mappingLines_ne_nil (by simp)
    rw [← fill_block, fill_eq_form, Form.toChars_lines hne]

end Scene

end BlockFlow
