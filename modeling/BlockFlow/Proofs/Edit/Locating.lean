import BlockFlow.Proofs.Edit.Creating
import BlockFlow.Proofs.Edit.Scene

/-!
Where edits take a node to stand. Main statement: in a text in block style exactly the nodes of its
workflows are found, and the lines of a node, moved to the left, are its entry alone: they are read as
a mapping of its id to the value that the node is loaded from.
-/

namespace BlockFlow

open Form (entriesSound itemsSound mappingLines entryLines Solid)
open Outcome
open Yaml (Value)

/-- A line without up to as many blanks in front. -/
def Line.shallower : Nat → Line → Line
  | by_ + 1, ' ' :: l => Line.shallower by_ l
  | _, l => l

/-- The text of a block, moved to the left by its depth. -/
def Outline.excerpt (o : Outline) (s : Span) : List Char :=
  Outline.toChars ⟨(o.slice s.start s.stop).map (Line.shallower s.indent), true⟩

/-- A span of a text shows a node of a document: it is that of the workflow with this id, and its text
is read as a mapping with this id as the only key, of which the value loads as the node. -/
def Span.Shows (text : String) (d : Document) (name id : String) (s : Span) : Prop :=
  ∃ w n k v, d.workflow? name = some w ∧ w.node? id = some n ∧
    Yaml.load? ((Outline.ofChars text.toList).excerpt s) = some (.map [(k, v)]) ∧
      Document.keyName name k = .ok id ∧ Document.loadNode id v = .ok n

theorem Line.shallower_deeper (by_ : Nat) (l : Line) : (l.deeper by_).shallower by_ = l := by
  induction by_ with
  | zero => rw [Line.shallower.eq_def]; rfl
  | succ by_ ih => exact ih

namespace Form

variable {k : String} {f : Form} {es : List (String × Form)} {items : List Form}

theorem height_le_entriesHeight (h : (k, f) ∈ es) : f.height ≤ entriesHeight es := by
  induction es with
  | nil => cases h
  | cons e es ih =>
    obtain ⟨k', g⟩ := e
    rw [entriesHeight]
    rcases List.mem_cons.mp h with heq | h
    · cases heq
      exact le_max_left _ _
    · exact (ih h).trans (le_max_right _ _)

theorem height_le_itemsHeight (h : f ∈ items) : f.height ≤ itemsHeight items := by
  induction items with
  | nil => cases h
  | cons g items ih =>
    rw [itemsHeight]
    rcases List.mem_cons.mp h with rfl | h
    · exact le_max_left _ _
    · exact (ih h).trans (le_max_right _ _)

/-- An entry alone is not nested deeper than the mapping it is in. -/
theorem height_single (h : (k, f) ∈ es) : (map [(k, f)]).height ≤ (map es).height := by
  have hle := height_le_entriesHeight h
  simp only [height, entriesHeight]
  omega

/-- A text in block style that loads is not nested too deep. -/
theorem height_of_load {F : Form} {d : Document} (hF : F.isSound) (hblock : F.isBlock)
    (hd : Document.ofChars F.chars = .ok d) : F.height ≤ 128 := by
  rw [Document.ofChars, load?_chars hF hblock] at hd
  by_contra hnot
  rw [if_neg hnot] at hd
  cases hd

end Form

namespace Slot

variable {s : Slot} {f : Form}

/-- The lines of an entry and of what is in it. -/
theorem slice_fill (hf : Solid f.bodyLines) :
    (s.fill f).slice s.line ((s.fill f).blockEnd s.line) =
      (entryLines s.key f f.lines).map (·.deeper s.column) := by
  have hlength : (s.fill f).blockEnd s.line - s.line =
      ((entryLines s.key f f.lines).map (·.deeper s.column)).length := by
    rw [blockEnd_fill hf, Form.entryLines_eq]
    simp only [List.length_map, List.length_cons]
    omega
  rw [Outline.slice, hlength, fill, List.append_assoc, line, List.drop_left, List.take_left]

/-- The block of an entry, moved to the left, is the text of the entry alone. -/
theorem excerpt_fill (hf : Solid f.bodyLines) : (s.fill f).excerpt ((s.fill f).span s.line) =
    (Form.map [(s.key, f)]).chars := by
  have hlines : (Form.map [(s.key, f)]).lines = entryLines s.key f f.lines := by
    simp [Form.lines, mappingLines]
  have hback : ((entryLines s.key f f.lines).map (·.deeper s.column)).map
      (Line.shallower s.column) = (Form.map [(s.key, f)]).lines := by
    rw [List.map_map, hlines]
    exact (List.map_congr_left fun l _ => Line.shallower_deeper s.column l).trans (List.map_id _)
  have hne : (Form.map [(s.key, f)]).lines ≠ [] := Form.mappingLines_ne_nil (List.cons_ne_nil _ _)
  rw [Outline.excerpt, Outline.span, slice_fill hf, depth_fill, hback, Form.toChars_lines hne]

/-- Nothing is found below a scalar or an empty collection. -/
theorem bodyDepth?_of_bodyLines (h : f.bodyLines = []) : (s.fill f).bodyDepth? s.line = none := by
  have hsolid : Solid f.bodyLines := by
    rw [h]
    rintro l ⟨⟩
  rw [bodyDepth?_fill hsolid, h]
  rfl

theorem find?_of_bodyLines (h : f.bodyLines = []) (k : String) :
    (s.fill f).find? s.line k = none := by
  rw [Outline.find?, Outline.entries]
  simp only [isItem_fill, Bool.false_eq_true, if_false, bodyDepth?_of_bodyLines h]
  rfl

theorem items_of_bodyLines (h : f.bodyLines = []) : (s.fill f).items s.line = [] := by
  rw [Outline.items]
  simp only [bodyDepth?_of_bodyLines h]

end Slot

namespace Site

variable {T : Site} {roots es : List (String × Form)} {d : Document} {name : String} {i : Nat}

theorem whole_map_ne_ok : Document.ofValue (T.whole (.map es)).value ≠ .ok d := by
  intro h
  rw [whole, Form.value, Document.ofValue, Document.field?, Form.lookup_entryValues,
    Form.firstOf?_append not_mem_above] at h
  cases h

/-- An item that is found by a name is a workflow with this name. -/
theorem exists_workflow_of_line (hroots : entriesSound roots) (hnodup : (roots.map (·.1)).Nodup)
    (hd : Document.ofValue (Form.map roots).value = .ok d)
    (hline : Outline.workflowLine? ⟨mappingLines roots, true⟩ name = some i) :
    ∃ w ∈ d.workflows, w.name = name := by
  obtain ⟨root, hroot, hi, hname, -⟩ := Outline.workflowLine?_eq_some.mp hline
  by_cases hmem : "workflows" ∈ roots.map (·.1)
  · obtain ⟨T, g, rfl, hg, -, -⟩ := exists_whole hroots hnodup hmem
    obtain ⟨hworkflows, -⟩ := workflows_of_whole hg hd
    have hfill : T.root.fill g = ⟨mappingLines (T.above ++ ("workflows", g) :: T.below), true⟩ :=
      T.fill_root
    rw [← hfill] at hroot hi hname
    rw [workflowsLine?_fill, Option.some.injEq] at hroot
    subst hroot
    cases g with
    | seq items =>
      have hitems := (Form.isSound_seq.mp hg).2
      rw [items_fill hitems, mem_itemPlaces] at hi
      obtain ⟨before, f, after, rfl, rfl⟩ := hi
      obtain ⟨w, hw, hload⟩ := exists_mem_of_forall₂ hworkflows (show f ∈ before ++ f :: after by simp)
      obtain ⟨es, rfl⟩ := Form.exists_map_of_loadWorkflow hload
      obtain ⟨hmap, hafter⟩ := Form.itemsSound_cons.mp (Form.itemsSound_append.mp hitems).2
      have hfound := Dash.workflowName?_fill (d := T.root.dash before after hafter)
        (Form.isSound_map.mp hmap).2.2 hload
      rw [Slot.fill_dash, Slot.line_dash, hname] at hfound
      exact ⟨w, hw, (Option.some.inj hfound).symm⟩
    | map es => exact absurd hd (whole_map_ne_ok (T := T))
    | _ =>
      rw [Slot.items_of_bodyLines rfl] at hi
      cases hi
  · rw [Outline.workflowsLine?, Form.findIdx?_workflows hroots hmem] at hroot
    cases hroot

end Site

/-- In a text in block style a name that is found is that of a workflow. -/
theorem IsBlockText.exists_workflow? {text name : String} {d : Document} {i : Nat}
    (h : IsBlockText text) (hd : Document.load text = .ok d)
    (hline : (Outline.ofChars text.toList).workflowLine? name = some i) :
    ∃ w, d.workflow? name = some w := by
  obtain ⟨roots, hroots, hnodup, houtline, hvalue⟩ := h.exists_roots hd
  rw [houtline] at hline
  obtain ⟨w, hw, rfl⟩ := Site.exists_workflow_of_line hroots hnodup hvalue hline
  exact ⟨w, Document.workflow?_of_mem hd hw⟩

namespace Scene

variable {S : Scene} {F : Form} {d : Document} {w : Workflow} {name id : String} {span : Span}
  {ws₁ ws₂ : List Workflow} {es₁ es₂ fs : List (String × Form)} {ns : List NodeDef} {n : NodeDef}

/-- Only a workflow that has nodes has one that is found. -/
theorem nodes_ne_nil_of_nodeSpan? (hF : F.isDocument)
    (hd : Document.load (String.ofList F.chars) = .ok d) (hw : d.workflow? name = some w)
    {i : Nat} (hline : (Outline.ofChars F.chars).workflowLine? name = some i)
    (hspan : (Outline.ofChars F.chars).nodeSpan? i id = some span) : w.nodes ≠ [] := by
  intro hnil
  simp only [Form.isDocument, Bool.and_eq_true] at hF
  obtain ⟨⟨hsound, hblock⟩, hbelow⟩ := hF
  rw [Document.load, String.toList_ofList] at hd
  obtain rfl : w.name = name := by simpa using List.find?_some hw
  obtain ⟨T, es, ws₁, ws₂, rfl, hmap, rfl, haround, hload⟩ := Site.exists_site hsound
    (Form.ofValue_of_ofChars hsound hblock hd) (List.mem_of_find?_eq_some hw)
  have hfresh : w.name ∉ ws₁.map (·.name) := (fresh_of_nodup haround.names).1
  obtain ⟨hne, hkeys, hes⟩ := Form.isSound_map.mp hmap
  rw [Form.outline_chars hsound T.lines_form_ne_nil, ← T.fill_eq_form] at hline hspan
  rw [T.workflowLine?_fill hmap haround.before hload hfresh, Option.some.injEq] at hline
  subst hline
  obtain ⟨j, hj, hspan⟩ := Option.bind_eq_some_iff.mp hspan
  obtain ⟨k, hk, -⟩ := Option.bind_eq_some_iff.mp hspan
  have hmem : "nodes" ∈ es.map (·.1) := by
    by_contra hnot
    rw [Dash.find?_fill_none hes hne hnot] at hj
    cases hj
  obtain ⟨S, f, rfl, rfl, hf⟩ := exists_of_site hmap hbelow hmem
  rw [show S.site.dash.fill (S.entries f) = S.slot.fill f from fill_slot.symm] at hj hk
  rw [show S.site.dash = S.dash from rfl, find?_slot hf, Option.some.injEq] at hj
  subst hj
  obtain ⟨-, -, -, -, hnodes⟩ := Document.loadWorkflow_map_eq_ok.mp hload
  rw [field?_nodes, hnil] at hnodes
  cases f with
  | map es =>
    obtain ⟨hne, -, -⟩ := Form.isSound_map.mp hf
    exact hne (List.forall₂_nil_right_iff.mp (loadNodes_map.mp hnodes))
  | seq items => cases hnodes
  | _ =>
    rw [Slot.find?_of_bodyLines rfl] at hk
    cases hk

/-- The nodes are not nested deeper than the text. -/
theorem height_le_form (f : Form) : f.height ≤ (S.form f).height := by
  have hentry := Form.height_le_entriesHeight (show ("nodes", f) ∈ S.entries f by simp [entries])
  have hitem := Form.height_le_itemsHeight (show .map (S.entries f) ∈ S.items f by simp [items])
  have hroot := Form.height_le_entriesHeight (show ("workflows", .seq (S.items f)) ∈
    S.above ++ ("workflows", .seq (S.items f)) :: S.below by simp)
  rw [form, whole]
  simp only [Form.height] at hitem hroot ⊢
  omega

/-- The block of a node is read as its entry. -/
theorem load?_excerpt (hes : Nodes (es₁ ++ (n.id, .map fs) :: es₂) ns)
    (hheight : (S.form (.map (es₁ ++ (n.id, .map fs) :: es₂))).height ≤ 128) :
    Yaml.load? ((S.slot.fill (.map (es₁ ++ (n.id, .map fs) :: es₂))).excerpt
      ((S.slot.fill (.map (es₁ ++ (n.id, .map fs) :: es₂))).span
        (S.slot.line + 1 + (mappingLines es₁).length))) =
      some (.map [(.str n.id, (Form.map fs).value)]) := by
  obtain ⟨-, hk, hsound, hsound₂⟩ := Slot.sound_entry hes.sound
  have hsolid : Solid (Form.map fs).bodyLines := Form.solid_lines (.map fs) hsound
  have hexcerpt := Slot.excerpt_fill (s := S.slot.inner es₁ es₂ n.id hk hsound₂) hsolid
  rw [Slot.fill_inner, Slot.line_inner] at hexcerpt
  have hsingle : (Form.map [(n.id, .map fs)]).isSound := by
    refine Form.isSound_map.mpr ⟨List.cons_ne_nil _ _, List.nodup_singleton _, ?_⟩
    exact Form.entriesSound_cons.mpr ⟨hk, hsound, rfl⟩
  have hle : (Form.map [(n.id, .map fs)]).height ≤
      (Form.map (es₁ ++ (n.id, .map fs) :: es₂)).height := Form.height_single (by simp)
  have hform := height_le_form (S := S) (.map (es₁ ++ (n.id, .map fs) :: es₂))
  rw [hexcerpt]
  rw [show (S.slot.inner es₁ es₂ n.id hk hsound₂).key = n.id from rfl, Form.load?_chars hsingle rfl,
    if_pos (by omega)]
  rfl

/-- Each node of a workflow is found. -/
theorem Hosts.exists_nodeSpan {d : Draft} {es : List (String × Form)} (h : S.Hosts ws₁ w ws₂)
    (hes : Nodes es ns) (hd : d.outline = S.slot.fill (.map es)) (hid : id ∈ ns.map (·.id)) :
    ∃ span, d.nodeSpan w.name id = .ok span := by
  rw [← hes.ids] at hid
  obtain ⟨es₁, g, es₂, rfl, hfresh, -⟩ := Form.exists_split hid hes.nodup
  have hspan : d.outline.nodeSpan? S.dash.line id =
      some (d.outline.span (S.slot.line + 1 + (mappingLines es₁).length)) := by
    rw [hd, Outline.nodeSpan?, find?_nodes hes]
    simp only [Option.bind_eq_bind, Option.bind_some, Slot.find?_fill_append hes.sound hfresh]
  exact ⟨_, Draft.nodeSpan_eq_ok.mpr ⟨_, hd ▸ h.workflowLine? hes, hspan⟩⟩

end Scene

/-- A node is looked up in the text as it was read. -/
theorem locate_eq {c : Catalog} {text name id : String} {d : Document}
    (hd : Document.load text = .ok d) : locate c text name (some id) =
      Draft.nodeSpan ⟨c, d, Outline.ofChars text.toList⟩ name id := by
  rw [Document.load] at hd
  rw [locate, Draft.ofChars, hd]
  rfl

namespace Scene

variable {F : Form} {d : Document} {c : Catalog} {w : Workflow} {name id : String} {s : Span}

/-- What is found is a node of a workflow, and its block shows it. -/
theorem exists_shown (hF : F.isDocument) (hd : Document.load (String.ofList F.chars) = .ok d)
    (hs : locate c (String.ofList F.chars) name (some id) = .ok s) :
    (∃ w, d.workflow? name = some w ∧ id ∈ w.nodeIds) ∧
      s.Shows (String.ofList F.chars) d name id := by
  have hparts := hF
  simp only [Form.isDocument, Bool.and_eq_true] at hparts
  obtain ⟨⟨hsound, hblock⟩, -⟩ := hparts
  have hheight : F.height ≤ 128 := by
    rw [Document.load, String.toList_ofList] at hd
    exact Form.height_of_load hsound hblock hd
  rw [locate_eq hd] at hs
  obtain ⟨i, hline, hspan⟩ := Draft.nodeSpan_eq_ok.mp hs
  obtain ⟨w, hw⟩ := IsBlockText.exists_workflow? (.inr ⟨F, hsound, hblock, rfl⟩) hd hline
  obtain rfl : w.name = name := by simpa using List.find?_some hw
  rw [String.toList_ofList] at hs hline hspan
  have hne : w.nodes ≠ [] := nodes_ne_nil_of_nodeSpan? hF hd hw hline hspan
  obtain ⟨S, es, ws₁, ws₂, hhosts, hes, -, rfl, houtline⟩ := exists_scene hF hd hw hne
  obtain ⟨es₁, fs, es₂, ns₁, n, ns₂, rfl, hns, rfl, -, hload, -, rfl⟩ :=
    hhosts.exists_node hes houtline hs
  have hn : n ∈ w.nodes := by simp [hns]
  have hnode : w.node? n.id = some n := Workflow.node?_eq_some hes.nodup_ids hn
  refine ⟨⟨w, hw, List.mem_map_of_mem hn⟩, w, n, .str n.id, (Form.map fs).value, hw, hnode, ?_, rfl,
    hload.load⟩
  rw [String.toList_ofList, houtline]
  exact load?_excerpt hes hheight

/-- Each node of a workflow is found. -/
theorem exists_located (hF : F.isDocument) (hd : Document.load (String.ofList F.chars) = .ok d)
    (hw : d.workflow? name = some w) (hid : id ∈ w.nodeIds) :
    ∃ s, locate c (String.ofList F.chars) name (some id) = .ok s := by
  have hne : w.nodes ≠ [] := by
    intro hnil
    rw [Workflow.nodeIds, hnil] at hid
    cases hid
  obtain ⟨S, es, ws₁, ws₂, hhosts, hes, -, -, houtline⟩ := exists_scene hF hd hw hne
  obtain rfl : w.name = name := by simpa using List.find?_some hw
  rw [locate_eq hd, String.toList_ofList]
  exact hhosts.exists_nodeSpan hes houtline hid

end Scene

/-- In a text in block style exactly the nodes of the workflows are found. The block of a node, moved
to the left, is read as its entry alone, from which the node is loaded. -/
theorem located_shows (c : Catalog) (F : Form) (d : Document) (name id : String) (hF : F.isDocument)
    (hd : Document.load (String.ofList F.chars) = .ok d) :
    ((∃ s, locate c (String.ofList F.chars) name (some id) = .ok s) ↔
      ∃ w, d.workflow? name = some w ∧ id ∈ w.nodeIds) ∧
    ∀ s, locate c (String.ofList F.chars) name (some id) = .ok s →
      s.Shows (String.ofList F.chars) d name id := by
  refine ⟨⟨?_, ?_⟩, fun s hs => (Scene.exists_shown hF hd hs).2⟩
  · rintro ⟨s, hs⟩
    exact (Scene.exists_shown hF hd hs).1
  · rintro ⟨w, hw, hid⟩
    exact Scene.exists_located hF hd hw hid

/-- The node `p` of the second workflow prints a text. -/
def printing : Form :=
  let word (s : String) : Form := .leaf (.plain s.toList)
  .map [("workflows", .seq [
    .map [("name", word "a"), ("nodes", .leaf .noEntries)],
    .map [("name", word "m"), ("nodes", .map [
      ("start", .map [("opcode", word "workflow_start"), ("next", word "p")]),
      ("p", .map [("opcode", word "io_print"), ("inputs", .map [
        ("STRING", .map [("literal", .leaf (.quoted "# world".toList))])])])])]])]

theorem printing_shows : ∃ (d : Document) (s : Span),
    printing.isDocument ∧ Document.load (String.ofList printing.chars) = .ok d ∧
    locate Catalog.builtin (String.ofList printing.chars) "m" (some "p") = .ok s ∧
    s.Shows (String.ofList printing.chars) d "m" "p" := by
  have hF : printing.isDocument := by decide +kernel
  have hcheck : (Document.ofChars printing.chars).toOption.any fun d =>
      (d.workflow? "m").any fun w => w.nodeIds.contains "p" := by decide +kernel
  obtain ⟨d, hd, hw⟩ := (Option.any_eq_true _ _).mp hcheck
  obtain ⟨w, hw, hid⟩ := (Option.any_eq_true _ _).mp hw
  have hload : Document.load (String.ofList printing.chars) = .ok d := by
    rw [Document.load, String.toList_ofList]
    exact toOption_eq_some.mp hd
  obtain ⟨hfound, hshows⟩ := located_shows Catalog.builtin printing d "m" "p" hF hload
  obtain ⟨s, hs⟩ := hfound.mpr ⟨w, hw, List.contains_iff_mem.mp hid⟩
  exact ⟨d, s, hF, hload, hs, hshows s hs⟩

/-- The node `p` prints two lines, of which the second begins with a mark of comments. -/
def hashed : String :=
  "workflows:
  - name: m
    nodes:
      start:
        opcode: workflow_start
        next: p
      p:
        opcode: io_print
        inputs:
          STRING:
            literal: |
              hello
              # world
"

/-- The literal strings among the inputs of a node. -/
def NodeDef.texts (n : NodeDef) : List String :=
  n.inputs.filterMap fun
    | (_, .literal (.str s)) => some s
    | _ => none

set_option maxRecDepth 2000 in
/-- The block of `p` is taken to end before the last line that it prints. -/
theorem locate_hashed : ¬ ∀ (c : Catalog) (text name id : String) (d : Document) (s : Span),
    Document.load text = .ok d → locate c text name (some id) = .ok s →
      s.Shows text d name id := by
  intro h
  obtain ⟨cs, htext, hcheck⟩ : ∃ cs, hashed = String.ofList cs ∧
      (Document.ofChars cs).toOption.any (fun d =>
        (Draft.nodeSpan ⟨.empty, d, Outline.ofChars cs⟩ "m" "p").toOption = some ⟨6, 12, 6⟩ &&
        ((d.workflow? "m").all fun w => (w.node? "p").all fun n => n.texts = ["hello\n# world\n"]) &&
        ((Yaml.load? ((Outline.ofChars cs).excerpt ⟨6, 12, 6⟩)).all fun v =>
          (Document.loadNodes "m" (some v)).toOption.all fun ns =>
            ns.all fun n => n.texts = ["hello\n"])) := ⟨_, rfl, by decide +kernel⟩
  obtain ⟨d, hd, hcheck⟩ := (Option.any_eq_true _ _).mp hcheck
  simp only [Bool.and_eq_true, decide_eq_true_eq] at hcheck
  obtain ⟨⟨hspan, hwhole⟩, hpart⟩ := hcheck
  have hload : Document.load hashed = .ok d := by
    rw [htext, Document.load, String.toList_ofList]
    exact toOption_eq_some.mp hd
  have hlocate : locate .empty hashed "m" (some "p") = .ok ⟨6, 12, 6⟩ := by
    rw [locate_eq hload, htext, String.toList_ofList]
    exact toOption_eq_some.mp hspan
  obtain ⟨w, n, k, v, hw, hn, hyaml, hkey, hnode⟩ := h .empty hashed "m" "p" d _ hload hlocate
  have hnodes : Document.loadNodes "m" (some (.map [(k, v)])) = .ok [n] :=
    mapM_eq_ok.mpr (.cons (bind_eq_ok.mpr ⟨"p", hkey, hnode⟩) .nil)
  rw [htext, String.toList_ofList] at hyaml
  rw [hw, Option.all_some, hn, Option.all_some, decide_eq_true_eq] at hwhole
  rw [hyaml, Option.all_some, hnodes] at hpart
  simp only [Except.toOption, Option.all_some, List.all_cons, hwhole] at hpart
  exact absurd hpart (by decide)

end BlockFlow
