import BlockFlow.Proofs.Edit.Placing

/-!
What expanding a section leaves behind. Main statement: in a text in block style, in which collections
may stand on one line, a section of a workflow or of a node can be opened for new entries, and the
text loads as the same document.
-/

namespace BlockFlow

open Form (mappingLines)
open Outcome
open Yaml (Value)

/-- What entries are added to: a section of a workflow, at the line of its item, and a section of a
node of it, at the line of the node. -/
inductive Outline.HasSection (o : Outline) (name : String) : Nat → String → Prop
  | workflow {i : Nat} {key : String} (hi : o.workflowLine? name = some i)
      (hkey : key ∈ ["variables", "interface", "nodes"]) : o.HasSection name i key
  | node {i : Nat} {id key : String} {s : Span} (hi : o.workflowLine? name = some i)
      (hs : o.nodeSpan? i id = some s) (hkey : key ∈ ["inputs", "branches"]) :
      o.HasSection name s.start key

namespace Document

/-- A section that is read from a mapping, of which an empty one counts as absent. -/
structure LoadsMapping {α : Type} (k : String) (load : List (Value × Value) → Except ParseError α) :
    Prop where
  congr : ∀ es es', field? k es = field? k es' → load es = load es'
  isMap : ∀ es v x, field? k es = some v → load es = .ok x → ∃ vs, v = .map vs
  empty : ∀ es es', field? k es = some (.map []) → field? k es' = none → load es = load es'

variable {α : Type} {k owner : String}

theorem loadsMapping_of_field {load : Option Value → Except ParseError α}
    (hmap : ∀ v x, load (some v) = .ok x → ∃ vs, v = .map vs)
    (hempty : load (some (.map [])) = load none) : LoadsMapping k fun es => load (field? k es) where
  congr _ _ h := congrArg load h
  isMap _ v x h hload := hmap v x (h ▸ hload)
  empty _ _ h h' := by rw [h, h', hempty]

theorem loadsMapping_interface :
    LoadsMapping "interface" fun es => loadInterface owner (field? "interface" es) := by
  refine loadsMapping_of_field (fun v x h => ?_) rfl
  cases v with
  | map es => exact ⟨es, rfl⟩
  | _ => cases h

theorem loadsMapping_variables :
    LoadsMapping "variables" fun es => loadVariables owner (field? "variables" es) := by
  refine loadsMapping_of_field (fun v x h => ?_) rfl
  cases v with
  | map es => exact ⟨es, rfl⟩
  | _ => cases h

theorem loadsMapping_nodes : LoadsMapping "nodes" fun es => loadNodes owner (field? "nodes" es) := by
  refine loadsMapping_of_field (fun v x h => ?_) rfl
  cases v with
  | map es => exact ⟨es, rfl⟩
  | _ => cases h

theorem loadsMapping_heads : LoadsMapping "branches" (loadHeads owner) where
  congr es es' h := by rw [loadHeads, loadHeads, h]
  isMap es v x h hload := by
    rw [loadHeads, h] at hload
    cases v with
    | map es => exact ⟨es, rfl⟩
    | _ => cases hload
  empty es es' h h' := by
    rw [loadHeads, loadHeads, h, h']
    rfl

theorem loadsMapping_section : LoadsMapping k (loadSection owner k) := by
  have hnull (es : List (Value × Value)) (h : field? k es = none) : loadSection owner k es = .ok [] := by
    rw [field?] at h
    rw [loadSection_eq_lookup]
    split at h
    · rename_i heq
      rw [heq]
    · rw [h]
  have hsome (es : List (Value × Value)) (v : Value) (h : field? k es = some v) :
      Value.lookup k es = some v ∧ v ≠ .null := by
    rw [field?] at h
    split at h
    · cases h
    · rename_i hnot
      exact ⟨h, fun heq => hnot (heq ▸ h)⟩
  refine ⟨fun es es' h => ?_, fun es v x h hload => ?_, fun es es' h h' => ?_⟩
  · cases hfield : field? k es with
    | none => rw [hnull es hfield, hnull es' (h ▸ hfield)]
    | some v =>
      rw [loadSection_eq_lookup, loadSection_eq_lookup, (hsome es v hfield).1,
        (hsome es' v (h ▸ hfield)).1]
  · obtain ⟨hlookup, hne⟩ := hsome es v h
    rw [loadSection_eq_lookup, hlookup] at hload
    cases v with
    | map es => exact ⟨es, rfl⟩
    | null => exact absurd rfl hne
    | _ => cases hload
  · rw [hnull es' h', loadSection_eq_lookup, (hsome es _ h).1]
    rfl

end Document

namespace Form

open Document (LoadsMapping)

variable {k k' : String} {l : Leaf} {es₁ es₂ : List (String × Form)} {f g : Form}

/-- A section that loads from a scalar is empty. -/
theorem load_bare {α : Type} {load : List (Value × Value) → Except ParseError α}
    (hload : LoadsMapping k' load) (h₁ : k ∉ es₁.map (·.1)) {x : α}
    (h : load (entryValues (es₁ ++ (k, leaf l) :: es₂)) = .ok x) :
    load (entryValues (es₁ ++ (k, bare) :: es₂)) = .ok x := by
  by_cases hk : k' = k
  · subst hk
    have hbare : Document.field? k' (entryValues (es₁ ++ (k', bare) :: es₂)) = none := field?_split h₁
    have hfield : Document.field? k' (entryValues (es₁ ++ (k', leaf l) :: es₂)) = _ := field?_split h₁
    rw [Form.value] at hfield
    cases hvalue : l.value with
    | null =>
      rw [hvalue] at hfield
      rwa [hload.congr _ _ (hbare.trans hfield.symm)]
    | map vs =>
      rw [hvalue, value_leaf_map hvalue] at hfield
      rwa [← hload.empty _ _ hfield hbare]
    | _ =>
      rw [hvalue] at hfield
      obtain ⟨vs, hmap⟩ := hload.isMap _ _ _ hfield h
      cases hmap
  · rwa [hload.congr _ _ (Document.field?_congr (lookup_others hk bare (leaf l)))]

/-- A workflow loads the same when nothing is left of a scalar under one of its keys. -/
theorem loadWorkflow_bare {w : Workflow} (h₁ : k ∉ es₁.map (·.1)) (hk : k ≠ "name")
    (h : Document.loadWorkflow (map (es₁ ++ (k, leaf l) :: es₂)).value = .ok w) :
    Document.loadWorkflow (map (es₁ ++ (k, bare) :: es₂)).value = .ok w := by
  obtain ⟨hne, hname, hinterface, hvars, hnodes⟩ := Document.loadWorkflow_map_eq_ok.mp h
  refine Document.loadWorkflow_map_eq_ok.mpr ⟨hne, ?_, ?_, ?_, ?_⟩
  · rwa [lookup_others (Ne.symm hk) bare (leaf l)]
  · exact load_bare Document.loadsMapping_interface h₁ hinterface
  · exact load_bare Document.loadsMapping_variables h₁ hvars
  · exact load_bare Document.loadsMapping_nodes h₁ hnodes

/-- So does a node. -/
theorem loadNode_bare {n : NodeDef} {id : String} (h₁ : k ∉ es₁.map (·.1)) (hopcode : k ≠ "opcode")
    (hnext : k ≠ "next") (h : Document.loadNode id (map (es₁ ++ (k, leaf l) :: es₂)).value = .ok n) :
    Document.loadNode id (map (es₁ ++ (k, bare) :: es₂)).value = .ok n := by
  obtain ⟨hid, hne, hop, hinputs, hpointer, hheads⟩ := Document.loadNode_map_eq_ok.mp h
  refine Document.loadNode_map_eq_ok.mpr ⟨hid, hne, ?_, ?_, ?_, ?_⟩
  · rwa [lookup_others (Ne.symm hopcode) bare (leaf l)]
  · exact load_bare Document.loadsMapping_section h₁ hinputs
  · rwa [lookup_others (Ne.symm hnext) bare (leaf l)]
  · exact load_bare Document.loadsMapping_heads h₁ hheads

/-- Nodes load the same when one of them does. -/
theorem loadNodes_replace {ns : List NodeDef} {owner id : String}
    (hfg : ∀ n, Document.loadNode id f.value = .ok n → Document.loadNode id g.value = .ok n)
    (h : Document.loadNodes owner (some (map (es₁ ++ (id, f) :: es₂)).value) = .ok ns) :
    Document.loadNodes owner (some (map (es₁ ++ (id, g) :: es₂)).value) = .ok ns := by
  obtain ⟨ns₁, rest, rfl, hfront, hrest⟩ := exists_append_of_forall₂ (Scene.loadNodes_map.mp h)
  cases hrest with
  | cons hn hback => exact Scene.loadNodes_map.mpr (List.rel_append hfront (.cons (hfg _ hn) hback))

/-- A workflow loads the same when its nodes do. -/
theorem loadWorkflow_replace {w : Workflow} {xs ys : List (String × Form)}
    (h₁ : "nodes" ∉ es₁.map (·.1))
    (hnodes : ∀ ns, Document.loadNodes w.name (some (map xs).value) = .ok ns →
      Document.loadNodes w.name (some (map ys).value) = .ok ns)
    (h : Document.loadWorkflow (map (es₁ ++ ("nodes", map xs) :: es₂)).value = .ok w) :
    Document.loadWorkflow (map (es₁ ++ ("nodes", map ys) :: es₂)).value = .ok w := by
  obtain ⟨hne, hname, hinterface, hvars, hload⟩ := Document.loadWorkflow_map_eq_ok.mp h
  have hothers {k' : String} (hk : k' ≠ "nodes") :
      Value.lookup k' (entryValues (es₁ ++ ("nodes", map ys) :: es₂)) =
        Value.lookup k' (entryValues (es₁ ++ ("nodes", map xs) :: es₂)) := lookup_others hk _ _
  refine Document.loadWorkflow_map_eq_ok.mpr ⟨hne, ?_, ?_, ?_, ?_⟩
  · rwa [hothers (by decide)]
  · rwa [Document.field?_congr (hothers (by decide))]
  · rwa [Document.field?_congr (hothers (by decide))]
  · rw [field?_split h₁] at hload ⊢
    exact hnodes _ hload

end Form

namespace Page

variable {C : Context} {p q : Page} {d : Document}

/-- The places of sections: entries of a workflow and of a node, other than those that are scalars. -/
inductive Context.IsSection : Context → Prop
  | workflow (P : Frame) {es₁ es₂ : List (String × Page)} {key : String} (h₁ : key ∉ es₁.map (·.1))
      (hk : key ≠ "name") : IsSection (P.place (.here es₁ key es₂))
  | node (P : Frame) {es₁ ns₁ fs₁ fs₂ ns₂ es₂ : List (String × Page)} {id key : String}
      (h₁ : "nodes" ∉ es₁.map (·.1)) (hfs : key ∉ fs₁.map (·.1)) (hopcode : key ≠ "opcode")
      (hnext : key ≠ "next") :
      IsSection (P.place (.entry es₁ "nodes" (.entry ns₁ id (.here fs₁ key fs₂) ns₂) es₂))

/-- A workflow that loads the same leaves the document as it is. -/
theorem ofValue_place {P : Frame} {C : Context} {q q' : Page}
    (h : ∀ w, Document.loadWorkflow (C.plug q).unfolded.value = .ok w →
      Document.loadWorkflow (C.plug q').unfolded.value = .ok w)
    (hd : Document.ofValue ((P.place C).plug q).unfolded.value = .ok d) :
    Document.ofValue ((P.place C).plug q').unfolded.value = .ok d := by
  rw [Frame.plug_place, Frame.unfolded_page, Site.ofValue_form] at hd ⊢
  obtain ⟨ws₁, w, ws₂, hd, haround, hw⟩ := hd
  exact ⟨ws₁, w, ws₂, hd, haround, h w hw⟩

theorem unfolded_map {es₁ es₂ : List (String × Page)} {key : String} :
    (Page.map (es₁ ++ (key, q) :: es₂)).unfolded =
      .map (entryForms id es₁ ++ (key, q.unfolded) :: entryForms id es₂) := by
  simp [unfolded, form, entryForms_append, entryForms]

/-- A section that is opened is read as before. -/
theorem ofValue_opened (hC : C.IsSection) (h : (C.plug q).isSound)
    (hd : Document.ofValue (C.plug q).unfolded.value = .ok d) :
    Document.ofValue (C.plug q.opened).unfolded.value = .ok d := by
  by_cases hleaf : ∃ l, q = .leaf l
  · obtain ⟨l, rfl⟩ := hleaf
    cases hC with
    | workflow P h₁ hk =>
      rw [← keys_entryForms (φ := id)] at h₁
      refine ofValue_place (fun w hw => ?_) hd
      rw [Context.plug, unfolded_map] at hw ⊢
      exact Form.loadWorkflow_bare h₁ hk hw
    | node P h₁ hfs hopcode hnext =>
      rw [← keys_entryForms (φ := id)] at h₁ hfs
      refine ofValue_place (fun w hw => ?_) hd
      simp only [Context.plug, unfolded_map] at hw ⊢
      refine Form.loadWorkflow_replace h₁ (fun ns => Form.loadNodes_replace fun n => ?_) hw
      exact Form.loadNode_bare hfs hopcode hnext
  · have hvalue := value_opened (Context.isSound_plug.mp h).1 fun l heq => hleaf ⟨l, heq⟩
    rwa [Context.value_plug hvalue]

theorem not_mem_above {P : Frame} : "workflows" ∉ P.above.map (·.1) := fun hmem =>
  (List.nodup_append.mp P.rootKeys).2.2 _ hmem _ List.mem_cons_self rfl

/-- What a workflow begins with. -/
theorem head_of_nodesBelow {P : Frame} {es : List (String × Page)}
    (h : (P.page (.map es)).written.nodesBelow) : ∀ e ∈ es.head?, e.1 ≠ "nodes" := by
  have hfirst := not_mem_above (P := P)
  rw [← keys_entryForms (φ := onLine)] at hfirst
  rw [Frame.page, Frame.whole, written, form, entryForms_append, entryForms, Form.nodesBelow,
    Form.firstOf?_append hfirst] at h
  have hitem := List.all_eq_true.mp h (.map (entryForms onLine es))
    (by simp [itemForms_append, itemForms, form])
  cases es with
  | nil =>
    intro e he
    cases he
  | cons e es => simpa [entryForms] using hitem

/-- What is found as a section is the entry of such a place. -/
theorem exists_context {name key : String} {i j : Nat} (hp : p.isSound) (hblock : p.isBlock)
    (hbelow : p.written.nodesBelow) (hd : Document.ofValue p.unfolded.value = .ok d)
    (hsection : p.outline.HasSection name i key) (hfound : p.outline.findBelow? i key = some j) :
    ∃ (C : Context) (q : Page), p = C.plug q ∧ C.key = key ∧ C.IsSection ∧ C.IsApart onLine ∧
      j = (C.front onLine).length := by
  have hhollow := alike_outline hp hblock
  cases hsection with
  | workflow hi hkey =>
    obtain ⟨P, es, rfl, hes, rfl⟩ := exists_frame hp hblock hd hi
    rw [← Frame.fill_dash] at hhollow
    obtain ⟨es₁, q, es₂, rfl, h₁, hne, rfl⟩ := exists_section hes hhollow hfound
    have hfront : mappingLines (entryForms onLine es₁) ≠ [] :=
      Form.mappingLines_ne_nil (entryForms_ne_nil hne)
    refine ⟨P.place (.here es₁ key es₂), q, rfl, rfl, .workflow P h₁ ?_, ⟨hfront, trivial⟩, ?_⟩
    · rintro rfl
      exact absurd hkey (by decide)
    · exact (Context.length_front (C := P.place (.here es₁ key es₂)) (q := q) hp).symm
  | @node i node _ span hi hs hkey =>
    obtain ⟨P, es, rfl, hes, rfl⟩ := exists_frame hp hblock hd hi
    have hload := hd
    rw [Frame.unfolded_page, Site.ofValue_form] at hload
    obtain ⟨ws₁, w, ws₂, -, -, hw⟩ := hload
    rw [← Frame.fill_dash] at hhollow
    obtain ⟨es₁, ns₁, fs₁, q, fs₂, ns₂, es₂, rfl, h₁, hfs, rfl⟩ :=
      exists_node_section hes hhollow (head_of_nodesBelow hbelow) hw hs hfound
    let C : Context := P.place (.entry es₁ "nodes" (.entry ns₁ node (.here fs₁ key fs₂) ns₂) es₂)
    refine ⟨C, q, rfl, rfl, .node P h₁ hfs ?_ ?_, ⟨?_, trivial⟩, ?_⟩
    · rintro rfl
      exact absurd hkey (by decide)
    · rintro rfl
      exact absurd hkey (by decide)
    · intro hnil
      cases (List.append_eq_nil_iff.mp hnil).2
    · exact (Context.length_front (C := C) (q := q) hp).symm

/-- A section of a workflow or a node is opened for new entries without a change of the document. -/
theorem load_ensureBlock (p : Page) (d : Document) (name key : String) (i j : Nat) (hp : p.isSound)
    (hblock : p.isBlock) (hbelow : p.written.nodesBelow)
    (hd : Document.load (String.ofList p.written.chars) = .ok d)
    (hsection : (Outline.ofChars p.written.chars).HasSection name i key)
    (hfound : (Outline.ofChars p.written.chars).findBelow? i key = some j) :
    Document.load (String.ofList ((Outline.ofChars p.written.chars).ensureBlock i key).1.toChars) =
      .ok d := by
  rw [Document.load, String.toList_ofList, Document.ofChars, load?_written hp hblock] at hd
  rw [outline_chars hp hblock] at hsection hfound ⊢
  by_cases hheight : p.unfolded.height ≤ 128
  · rw [if_pos hheight] at hd
    obtain ⟨C, q, rfl, rfl, hC, hapart, rfl⟩ := exists_context hp hblock hbelow hd hsection hfound
    obtain ⟨hq, haround⟩ := Context.isSound_plug.mp hp
    have hsound := Context.isSound_plug.mpr ⟨isSound_opened hq, haround⟩
    have hle := Context.height_plug (C := C) (height_opened hq)
    rw [Context.ensureBlock_outline hapart hp hheight hfound, toChars_outline hsound (C.isBlock_plug _),
      Document.load, String.toList_ofList, Document.ofChars, load?_written hsound (C.isBlock_plug _),
      if_pos (hle.trans hheight)]
    exact ofValue_opened hC hp hd
  · rw [if_neg hheight] at hd
    cases hd

/-- A text with two collections on one line each. -/
def compact : Page :=
  let word (s : String) : Form := .leaf (.plain s.toList)
  let line (s : String) : Page := .leaf (.plain s.toList)
  .map [("workflows", .seq [.map [
    ("name", line "m"),
    ("variables", .folded (.map [("a", word "1"),
      ("b", .seq [word "x", .leaf (.quoted "y, z".toList), .leaf .noEntries])])),
    ("nodes", .map [
      ("start", .map [("opcode", line "workflow_start"), ("next", line "p")]),
      ("p", .map [("opcode", line "io_print"),
        ("inputs", .folded (.map [("STRING", .map [("literal", word "hi")])]))])])]])]

theorem compact_opened : ∃ (d : Document) (i j : Nat), compact.isSound ∧ compact.isBlock ∧
    compact.written.nodesBelow ∧ Document.load (String.ofList compact.written.chars) = .ok d ∧
    (Outline.ofChars compact.written.chars).HasSection "m" i "inputs" ∧
    (Outline.ofChars compact.written.chars).findBelow? i "inputs" = some j ∧
    Document.load (String.ofList
      ((Outline.ofChars compact.written.chars).ensureBlock i "inputs").1.toChars) = .ok d := by
  have hp : compact.isSound ∧ compact.isBlock ∧ compact.written.nodesBelow := by decide +kernel
  obtain ⟨hsound, hblock, hbelow⟩ := hp
  have hcheck : (Document.ofChars compact.written.chars).toOption.isSome ∧
      (Outline.ofChars compact.written.chars).workflowLine? "m" = some 1 ∧
      (Outline.ofChars compact.written.chars).nodeSpan? 1 "p" = some ⟨7, 10, 6⟩ ∧
      (Outline.ofChars compact.written.chars).findBelow? 7 "inputs" = some 9 := by decide +kernel
  obtain ⟨hload, hline, hspan, hfound⟩ := hcheck
  obtain ⟨d, hd⟩ := Option.isSome_iff_exists.mp hload
  have hd : Document.load (String.ofList compact.written.chars) = .ok d := by
    rw [Document.load, String.toList_ofList]
    exact toOption_eq_some.mp hd
  have hsection := Outline.HasSection.node hline hspan
    (show "inputs" ∈ ["inputs", "branches"] by decide)
  exact ⟨d, 7, 9, hsound, hblock, hbelow, hd, hsection, hfound,
    load_ensureBlock compact d "m" "inputs" 7 9 hsound hblock hbelow hd hsection hfound⟩

end Page

/-- The inputs of the node `x` are in braces over two lines. -/
def wrapped : String :=
  "workflows:
  - name: m
    nodes:
      x:
        opcode: data_list_create
        inputs: \x7bITEM1: \x7bliteral: 1\x7d,
          ITEM2: \x7bliteral: 2\x7d\x7d
"

set_option maxRecDepth 2000 in
/-- Only the first line of the inputs is looked at and dropped, and what is left cannot be read. -/
theorem ensureBlock_wrapped : ¬ ∀ (text name key : String) (i j : Nat) (d : Document),
    Document.load text = .ok d → (Outline.ofChars text.toList).HasSection name i key →
      (Outline.ofChars text.toList).findBelow? i key = some j →
        Document.load (String.ofList ((Outline.ofChars text.toList).ensureBlock i key).1.toChars) =
          .ok d := by
  intro h
  obtain ⟨cs, htext, hload, hline, hspan, hfound, hlost⟩ : ∃ cs, wrapped = String.ofList cs ∧
      (Document.ofChars cs).toOption.isSome ∧
      (Outline.ofChars cs).workflowLine? "m" = some 1 ∧
      (Outline.ofChars cs).nodeSpan? 1 "x" = some ⟨3, 7, 6⟩ ∧
      (Outline.ofChars cs).findBelow? 3 "inputs" = some 5 ∧
      (Document.ofChars ((Outline.ofChars cs).ensureBlock 3 "inputs").1.toChars).toOption.isNone :=
    ⟨_, rfl, by decide +kernel⟩
  obtain ⟨d, hd⟩ := Option.isSome_iff_exists.mp hload
  have hload : Document.load wrapped = .ok d := by
    rw [htext, Document.load, String.toList_ofList]
    exact toOption_eq_some.mp hd
  have hsame : wrapped.toList = cs := by rw [htext, String.toList_ofList]
  have hsection := Outline.HasSection.node hline hspan
    (show "inputs" ∈ ["inputs", "branches"] by decide)
  have hagain := h wrapped "m" "inputs" 3 5 d hload (hsame ▸ hsection) (hsame ▸ hfound)
  rw [hsame, Document.load, String.toList_ofList] at hagain
  rw [hagain] at hlost
  cases hlost

end BlockFlow
