import BlockFlow.Proofs.Edit.Locating
import BlockFlow.Proofs.Form.Listing
import BlockFlow.Proofs.Form.Opened

/-!
Where the sections of a page stand in its outline. Main statements: what is found as a workflow is an
item of the list of workflows, and what is found as a section of it, or of one of its nodes, is an
entry of the page.
-/

namespace BlockFlow

open Form (mappingLines sequenceLines)
open Outcome
open Yaml (Value)

namespace Page

variable {p q g : Page} {key : String} {es ds : List (String × Page)} {d : Document} {φ : Form → Form}

/-- The outline of a page is alike to that of the form in which what is on one line is empty. -/
theorem alike_outline (h : p.isSound) (hblock : p.isBlock) :
    p.outline.Alike ⟨(p.form hollow).lines, true⟩ := by
  cases p with
  | map entries => exact alike_mappingLines entries (isSound_map.mp h).2.2
  | seq items => exact alike_sequenceLines items (isSound_seq.mp h).2
  | _ => cases hblock

/-- The place of a workflow in a page. -/
structure Frame where
  above : List (String × Page)
  below : List (String × Page)
  before : List Page
  after : List Page
  aboveSound : entriesSound above
  belowSound : entriesSound below
  beforeSound : itemsSound before
  afterSound : itemsSound after
  rootKeys : (above.map (·.1) ++ "workflows" :: below.map (·.1)).Nodup

namespace Frame

variable {P : Frame}

/-- The page with a list of workflows given. -/
def whole (P : Frame) (g : Page) : Page := .map (P.above ++ ("workflows", g) :: P.below)

/-- The page with a workflow given. -/
def page (P : Frame) (q : Page) : Page := P.whole (.seq (P.before ++ q :: P.after))

/-- The place in the form of the page. -/
def site (P : Frame) (φ : Form → Form) (hφ : ∀ f : Form, f.isFoldable → (φ f).isSound) : Site where
  above := entryForms φ P.above
  below := entryForms φ P.below
  before := itemForms φ P.before
  after := itemForms φ P.after
  aboveSound := entriesSound_entryForms hφ _ P.aboveSound
  belowSound := entriesSound_entryForms hφ _ P.belowSound
  beforeSound := itemsSound_itemForms hφ _ P.beforeSound
  afterSound := itemsSound_itemForms hφ _ P.afterSound
  rootKeys := by simpa only [keys_entryForms] using P.rootKeys

theorem form_whole (hφ : ∀ f : Form, f.isFoldable → (φ f).isSound) :
    (P.whole g).form φ = (P.site φ hφ).whole (g.form φ) := by
  simp [whole, form, entryForms_append, entryForms, Site.whole, site]

theorem form_page (hφ : ∀ f : Form, f.isFoldable → (φ f).isSound) :
    (P.page q).form φ = (P.site φ hφ).form (q.form φ) := by
  rw [page, form_whole hφ]
  simp [form, itemForms_append, itemForms, Site.form, Site.items, site]

theorem isSound_hollow_form (f : Form) (_ : f.isFoldable) : (hollow f).isSound := rfl

/-- The place in the outline by which everything is found. -/
def hollowed (P : Frame) : Site := P.site hollow isSound_hollow_form

/-- The place in what the page is read as. -/
def spread (P : Frame) : Site := P.site id fun _ hf => (isFoldable_iff.mp hf).2.1

theorem unfolded_whole : (P.whole g).unfolded = P.spread.whole g.unfolded := form_whole _

theorem unfolded_page : (P.page q).unfolded = P.spread.form q.unfolded := form_page _

theorem fill_root : P.hollowed.root.fill (g.form hollow) = ⟨((P.whole g).form hollow).lines, true⟩ := by
  rw [Site.fill_root, hollowed, form_whole]

theorem fill_dash : P.hollowed.dash.fill (entryForms hollow es) =
    ⟨((P.page (.map es)).form hollow).lines, true⟩ := by
  rw [Site.fill_eq_form, hollowed, form_page]
  rfl

end Frame

/-- The list of workflows of a page that has one. -/
theorem exists_whole {root : Nat} (h : p.isSound) (hblock : p.isBlock)
    (hd : Document.ofValue p.unfolded.value = .ok d)
    (hroot : Outline.workflowsLine? ⟨(p.form hollow).lines, true⟩ = some root) :
    ∃ (P : Frame) (g : Page), p = P.whole g ∧ g.isSound ∧ P.hollowed.root.line = root := by
  cases p with
  | map roots =>
    obtain ⟨-, hnodup, hroots⟩ := isSound_map.mp h
    have hmem : "workflows" ∈ roots.map (·.1) := by
      by_contra hnot
      rw [← keys_entryForms (φ := hollow)] at hnot
      have hnone := Form.findIdx?_workflows
        (entriesSound_entryForms Frame.isSound_hollow_form _ hroots) hnot
      rw [Outline.workflowsLine?] at hroot
      cases hroot.symm.trans hnone
    obtain ⟨above, g, below, rfl, -, -⟩ := Form.exists_split hmem hnodup
    obtain ⟨habove, hrest⟩ := entriesSound_append.mp hroots
    obtain ⟨-, hg, hbelow⟩ := entriesSound_cons.mp hrest
    let P : Frame := {
      above, below
      before := []
      after := []
      aboveSound := habove
      belowSound := hbelow
      beforeSound := rfl
      afterSound := rfl
      rootKeys := by simpa using hnodup }
    have hfill := P.fill_root (g := g)
    rw [show P.whole g = .map (above ++ ("workflows", g) :: below) from rfl] at hfill
    rw [← hfill, Site.workflowsLine?_fill] at hroot
    exact ⟨P, g, rfl, hg, Option.some.inj hroot⟩
  | seq items => cases hd
  | _ => cases hblock

/-- The items of the list of workflows. -/
theorem exists_page {P : Frame} {i : Nat} (hg : g.isSound)
    (hd : Document.ofValue (P.whole g).unfolded.value = .ok d)
    (hitem : i ∈ (P.hollowed.root.fill (g.form hollow)).items P.hollowed.root.line) :
    ∃ (Q : Frame) (q : Page), P.whole g = Q.page q ∧ q.isSound ∧ i = Q.hollowed.dash.line := by
  cases g with
  | seq items =>
    have hitems := (isSound_seq.mp hg).2
    rw [form, items_fill (itemsSound_itemForms Frame.isSound_hollow_form _ hitems),
      mem_itemPlaces] at hitem
    obtain ⟨before', f, after', hsplit, rfl⟩ := hitem
    rw [itemForms_eq_map, List.map_eq_append_iff] at hsplit
    obtain ⟨before, rest, rfl, rfl, hrest⟩ := hsplit
    obtain ⟨q, after, rfl, rfl, rfl⟩ := List.map_eq_cons_iff.mp hrest
    obtain ⟨hbefore, hrest⟩ := itemsSound_append.mp hitems
    obtain ⟨hq, hafter⟩ := itemsSound_cons.mp hrest
    let Q : Frame := { P with before, after, beforeSound := hbefore, afterSound := hafter }
    refine ⟨Q, q, rfl, hq, ?_⟩
    rw [Site.dash, Slot.line_dash, ← itemForms_eq_map]
    rfl
  | map es =>
    rw [Frame.unfolded_whole] at hd
    exact absurd hd Site.whole_map_ne_ok
  | _ =>
    rw [Slot.items_of_bodyLines rfl] at hitem
    cases hitem

/-- A workflow that is found by its name is a mapping among the items of the list of workflows. -/
theorem exists_frame {name : String} {i : Nat} (h : p.isSound) (hblock : p.isBlock)
    (hd : Document.ofValue p.unfolded.value = .ok d) (hline : p.outline.workflowLine? name = some i) :
    ∃ (P : Frame) (es : List (String × Page)), p = P.page (.map es) ∧ (Page.map es).isSound ∧
      i = P.hollowed.dash.line := by
  obtain ⟨root, hroot, hitem, hname, -⟩ := Outline.workflowLine?_eq_some.mp hline
  have halike := alike_outline h hblock
  rw [halike.workflowsLine?] at hroot
  obtain ⟨P, g, rfl, hg, rfl⟩ := exists_whole h hblock hd hroot
  rw [halike.items, ← P.fill_root] at hitem
  obtain ⟨Q, q, hpage, hq, rfl⟩ := exists_page hg hd hitem
  rw [hpage] at halike hd hname ⊢
  cases q with
  | map es => exact ⟨Q, es, rfl, hq, rfl⟩
  | folded f =>
    -- there is no name on a line in braces
    have hhold : Q.hollowed.dash.hold (.leaf .noItems) =
        ⟨((Q.page (.folded f)).form hollow).lines, true⟩ := by
      rw [Site.dash, Slot.hold_dash, Frame.form_page Frame.isSound_hollow_form, Site.form,
        ← Site.fill_root]
      rfl
    rw [Outline.workflowName?, halike.find?, ← hhold, Dash.find?_hold_leaf rfl] at hname
    cases hname
  | _ =>
    rw [Frame.unfolded_page] at hd
    obtain ⟨ws₁, w, ws₂, -, -, hload⟩ := Site.ofValue_form.mp hd
    obtain ⟨es, hmap⟩ := Form.exists_map_of_loadWorkflow hload
    cases hmap

/-- The place of a workflow in a page, of which an entry is given. -/
def Frame.place (P : Frame) (C : Context) : Context :=
  .entry P.above "workflows" (.item P.before C P.after) P.below

variable {P : Frame} {C : Context} {j : Nat}

theorem Frame.plug_place : (P.place C).plug q = P.page (C.plug q) := rfl

theorem Frame.length_front_place (hC : C.front hollow ≠ []) :
    ((P.place C).front hollow).length = P.hollowed.dash.line + (C.front hollow).length := by
  obtain ⟨first, more, hfront⟩ := List.exists_cons_of_ne_nil hC
  rw [Site.dash, Slot.line_dash]
  simp only [Frame.place, Context.front, Form.entryLines, Form.itemLines, hfront, Frame.hollowed,
    Frame.site, Site.root, Slot.line, List.length_append, List.length_cons, List.length_map]
  omega

section Entries

open Form (Solid)

variable {D : Dash} {s : Slot} {k : String}

/-- An entry that is found in an item. -/
theorem exists_entry (hes : (Page.map es).isSound)
    (hfound : (D.fill (entryForms hollow es)).find? D.line k = some j) :
    ∃ es₁ q es₂, es = es₁ ++ (k, q) :: es₂ ∧ k ∉ es₁.map (·.1) ∧
      j = D.line + (mappingLines (entryForms hollow es₁)).length := by
  obtain ⟨hne, hnodup, hsound⟩ := isSound_map.mp hes
  have hforms := entriesSound_entryForms Frame.isSound_hollow_form _ hsound
  by_cases hmem : k ∈ es.map (·.1)
  · obtain ⟨es₁, q, es₂, rfl, h₁, -⟩ := Form.exists_split hmem hnodup
    have hfront : k ∉ (entryForms hollow es₁).map (·.1) := by rwa [keys_entryForms]
    have hplace := Dash.find?_fill_append (d := D) hforms (entryForms_append _ _) hfront
    exact ⟨es₁, q, es₂, rfl, h₁, Option.some.inj (hfound.symm.trans hplace)⟩
  · rw [← keys_entryForms (φ := hollow)] at hmem
    rw [Dash.find?_fill_none hforms (entryForms_ne_nil hne) hmem] at hfound
    cases hfound

/-- Below the first entry of an item an entry has a place of its own. -/
theorem exists_slot {es₁ es₂ : List (String × Page)} (hes : (Page.map (es₁ ++ (k, q) :: es₂)).isSound)
    (hne : es₁ ≠ []) : q.isSound ∧ ∃ s : Slot,
      s.line = D.line + (mappingLines (entryForms hollow es₁)).length ∧
        D.fill (entryForms hollow (es₁ ++ (k, q) :: es₂)) = s.fill (q.form hollow) := by
  obtain ⟨e, es₁, rfl⟩ := List.exists_cons_of_ne_nil hne
  obtain ⟨-, -, hsound⟩ := isSound_map.mp hes
  obtain ⟨-, hrest⟩ := entriesSound_append.mp hsound
  obtain ⟨hk, hq, hback⟩ := entriesSound_cons.mp hrest
  have hforms := entriesSound_entryForms Frame.isSound_hollow_form _ hback
  refine ⟨hq, D.inner (e.1, e.2.form hollow) (entryForms hollow es₁) (entryForms hollow es₂) k hk
    hforms, Dash.line_inner _ _, ?_⟩
  rw [Dash.fill_inner, entryForms_append, entryForms, entryForms]
  rfl

/-- An entry that is found below another one, and its place. -/
theorem exists_entry_below (hg : g.isSound) (hseq : ∀ items, g ≠ .seq items)
    (hfound : (s.fill (g.form hollow)).find? s.line k = some j) :
    ∃ es₁ q es₂, g = .map (es₁ ++ (k, q) :: es₂) ∧ k ∉ es₁.map (·.1) ∧
      j = s.line + 1 + (mappingLines (entryForms hollow es₁)).length ∧ q.isSound ∧
        ∃ s' : Slot, s'.line = j ∧ s.fill (g.form hollow) = s'.fill (q.form hollow) := by
  cases g with
  | map es =>
    obtain ⟨-, hnodup, hsound⟩ := isSound_map.mp hg
    have hforms := entriesSound_entryForms Frame.isSound_hollow_form _ hsound
    rw [form] at hfound
    by_cases hmem : k ∈ es.map (·.1)
    · obtain ⟨es₁, q, es₂, rfl, h₁, -⟩ := Form.exists_split hmem hnodup
      obtain ⟨hk, hq, -⟩ := entriesSound_cons.mp (entriesSound_append.mp hsound).2
      have hfront : k ∉ (entryForms hollow es₁).map (·.1) := by rwa [keys_entryForms]
      rw [entryForms_append, entryForms] at hforms hfound
      obtain ⟨-, -, hback⟩ := Form.entriesSound_cons.mp (Form.entriesSound_append.mp hforms).2
      rw [Slot.find?_fill_append hforms hfront, Option.some.injEq] at hfound
      refine ⟨es₁, q, es₂, rfl, h₁, hfound.symm, hq,
        s.inner (entryForms hollow es₁) (entryForms hollow es₂) k hk hback, ?_, ?_⟩
      · rw [Slot.line_inner, hfound]
      · rw [Slot.fill_inner, form, entryForms_append, entryForms]
    · rw [← keys_entryForms (φ := hollow)] at hmem
      rw [Slot.find?_fill_none hforms hmem] at hfound
      cases hfound
  | seq items => exact absurd rfl (hseq items)
  | _ =>
    rw [Slot.find?_of_bodyLines rfl] at hfound
    cases hfound

end Entries

/-- A section of a workflow that is found below its line. -/
theorem exists_section (hes : (Page.map es).isSound) (hhollow : (P.page (.map es)).outline.Alike
      (P.hollowed.dash.fill (entryForms hollow es)))
    (hfound : (P.page (.map es)).outline.findBelow? P.hollowed.dash.line key = some j) :
    ∃ es₁ q es₂, es = es₁ ++ (key, q) :: es₂ ∧ key ∉ es₁.map (·.1) ∧ es₁ ≠ [] ∧
      j = ((P.place (.here es₁ key es₂)).front hollow).length := by
  rw [hhollow.findBelow?, Outline.findBelow?, Option.filter_eq_some_iff, decide_eq_true_eq] at hfound
  obtain ⟨es₁, q, es₂, rfl, h₁, rfl⟩ := exists_entry hes hfound.1
  have hne : es₁ ≠ [] := by
    rintro rfl
    exact hfound.2 rfl
  refine ⟨es₁, q, es₂, rfl, h₁, hne, ?_⟩
  rw [Frame.length_front_place]
  · rfl
  · exact Form.mappingLines_ne_nil (entryForms_ne_nil hne)

section Nodes

variable {es₁ es₂ ns₁ ns₂ : List (String × Page)} {node : String} {w : Workflow}

/-- The nodes of a workflow that loads are not a list, and load when they are a mapping. -/
theorem nodes_of_loadWorkflow (h₁ : "nodes" ∉ es₁.map (·.1))
    (hload : Document.loadWorkflow (Page.map (es₁ ++ ("nodes", g) :: es₂)).unfolded.value = .ok w) :
    (∀ items, g ≠ .seq items) ∧
      ∀ ns, g = .map ns → Document.loadNodes w.name (some g.unfolded.value) = .ok w.nodes := by
  obtain ⟨-, -, -, -, hnodes⟩ := Document.loadWorkflow_map_eq_ok.mp hload
  rw [← keys_entryForms (φ := id)] at h₁
  rw [entryForms_append, entryForms, Form.field?_split h₁] at hnodes
  constructor
  · rintro items rfl
    cases hnodes
  · rintro ns rfl
    exact hnodes

theorem exists_loadNode {ns : List NodeDef} {owner : String}
    (h : Document.loadNodes owner (some (Page.map (ns₁ ++ (node, q) :: ns₂)).unfolded.value) = .ok ns) :
    ∃ n, Document.loadNode node q.unfolded.value = .ok n := by
  have hall := Scene.loadNodes_map.mp h
  rw [entryForms_append, entryForms] at hall
  obtain ⟨n, -, hn⟩ := exists_mem_of_forall₂ hall (show (node, q.unfolded) ∈ _ by simp [unfolded])
  exact ⟨n, hn⟩

/-- A section of a node that is found below its line. -/
theorem exists_node_section {span : Span} (hes : (Page.map es).isSound)
    (hhollow : (P.page (.map es)).outline.Alike (P.hollowed.dash.fill (entryForms hollow es)))
    (hfirst : ∀ e ∈ es.head?, e.1 ≠ "nodes")
    (hload : Document.loadWorkflow (Page.map es).unfolded.value = .ok w)
    (hspan : (P.page (.map es)).outline.nodeSpan? P.hollowed.dash.line node = some span)
    (hfound : (P.page (.map es)).outline.findBelow? span.start key = some j) :
    ∃ es₁ ns₁ fs₁ q fs₂ ns₂ es₂,
      es = es₁ ++ ("nodes", .map (ns₁ ++ (node, .map (fs₁ ++ (key, q) :: fs₂)) :: ns₂)) :: es₂ ∧
      "nodes" ∉ es₁.map (·.1) ∧ key ∉ fs₁.map (·.1) ∧ j = ((P.place (.entry es₁ "nodes"
        (.entry ns₁ node (.here fs₁ key fs₂) ns₂) es₂)).front hollow).length := by
  obtain ⟨n, hnodes, hspan⟩ := Option.bind_eq_some_iff.mp hspan
  obtain ⟨m, hm, hspan⟩ := Option.bind_eq_some_iff.mp hspan
  have hstart : span.start = m := (congrArg Span.start (Option.some.inj hspan)).symm
  rw [hhollow.find?] at hnodes hm
  rw [hstart, hhollow.findBelow?, Outline.findBelow?, Option.filter_eq_some_iff] at hfound
  obtain ⟨es₁, g, es₂, rfl, h₁, rfl⟩ := exists_entry hes hnodes
  have hne : es₁ ≠ [] := by
    rintro rfl
    exact hfirst _ rfl rfl
  obtain ⟨hg, s, hline, hfill⟩ := exists_slot (D := P.hollowed.dash) hes hne
  obtain ⟨hseq, hnodes⟩ := nodes_of_loadWorkflow h₁ hload
  rw [hfill] at hm hfound
  rw [← hline] at hm
  obtain ⟨ns₁, g', ns₂, rfl, -, hplace, hg', s', rfl, hfill'⟩ :=
    exists_entry_below hg hseq hm
  obtain ⟨n, hn⟩ := exists_loadNode (hnodes _ rfl)
  rw [hfill'] at hfound
  obtain ⟨fs₁, q, fs₂, rfl, hfs, rfl, -⟩ :=
    exists_entry_below hg' (by rintro items rfl; cases hn) hfound.1
  refine ⟨es₁, ns₁, fs₁, q, fs₂, ns₂, es₂, rfl, h₁, hfs, ?_⟩
  rw [Frame.length_front_place]
  · simp only [Context.front, Form.entryLines, List.length_append, List.length_cons, List.length_map]
    omega
  · intro hnil
    cases (List.append_eq_nil_iff.mp hnil).2

end Nodes

end Page

end BlockFlow
