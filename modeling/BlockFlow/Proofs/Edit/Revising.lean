import BlockFlow.Proofs.Edit.Draft
import BlockFlow.Proofs.Edit.Start
import BlockFlow.Proofs.Form.Section
import BlockFlow.Proofs.Form.Value

/-!
What edits of a variable leave behind. Main statement: in a text in block style the list of the
variables of one workflow changes as the edit says, and nothing else.
-/

namespace BlockFlow

open Yaml (Value)
open Form (entriesSound)
open Outcome

namespace Form

variable {g : Form} {owner : String} {vs : List (String × Form)} {vars : List (String × Value)}

/-- Variables that load are those inside the section. -/
theorem variables_eq (h : Document.loadVariables owner (match g.value with
    | .null => none
    | v => some v) = .ok vars) : (∀ items, g ≠ .seq items) ∧ vars = namedValues g.inside := by
  cases g with
  | map vs => exact ⟨nofun, Except.ok.inj (h.symm.trans loadVariables_entryValues)⟩
  | bare => exact ⟨nofun, (Except.ok.inj h).symm⟩
  | seq items => cases h
  | leaf l =>
    refine ⟨nofun, ?_⟩
    rw [value] at h
    cases hv : l.value with
    | null =>
      rw [hv] at h
      exact (Except.ok.inj h).symm
    | map vs =>
      rw [hv, value_leaf_map hv] at h
      exact (Except.ok.inj h).symm
    | _ =>
      rw [hv] at h
      cases h

theorem keys_namedValues : (namedValues vs).map (·.1) = vs.map (·.1) := by
  simp [namedValues]

theorem namedValues_append (vs more : List (String × Form)) :
    namedValues (vs ++ more) = namedValues vs ++ namedValues more := List.map_append

theorem namedValues_cons (name : String) (f : Form) (vs : List (String × Form)) :
    namedValues ((name, f) :: vs) = (name, f.value) :: namedValues vs := rfl

theorem namedValues_put {name : String} {f : Form} (h : name ∈ vs.map (·.1))
    (hnodup : (vs.map (·.1)).Nodup) : namedValues (put name f vs) =
      (namedValues vs).map fun p => if p.1 = name then (name, f.value) else p := by
  obtain ⟨vs₁, g, vs₂, rfl, h₁, h₂⟩ := exists_split h hnodup
  have hkeys : name ∉ (namedValues vs₁).map (·.1) ∧ name ∉ (namedValues vs₂).map (·.1) := by
    rw [keys_namedValues, keys_namedValues]
    exact ⟨h₁, h₂⟩
  rw [put_append h₁, namedValues_append, namedValues_append, namedValues_cons, namedValues_cons]
  exact (map_ite_middle (x := (name, g.value)) (g := fun _ => (name, f.value)) rfl hkeys).symm

theorem namedValues_erase (name : String) (vs : List (String × Form)) :
    namedValues (erase name vs) = (namedValues vs).filter fun p => p.1 ≠ name := by
  rw [namedValues, namedValues, erase, List.filter_map]
  rfl

/-- The block of some entries, on one line when there are none. -/
def collapsed (vs : List (String × Form)) : Form := if vs = [] then .leaf .noEntries else .map vs

theorem isSound_collapsed (hvs : entriesSound vs) (hnodup : (vs.map (·.1)).Nodup) :
    (collapsed vs).isSound := by
  unfold collapsed
  split
  · rfl
  · rename_i hne
    exact isSound_map.mpr ⟨hne, hnodup, hvs⟩

theorem value_collapsed : (collapsed vs).value = .map (entryValues vs) := by
  unfold collapsed
  split
  · rename_i hnil
    rw [hnil]
    rfl
  · rfl

end Form

namespace Slot

variable {s : Slot} {vs : List (String × Form)}

/-- A block that nothing is left of is written behind its key. -/
theorem collapse_fill (hvs : entriesSound vs) :
    (s.fill (.map vs)).collapse s.line "\x7b\x7d".toList = s.fill (Form.collapsed vs) := by
  rw [show "\x7b\x7d".toList = Form.Leaf.noEntries.text from rfl, collapse_block (solid_map hvs) nofun,
    Form.collapsed]
  cases vs with
  | nil => rfl
  | cons e vs =>
    have hne : (Form.map (e :: vs)).lines ≠ [] := Form.mappingLines_ne_nil (List.cons_ne_nil e vs)
    rw [if_neg hne, if_neg (List.cons_ne_nil e vs)]

end Slot

namespace Document

variable {S : Section} {f g : Form} {w : Workflow} {vs : List (String × Form)}

/-- Other variables in a workflow that loads. -/
theorem loadWorkflow_variables (hkey : S.key = "variables") (hf : g.value = .map (Form.entryValues vs))
    (hw : loadWorkflow (Form.map (S.entries f)).value = .ok w) :
    loadWorkflow (Form.map (S.entries g)).value = .ok { w with vars := Form.namedValues vs } := by
  obtain ⟨hname, hlookup, hinterface, -, hnodes⟩ := loadWorkflow_map_eq_ok.mp hw
  refine loadWorkflow_map_eq_ok.mpr ⟨hname, ?_, ?_, ?_, ?_⟩
  · rw [S.lookup_entries (by rw [hkey]; decide) g f, hlookup]
  · rw [S.field?_entries (by rw [hkey]; decide) g f, hinterface]
  · rw [← hkey, S.field?_key, hf]
    exact Form.loadVariables_entryValues
  · rw [S.field?_entries (by rw [hkey]; decide) g f, hnodes]

end Document

namespace Edit

/-- What an edit of a variable of a workflow does to the list of variables. New names can stand
before a colon without quotes, and new values are read back. -/
inductive Revises (workflow : String) :
    Edit → (List (String × Value) → List (String × Value)) → Prop where
  | add {name : String} {v : Value} (hname : Form.isKey name) (hv : Form.isFaithful v) :
    Revises workflow (.addVariable workflow name v) fun vars => vars ++ [(name, v)]
  | update {name : String} {v : Value} (hv : Form.isFaithful v) :
    Revises workflow (.updateVariable workflow name v) fun vars =>
      vars.map fun p => if p.1 = name then (name, v) else p
  | delete {name : String} : Revises workflow (.deleteVariable workflow name) fun vars =>
      vars.filter fun p => p.1 ≠ name

variable {c : Catalog} {F g : Form} {d : Document} {w : Workflow} {S : Section} {e : Edit}
  {f : List (String × Value) → List (String × Value)} {after : Draft} {id : Option String}
  {r : Edited}

/-- The variables of a workflow, with the block that they stand in opened. -/
theorem exists_inside (hkey : S.key = "variables") (hS : S.Holds F g w) :
    w.vars = Form.namedValues g.inside ∧
      (⟨c, d, Outline.ofChars F.chars⟩ : Draft).variablesLine w.name =
        .ok (⟨c, d, S.slot.fill (.map g.inside)⟩, S.slot.line) := by
  obtain ⟨-, -, -, hvars, -⟩ := Document.loadWorkflow_map_eq_ok.mp hS.load
  rw [← hkey, S.field?_key] at hvars
  obtain ⟨hseq, hvars⟩ := Form.variables_eq hvars
  refine ⟨hvars, ?_⟩
  have hensure := hS.ensure
  rw [hkey, Slot.fill_opened hseq] at hensure
  have hline : (⟨c, d, Outline.ofChars F.chars⟩ : Draft).workflowLine w.name = .ok S.dash.line :=
    Draft.workflowLine_eq_ok.mpr hS.line
  rw [Draft.variablesLine, hline]
  simp only [bind, Except.bind, hensure]
  rfl

/-- An edit of a variable writes other entries into the section. -/
theorem exists_variables (hkey : S.key = "variables") (hS : S.Holds F g w)
    (hw : d.workflow? w.name = some w) (he : Revises w.name e f)
    (hrun : e.run ⟨c, d, Outline.ofChars F.chars⟩ = .ok (after, id)) :
    ∃ (h : Form) (vs : List (String × Form)), after.outline = S.slot.fill h ∧ h.isSound ∧
      h.value = .map (Form.entryValues vs) ∧ Form.namedValues vs = f w.vars := by
  let start : Draft := ⟨c, d, Outline.ofChars F.chars⟩
  obtain ⟨hvars, hline⟩ : w.vars = _ ∧ start.variablesLine w.name = _ := exists_inside hkey hS
  obtain ⟨hvs, hnodup⟩ := Form.sound_inside hS.sound
  have hmem (name : String) : (w.valueOf? name).isSome ↔ name ∈ g.inside.map (·.1) := by
    rw [Workflow.valueOf?, isSome_firstOf?, hvars, Form.keys_namedValues]
  have hwrite (name : String) (v : Value) (hname : Form.isKey name) (hv : Form.isFaithful v) :
      start.writeVariable w.name name v = .ok (start.withOutline
        (S.slot.fill (.map (Form.put name (Form.ofValue v) g.inside)))) := by
    rw [Draft.writeVariable, hline]
    exact congrArg (fun o => Except.ok (start.withOutline o)) (Slot.setValue_fill hvs hname hnodup hv)
  cases he with
  | @add name v hname hv =>
    have hok := Draft.ok_of_workflow (run_changed hrun) hw
    split at hok
    · cases hok
    · rename_i hfresh
      rw [hmem] at hfresh
      obtain ⟨hsound, hvalue⟩ := Form.ofValue_faithful v hv
      obtain rfl := Except.ok.inj ((hwrite name v hname hv).symm.trans hok)
      refine ⟨_, _, rfl, Form.isSound_map.mpr ⟨Form.put_ne_nil _ _ _, Form.nodup_put hnodup,
        Form.entriesSound_put hvs hname hsound⟩, rfl, ?_⟩
      rw [Form.put_of_not_mem hfresh, hvars, Form.namedValues_append]
      exact congrArg (fun v => _ ++ [(name, v)]) hvalue
  | @update name v hv =>
    have hok := Draft.ok_of_workflow (run_changed hrun) hw
    split at hok
    · cases hok
    · rename_i hthere
      rw [Bool.not_eq_true, Option.isNone_eq_false_iff, hmem] at hthere
      obtain ⟨hsound, hvalue⟩ := Form.ofValue_faithful v hv
      have hname : Form.isKey name := Form.isKey_of_mem hvs hthere
      obtain rfl := Except.ok.inj ((hwrite name v hname hv).symm.trans hok)
      refine ⟨_, _, rfl, Form.isSound_map.mpr ⟨Form.put_ne_nil _ _ _, Form.nodup_put hnodup,
        Form.entriesSound_put hvs hname hsound⟩, rfl, ?_⟩
      rw [Form.namedValues_put hthere hnodup, hvars, hvalue]
  | @delete name =>
    have hok := Draft.ok_of_workflow (run_changed hrun) hw
    split at hok
    · cases hok
    · obtain ⟨⟨vars, line⟩, hvarsLine, hok⟩ := bind_eq_ok.mp hok
      obtain ⟨rfl, rfl⟩ := Prod.mk.inj (Except.ok.inj (hline.symm.trans hvarsLine))
      cases hok
      refine ⟨Form.collapsed (Form.erase name g.inside), Form.erase name g.inside, ?_,
        Form.isSound_collapsed (Form.entriesSound_erase name hvs) (Form.nodup_erase name hnodup),
        Form.value_collapsed, ?_⟩
      · simp only [Draft.withOutline]
        rw [Slot.removeEntry_fill hvs hnodup, Slot.collapse_fill (Form.entriesSound_erase name hvs)]
      · rw [hvars, Form.namedValues_erase]

/-- An edit that writes into a section of one workflow, in a text in block style, changes that
workflow and nothing else. The text is in block style again. -/
theorem changed_of_section {k : String} {u : Workflow → Workflow} (hF : F.isSound)
    (hblock : F.isBlock) (hopens : F.opensWithout k) (hk : Form.isKey k) (hname : k ≠ "name")
    (hd : Document.load (String.ofList F.chars) = .ok d) (hw : d.workflow? w.name = some w)
    (hr : e.apply c (String.ofList F.chars) = .ok r)
    (hwrite : ∀ {S : Section} {g : Form} {after : Draft} {id : Option String}, S.key = k →
      S.Holds F g w → e.run ⟨c, d, Outline.ofChars F.chars⟩ = .ok (after, id) →
      ∃ h, after.outline = S.slot.fill h ∧ h.isSound ∧
        Document.loadWorkflow (Form.map (S.entries h)).value = .ok (u w)) :
    ∃ (F' : Form) (d' : Document), F'.isSound ∧ F'.isBlock ∧
      (∀ k, F.opensWithout k → F'.opensWithout k) ∧ r.text = String.ofList F'.chars ∧
      Document.load r.text = .ok d' ∧ Document.Changed w.name (fun w w' => w' = u w) d d' := by
  obtain ⟨d₀, after, id, d', hd₀, hrun, htext, hd'⟩ := exists_run hr
  obtain rfl : d = d₀ := Except.ok.inj (hd.symm.trans hd₀)
  obtain ⟨S, g, ws₁, ws₂, hkey, hdoc, haround, hS⟩ :=
    Section.exists_section hF hblock hopens hk hname hd hw
  rw [String.toList_ofList] at hrun
  obtain ⟨h, hfill, hsound, hload⟩ := hwrite hkey hS hrun
  rw [hfill, Section.toChars_fill] at htext
  obtain rfl := S.eq_of_load haround hsound hload (htext ▸ hd')
  refine ⟨S.whole h, _, Section.isSound_whole hsound, rfl, fun k => hS.opens h k, htext, hd', ?_⟩
  rw [hdoc]
  exact Document.changed_of_nodup haround.names rfl

/-- In a text in block style, in which no workflow begins with its variables, an edit of a variable
changes the list of variables of the workflow as it says, and nothing else. The text is in block style
again. -/
theorem revised_of_apply (c : Catalog) (F : Form) (d : Document) (name : String) (e : Edit)
    (f : List (String × Value) → List (String × Value)) (r : Edited) (hF : F.isSound)
    (hblock : F.isBlock) (hopens : F.opensWithout "variables")
    (hd : Document.load (String.ofList F.chars) = .ok d) (he : Revises name e f)
    (hr : e.apply c (String.ofList F.chars) = .ok r) :
    ∃ (F' : Form) (d' : Document), F'.isSound ∧ F'.isBlock ∧
      (∀ k, F.opensWithout k → F'.opensWithout k) ∧ r.text = String.ofList F'.chars ∧
      Document.load r.text = .ok d' ∧
      Document.Changed name (fun w w' => w' = { w with vars := f w.vars }) d d' := by
  obtain ⟨d₀, after, id, -, hd₀, hrun, -, -⟩ := exists_run hr
  obtain rfl : d = d₀ := Except.ok.inj (hd.symm.trans hd₀)
  obtain ⟨w, hw⟩ : ∃ w, d.workflow? name = some w := by
    cases he
    all_goals
      obtain ⟨w, hw, -⟩ := bind_eq_ok.mp (run_changed hrun)
      exact ⟨w, Draft.workflow_eq_ok.mp hw⟩
  obtain rfl : w.name = name := by simpa using List.find?_some hw
  refine changed_of_section (u := fun w => { w with vars := f w.vars }) hF hblock hopens
    (Form.isKey_ownWord (by decide)) (by decide) hd hw hr fun hkey hS hrun => ?_
  obtain ⟨h, vs, hfill, hsound, hvalue, hvars⟩ := exists_variables hkey hS hw he hrun
  have hload := Document.loadWorkflow_variables hkey hvalue hS.load
  rw [hvars] at hload
  exact ⟨h, hfill, hsound, hload⟩

/-- The variables `a` and `b` of a workflow without nodes. -/
def paired : Form :=
  let word (s : String) : Form := .leaf (.plain s.toList)
  .map [("workflows", .seq [.map [("name", word "m"), ("variables", .map [
    ("a", word "1"), ("b", .seq [word "x", word "y"])]), ("nodes", .leaf .noEntries)]])]

set_option maxRecDepth 2000 in
theorem paired_revised : ∃ (d d' : Document) (r : Edited) (F' : Form),
    paired.isSound ∧ paired.isBlock ∧ paired.opensWithout "variables" ∧
    Document.load (String.ofList paired.chars) = .ok d ∧
    (Edit.updateVariable "m" "a" (.str "5")).apply Catalog.builtin (String.ofList paired.chars) = .ok r ∧
    F'.isSound ∧ F'.isBlock ∧ r.text = String.ofList F'.chars ∧ Document.load r.text = .ok d' ∧
    Document.Changed "m" (fun w w' => w' = { w with
      vars := w.vars.map fun p => if p.1 = "a" then ("a", .str "5") else p }) d d' := by
  have hF : paired.isSound := by decide +kernel
  have hopens : paired.opensWithout "variables" := by decide +kernel
  have hcheck : (documents? Catalog.builtin (.updateVariable "m" "a" (.str "5")) paired.chars).any
      fun _ => true := by decide +kernel
  obtain ⟨d, r, -, hd, hr, -, -⟩ := exists_apply rfl hcheck
  obtain ⟨F', d', hF', hblock', -, htext, hd', hchanged⟩ := revised_of_apply Catalog.builtin paired d
    "m" _ _ r hF rfl hopens hd (.update (by decide +kernel)) hr
  exact ⟨d, d', r, F', hF, rfl, hopens, hd, hr, hF', hblock', htext, hd', hchanged⟩

/-- The variables `a` and `b` in braces over two lines. -/
def folded : String :=
  "workflows:
  - name: m
    variables: \x7ba: 1,
      b: 2\x7d
    nodes: \x7b\x7d
"

set_option maxRecDepth 2000 in
/-- Adding the variable `c` removes `a`. -/
theorem add_folded : ¬ ∀ (text name : String) (e : Edit)
    (f : List (String × Value) → List (String × Value)) (d : Document) (r : Edited),
    Document.load text = .ok d → Revises name e f → e.apply Catalog.builtin text = .ok r →
    ∃ d', Document.load r.text = .ok d' ∧
      Document.Changed name (fun w w' => w' = { w with vars := f w.vars }) d d' := by
  intro h
  obtain ⟨cs, htext, hcheck⟩ : ∃ cs, folded = String.ofList cs ∧
      (documents? Catalog.builtin (.addVariable "m" "c" (.int 3)) cs).any (fun ds =>
        (ds.1.workflow? "m").any (fun w => w.vars.map (·.1) = ["a", "b"]) &&
          (ds.2.workflow? "m").any fun w => w.vars.map (·.1) = ["b", "c"]) :=
    ⟨_, rfl, by decide +kernel⟩
  obtain ⟨d, r, d₁, hd, hr, hd₁, hdocs⟩ := exists_apply htext hcheck
  simp only [Bool.and_eq_true, Option.any_eq_true, decide_eq_true_eq] at hdocs
  obtain ⟨⟨w, hw, hold⟩, w₁, hw₁, hnew⟩ := hdocs
  obtain ⟨d', hd', hchanged⟩ := h folded "m" _ _ d r hd
    (.add (by decide +kernel) (by decide +kernel)) hr
  obtain rfl : d₁ = d' := Except.ok.inj (hd₁.symm.trans hd')
  obtain ⟨w', hw', heq⟩ := hchanged.exists_workflow? (fun v v' hv => by rw [hv]) hw
  obtain rfl : w₁ = w' := Option.some.inj (hw₁.symm.trans hw')
  rw [heq, List.map_append, hold] at hnew
  exact absurd hnew (by decide)

end Edit

end BlockFlow
