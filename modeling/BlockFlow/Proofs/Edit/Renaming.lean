import BlockFlow.Proofs.Edit.Revising
import BlockFlow.Proofs.Edit.Scene
import BlockFlow.Proofs.Form.Numbered
import BlockFlow.Proofs.Form.Renamed

/-!
What renaming a variable leaves behind. Main statement: in a text in block style, where nothing but
references reads as a use of the variable, the variable has another name where it is declared, where it is
referred to and where a node assigns it, and nothing else changes.
-/

namespace BlockFlow

open Form (entriesSound respellEntries variableEntries)
open InputExpr (renameVariables)
open Outcome
open Yaml (Value)

/-- The string that a literal is. -/
def InputExpr.heldName? : InputExpr → Option String
  | .literal (.str s) => some s
  | _ => none

/-- The input of a node that names the variable it assigns. -/
def NodeDef.assigns? (c : Catalog) (n : NodeDef) : Option String :=
  (c.get? n.opcode).bind (·.assigns)

section

variable (c : Catalog) (old new : String)

/-- The node with another name for a variable, where it refers to it and where it assigns it. -/
def NodeDef.renameVariable (n : NodeDef) : NodeDef :=
  { n with inputs := (renameVariables old new n.inputs).map fun i =>
      if n.assigns? c = some i.1 ∧ i.2.heldName? = some old then (i.1, .literal (.str new)) else i }

/-- The workflow with another name for a variable. -/
def Workflow.renameVariable (w : Workflow) : Workflow :=
  { w with
    vars := w.vars.map fun p => if p.1 = old then (new, p.2) else p
    nodes := w.nodes.map (·.renameVariable c old new) }

end

/-- Whether something in a workflow that is no reference reads as a use of the variable `old`, once it
is declared as `new`. -/
def Workflow.looksLike (old new : String) (w : Workflow) : Bool :=
  Value.entriesMention old
      (variableEntries (w.vars.map fun p => if p.1 = old then (new, p.2) else p)) ||
    w.nodes.any (·.looksLike old)

/-- Inputs of which one holds a literal. -/
def InputExpr.assign (param : String) (v : Value) (ins : Inputs) : Inputs :=
  ins.map fun i => if i.1 = param then (param, .literal v) else i

namespace InputExpr

section

variable (name : String)

mutual

/-- Whether a variable is referred to at any depth. -/
def refers : InputExpr → Bool
  | .variable held => held = name
  | .inline _ _ inputs => inputsRefer inputs
  | .call _ args => inputsRefer args
  | _ => false

def inputsRefer : Inputs → Bool
  | [] => false
  | (_, e) :: ins => e.refers || inputsRefer ins

end

end

variable {old new s : String} {e : InputExpr} {ins : Inputs}

theorem heldName?_eq_some : e.heldName? = some s ↔ e = .literal (.str s) := by
  unfold heldName?
  split <;> simp_all

theorem heldName?_renameVariable : (e.renameVariable old new).heldName? = e.heldName? := by
  cases e <;> rfl

theorem renameVariables_eq_map :
    renameVariables old new ins = ins.map fun i => (i.1, i.2.renameVariable old new) := by
  induction ins with
  | nil => rfl
  | cons i ins ih => rw [renameVariables, ih, List.map_cons]

mutual

theorem renameVariable_self : (e : InputExpr) → e.renameVariable old old = e
  | .literal _ => rfl
  | .variable name => by rw [renameVariable, ite_eq_right_iff.mpr Eq.symm]
  | .node _ => rfl
  | .inline id opcode inputs => by rw [renameVariable, renameVariables_self inputs]
  | .call workflow args => by rw [renameVariable, renameVariables_self args]

theorem renameVariables_self : (ins : Inputs) → renameVariables old old ins = ins
  | [] => rfl
  | (key, e) :: ins => by rw [renameVariables, renameVariable_self e, renameVariables_self ins]

end

mutual

/-- Nothing refers to a variable that has got another name. -/
theorem refers_renameVariable (hne : old ≠ new) : (e : InputExpr) →
    (e.renameVariable old new).refers old = false
  | .literal _ => rfl
  | .variable name => by
    rw [renameVariable, refers, decide_eq_false_iff_not]
    split
    · exact Ne.symm hne
    · assumption
  | .node _ => rfl
  | .inline id opcode inputs => by
    rw [renameVariable, refers, inputsRefer_renameVariables hne inputs]
  | .call workflow args => by
    rw [renameVariable, refers, inputsRefer_renameVariables hne args]

theorem inputsRefer_renameVariables (hne : old ≠ new) : (ins : Inputs) →
    inputsRefer old (renameVariables old new ins) = false
  | [] => rfl
  | (key, e) :: ins => by
    rw [renameVariables, inputsRefer, refers_renameVariable hne e,
      inputsRefer_renameVariables hne ins]
    rfl

end

theorem inputsRefer_eq_any {name : String} {ins : Inputs} :
    inputsRefer name ins = ins.any fun i => i.2.refers name := by
  induction ins with
  | nil => rfl
  | cons i ins ih => rw [inputsRefer, ih, List.any_cons]

end InputExpr

/-- Whether a node refers to a variable in an input. -/
def Workflow.refers (name : String) (w : Workflow) : Bool :=
  w.nodes.any fun n => InputExpr.inputsRefer name n.inputs

/-- Once a variable is renamed, no node refers to it by its old name. -/
theorem Workflow.refers_renameVariable {c : Catalog} {old new : String} {w : Workflow}
    (hne : old ≠ new) : (w.renameVariable c old new).refers old = false := by
  simp only [refers, renameVariable, List.any_map, List.any_eq_false, Bool.not_eq_true,
    Function.comp_apply]
  intro n _
  have hclear := InputExpr.inputsRefer_renameVariables hne n.inputs
  rw [InputExpr.inputsRefer_eq_any, List.any_eq_false] at hclear ⊢
  intro i hi
  obtain ⟨j, hj, rfl⟩ := List.mem_map.mp hi
  split
  · exact Bool.false_ne_true
  · exact hclear j hj

/-- A variable that keeps its name. -/
theorem Workflow.renameVariable_self {c : Catalog} {old : String} (w : Workflow) :
    w.renameVariable c old old = w := by
  have hnode (n : NodeDef) : n.renameVariable c old old = n := by
    refine congrArg (fun ins => { n with inputs := ins }) ?_
    rw [InputExpr.renameVariables_self]
    refine (List.map_congr_left fun i _ => ite_eq_right_iff.mpr ?_).trans (List.map_id _)
    rintro ⟨-, hheld⟩
    rw [← InputExpr.heldName?_eq_some.mp hheld]
  have hvar (p : String × Value) : (if p.1 = old then (old, p.2) else p) = p :=
    ite_eq_right_iff.mpr fun h => h ▸ rfl
  rw [Workflow.renameVariable]
  simp only [hvar, hnode, List.map_id']

namespace NodeDef

variable {old new param : String} {n : NodeDef} {d : Draft}

theorem assignedInput?_eq_some : d.assignedInput? n old = some param ↔
    n.assigns? d.catalog = some param ∧ firstOf? param n.inputs = some (.literal (.str old)) := by
  unfold Draft.assignedInput? assigns?
  simp only [Option.bind_eq_bind, Option.bind_eq_some_iff]
  constructor
  · rintro ⟨spec, hspec, p, hp, hinput⟩
    split at hinput
    · rename_i held hfirst
      split at hinput
      · rename_i hold
        cases hinput
        exact ⟨⟨spec, hspec, hp⟩, hold ▸ hfirst⟩
      · cases hinput
    · cases hinput
  · rintro ⟨⟨spec, hspec, hp⟩, hfirst⟩
    have hinput : n.input? param = some (.literal (.str old)) := hfirst
    exact ⟨spec, hspec, param, hp, by simp [hinput]⟩

variable (hkeys : (n.inputs.map (·.1)).Nodup)

include hkeys

/-- A renamed input holds the old name where the input did. -/
theorem held_iff {i : String × InputExpr} (hi : i ∈ renameVariables old new n.inputs) :
    i.2.heldName? = some old ↔ firstOf? i.1 n.inputs = some (.literal (.str old)) := by
  rw [InputExpr.renameVariables_eq_map] at hi
  obtain ⟨j, hj, rfl⟩ := List.mem_map.mp hi
  rw [InputExpr.heldName?_renameVariable, InputExpr.heldName?_eq_some, firstOf?_of_mem hkeys hj,
    Option.some.injEq]

theorem renameVariable_of_none (h : d.assignedInput? n old = none) :
    n.renameVariable d.catalog old new = { n with inputs := renameVariables old new n.inputs } := by
  refine congrArg (fun ins => { n with inputs := ins })
    ((List.map_congr_left fun i hi => if_neg ?_).trans (List.map_id _))
  rintro ⟨hparam, hheld⟩
  have hsome := assignedInput?_eq_some.mpr ⟨hparam, (held_iff hkeys hi).mp hheld⟩
  rw [h] at hsome
  cases hsome

theorem renameVariable_of_some (h : d.assignedInput? n old = some param) :
    n.renameVariable d.catalog old new =
      { n with inputs := InputExpr.assign param (.str new) (renameVariables old new n.inputs) } := by
  obtain ⟨hparam, hheld⟩ := assignedInput?_eq_some.mp h
  refine congrArg (fun ins => { n with inputs := ins }) (List.map_congr_left fun i hi => ?_)
  by_cases heq : i.1 = param
  · have hi := (held_iff hkeys hi).mpr (heq ▸ hheld)
    rw [if_pos ⟨heq ▸ hparam, hi⟩, if_pos heq, heq]
  · rw [if_neg fun hboth => heq (Option.some.inj (hboth.1.symm.trans hparam)), if_neg heq]

end NodeDef

/-- Where a parameter is given, it is assigned by putting a literal under its name. -/
theorem InputExpr.put_literal {param : String} {v : Value} {ins : Inputs}
    (hkeys : (ins.map (·.1)).Nodup) (hparam : param ∈ ins.map (·.1)) :
    put param (.literal v) ins = assign param v ins := by
  obtain ⟨ins₁, e, ins₂, rfl, h₁, h₂⟩ := Form.exists_split hparam hkeys
  have hassign : assign param v (ins₁ ++ (param, e) :: ins₂) = ins₁ ++ (param, .literal v) :: ins₂ :=
    map_ite_middle rfl ⟨h₁, h₂⟩
  rw [put_append h₁, hassign]

namespace Scene

open Form (Leaf)

variable {S : Scene} {ws₁ ws₂ : List Workflow} {w w' : Workflow} {es : List (String × Form)}
  {old new : String} {d d' : Draft}

/-- Writing a name into an input of one of the nodes. -/
theorem Hosts.assign {i : Nat} {n : NodeDef} {param : String} {ns₁ ns₂ : List NodeDef}
    (h : S.Hosts ws₁ w ws₂) (hnew : Form.isKey new) (hes : Nodes es (ns₁ ++ n :: ns₂))
    (hd : d.outline = S.slot.fill (.map es)) (hline : d.nodeLine w.name n.id = .ok i)
    (hparam : param ∈ n.inputs.map (·.1)) : ∃ es',
      (d.outline.ensureBlock i "inputs").1.setBlock (d.outline.ensureBlock i "inputs").2 param
        [Outline.literalLine (.str new)] = S.slot.fill (.map es') ∧
      Nodes es' (ns₁ ++ { n with inputs := InputExpr.assign param (.str new) n.inputs } :: ns₂) := by
  have hl := Form.Leaf.isSound_string hnew
  have hload (owner : String) : Document.loadValue owner param (Form.literal (.string new)).value =
      .ok (.literal (.str new)) := by
    rw [Form.loadValue_literal, Form.Leaf.value_string hl]
  obtain ⟨es', hwrite, hes'⟩ := h.putInput hes hd hline (hes.isKey_input (by simp) hparam)
    (Form.isSound_literal hl) nofun hload
  have hlines : [Outline.literalLine (.str new)] = (Form.literal (.string new)).lines := by
    have htext : Outline.inlineOrNull (.str new) = (Leaf.string new).text :=
      (Form.Leaf.text_string new).symm
    rw [Outline.literalLine, htext]
    rfl
  refine ⟨es', hlines ▸ hwrite, ?_⟩
  have hmiddle := map_middle hes.nodup_ids fun m =>
    { m with inputs := InputExpr.put param (.literal (.str new)) m.inputs }
  rw [← InputExpr.put_literal (hes.distinct (by simp)).nodup hparam]
  exact hmiddle ▸ hes'

/-- Renaming the variable in the inputs that assign it, node by node. -/
theorem Hosts.reassign (h : S.Hosts ws₁ w' ws₂) (hname : w'.name = w.name) (hnew : Form.isKey new)
    (hes : Nodes es (w.nodes.map fun n => { n with inputs := renameVariables old new n.inputs }))
    (hd : d.outline = S.slot.fill (.map es)) (hok : d.reassign w old new = .ok d') :
    ∃ es', d'.outline = S.slot.fill (.map es') ∧
      Nodes es' (w.nodes.map (·.renameVariable d.catalog old new)) := by
  have hsame (n : NodeDef) : (renameVariables old new n.inputs).map (·.1) = n.inputs.map (·.1) := by
    rw [InputExpr.renameVariables_eq_map, List.map_map]
    rfl
  have hkeys (n : NodeDef) (hn : n ∈ w.nodes) : (n.inputs.map (·.1)).Nodup := by
    have hdistinct := (hes.distinct (List.mem_map_of_mem hn)).nodup
    rwa [hsame] at hdistinct
  -- The nodes up to some point have both changes, those behind it only refer to the new variable.
  let P (done : List NodeDef) (b : Draft) : Prop := b.catalog = d.catalog ∧ ∃ es' rest,
    w.nodes = done ++ rest ∧ b.outline = S.slot.fill (.map es') ∧
      Nodes es' (done.map (·.renameVariable d.catalog old new) ++
        rest.map fun n => { n with inputs := renameVariables old new n.inputs })
  have hdone : P w.nodes d' := by
    refine foldlM_carries (P := P) ?_ ⟨rfl, es, w.nodes, rfl, hd, hes⟩ hok
    rintro done n rest b b' hsplit ⟨hcatalog, es₁, rest', hrest, hb, hes₁⟩ hstep
    obtain rfl : rest' = n :: rest := List.append_cancel_left (hrest.symm.trans hsplit)
    have hn : n ∈ w.nodes := by simp [hsplit]
    have hnodes : w.nodes = done ++ [n] ++ rest := by simpa using hsplit
    cases hassigned : b.assignedInput? n old with
    | none =>
      rw [hassigned] at hstep
      cases hstep
      have hself : n.renameVariable b.catalog old new =
          { n with inputs := renameVariables old new n.inputs } :=
        NodeDef.renameVariable_of_none (hkeys n hn) hassigned
      refine ⟨hcatalog, es₁, rest, hnodes, hb, ?_⟩
      rw [List.map_append, List.map_singleton, ← hcatalog, hself, List.append_assoc, hcatalog]
      exact hes₁
    | some param =>
      rw [hassigned] at hstep
      obtain ⟨i, hi, hstep⟩ := bind_eq_ok.mp hstep
      cases hstep
      have hset : n.renameVariable b.catalog old new = { n with
          inputs := InputExpr.assign param (.str new) (renameVariables old new n.inputs) } :=
        NodeDef.renameVariable_of_some (hkeys n hn) hassigned
      have hfirst := (NodeDef.assignedInput?_eq_some.mp hassigned).2
      have hparam : param ∈ (renameVariables old new n.inputs).map (·.1) :=
        (hsame n).symm ▸ List.mem_map_of_mem (mem_of_firstOf? hfirst)
      rw [← hname] at hi
      obtain ⟨es₂, hwrite, hes₂⟩ := h.assign hnew hes₁ hb hi hparam
      refine ⟨hcatalog, es₂, rest, hnodes, hwrite, ?_⟩
      rw [List.map_append, List.map_singleton, ← hcatalog, hset, List.append_assoc, hcatalog]
      exact hes₂
  obtain ⟨-, es', rest, hrest, houtline, hes'⟩ := hdone
  obtain rfl : rest = [] := by simpa using hrest
  exact ⟨es', houtline, by simpa using hes'⟩

end Scene

namespace Form

/-- Whether workflows begin with their nodes is told like that of any other section. -/
theorem nodesBelow_eq (F : Form) : F.nodesBelow = F.opensWithout "nodes" := by
  cases F with
  | map roots =>
    rw [nodesBelow, opensWithout]
    cases firstOf? "workflows" roots with
    | none => rfl
    | some g =>
      cases g with
      | seq items =>
        refine congrArg items.all (funext fun f => ?_)
        cases f with
        | map es => cases es <;> rfl
        | _ => rfl
      | _ => rfl
  | _ => rfl

/-- Variables of which one has another name. -/
theorem namedValues_rename {vs₁ vs₂ : List (String × Form)} {old new : String} {f : Form}
    (h : old ∉ vs₁.map (·.1) ∧ old ∉ vs₂.map (·.1)) :
    namedValues (vs₁ ++ (new, f) :: vs₂) = (namedValues (vs₁ ++ (old, f) :: vs₂)).map fun p =>
      if p.1 = old then (new, p.2) else p := by
  rw [← keys_namedValues, ← keys_namedValues] at h
  rw [namedValues_append, namedValues_append, namedValues_cons, namedValues_cons]
  exact (map_ite_middle (x := (old, f.value)) (g := fun p => (new, p.2)) rfl h).symm

end Form

namespace Edit

variable {c : Catalog} {F g : Form} {d : Document} {w : Workflow} {S : Section} {old new : String}
  {after : Draft} {id : Option String} {ws₁ ws₂ : List Workflow}

/-- The name is changed where the variable is declared, and in the lines of the workflow; what is left
are the inputs that assign it. -/
theorem exists_respelled (hkey : S.key = "variables") (hS : S.Holds F g w)
    (haround : S.Around ws₁ w ws₂) (hw : d.workflow? w.name = some w) (hne : old ≠ new)
    (hnew : Form.isKey new)
    (hrun : (renameVariable w.name old new).run ⟨c, d, Outline.ofChars F.chars⟩ = .ok (after, id)) :
    ∃ vs : List (String × Form), Form.isKey old ∧ (Form.map vs).isSound ∧
      (Form.namedValues vs = w.vars.map fun p => if p.1 = old then (new, p.2) else p) ∧
        (⟨c, d, S.dash.fill (respellEntries "variable" old new false (S.entries (.map vs)))⟩ : Draft).reassign
          w old new = .ok after := by
  let start : Draft := ⟨c, d, Outline.ofChars F.chars⟩
  obtain ⟨hvars, hline⟩ : w.vars = _ ∧ start.variablesLine w.name = _ := exists_inside hkey hS
  obtain ⟨hvs, hnodup⟩ := Form.sound_inside hS.sound
  have hmem (name : String) : (w.valueOf? name).isSome ↔ name ∈ g.inside.map (·.1) := by
    rw [Workflow.valueOf?, isSome_firstOf?, hvars, Form.keys_namedValues]
  have hok := Draft.ok_of_workflow (run_changed hrun) hw
  rw [if_neg hne] at hok
  split at hok
  · cases hok
  · rename_i hthere
    rw [Bool.not_eq_true, Option.isNone_eq_false_iff, hmem] at hthere
    split at hok
    · cases hok
    · rename_i hfresh
      rw [hmem] at hfresh
      obtain ⟨vs₁, f, vs₂, hsplit, h₁, h₂⟩ := Form.exists_split hthere hnodup
      rw [hsplit] at hvs hnodup hfresh hvars hline
      obtain ⟨hs₁, hold, hf, hs₂⟩ := Slot.sound_entry hvs
      have hsound : (Form.map (vs₁ ++ (new, f) :: vs₂)).isSound := by
        refine Form.isSound_map.mpr ⟨by simp, ?_, Form.entriesSound_append.mpr
          ⟨hs₁, Form.entriesSound_cons.mpr ⟨hnew, hf, hs₂⟩⟩⟩
        simp only [List.map_append, List.map_cons, List.mem_append, List.mem_cons, not_or] at hfresh
        rw [List.map_append, List.map_cons, List.nodup_middle, List.nodup_cons] at hnodup ⊢
        rw [List.mem_append, not_or]
        exact ⟨⟨hfresh.1, hfresh.2.2⟩, hnodup.2⟩
      refine ⟨_, hold, hsound, by rw [hvars, Form.namedValues_rename ⟨h₁, h₂⟩], ?_⟩
      obtain ⟨⟨vars, line⟩, hvarsLine, hok⟩ := bind_eq_ok.mp hok
      obtain ⟨rfl, rfl⟩ := Prod.mk.inj (Except.ok.inj (hline.symm.trans hvarsLine))
      have hfind : (S.slot.fill (.map (vs₁ ++ (old, f) :: vs₂))).find? S.slot.line old = some _ :=
        Slot.find?_fill_append hvs h₁
      simp only [hfind, Slot.renameKey_fill hvs hnew] at hok
      have hload := Document.loadWorkflow_variables hkey
        (rfl : (Form.map (vs₁ ++ (new, f) :: vs₂)).value = _) hS.load
      have hspan := S.workflowLine?_fill (Section.isSound_entries hsound) haround.before hload
        (fresh_of_nodup haround.names).1
      rw [← Section.fill_slot] at hspan
      obtain ⟨span, hspan', hok⟩ := bind_eq_ok.mp hok
      obtain ⟨i, hi, hspan'⟩ := bind_eq_ok.mp hspan'
      obtain rfl := Option.some.inj (hspan.symm.trans (Draft.workflowLine_eq_ok.mp hi))
      cases hspan'
      have hlines := Dash.mapLines_fill (d := S.dash) (Line.renameVariable_respells old new)
        (Section.isSound_entries (S := S) hsound)
      rw [← Section.fill_slot] at hlines
      simpa only [Outline.span, Draft.withOutline, hlines] using hok

/-- Renaming the variable in the inputs that assign it, once it is renamed in all lines. -/
theorem exists_reassigned {T : Site} {es : List (String × Form)} {v : Workflow} {d' : Document}
    (hes : (Form.map es).isSound) (hbelow : (T.form (.map es)).nodesBelow)
    (haround : T.Around ws₁ v ws₂) (hname : v.name = w.name) (hnew : Form.isKey new)
    (hnodes : v.nodes = w.nodes.map fun n => { n with inputs := renameVariables old new n.inputs })
    (hload : Document.loadWorkflow (Form.map es).value = .ok v)
    (hok : (⟨c, d, T.dash.fill es⟩ : Draft).reassign w old new = .ok after)
    (hd' : Document.load (String.ofList after.outline.toChars) = .ok d') :
    d' = ⟨ws₁ ++ { v with nodes := w.nodes.map (·.renameVariable c old new) } :: ws₂⟩ ∧
      ∃ F' : Form, F'.isDocument ∧ after.outline.toChars = F'.chars := by
  have hsound := T.isSound_form hes
  have hdoc : Document.ofValue (T.form (.map es)).value = .ok ⟨ws₁ ++ v :: ws₂⟩ :=
    Site.ofValue_form.mpr ⟨ws₁, v, ws₂, rfl, haround, hload⟩
  have hform : (T.form (.map es)).isDocument := by
    simp only [Form.isDocument, Bool.and_eq_true]
    exact ⟨⟨hsound, rfl⟩, hbelow⟩
  by_cases hnil : w.nodes = []
  · rw [Draft.reassign, hnil] at hok
    cases hok
    rw [Site.fill_eq_form, Form.toChars_lines T.lines_form_ne_nil] at hd' ⊢
    rw [Document.load, String.toList_ofList] at hd'
    obtain rfl := Except.ok.inj (hdoc.symm.trans (Form.ofValue_of_ofChars hsound rfl hd'))
    refine ⟨?_, _, hform, rfl⟩
    rw [hnil, List.map_nil] at hnodes ⊢
    rw [← hnodes]
  · have hmem : v ∈ ws₁ ++ v :: ws₂ := by simp
    obtain ⟨S, es', vs₁, vs₂, heq, hes', hsplit, hS, hloaded⟩ := Scene.exists_form hsound hbelow
      hdoc hmem (by simpa [hnodes] using hnil)
    obtain ⟨hne₁, hne₂⟩ := ne_of_nodup haround.names
    obtain ⟨rfl, -, rfl⟩ := (List.append_cons_inj_of_notMem (fun hv => hne₁ v hv rfl)
      fun hv => hne₂ v hv rfl).mp (Document.mk.inj hsplit)
    have hosts : S.Hosts ws₁ v ws₂ := ⟨hS, _, hloaded⟩
    have hfill : T.dash.fill es = S.slot.fill (.map es') := by
      rw [Site.fill_eq_form, heq, Scene.fill_eq_form]
    rw [hnodes] at hes'
    obtain ⟨es₁, houtline, hes₁⟩ := hosts.reassign hname hnew hes' hfill hok
    rw [houtline] at hd' ⊢
    exact hosts.exists_document hes₁ (heq ▸ hform) hd'

/-- In a text in block style, in which no workflow begins with its variables and nothing but
references reads as a use of the variable, renaming a variable changes its name where it is declared,
in each reference at any depth and in each input that assigns it, and nothing else. The text is in
block style again. -/
theorem renamed_of_apply (c : Catalog) (F : Form) (d : Document) (w : Workflow)
    (name old new : String) (r : Edited) (hF : F.isDocument) (hopens : F.opensWithout "variables")
    (hd : Document.load (String.ofList F.chars) = .ok d) (hw : d.workflow? name = some w)
    (hnew : Form.isKey new) (hclear : w.looksLike old new = false)
    (hr : (renameVariable name old new).apply c (String.ofList F.chars) = .ok r) :
    ∃ (F' : Form) (d' : Document), F'.isDocument ∧ r.text = String.ofList F'.chars ∧
      Document.load r.text = .ok d' ∧
      Document.Changed name (fun w w' => w' = w.renameVariable c old new) d d' := by
  obtain ⟨d₀, after, id, d', hd₀, hrun, htext, hd'⟩ := exists_run hr
  obtain rfl : d = d₀ := Except.ok.inj (hd.symm.trans hd₀)
  obtain rfl : w.name = name := by simpa using List.find?_some hw
  rw [String.toList_ofList] at hrun
  have hform := hF
  simp only [Form.isDocument, Bool.and_eq_true] at hform
  obtain ⟨⟨hsound, hblock⟩, hbelow⟩ := hform
  obtain ⟨S, g, ws₁, ws₂, hkey, hdoc, haround, hS⟩ := Section.exists_section hsound hblock hopens
    (Form.isKey_ownWord (by decide)) (by decide) hd hw
  by_cases hne : old = new
  · -- Nothing is written, and nothing is to change.
    subst hne
    obtain ⟨w', hw', hok⟩ := bind_eq_ok.mp (run_changed hrun)
    rw [if_pos rfl] at hok
    have hafter : after.outline = Outline.ofChars F.chars := by
      split at hok
      · cases hok
      · cases hok
        rfl
    obtain ⟨T, es, -, -, rfl, -⟩ := Site.exists_site hsound
      (Form.ofValue_of_ofChars hsound hblock (by rwa [Document.load, String.toList_ofList] at hd))
      (List.mem_of_find?_eq_some hw)
    rw [hafter, Form.outline_chars hsound T.lines_form_ne_nil,
      Form.toChars_lines T.lines_form_ne_nil] at htext
    refine ⟨_, d, hF, htext, htext ▸ hd, ?_⟩
    rw [hdoc]
    exact Document.changed_of_nodup haround.names w.renameVariable_self.symm
  · obtain ⟨vs, hold, hvs, hvars, hok⟩ := exists_respelled hkey hS haround hw hne hnew hrun
    have hstring := Form.Leaf.isSound_string hnew
    have hload := Document.loadWorkflow_variables hkey (rfl : (Form.map vs).value = _) hS.load
    rw [hvars] at hload
    simp only [Workflow.looksLike, Bool.or_eq_false_iff, List.any_eq_false, Bool.not_eq_true] at hclear
    let es' := respellEntries "variable" old new false (S.entries (.map vs))
    let v : Workflow := { w with
      vars := w.vars.map fun p => if p.1 = old then (new, p.2) else p
      nodes := w.nodes.map fun n => { n with inputs := renameVariables old new n.inputs } }
    have hloaded : Document.loadWorkflow (Form.map es').value = .ok v := by
      have hvarsClear := (Value.entriesRead_variable hold _).trans hclear.1
      have hnodesClear (n : NodeDef) (hn : n ∈ w.nodes) : n.reads "variable" old = false :=
        (NodeDef.reads_variable hold).trans (hclear.2 n hn)
      have hrespelled := Form.loadWorkflow_respell false (by decide) hstring hload
        hvarsClear hnodesClear
      simpa only [InputExpr.respellInputs_variable] using hrespelled
    have hsound' : (Form.map es').isSound :=
      Form.isSound_respell hstring _ false (Section.isSound_entries hvs)
    have hbelow' : (S.form (.map es')).nodesBelow := by
      rw [Form.nodesBelow_eq] at hbelow ⊢
      exact (Site.opensWithout_form (hS.opens (.map vs) _ hbelow)).2 _ _
    rw [htext] at hd'
    obtain ⟨rfl, F', hF', hchars⟩ := exists_reassigned (v := v) (w := w) hsound' hbelow'
      (haround.congr rfl) rfl hnew rfl hloaded hok hd'
    refine ⟨F', _, hF', by rw [htext, hchars], htext ▸ hd', ?_⟩
    rw [hdoc]
    exact Document.changed_of_nodup haround.names rfl

/-- The variable `x` is assigned, in terms of itself. -/
def assigning : Form :=
  let word (s : String) : Form := .leaf (.plain s.toList)
  .map [("workflows", .seq [.map [("name", word "m"), ("variables", .map [("x", word "1")]),
    ("nodes", .map [("s", .map [("opcode", word "data_set_variable"), ("inputs", .map [
      ("VARIABLE", .map [("literal", word "x")]), ("VALUE", .map [("opcode", word "str_concat"),
        ("inputs", .map [("ITEM1", .map [("variable", word "x")])])])])])])]])]

set_option maxRecDepth 2000 in
theorem assigning_renamed : ∃ (F' : Form) (d d' : Document) (w : Workflow) (r : Edited),
    assigning.isDocument ∧ assigning.opensWithout "variables" ∧
    Document.load (String.ofList assigning.chars) = .ok d ∧ d.workflow? "m" = some w ∧
    w.looksLike "x" "y" = false ∧
    (Edit.renameVariable "m" "x" "y").apply Catalog.builtin (String.ofList assigning.chars) = .ok r ∧
    F'.isDocument ∧ r.text = String.ofList F'.chars ∧ Document.load r.text = .ok d' ∧
    Document.Changed "m" (fun w w' => w' = w.renameVariable Catalog.builtin "x" "y") d d' := by
  have hF : assigning.isDocument ∧ assigning.opensWithout "variables" := by decide +kernel
  have hcheck : (documents? Catalog.builtin (.renameVariable "m" "x" "y") assigning.chars).any
      fun ds => (ds.1.workflow? "m").any fun w => !w.looksLike "x" "y" := by decide +kernel
  obtain ⟨d, r, d₁, hd, hr, -, hany⟩ := exists_apply rfl hcheck
  obtain ⟨w, hw, hclear⟩ := (Option.any_eq_true _ _).mp hany
  rw [Bool.not_eq_true'] at hclear
  obtain ⟨F', d', hF', htext, hd', hchanged⟩ := renamed_of_apply Catalog.builtin assigning d w "m"
    "x" "y" r hF.1 hF.2 hd hw (by decide +kernel) hclear hr
  exact ⟨F', d, d', w, r, hF.1, hF.2, hd, hw, hclear, hr, hF', htext, hd', hchanged⟩

/-- A reference to the variable `x` inside inputs in braces. -/
def embraced : String :=
  "workflows:
  - name: m
    variables:
      x: 1
    nodes:
      p:
        opcode: io_print
        inputs: {STRING: {variable: x}}
"

set_option maxRecDepth 2000 in
/-- The reference to `x` stays when `x` is renamed. -/
theorem rename_embraced : ¬ ∀ (text name old new : String) (d : Document) (r : Edited),
    Document.load text = .ok d →
    (Edit.renameVariable name old new).apply Catalog.builtin text = .ok r →
    ∃ d', Document.load r.text = .ok d' ∧
      Document.Changed name (fun w w' => w' = w.renameVariable Catalog.builtin old new) d d' := by
  intro h
  obtain ⟨cs, htext, hcheck⟩ : ∃ cs, embraced = String.ofList cs ∧
      (documents? Catalog.builtin (.renameVariable "m" "x" "y") cs).any (fun ds =>
        (ds.1.workflow? "m").isSome && (ds.2.workflow? "m").any (·.refers "x")) :=
    ⟨_, rfl, by decide +kernel⟩
  obtain ⟨d, r, d₁, hd, hr, hd₁, hdocs⟩ := exists_apply htext hcheck
  simp only [Bool.and_eq_true, Option.any_eq_true, Option.isSome_iff_exists] at hdocs
  obtain ⟨⟨w, hw⟩, w₁, hw₁, hrefers⟩ := hdocs
  obtain ⟨d', hd', hchanged⟩ := h embraced "m" "x" "y" d r hd hr
  obtain rfl : d₁ = d' := Except.ok.inj (hd₁.symm.trans hd')
  obtain ⟨w', hw', rfl⟩ := hchanged.exists_workflow? (fun v v' hv => by rw [hv]; rfl) hw
  obtain rfl := Option.some.inj (hw₁.symm.trans hw')
  rw [Workflow.refers_renameVariable (by decide)] at hrefers
  cases hrefers

end Edit

end BlockFlow
