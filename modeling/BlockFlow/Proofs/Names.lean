import BlockFlow.Proofs.KeyNames
import BlockFlow.Proofs.Loading

/-!
Names in loaded documents. Each list of names comes from the keys of one mapping of the text. Main
statement: workflow names are not empty and differ, and in every other list a name is repeated only
where a number or a truth value is a key besides the string that is its written form.
-/

namespace BlockFlow

namespace InputExpr

mutual

/-- The names of the inputs or arguments at every level of a value. -/
def nameLists : InputExpr → List (List String)
  | .inline _ _ inputs => inputs.map (·.1) :: nameListsIn inputs
  | .call _ args => args.map (·.1) :: nameListsIn args
  | _ => []

def nameListsIn : Inputs → List (List String)
  | [] => []
  | (_, e) :: rest => e.nameLists ++ nameListsIn rest

end

theorem mem_nameListsIn {names : List String} {inputs : Inputs} :
    names ∈ nameListsIn inputs ↔ ∃ i ∈ inputs, names ∈ i.2.nameLists := by
  induction inputs with
  | nil => simp [nameListsIn]
  | cons i inputs ih =>
    simp only [nameListsIn, List.mem_append, ih, List.mem_cons, exists_eq_or_imp]

end InputExpr

/-- The names of the branches of a node, and those of its inputs at every level. -/
def NodeDef.nameLists (n : NodeDef) : List (List String) :=
  n.branchNames :: n.inputs.map (·.1) :: InputExpr.nameListsIn n.inputs

/-- The ids of the nodes of a workflow, the names of its variables and those in its nodes. -/
def Workflow.nameLists (w : Workflow) : List (List String) :=
  w.nodeIds :: w.vars.map (·.1) :: w.nodes.flatMap NodeDef.nameLists

namespace Document

open Outcome
open Yaml (Value)

variable {owner name key : String} {entries : List (Value × Value)} {v : Value}

/-- The names in a loaded value come from a section of a mapping. -/
theorem loadValue_eq_ok {e : InputExpr} (h : loadValue owner key v = .ok e) :
    e.nameLists = [] ∨ ∃ entries owner' name inputs, v = .map entries ∧
      loadSection owner' name entries = .ok inputs ∧
      e.nameLists = inputs.map (·.1) :: InputExpr.nameListsIn inputs := by
  cases v with
  | map entries =>
    rw [loadValue] at h
    split at h
    · cases h
      exact .inl rfl
    split at h
    · cases h
      exact .inl rfl
    · cases h
    split at h
    · cases h
      exact .inl rfl
    · cases h
    split at h
    · obtain ⟨args, hargs, h⟩ := bind_eq_ok.mp h
      cases h
      exact .inr ⟨entries, owner, "args", args, rfl, hargs, rfl⟩
    · cases h
    split at h
    · obtain ⟨id, -, h⟩ := bind_eq_ok.mp h
      obtain ⟨inputs, hinputs, h⟩ := bind_eq_ok.mp h
      cases h
      exact .inr ⟨entries, _, "inputs", inputs, rfl, hinputs, rfl⟩
    · cases h
    · cases h
  | seq items => cases h
  | _ =>
    cases h
    exact .inl rfl

theorem exists_of_mem_forall₂ {α β : Type} {R : α → β → Prop} {xs : List α} {ys : List β} {y : β}
    (h : List.Forall₂ R xs ys) (hy : y ∈ ys) : ∃ x ∈ xs, R x y := by
  induction h with
  | nil => cases hy
  | @cons x y' xs ys hxy _ ih =>
    rcases List.mem_cons.mp hy with rfl | hy
    · exact ⟨x, List.mem_cons_self, hxy⟩
    · obtain ⟨x', hx', hrel⟩ := ih hy
      exact ⟨x', List.mem_cons_of_mem _ hx', hrel⟩

/-- What holds of the entries of a mapping tells something of the names of its keys. It holds of no
names, too, since sections may be absent. -/
structure Carries (P : List (Value × Value) → Prop) (Q : List String → Prop) : Prop where
  nil : Q []
  names : ∀ {entries names}, P entries → NamesOf entries names → Q names

variable {P : List (Value × Value) → Prop} {Q : List String → Prop}

theorem carries_onceUnlessSpelled : Carries Value.DistinctKeys OnceUnlessSpelled :=
  ⟨fun _ => .inl (Nat.zero_le 1), onceUnlessSpelled_of_distinctKeys⟩

theorem carries_nodup :
    Carries (fun entries => Value.DistinctKeys entries ∧ KindsApart entries) List.Nodup :=
  ⟨.nil, nodup_of_kindsApart⟩

theorem Carries.fst (owner : String) {α : Type} {R : Value × Value → String × α → Prop}
    {named : List (String × α)} (hc : Carries P Q) (here : P entries)
    (h : List.Forall₂ R entries named) (hname : ∀ e i, R e i → keyName owner e.1 = .ok i.1) :
    Q (named.map (·.1)) :=
  hc.names here ⟨owner, List.forall₂_map_right_iff.mpr (h.imp hname)⟩

/-- The names of loaded inputs, when those below them are known. -/
theorem Carries.inputs (hc : Carries P Q) {inputs : Inputs} (here : P entries)
    (h : loadInputs owner entries = .ok inputs)
    (hbelow : ∀ e ∈ entries, ∀ key value, loadValue owner key e.2 = .ok value →
      ∀ names ∈ value.nameLists, Q names) :
    ∀ names ∈ inputs.map (·.1) :: InputExpr.nameListsIn inputs, Q names := by
  have hparts := loadInputs_eq_ok h
  refine List.forall_mem_cons.mpr
    ⟨hc.fst owner here hparts fun _ _ hpart => hpart.1, fun names hnames => ?_⟩
  obtain ⟨i, hi, hmem⟩ := InputExpr.mem_nameListsIn.mp hnames
  obtain ⟨e, he, -, hload⟩ := exists_of_mem_forall₂ hparts hi
  exact hbelow e he _ _ hload names hmem

theorem Carries.value (hc : Carries P Q) {owner key : String} {v : Value} {e : InputExpr}
    (hv : v.Everywhere P) (h : loadValue owner key v = .ok e) : ∀ names ∈ e.nameLists, Q names := by
  rcases loadValue_eq_ok h with hnil | ⟨entries, owner', name, inputs, rfl, hsection, hlists⟩
  · rw [hnil]
    exact List.forall_mem_nil _
  · rw [hlists]
    rcases loadSection_eq_ok hsection with rfl | ⟨k, parts, hmem, hload⟩
    · exact List.forall_mem_cons.mpr ⟨hc.nil, List.forall_mem_nil _⟩
    · -- the values of a section are two mappings down
      obtain ⟨here, hbelow⟩ := Value.everywhere_map.mp ((Value.everywhere_map.mp hv).2 _ hmem)
      exact hc.inputs here hload fun e he key value hvalue => Carries.value hc (hbelow e he) hvalue
termination_by sizeOf v
decreasing_by
  subst v
  exact (Value.sizeOf_lt_of_mem_entries he).trans (Value.sizeOf_lt_of_mem_entries hmem)

theorem Carries.named (hc : Carries P Q) {inputs : Inputs}
    (hparts : ∀ e ∈ entries, e.2.Everywhere P)
    (h : loadSection owner name entries = .ok inputs) :
    ∀ names ∈ inputs.map (·.1) :: InputExpr.nameListsIn inputs, Q names := by
  rcases loadSection_eq_ok h with rfl | ⟨k, parts, hmem, hload⟩
  · exact List.forall_mem_cons.mpr ⟨hc.nil, List.forall_mem_nil _⟩
  · obtain ⟨here, hbelow⟩ := Value.everywhere_map.mp (hparts _ hmem)
    exact hc.inputs here hload fun e he key value hvalue => Carries.value hc (hbelow e he) hvalue

theorem Carries.node (hc : Carries P Q) {n : NodeDef} (hv : v.Everywhere P)
    (h : loadNode name v = .ok n) : ∀ names ∈ n.nameLists, Q names := by
  obtain ⟨entries, rfl, -, hinputs, hbranches⟩ := loadNode_eq_ok h
  have hparts := (Value.everywhere_map.mp hv).2
  refine List.forall_mem_cons.mpr ⟨?_, hc.named hparts hinputs⟩
  rcases hbranches with hnil | ⟨heads, hfield, hheads⟩
  · rw [NodeDef.branchNames, hnil]
    exact hc.nil
  · obtain ⟨k, hmem⟩ := exists_mem_of_field? hfield
    have here := (Value.everywhere_map.mp (hparts _ hmem)).1
    refine hc.fst name here (mapM_eq_ok.mp hheads) fun e i h => ?_
    obtain ⟨branch, hbranch, h⟩ := bind_eq_ok.mp h
    obtain ⟨head, -, h⟩ := bind_eq_ok.mp h
    cases h
    exact hbranch

theorem Carries.vars (hc : Carries P Q) {vars : List (String × Value)}
    (hparts : ∀ e ∈ entries, e.2.Everywhere P)
    (h : loadVariables owner (field? name entries) = .ok vars) : Q (vars.map (·.1)) := by
  unfold loadVariables at h
  split at h
  · cases h
    exact hc.nil
  · rename_i parts hfield
    obtain ⟨k, hmem⟩ := exists_mem_of_field? hfield
    have here := (Value.everywhere_map.mp (hparts _ hmem)).1
    refine hc.fst owner here (mapM_eq_ok.mp h) fun e i h => ?_
    obtain ⟨name, hname, h⟩ := bind_eq_ok.mp h
    cases h
    exact hname
  · cases h

theorem Carries.nodes (hc : Carries P Q) {nodes : List NodeDef}
    (hparts : ∀ e ∈ entries, e.2.Everywhere P)
    (h : loadNodes owner (field? name entries) = .ok nodes) :
    Q (nodes.map (·.id)) ∧ ∀ n ∈ nodes, ∀ names ∈ n.nameLists, Q names := by
  unfold loadNodes at h
  split at h
  · cases h
    exact ⟨hc.nil, List.forall_mem_nil _⟩
  · rename_i parts hfield
    obtain ⟨k, hmem⟩ := exists_mem_of_field? hfield
    obtain ⟨here, hbelow⟩ := Value.everywhere_map.mp (hparts _ hmem)
    have hloaded : List.Forall₂ (fun e n => keyName owner e.1 = .ok n.id ∧
        loadNode n.id e.2 = .ok n) parts nodes := by
      refine (mapM_eq_ok.mp h).imp fun e n h => ?_
      obtain ⟨id, hid, h⟩ := bind_eq_ok.mp h
      obtain ⟨_, -, heq, -⟩ := loadNode_eq_ok h
      subst heq
      exact ⟨hid, h⟩
    refine ⟨hc.names here ⟨owner, ?_⟩, fun n hn => ?_⟩
    · exact List.forall₂_map_right_iff.mpr (hloaded.imp fun _ _ hpart => hpart.1)
    · obtain ⟨e, he, -, hnode⟩ := exists_of_mem_forall₂ hloaded hn
      exact hc.node (hbelow e he) hnode
  · cases h

theorem Carries.workflow (hc : Carries P Q) {w : Workflow} (hv : v.Everywhere P)
    (h : loadWorkflow v = .ok w) : ∀ names ∈ w.nameLists, Q names := by
  obtain ⟨entries, rfl, -, hvars, hnodes⟩ := loadWorkflow_eq_ok h
  have hparts := (Value.everywhere_map.mp hv).2
  obtain ⟨hids, hbelow⟩ := hc.nodes hparts hnodes
  refine List.forall_mem_cons.mpr ⟨hids, List.forall_mem_cons.mpr ⟨?_, fun names hnames => ?_⟩⟩
  · exact hc.vars hparts hvars
  · obtain ⟨n, hn, hmem⟩ := List.mem_flatMap.mp hnames
    exact hbelow n hn names hmem

/-- A workflow of a loaded document is loaded from a part of the value of its text. -/
theorem exists_loadWorkflow {text : String} {d : Document} {w : Workflow}
    (h : load text = .ok d) (hw : w ∈ d.workflows) :
    ∃ v item, Yaml.load? text.toList = some v ∧ loadWorkflow item = .ok w ∧
      ∀ P, v.Everywhere P → item.Everywhere P := by
  rcases load_eq_ok h with hnil | ⟨entries, items, hread, hfield, hworkflows⟩
  · rw [hnil] at hw
    cases hw
  · obtain ⟨item, hitem, hload⟩ :=
      (mem_of_loadWorkflows hworkflows hw).resolve_left List.not_mem_nil
    obtain ⟨k, hmem⟩ := exists_mem_of_field? hfield
    refine ⟨.map entries, item, hread, hload, fun P hv => ?_⟩
    exact Value.everywhere_seq.mp ((Value.everywhere_map.mp hv).2 _ hmem) item hitem

/-- The workflows of a loaded document have distinct names that are not empty. In each list of names
in them a name occurs once, or twice when it is the written form of a number or a truth value. They
are distinct when no mapping of the text has such a key and a string key that is written like it. -/
theorem names_of_load (text : String) (d : Document) (h : load text = .ok d) :
    (∀ w ∈ d.workflows, w.name ≠ "") ∧ (d.workflows.map (·.name)).Nodup ∧
      (∀ w ∈ d.workflows, ∀ names ∈ w.nameLists, OnceUnlessSpelled names) ∧
      ((∀ v, Yaml.load? text.toList = some v → v.Everywhere KindsApart) →
        ∀ w ∈ d.workflows, ∀ names ∈ w.nameLists, names.Nodup) := by
  refine ⟨fun w hw => ?_, names_nodup_of_load h, fun w hw => ?_, fun hapart w hw => ?_⟩ <;>
    obtain ⟨v, item, hread, hload, hpart⟩ := exists_loadWorkflow h hw
  · obtain ⟨_, -, hname, -⟩ := loadWorkflow_eq_ok hload
    exact hname
  · exact carries_onceUnlessSpelled.workflow (hpart _ (Yaml.distinct_of_load? hread)) hload
  · have hboth := fun m hm => And.intro (Yaml.distinct_of_load? hread m hm) (hapart v hread m hm)
    exact carries_nodup.workflow (hpart _ hboth) hload

theorem exists_load {text : String} {cs : List Char} {p : Workflow → Bool}
    (htext : text = String.ofList cs)
    (h : (ofChars cs).toOption.any fun d => d.workflows.any p) :
    ∃ d, load text = .ok d ∧ ∃ w ∈ d.workflows, p w := by
  obtain ⟨d, hd, hany⟩ := (Option.any_eq_true _ _).mp h
  refine ⟨d, ?_, List.any_eq_true.mp hany⟩
  rw [htext, load, String.toList_ofList]
  exact toOption_eq_some.mp hd

/-- Nodes numbered by integers. -/
def numbered : String :=
  "workflows:
  - name: m
    nodes:
      1:
        opcode: io_print
        inputs: {STRING: {opcode: join, inputs: {A: x, B: y}}}
      2: {opcode: io_print}
"

set_option maxRecDepth 2000 in
theorem names_of_numbered : ∃ d, load numbered = .ok d ∧
    (∃ w ∈ d.workflows, w.nameLists = [["1", "2"], [], [], ["STRING"], ["A", "B"], [], []]) ∧
    (∀ v, Yaml.load? numbered.toList = some v → v.Everywhere KindsApart) ∧
    (∀ w ∈ d.workflows, w.name ≠ "") ∧ (d.workflows.map (·.name)).Nodup ∧
      (∀ w ∈ d.workflows, ∀ names ∈ w.nameLists, OnceUnlessSpelled names) ∧
      ∀ w ∈ d.workflows, ∀ names ∈ w.nameLists, names.Nodup := by
  obtain ⟨cs, htext, hcheck, hkinds⟩ : ∃ cs, numbered = String.ofList cs ∧
      ((ofChars cs).toOption.any fun d => d.workflows.any fun w =>
        w.nameLists = [["1", "2"], [], [], ["STRING"], ["A", "B"], [], []]) ∧
      (Yaml.load? cs).any fun v => v.mappings.all fun m =>
        m.all fun e => m.all fun e' => isStringKey e.1 = isStringKey e'.1 :=
    ⟨_, rfl, by decide +kernel, by decide +kernel⟩
  obtain ⟨d, hd, w, hw, hlists⟩ := exists_load htext hcheck
  have hapart : ∀ v, Yaml.load? numbered.toList = some v → v.Everywhere KindsApart := by
    intro v hv m hm owner name e he e' he' _ _
    rw [htext, String.toList_ofList] at hv
    rw [hv] at hkinds
    have hall := List.all_eq_true.mp hkinds m hm
    exact of_decide_eq_true (List.all_eq_true.mp (List.all_eq_true.mp hall e he) e' he')
  obtain ⟨hname, hworkflows, honce, hnodup⟩ := names_of_load numbered d hd
  exact ⟨d, hd, ⟨w, hw, of_decide_eq_true hlists⟩, hapart, hname, hworkflows, honce, hnodup hapart⟩

/-- The integer 1 and the string "1" as two nodes. -/
def twiceNamed : String :=
  "workflows:
  - name: m
    nodes:
      1: {opcode: workflow_start}
      \"1\": {opcode: io_print}
"

set_option maxRecDepth 2000 in
/-- Names in a loaded document may repeat. -/
theorem names_repeat : ¬ ∀ (text : String) (d : Document), load text = .ok d →
    (∀ w ∈ d.workflows, w.name ≠ "") ∧ (d.workflows.map (·.name)).Nodup ∧
      ∀ w ∈ d.workflows, ∀ names ∈ w.nameLists, names.Nodup := by
  intro h
  obtain ⟨cs, htext, hcheck⟩ : ∃ cs, twiceNamed = String.ofList cs ∧
      (ofChars cs).toOption.any fun d => d.workflows.any fun w => w.nodeIds = ["1", "1"] :=
    ⟨_, rfl, by decide +kernel⟩
  obtain ⟨d, hd, w, hw, hids⟩ := exists_load htext hcheck
  have hnodup := (h twiceNamed d hd).2.2 w hw w.nodeIds List.mem_cons_self
  rw [of_decide_eq_true hids] at hnodup
  exact absurd hnodup (by decide)

end Document

end BlockFlow
