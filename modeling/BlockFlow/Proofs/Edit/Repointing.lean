import BlockFlow.Proofs.Edit.Reload
import BlockFlow.Proofs.Loading

/-!
Documents that differ in pointers alone.
-/

namespace BlockFlow

/-- The second node is the first with the targets of its pointers given by `f`. -/
structure NodeDef.Repointed (f : LinkSlot → Option String → Option String) (n n' : NodeDef) :
    Prop where
  id : n'.id = n.id
  opcode : n'.opcode = n.opcode
  inputs : n'.inputs = n.inputs
  target? : ∀ slot, n'.target? slot = f slot (n.target? slot)

namespace Workflow

/-- The second workflow is the first with the targets of all pointers given by `f`. -/
structure Repointed (f : String → LinkSlot → Option String → Option String) (w w' : Workflow) :
    Prop where
  name : w'.name = w.name
  interface : w'.interface = w.interface
  vars : w'.vars = w.vars
  nodes : List.Forall₂ (fun n n' => NodeDef.Repointed (f n.id) n n') w.nodes w'.nodes

variable {f : String → LinkSlot → Option String → Option String} {w w' : Workflow}

theorem Repointed.exists_node? {n : NodeDef} {id : String} (h : Repointed f w w')
    (hn : w.node? id = some n) : ∃ n', w'.node? id = some n' ∧ NodeDef.Repointed (f id) n n' := by
  obtain ⟨n', hn', hnode⟩ := exists_find?_of_forall₂ (q := fun n => n.id = id) h.nodes
    (fun m m' hm => by rw [hm.id]) hn
  rw [node?_id hn] at hnode
  exact ⟨n', hn', hnode⟩

end Workflow

namespace Document

/-- The second document is the first with another workflow `name`. -/
def Changed (name : String) (R : Workflow → Workflow → Prop) (d d' : Document) : Prop :=
  List.Forall₂ (fun w w' => if w.name = name then R w w' else w' = w) d.workflows d'.workflows

/-- The second document is the first with the targets of all pointers in the workflow `name` given
by `f`. -/
def Repointed (name : String) (f : String → LinkSlot → Option String → Option String) :
    Document → Document → Prop := Changed name (Workflow.Repointed f)

variable {name : String} {f : String → LinkSlot → Option String → Option String}
  {R : Workflow → Workflow → Prop} {d d' : Document} {w : Workflow}

/-- A document is changed where one of its workflows is. -/
theorem changed_of_nodup {ws₁ ws₂ : List Workflow} {w' : Workflow}
    (hnames : ((ws₁ ++ w :: ws₂).map (·.name)).Nodup) (hR : R w w') :
    Changed w.name R ⟨ws₁ ++ w :: ws₂⟩ ⟨ws₁ ++ w' :: ws₂⟩ := by
  obtain ⟨hne₁, hne₂⟩ := ne_of_nodup hnames
  have hself (ws : List Workflow) (hne : ∀ v ∈ ws, v.name ≠ w.name) :
      List.Forall₂ (fun v v' => if v.name = w.name then R v v' else v' = v) ws ws :=
    List.forall₂_same.mpr fun v hv => by rw [if_neg (hne v hv)]
  refine List.rel_append (hself ws₁ hne₁) (.cons ?_ (hself ws₂ hne₂))
  rw [if_pos rfl]
  exact hR

/-- Where names are distinct, one workflow is changed and those around it stay. -/
theorem Changed.exists_split (h : Changed name R d d') (hw : d.workflow? name = some w)
    (hnames : (d.workflows.map (·.name)).Nodup) : ∃ ws₁ ws₂ w', d = ⟨ws₁ ++ w :: ws₂⟩ ∧
      d' = ⟨ws₁ ++ w' :: ws₂⟩ ∧ w.name = name ∧ R w w' ∧ ∀ v ∈ ws₁ ++ ws₂, v.name ≠ name := by
  have hname : w.name = name := by simpa using List.find?_some hw
  obtain ⟨ws₁, ws₂, hws⟩ := List.append_of_mem (List.mem_of_find?_eq_some hw)
  obtain ⟨ws⟩ := d
  obtain ⟨vs⟩ := d'
  obtain rfl : ws = ws₁ ++ w :: ws₂ := hws
  obtain ⟨hne₁, hne₂⟩ := ne_of_nodup hnames
  rw [hname] at hne₁ hne₂
  have hsame {ws ws' : List Workflow} (hne : ∀ v ∈ ws, v.name ≠ name)
      (h : List.Forall₂ (fun w w' => if w.name = name then R w w' else w' = w) ws ws') :
      ws' = ws := by
    induction h with
    | nil => rfl
    | cons hv _ ih =>
      obtain ⟨hne, hrest⟩ := List.forall_mem_cons.mp hne
      rw [if_neg hne] at hv
      rw [hv, ih hrest]
  obtain ⟨zs₁, zs, rfl, h₁, hrest⟩ := exists_append_of_forall₂ h
  cases hrest with
  | cons hv h₂ =>
    rw [if_pos hname] at hv
    obtain rfl := hsame hne₁ h₁
    obtain rfl := hsame hne₂ h₂
    exact ⟨_, _, _, rfl, rfl, hname, hv, List.forall_mem_append.mpr ⟨hne₁, hne₂⟩⟩

theorem Changed.exists_workflow? (h : Changed name R d d') (hR : ∀ v v', R v v' → v'.name = v.name)
    (hw : d.workflow? name = some w) : ∃ w', d'.workflow? name = some w' ∧ R w w' := by
  have hsame : ∀ v v', (if v.name = name then R v v' else v' = v) →
      decide (v.name = name) = decide (v'.name = name) := by
    intro v v' hv
    split at hv
    · rw [hR v v' hv]
    · rw [hv]
  obtain ⟨w', hw', hchange⟩ := exists_find?_of_forall₂ h hsame hw
  have hname : w.name = name := by simpa using List.find?_some hw
  rw [if_pos hname] at hchange
  exact ⟨w', hw', hchange⟩

theorem Repointed.pointer? {id : String} {n : NodeDef} (h : Repointed name f d d')
    (hw : d.workflow? name = some w) (hn : w.node? id = some n) (slot : LinkSlot) :
    ∃ w', d'.workflow? name = some w' ∧ w'.pointer? id slot = f id slot (w.pointer? id slot) := by
  obtain ⟨w', hw', hpoint⟩ := Changed.exists_workflow? h (fun _ _ h => h.name) hw
  obtain ⟨n', hn', hnode⟩ := hpoint.exists_node? hn
  refine ⟨w', hw', ?_⟩
  simp only [Workflow.pointer?, hn, hn', Option.bind_some, hnode.target?]

end Document

namespace Edit

/-- Targets once a pointer of a node has been linked to another node: nothing else leads there. -/
def linked (source : String) (slot : LinkSlot) (target : String) (id : String) (s : LinkSlot)
    (old : Option String) : Option String :=
  if id = source ∧ s = slot then some target else if old = some target then none else old

/-- Targets once a pointer of a node has been cleared. -/
def unlinked (source : String) (slot : LinkSlot) (id : String) (s : LinkSlot)
    (old : Option String) : Option String :=
  if id = source ∧ s = slot then none else old

/-- The branches of `a` are written in braces. -/
def braced : String :=
  "workflows:
  - name: m
    nodes:
      start:
        opcode: workflow_start
        next: a
      a:
        opcode: control_if
        branches: \x7bTHEN: t\x7d
      t:
        opcode: io_print
"

set_option maxRecDepth 2000 in
/-- Branches in braces are not cleared. -/
theorem disconnect_braced : ¬ ∀ (text : String) (d : Document) (name source : String)
    (slot : LinkSlot) (r : Edited), Document.load text = .ok d →
    (∀ target, (Edit.connect name source slot target).apply Catalog.builtin text = .ok r →
      ∃ d', Document.load r.text = .ok d' ∧
        Document.Repointed name (linked source slot target) d d') ∧
    ((Edit.disconnect name source slot).apply Catalog.builtin text = .ok r →
      ∃ d', Document.load r.text = .ok d' ∧
        Document.Repointed name (unlinked source slot) d d') := by
  intro h
  obtain ⟨cs, htext, hcheck⟩ : ∃ cs, braced = String.ofList cs ∧
      (documents? Catalog.builtin (.disconnect "m" "a" (.branch "THEN")) cs).any (fun (d, d') =>
        (d.workflow? "m").any (fun w => (w.node? "a").isSome) &&
        (d'.workflow? "m").any (fun w => w.pointer? "a" (.branch "THEN") = some "t")) :=
    ⟨_, rfl, by decide +kernel⟩
  obtain ⟨d, r, d', hd, hr, hd', hdocs⟩ := exists_apply htext hcheck
  simp only [Bool.and_eq_true, Option.any_eq_true, decide_eq_true_eq,
    Option.isSome_iff_exists] at hdocs
  obtain ⟨⟨w, hw, n, hn⟩, v, hv, hkept⟩ := hdocs
  obtain ⟨d₂, hd₂, hpoint⟩ := (h braced d "m" "a" (.branch "THEN") r hd).2 hr
  obtain rfl : d' = d₂ := Except.ok.inj (hd'.symm.trans hd₂)
  obtain ⟨w', hw', hcleared⟩ := hpoint.pointer? hw hn (.branch "THEN")
  obtain rfl : v = w' := Option.some.inj (hv.symm.trans hw')
  rw [hkept, unlinked, if_pos ⟨rfl, rfl⟩] at hcleared
  cases hcleared

end Edit

end BlockFlow
