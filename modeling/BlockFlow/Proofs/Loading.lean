import BlockFlow.Document.Load
import BlockFlow.Proofs.Outcome
import Mathlib.Data.List.Nodup

/-!
What loading a document checks, part by part. Main statement: its workflows have distinct names, so
each is the one found under its name.
-/

namespace BlockFlow.Document

open Outcome

section Parts

open Yaml (Value)

variable {owner name : String} {entries : List (Value × Value)} {v : Value}

theorem exists_mem_of_lookup (h : Value.lookup name entries = some v) :
    ∃ k, (k, v) ∈ entries := by
  fun_induction Value.lookup name entries with
  | case1 => cases h
  | case2 value rest =>
    cases h
    exact ⟨_, List.mem_cons_self⟩
  | case3 key value rest hne ih | case4 e rest _ ih =>
    obtain ⟨k, hk⟩ := ih h
    exact ⟨k, List.mem_cons_of_mem _ hk⟩

theorem exists_mem_of_field? (h : field? name entries = some v) : ∃ k, (k, v) ∈ entries := by
  unfold field? at h
  split at h
  · cases h
  · exact exists_mem_of_lookup h

theorem loadInputs_eq_ok {inputs : Inputs} (h : loadInputs owner entries = .ok inputs) :
    List.Forall₂ (fun e i => keyName owner e.1 = .ok i.1 ∧ loadValue owner i.1 e.2 = .ok i.2)
      entries inputs := by
  induction entries generalizing inputs with
  | nil =>
    cases h
    exact .nil
  | cons e entries ih =>
    rw [loadInputs] at h
    obtain ⟨key, hkey, h⟩ := bind_eq_ok.mp h
    obtain ⟨value, hvalue, h⟩ := bind_eq_ok.mp h
    obtain ⟨more, hmore, h⟩ := bind_eq_ok.mp h
    cases h
    exact .cons ⟨hkey, hvalue⟩ (ih hmore)

theorem loadSection_eq_ok {inputs : Inputs} (h : loadSection owner name entries = .ok inputs) :
    inputs = [] ∨ ∃ k parts, (k, .map parts) ∈ entries ∧ loadInputs owner parts = .ok inputs := by
  induction entries with
  | nil =>
    cases h
    exact .inl rfl
  | cons e entries ih =>
    obtain ⟨k, v⟩ := e
    by_cases hk : k.isStr name
    · cases v with
      | null =>
        rw [loadSection, if_pos hk] at h
        cases h
        exact .inl rfl
      | map parts =>
        rw [loadSection, if_pos hk] at h
        exact .inr ⟨k, parts, List.mem_cons_self, h⟩
      | _ =>
        simp only [loadSection, hk, if_true] at h
        cases h
    · have hrest : loadSection owner name entries = .ok inputs := by
        cases v <;> simpa [loadSection, hk] using h
      refine (ih hrest).imp_right ?_
      rintro ⟨k', parts, hmem, hparts⟩
      exact ⟨k', parts, List.mem_cons_of_mem _ hmem, hparts⟩

/-- The parts of a node that loads. -/
theorem loadNode_eq_ok {n : NodeDef} (h : loadNode name v = .ok n) : ∃ entries, v = .map entries ∧
    n.id = name ∧ loadSection name "inputs" entries = .ok n.inputs ∧ (n.branches = [] ∨
      ∃ heads, field? "branches" entries = some (.map heads) ∧
        loadBranches name heads = .ok n.branches) := by
  unfold loadNode at h
  split at h
  · rename_i entries
    dsimp only at h
    split at h
    · split at h
      · exact absurd h error_bind_ne_ok
      · obtain ⟨opcode, -, h⟩ := bind_eq_ok.mp h
        obtain ⟨inputs, hinputs, h⟩ := bind_eq_ok.mp h
        obtain ⟨next, -, h⟩ := bind_eq_ok.mp h
        refine ⟨entries, rfl, ?_⟩
        split at h
        · cases h
          exact ⟨rfl, hinputs, .inl rfl⟩
        · rename_i heads hfield
          obtain ⟨branches, hbranches, h⟩ := bind_eq_ok.mp h
          cases h
          exact ⟨rfl, hinputs, .inr ⟨heads, hfield, hbranches⟩⟩
        · exact absurd h error_bind_ne_ok
    · exact absurd h error_bind_ne_ok
  · cases h

/-- The parts of a workflow that loads. -/
theorem loadWorkflow_eq_ok {w : Workflow} (h : loadWorkflow v = .ok w) : ∃ entries,
    v = .map entries ∧ w.name ≠ "" ∧
      loadVariables w.name (field? "variables" entries) = .ok w.vars ∧
      loadNodes w.name (field? "nodes" entries) = .ok w.nodes := by
  unfold loadWorkflow at h
  split at h
  · rename_i entries
    split at h
    · split at h
      · exact absurd h error_bind_ne_ok
      · rename_i name _ hname
        obtain ⟨_, ⟨⟩, h⟩ := bind_eq_ok.mp h
        obtain ⟨interface, -, h⟩ := bind_eq_ok.mp h
        obtain ⟨vars, hvars, h⟩ := bind_eq_ok.mp h
        obtain ⟨nodes, hnodes, h⟩ := bind_eq_ok.mp h
        cases h
        refine ⟨entries, rfl, ?_, hvars, hnodes⟩
        simpa using hname
    · exact absurd h error_bind_ne_ok
  · cases h

end Parts

variable {d : Document} {done ws : List Workflow} {w : Workflow}

theorem names_nodup_of_loadWorkflows {items : List Yaml.Value}
    (h : loadWorkflows done items = .ok ws) (hd : (done.map (·.name)).Nodup) :
    (ws.map (·.name)).Nodup := by
  induction items generalizing done with
  | nil =>
    cases h
    exact hd
  | cons item items ih =>
    rw [loadWorkflows] at h
    obtain ⟨w, -, h⟩ := bind_eq_ok.mp h
    split at h
    · cases h
    · rename_i hnew
      refine ih h ?_
      have hfresh : w.name ∉ done.map (·.name) := by simpa using hnew
      rw [List.map_append, List.map_singleton]
      exact List.nodup_append.mpr ⟨hd, List.nodup_singleton _, by
        intro a ha b hb hex
        subst hex
        exact hfresh (List.mem_singleton.mp hb ▸ ha)⟩

theorem mem_of_loadWorkflows {items : List Yaml.Value} (h : loadWorkflows done items = .ok ws)
    (hw : w ∈ ws) : w ∈ done ∨ ∃ item ∈ items, loadWorkflow item = .ok w := by
  induction items generalizing done with
  | nil =>
    cases h
    exact .inl hw
  | cons item items ih =>
    rw [loadWorkflows] at h
    obtain ⟨new, hnew, h⟩ := bind_eq_ok.mp h
    split at h
    · cases h
    · rcases ih h with hdone | ⟨other, hother, hload⟩
      · rcases List.mem_append.mp hdone with hdone | hlast
        · exact .inl hdone
        · cases List.mem_singleton.mp hlast
          exact .inr ⟨item, List.mem_cons_self, hnew⟩
      · exact .inr ⟨other, List.mem_cons_of_mem _ hother, hload⟩

/-- The workflows of a loaded document are loaded from the items of a list. -/
theorem load_eq_ok {text : String} (h : load text = .ok d) : d.workflows = [] ∨
    ∃ entries items, Yaml.load? text.toList = some (.map entries) ∧
      field? "workflows" entries = some (.seq items) ∧
        loadWorkflows [] items = .ok d.workflows := by
  unfold load ofChars at h
  split at h
  · rename_i v hread
    unfold ofValue at h
    split at h
    · cases h
      exact .inl rfl
    · rename_i entries
      split at h
      · cases h
        exact .inl rfl
      · rename_i items hfield
        obtain ⟨ws, hws, hok⟩ := bind_eq_ok.mp h
        cases hok
        exact .inr ⟨entries, items, hread, hfield, hws⟩
      · cases h
    · cases h
  · cases h

theorem names_nodup_of_load {text : String} (h : load text = .ok d) :
    (d.workflows.map (·.name)).Nodup := by
  rcases load_eq_ok h with hnil | ⟨_, _, -, -, hworkflows⟩
  · rw [hnil]
    exact .nil
  · exact names_nodup_of_loadWorkflows hworkflows .nil

/-- A workflow of a loaded document is the one found under its name. -/
theorem workflow?_of_mem {text : String} (h : load text = .ok d) (hw : w ∈ d.workflows) :
    d.workflow? w.name = some w :=
  find?_of_nodup (names_nodup_of_load h) hw

end BlockFlow.Document
