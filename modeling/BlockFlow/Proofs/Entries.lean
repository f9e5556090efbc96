import BlockFlow.Proofs.Loading

/-!
The entries that a document is loaded from. Main statements: nodes and workflows load exactly when
their parts do, and documents when their workflows do and have different names.
-/

namespace BlockFlow

namespace Document

open Outcome

open Yaml (Value)

variable {owner name id : String} {es es' : List (Value × Value)} {w : Workflow} {n : NodeDef}

/-- Inputs are those under the first entry of that name. -/
theorem loadSection_eq_lookup : loadSection owner name es =
    match Value.lookup name es with
    | none => .ok []
    | some .null => .ok []
    | some (.map inputs) => loadInputs owner inputs
    | some _ => .error (.malformedInput owner .inputsNoMapping) := by
  induction es with
  | nil => rfl
  | cons e es ih =>
    obtain ⟨k, v⟩ := e
    by_cases hk : k.isStr name
    · obtain rfl : k = .str name := by
        cases k <;> simp_all [Value.isStr]
      cases v <;> simp [loadSection, Value.lookup, Value.isStr]
    · have hlookup : Value.lookup name ((k, v) :: es) = Value.lookup name es := by
        cases k <;> simp_all [Value.lookup, Value.isStr]
      rw [hlookup, ← ih]
      cases v <;> simp [loadSection, hk]

theorem field?_congr (h : Value.lookup name es' = Value.lookup name es) :
    field? name es' = field? name es := by
  rw [field?, field?, h]

/-- Loads the heads of the branches among the entries of a node. -/
def loadHeads (id : String) (es : List (Value × Value)) :
    Except ParseError (List (String × Option String)) :=
  match field? "branches" es with
  | none => .ok []
  | some (.map heads) => loadBranches id heads
  | some _ => .error (.malformedInput id .branchesNoMapping)

/-- Loads the opcode among the entries of a node. -/
def loadOpcode (id : String) (es : List (Value × Value)) : Except ParseError String :=
  match Value.lookup "opcode" es with
  | some (.str opcode) =>
    if opcode.isEmpty then .error (.malformedInput id .opcodeMissing) else .ok opcode
  | _ => .error (.malformedInput id .opcodeMissing)

theorem loadOpcode_eq_ok {opcode : String} : loadOpcode id es = .ok opcode ↔
    opcode ≠ "" ∧ Value.lookup "opcode" es = some (.str opcode) := by
  unfold loadOpcode
  split
  · rename_i s heq
    rw [heq]
    by_cases hs : s = ""
    · subst hs
      simp
    · simp only [String.isEmpty_iff, hs, if_false, Except.ok.injEq, Option.some.injEq,
        Value.str.injEq]
      exact ⟨fun heq => ⟨heq ▸ hs, heq⟩, And.right⟩
  · rename_i hnot
    simp only [reduceCtorEq, false_iff, not_and]
    exact fun _ => hnot opcode

theorem loadNode_map : loadNode id (.map es) = (loadOpcode id es).bind fun opcode =>
    (loadSection id "inputs" es).bind fun inputs =>
      (loadPointer id "next" (Value.lookup "next" es)).bind fun next =>
        (loadHeads id es).bind fun branches => .ok ⟨id, opcode, inputs, next, branches⟩ := by
  unfold loadNode loadOpcode loadHeads
  dsimp only
  generalize Value.lookup "opcode" es = opcode
  generalize field? "branches" es = branches
  cases opcode with
  | none => rfl
  | some v =>
    cases v with
    | str s =>
      by_cases hs : s.isEmpty
      · simp only [hs, if_true]
        rfl
      · simp only [hs]
        cases branches with
        | none => rfl
        | some v => cases v <;> rfl
    | _ => rfl

/-- A node is loaded from the entries of four keys. -/
theorem loadNode_map_eq_ok : loadNode id (.map es) = .ok n ↔ n.id = id ∧ n.opcode ≠ "" ∧
    Value.lookup "opcode" es = some (.str n.opcode) ∧ loadSection id "inputs" es = .ok n.inputs ∧
      loadPointer id "next" (Value.lookup "next" es) = .ok n.next ∧
        loadHeads id es = .ok n.branches := by
  obtain ⟨nid, nopcode, ninputs, nnext, nbranches⟩ := n
  have hbind {α β : Type} {x : Except ParseError α} {f : α → Except ParseError β} {b : β} :
      x.bind f = .ok b ↔ ∃ a, x = .ok a ∧ f a = .ok b := bind_eq_ok
  simp only [loadNode_map, hbind, loadOpcode_eq_ok, Except.ok.injEq, NodeDef.mk.injEq]
  constructor
  · rintro ⟨opcode, ⟨hne, hlookup⟩, inputs, hinputs, next, hnext, branches, hbranches, rfl, rfl, rfl,
      rfl, rfl⟩
    exact ⟨rfl, hne, hlookup, hinputs, hnext, hbranches⟩
  · rintro ⟨rfl, hne, hlookup, hinputs, hnext, hbranches⟩
    exact ⟨_, ⟨hne, hlookup⟩, _, hinputs, _, hnext, _, hbranches, rfl, rfl, rfl, rfl, rfl⟩

/-- A workflow is loaded from the entries of four keys. -/
theorem loadWorkflow_map_eq_ok : loadWorkflow (.map es) = .ok w ↔ w.name ≠ "" ∧
    Value.lookup "name" es = some (.str w.name) ∧
      loadInterface w.name (field? "interface" es) = .ok w.interface ∧
        loadVariables w.name (field? "variables" es) = .ok w.vars ∧
          loadNodes w.name (field? "nodes" es) = .ok w.nodes := by
  obtain ⟨name, interface, vars, nodes⟩ := w
  unfold loadWorkflow
  dsimp only
  split
  · rename_i s heq
    rw [heq]
    by_cases hs : s = ""
    · subst hs
      simp only [String.isEmpty_iff, if_true]
      constructor
      · intro h
        exact absurd h error_bind_ne_ok
      · rintro ⟨hne, ⟨⟩, -⟩
        exact absurd rfl hne
    · simp only [String.isEmpty_iff, hs, if_false, bind_eq_ok, Except.ok.injEq, exists_eq_left',
        Workflow.mk.injEq, Option.some.injEq, Value.str.injEq]
      constructor
      · rintro ⟨i, hi, v, hv, n, hn, rfl, rfl, rfl, rfl⟩
        exact ⟨hs, rfl, hi, hv, hn⟩
      · rintro ⟨-, rfl, hi, hv, hn⟩
        exact ⟨_, hi, _, hv, _, hn, rfl, rfl, rfl, rfl⟩
  · rename_i hnot
    constructor
    · intro h
      exact absurd h error_bind_ne_ok
    · rintro ⟨-, hname, -⟩
      exact absurd hname (hnot _)

/-- Workflows are loaded one by one; their names differ. -/
theorem loadWorkflows_eq_ok {done ws : List Workflow} {items : List Value} :
    loadWorkflows done items = .ok ws ↔ ∃ new, ws = done ++ new ∧
      List.Forall₂ (fun item w => loadWorkflow item = .ok w) items new ∧
        (new.map (·.name)).Nodup ∧ ∀ w ∈ new, w.name ∉ done.map (·.name) := by
  induction items generalizing done with
  | nil =>
    simp only [loadWorkflows, Except.ok.injEq]
    constructor
    · rintro rfl
      exact ⟨[], by simp⟩
    · rintro ⟨new, rfl, hnew, -⟩
      cases hnew
      simp
  | cons item items ih =>
    rw [loadWorkflows, bind_eq_ok]
    constructor
    · rintro ⟨w, hw, h⟩
      split at h
      · cases h
      · rename_i hfresh
        obtain ⟨new, rfl, hnew, hnodup, hdone⟩ := ih.mp h
        have hfresh : w.name ∉ done.map (·.name) := by simpa using hfresh
        have hsplit : ∀ v ∈ new, v.name ∉ done.map (·.name) ∧ v.name ≠ w.name := by
          intro v hv
          have hnot := hdone v hv
          rw [List.map_append, List.mem_append, not_or] at hnot
          exact ⟨hnot.1, by simpa using hnot.2⟩
        refine ⟨w :: new, by simp, .cons hw hnew, List.nodup_cons.mpr ⟨?_, hnodup⟩,
          List.forall_mem_cons.mpr ⟨hfresh, fun v hv => (hsplit v hv).1⟩⟩
        intro hmem
        obtain ⟨v, hv, heq⟩ := List.mem_map.mp hmem
        exact (hsplit v hv).2 heq
    · rintro ⟨new, rfl, hnew, hnodup, hdone⟩
      cases hnew with
      | @cons _ w _ new hw hnew =>
        obtain ⟨hfresh, hdone⟩ := List.forall_mem_cons.mp hdone
        obtain ⟨hw', hnodup⟩ := List.nodup_cons.mp hnodup
        refine ⟨w, hw, ?_⟩
        rw [if_neg (by simpa using hfresh)]
        refine ih.mpr ⟨new, by simp, hnew, hnodup, fun v hv => ?_⟩
        rw [List.map_append, List.mem_append, not_or]
        refine ⟨hdone v hv, ?_⟩
        have hne : v.name ≠ w.name := fun heq => hw' (List.mem_map.mpr ⟨v, hv, heq⟩)
        simpa using hne

end Document

end BlockFlow
