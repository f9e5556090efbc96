import BlockFlow.Proofs.Loading
import BlockFlow.Proofs.Resets

/-!
Values as mappings of a document. Main statement: a value is loaded from what it is written as exactly
when its inputs are told by their names, at any depth.
-/

namespace BlockFlow

namespace InputExpr

open Outcome

open Yaml (Value)

variable {owner key : String} {ins : Inputs} {done : List (Value × Value)}

theorem put_of_fresh {key : String} {v : Value} (h : ∀ e ∈ done, e.1.isStr key = false) :
    entriesToYaml.put key v done = done ++ [(.str key, v)] := by
  induction done with
  | nil => rfl
  | cons e done ih =>
    obtain ⟨hne, hdone⟩ := List.forall_mem_cons.mp h
    obtain ⟨k, old⟩ := e
    rw [entriesToYaml.put, if_neg (by simpa using hne), ih hdone, List.cons_append]

/-- Inputs with different names are written one after the other. -/
theorem entriesToYaml_append (hdone : ∀ i ∈ ins, ∀ e ∈ done, e.1.isStr i.1 = false)
    (hnodup : (ins.map (·.1)).Nodup) :
    entriesToYaml ins done = done ++ ins.map fun i => (.str i.1, i.2.toYaml) := by
  induction ins generalizing done with
  | nil => simp [entriesToYaml]
  | cons i ins ih =>
    obtain ⟨hfirst, hrest⟩ := List.forall_mem_cons.mp hdone
    obtain ⟨key, e⟩ := i
    obtain ⟨hnew, hnodup⟩ := List.nodup_cons.mp hnodup
    rw [entriesToYaml, put_of_fresh hfirst, ih ?_ hnodup, List.append_assoc]
    · rfl
    · intro i hi x hx
      rcases List.mem_append.mp hx with hx | hx
      · exact hrest i hi x hx
      · obtain rfl := List.mem_singleton.mp hx
        have hne : key ≠ i.1 := fun heq => hnew (heq ▸ List.mem_map_of_mem (f := (·.1)) hi)
        simpa [Value.isStr] using hne

theorem entriesToYaml_eq (h : DistinctIn ins) :
    entriesToYaml ins [] = ins.map fun i => (.str i.1, i.2.toYaml) :=
  entriesToYaml_append (by simp) h.nodup

/-- The entry of inputs, which is left out when there are none. -/
def sectionEntry (key : String) (ins : Inputs) : List (Value × Value) :=
  if ins.isEmpty then [] else [(.str key, .map (entriesToYaml ins []))]

theorem sectionEntry_cons (key : String) (i : String × InputExpr) (ins : Inputs) :
    sectionEntry key (i :: ins) = [(.str key, .map (entriesToYaml (i :: ins) []))] := rfl

theorem lookup_sectionEntry {k key : String} (h : key ≠ k) :
    Value.lookup k (sectionEntry key ins) = none := by
  cases ins with
  | nil => rfl
  | cons i ins => simp [sectionEntry, Value.lookup, h]

/-- What is loaded from the entry of inputs is what is loaded from their mapping. -/
theorem loadSection_sectionEntry (owner key : String) (ins : Inputs) :
    Document.loadSection owner key (sectionEntry key ins) =
      Document.loadInputs owner (entriesToYaml ins []) := by
  cases ins with
  | nil => rfl
  | cons i ins =>
    rw [sectionEntry_cons, Document.loadSection, if_pos (by simp [Value.isStr])]

theorem loadValue_inline (owner key : String) (id : Option String) (opcode : String)
    (inputs : Inputs) : Document.loadValue owner key (inline id opcode inputs).toYaml =
      Document.loadInputs (id.getD owner) (entriesToYaml inputs []) >>= fun inputs =>
        .ok (inline id opcode inputs) := by
  have hyaml : (inline id opcode inputs).toYaml = .map ((id.toList.map fun i => (.str "id", .str i)) ++
    (.str "opcode", .str opcode) :: sectionEntry "inputs" inputs) := rfl
  cases id <;>
  · simp [hyaml, Document.loadValue, Value.lookup, Document.inlineId, Document.field?,
      Document.loadSection, Value.isStr, loadSection_sectionEntry, lookup_sectionEntry]
    rfl

theorem loadValue_call (owner key workflow : String) (args : Inputs) :
    Document.loadValue owner key (call workflow args).toYaml =
      Document.loadInputs owner (entriesToYaml args []) >>= fun args => .ok (call workflow args) := by
  have hyaml : (call workflow args).toYaml =
    .map ((.str "workflow_call", .str workflow) :: sectionEntry "args" args) := rfl
  simp [hyaml, Document.loadValue, Value.lookup, Document.loadSection, Value.isStr,
    loadSection_sectionEntry, lookup_sectionEntry]

mutual

/-- A value is loaded from what it is written as. -/
theorem loadValue_toYaml (owner key : String) :
    (e : InputExpr) → e.Distinct → Document.loadValue owner key e.toYaml = .ok e
  | .literal v, _ => rfl
  | .variable name, _ => rfl
  | .node id, _ => rfl
  | .inline id opcode inputs, h => by
    rw [loadValue_inline, loadInputs_toYaml (id.getD owner) inputs h]
    rfl
  | .call workflow args, h => by
    rw [loadValue_call, loadInputs_toYaml owner args h]
    rfl

theorem loadInputs_toYaml (owner : String) : (ins : Inputs) → DistinctIn ins →
    Document.loadInputs owner (entriesToYaml ins []) = .ok ins
  | [], _ => rfl
  | (key, e) :: rest, h => by
    have hrest := loadInputs_toYaml owner rest h.2.2
    rw [entriesToYaml_eq h.2.2] at hrest
    rw [entriesToYaml_eq h, List.map_cons, Document.loadInputs]
    exact bind_eq_ok.mpr ⟨key, rfl, bind_eq_ok.mpr ⟨e, loadValue_toYaml owner key e h.2.1,
      bind_eq_ok.mpr ⟨rest, hrest, rfl⟩⟩⟩

end

/-- Keys that differ still do once an entry is added or replaced. -/
theorem nodup_put (key : String) (v : Value) (h : (done.map (·.1)).Nodup) :
    ((entriesToYaml.put key v done).map (·.1)).Nodup ∧
      ∀ k ∈ (entriesToYaml.put key v done).map (·.1), k = .str key ∨ k ∈ done.map (·.1) := by
  induction done with
  | nil => simp [entriesToYaml.put]
  | cons e done ih =>
    obtain ⟨k, old⟩ := e
    obtain ⟨hk, hdone⟩ := List.nodup_cons.mp h
    obtain ⟨hput, hsub⟩ := ih hdone
    rw [entriesToYaml.put]
    split
    · exact ⟨h, fun k hk => .inr hk⟩
    · rename_i hne
      have hfresh : k ≠ .str key := by
        rintro rfl
        simp [Value.isStr] at hne
      refine ⟨List.nodup_cons.mpr ⟨fun hmem => ?_, hput⟩, fun k' hk' => ?_⟩
      · exact (hsub k hmem).elim hfresh hk
      · rcases List.mem_cons.mp hk' with rfl | hk'
        · exact .inr List.mem_cons_self
        · exact (hsub k' hk').imp id (List.mem_cons_of_mem _)

/-- The keys that inputs are written under are strings that differ, even where names are repeated. -/
theorem nodup_entriesToYaml (ins : Inputs) (hnodup : (done.map (·.1)).Nodup)
    (hstr : ∀ k ∈ done.map (·.1), ∃ name, k = .str name) :
    ((entriesToYaml ins done).map (·.1)).Nodup ∧
      ∀ k ∈ (entriesToYaml ins done).map (·.1), ∃ name, k = .str name := by
  induction ins generalizing done with
  | nil => exact ⟨hnodup, hstr⟩
  | cons i ins ih =>
    obtain ⟨hput, hsub⟩ := nodup_put i.1 i.2.toYaml hnodup
    exact ih hput fun k hk => (hsub k hk).elim (fun heq => ⟨i.1, heq⟩) (hstr k)

/-- Inputs are named as the strings that they are loaded under. -/
theorem keys_of_loadInputs {es : List (Value × Value)} (h : Document.loadInputs owner es = .ok ins)
    (hstr : ∀ k ∈ es.map (·.1), ∃ name, k = .str name) :
    es.map (·.1) = ins.map fun i => .str i.1 := by
  have hloads := Document.loadInputs_eq_ok h
  clear h
  induction hloads with
  | nil => rfl
  | @cons e i _ _ hfirst _ ih =>
    obtain ⟨k, v⟩ := e
    obtain ⟨name, value⟩ := i
    obtain ⟨⟨_, rfl⟩, hrest⟩ := List.forall_mem_cons.mp hstr
    cases hfirst.1
    rw [List.map_cons, List.map_cons, ih hrest]

/-- Where inputs are loaded from what they are written as, no name is repeated. -/
theorem nodup_of_loadInputs (h : Document.loadInputs owner (entriesToYaml ins []) = .ok ins) :
    (ins.map (·.1)).Nodup := by
  have hkeys : ((entriesToYaml ins []).map (·.1)).Nodup ∧
      ∀ k ∈ (entriesToYaml ins []).map (·.1), ∃ name, k = .str name :=
    nodup_entriesToYaml ins .nil (by simp)
  obtain ⟨hnodup, hstr⟩ := hkeys
  have hmap : ins.map (fun i => Value.str i.1) = (ins.map (·.1)).map Value.str := by
    rw [List.map_map]
    rfl
  rw [keys_of_loadInputs h hstr, hmap] at hnodup
  exact hnodup.of_map _

mutual

/-- Only a value with inputs told by their names is loaded from what it is written as. -/
theorem distinct_of_loadValue (owner key : String) : (e : InputExpr) →
    Document.loadValue owner key e.toYaml = .ok e → e.Distinct
  | .literal _, _ => trivial
  | .variable _, _ => trivial
  | .node _, _ => trivial
  | .inline id opcode inputs, h => by
    rw [loadValue_inline] at h
    obtain ⟨_, hload, heq⟩ := bind_eq_ok.mp h
    cases heq
    have hnodup := nodup_of_loadInputs hload
    rw [entriesToYaml_append (by simp) hnodup] at hload
    exact distinctIn_of_loadInputs (id.getD owner) inputs hnodup hload
  | .call workflow args, h => by
    rw [loadValue_call] at h
    obtain ⟨_, hload, heq⟩ := bind_eq_ok.mp h
    cases heq
    have hnodup := nodup_of_loadInputs hload
    rw [entriesToYaml_append (by simp) hnodup] at hload
    exact distinctIn_of_loadInputs owner args hnodup hload

theorem distinctIn_of_loadInputs (owner : String) : (ins : Inputs) → (ins.map (·.1)).Nodup →
    Document.loadInputs owner (ins.map fun i => (.str i.1, i.2.toYaml)) = .ok ins → DistinctIn ins
  | [], _, _ => trivial
  | (key, e) :: rest, hnodup, h => by
    obtain ⟨hnew, hnodup⟩ := List.nodup_cons.mp hnodup
    rw [List.map_cons, Document.loadInputs] at h
    obtain ⟨_, hkey, h⟩ := bind_eq_ok.mp h
    obtain ⟨_, hvalue, h⟩ := bind_eq_ok.mp h
    obtain ⟨_, hrest, heq⟩ := bind_eq_ok.mp h
    cases heq
    exact ⟨hnew, distinct_of_loadValue owner key e hvalue,
      distinctIn_of_loadInputs owner rest hnodup hrest⟩

end

/-- A value is loaded from what it is written as exactly when its inputs are told by their names, at
any depth. Of two inputs with one name only the last is written. -/
theorem loads_written_iff_distinct (owner key : String) (e : InputExpr) :
    Document.loadValue owner key e.toYaml = .ok e ↔ e.Distinct :=
  ⟨distinct_of_loadValue owner key e, loadValue_toYaml owner key e⟩

end InputExpr

end BlockFlow
