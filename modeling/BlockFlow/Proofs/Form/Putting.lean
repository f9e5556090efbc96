import BlockFlow.Proofs.Form.Inputs
import BlockFlow.Proofs.Form.Value

/-!
Putting a value into an input of a node in the outline of a form. Main statement: the node that the
changed form loads as is the node with the value in the input.
-/

namespace BlockFlow

open Form (entriesSound)

namespace InputExpr

/-- Puts a value under the name of an input. -/
def put (key : String) (e : InputExpr) : Inputs → Inputs
  | [] => [(key, e)]
  | (k, old) :: rest => if k = key then (key, e) :: rest else (k, old) :: put key e rest

variable {key : String} {e : InputExpr} {inputs : Inputs}

/-- The value is put between other inputs, where it may replace one. -/
theorem exists_put (key : String) (e : InputExpr) (inputs : Inputs) : ∃ front old back,
    inputs = front ++ old ++ back ∧ put key e inputs = front ++ (key, e) :: back ∧
      key ∉ front.map (·.1) := by
  induction inputs with
  | nil => exact ⟨[], [], [], rfl, rfl, List.not_mem_nil⟩
  | cons i rest ih =>
    obtain ⟨k, v⟩ := i
    rw [put]
    split
    · exact ⟨[], [(k, v)], rest, rfl, rfl, List.not_mem_nil⟩
    · rename_i hne
      obtain ⟨front, old, back, hrest, hput, hfresh⟩ := ih
      refine ⟨(k, v) :: front, old, back, by rw [hrest]; rfl, by rw [hput]; rfl, ?_⟩
      rw [List.map_cons, List.mem_cons, not_or]
      exact ⟨Ne.symm hne, hfresh⟩

theorem put_append {old : InputExpr} {back : Inputs} (h : key ∉ inputs.map (·.1)) :
    put key e (inputs ++ (key, old) :: back) = inputs ++ (key, e) :: back := by
  induction inputs with
  | nil => exact if_pos rfl
  | cons i rest ih =>
    obtain ⟨k, v⟩ := i
    simp only [List.map_cons, List.mem_cons, not_or] at h
    rw [List.cons_append, put, if_neg (Ne.symm h.1), ih h.2, List.cons_append]

theorem firstOf?_put : firstOf? key (put key e inputs) = some e := by
  obtain ⟨front, old, back, -, hput, hfresh⟩ := exists_put key e inputs
  have hnone : front.find? (·.1 = key) = none := by
    refine List.find?_eq_none.mpr fun i hi heq => hfresh ?_
    exact List.mem_map.mpr ⟨i, hi, by simpa using heq⟩
  rw [hput, firstOf?, List.find?_append, hnone, Option.none_or, List.find?_cons_of_pos (by simp)]
  rfl

end InputExpr

namespace Form

variable {owner k : String} {es xs : List (String × Form)} {ins : Inputs} {f g : Form}
  {key : String} {e : InputExpr}

/-- Inputs under a key are those inside its value. -/
theorem loadInputs_inside (h : Document.loadSection owner k (entryValues es) = .ok ins)
    (hfirst : firstOf? k es = some g) : (∀ items, g ≠ .seq items) ∧
      Document.loadInputs owner (entryValues g.inside) = .ok ins := by
  by_cases hne : ins = []
  · cases g with
    | map xs => exact ⟨nofun, (loadSection_map hfirst).symm.trans h⟩
    | seq items =>
      rw [Document.loadSection_eq_lookup, lookup_entryValues, hfirst] at h
      cases h
    | _ => exact ⟨nofun, hne ▸ rfl⟩
  · obtain ⟨xs, hxs, hload⟩ := exists_map_of_loadSection h hne
    obtain rfl := Option.some.inj (hfirst.symm.trans hxs)
    exact ⟨nofun, hload⟩

/-- A value that is put under a key is loaded as an input of that name. -/
theorem loadInputs_put (h : Document.loadInputs owner (entryValues xs) = .ok ins)
    (hf : Document.loadValue owner key f.value = .ok e) :
    Document.loadInputs owner (entryValues (put key f xs)) = .ok (InputExpr.put key e ins) := by
  rw [loadInputs_entryValues] at h ⊢
  induction h with
  | nil => exact .cons ⟨rfl, hf⟩ .nil
  | @cons x i xs ins hx hrest ih =>
    obtain ⟨k, g⟩ := x
    obtain ⟨k, old⟩ := i
    obtain ⟨rfl, hold⟩ := hx
    rw [put, InputExpr.put]
    by_cases hk : k = key
    · rw [if_pos hk, if_pos hk]
      exact .cons ⟨rfl, hf⟩ hrest
    · rw [if_neg hk, if_neg hk]
      exact .cons ⟨rfl, hold⟩ ih

end Form

namespace Slot

open Form (Loads)

variable {s : Slot} {fs : List (String × Form)} {n : NodeDef} {key : String} {f : Form}
  {e : InputExpr}

/-- The block of the inputs of a node, once it is made or opened. -/
theorem exists_opened_inputs (h : Loads fs n) : ∃ fs₁ g fs₂,
    (s.fill (.map fs)).ensureBlock s.line "inputs" =
      (s.fill (.map (fs₁ ++ ("inputs", opened g) :: fs₂)),
        s.line + 1 + (Form.mappingLines fs₁).length) ∧
    entriesSound (fs₁ ++ ("inputs", g) :: fs₂) ∧
    ((fs₁ ++ ("inputs", g) :: fs₂).map (·.1)).Nodup ∧
    Form.Beside "inputs" fs (fs₁ ++ ("inputs", g) :: fs₂) ∧ (∀ items, g ≠ .seq items) ∧
    Document.loadInputs n.id (Form.entryValues g.inside) = .ok n.inputs := by
  obtain ⟨-, -, -, hinputs, -⟩ := Document.loadNode_map_eq_ok.mp h.load
  by_cases hmem : "inputs" ∈ fs.map (·.1)
  · obtain ⟨fs₁, g, fs₂, rfl, h₁, -⟩ := Form.exists_split hmem h.nodup
    exact ⟨fs₁, g, fs₂, ensureBlock_fill_append h.sound h₁, h.sound, h.nodup, fun _ _ => rfl,
      Form.loadInputs_inside hinputs (Form.firstOf?_append h₁)⟩
  · have hkey : Form.isKey "inputs" := Form.isKey_ownWord (by decide)
    have hnone := Form.firstOf?_eq_none hmem
    rw [Document.loadSection_eq_lookup, Form.lookup_entryValues, hnone] at hinputs
    have hput := Form.put_of_not_mem (f := .bare) hmem
    refine ⟨fs, .bare, [], ensureBlock_fill_none h.sound hkey hmem, ?_, ?_, fun k hk => ?_, nofun,
      hinputs⟩
    · rw [← hput]
      exact Form.entriesSound_put h.sound hkey rfl
    · rw [← hput]
      exact Form.nodup_put h.nodup
    · rw [← hput, Form.firstOf?_put, if_neg hk]

/-- The node that is read once a value is written into one of its inputs. -/
theorem putInput_fill (h : Loads fs n) (hkey : Form.isKey key) (hf : f.isSound)
    (hleaf : ∀ l, f ≠ .leaf l) (hload : Document.loadValue n.id key f.value = .ok e) :
    ∃ o block fs', (s.fill (.map fs)).ensureBlock s.line "inputs" = (o, block) ∧
      o.setBlock block key f.lines = s.fill (.map fs') ∧
        Loads fs' { n with inputs := InputExpr.put key e n.inputs } := by
  obtain ⟨fs₁, g, fs₂, hensure, hfs, hnodup, hbeside, hseq, hinputs⟩ := exists_opened_inputs h
  obtain ⟨hsound₁, hc, hg, hsound₂⟩ := sound_entry hfs
  obtain ⟨hinside, hkeys⟩ := Form.sound_inside hg
  have hsolid := Form.bodyLines_of_not_leaf hleaf ▸ Form.solid_lines f hf
  have hset := setBlock_fill (s := s.inner fs₁ fs₂ "inputs" hc hsound₂) hinside hkey hkeys hsolid
    hleaf
  rw [← fill_opened hseq, fill_inner, fill_inner, line_inner] at hset
  refine ⟨_, _, _, hensure, hset, h.of_inputs ?_ ?_ (fun k hk => ?_) ?_⟩
  · refine Form.entriesSound_append.mpr ⟨hsound₁, Form.entriesSound_cons.mpr ⟨hc, ?_, hsound₂⟩⟩
    exact Form.isSound_map.mpr ⟨Form.put_ne_nil _ _ _, Form.nodup_put hkeys,
      Form.entriesSound_put hinside hkey hf⟩
  · simpa using hnodup
  · rw [firstOf?_replace hk]
    exact hbeside k hk
  · have hfresh : "inputs" ∉ fs₁.map (·.1) := (fresh_of_nodup hnodup).1
    rw [Form.loadSection_map (Form.firstOf?_append hfresh)]
    exact Form.loadInputs_put hinputs hload

end Slot

end BlockFlow
