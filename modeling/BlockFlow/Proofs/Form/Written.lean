import BlockFlow.Catalog.Builtin
import BlockFlow.Edit.Insertion
import BlockFlow.Proofs.FreshId
import BlockFlow.Proofs.Form.Field
import BlockFlow.Proofs.Form.Numbered
import BlockFlow.Proofs.Rendering

/-!
Nodes as edits write them. Main statements: ids made from built-in opcodes can stand as keys, and the
lines of a new node are read as this node.
-/

namespace BlockFlow

open Outcome
open Yaml (Value)

namespace Form

variable {opcode : String} {taken : List String}

theorem freeNumber_le (stem : String) (taken : List String) (fuel n : Nat) :
    freeNumber stem taken fuel n ≤ n + fuel := by
  induction fuel generalizing n with
  | zero => exact le_rfl
  | succ fuel ih =>
    rw [freeNumber]
    split
    · have hle := ih (n + 1)
      omega
    · omega

/-- Built-in opcodes stand without quotes, and so do the ids made from them. -/
theorem isKey_opcode (h : (Catalog.builtin.get? opcode).isSome) :
    isKey opcode ∧ isKeyStem (idStem opcode ++ "_") := by
  have hall : Catalog.builtin.specs.all fun spec =>
      isKeyStem spec.opcode && isKeyStem (idStem spec.opcode ++ "_") := by decide +kernel
  obtain ⟨spec, hspec⟩ := Option.isSome_iff_exists.mp h
  have hboth := List.all_eq_true.mp hall spec (List.mem_of_find?_eq_some hspec)
  obtain rfl : spec.opcode = opcode := by simpa using List.find?_some hspec
  rw [Bool.and_eq_true] at hboth
  exact ⟨isKey_of_isKeyStem hboth.1, hboth.2⟩

theorem isKey_freeId (h : (Catalog.builtin.get? opcode).isSome) (hlen : taken.length + 1 < 2 ^ 64) :
    isKey (freeId taken opcode) := by
  have hle := freeNumber_le (idStem opcode) taken taken.length 1
  exact isKey_numbered (isKey_opcode h).2 (by omega)

/-- The words that values of inputs are told by. -/
theorem isKey_word_of_value {k : String}
    (h : k ∈ ["literal", "variable", "node", "id", "opcode", "inputs", "workflow_call", "args"]) :
    isKey k := by
  have hall : ["literal", "variable", "node", "id", "opcode", "inputs", "workflow_call",
    "args"].all isKey := by decide +kernel
  exact List.all_eq_true.mp hall k h

end Form

namespace InputExpr

mutual

/-- Whether a value is read back from where it is written. Ids do not count: they are given anew to
copies. -/
def isWritable : InputExpr → Bool
  | .literal v => Form.isFaithful v
  | .variable name => (Form.Leaf.string name).isSound
  | .node id => (Form.Leaf.string id).isSound
  | .inline _ opcode inputs => (Form.Leaf.string opcode).isSound && areWritable inputs
  | .call workflow args => (Form.Leaf.string workflow).isSound && areWritable args

def areWritable : Inputs → Bool
  | [] => true
  | (key, e) :: rest => Form.isKey key && e.isWritable && areWritable rest

end

variable {ins : Inputs}

open Form (isFaithful isKey)

theorem isFaithful_of_entries {α : Type} (xs : List α) (key : α → String) (v : α → Value)
    (hnodup : (xs.map key).Nodup) (h : ∀ x ∈ xs, isKey (key x) ∧ isFaithful (v x)) :
    isFaithful (.map (xs.map fun x => (.str (key x), v x))) := by
  refine Form.isFaithful_map.mpr ⟨?_, ?_⟩
  · have hkeys : (xs.map fun x => (Value.str (key x), v x)).map
        (fun e => String.ofList (Outline.renderKey e.1)) = xs.map key := by
      rw [List.map_map]
      exact List.map_congr_left fun x hx => Form.renderKey_str (h x hx).1
    exact hkeys ▸ hnodup
  · induction xs with
    | nil => rfl
    | cons x xs ih =>
      obtain ⟨⟨hkey, hvalue⟩, hxs⟩ := List.forall_mem_cons.mp h
      exact Form.entriesFaithful_cons.mpr
        ⟨⟨key x, rfl, hkey⟩, hvalue, ih (List.nodup_cons.mp hnodup).2 hxs⟩

theorem isFaithful_sectionEntry {key : String} (es : List (String × Value)) (hkey : isKey key)
    (h : isFaithful (.map (entriesToYaml ins [])))
    (hnodup : (key :: es.map (·.1)).Nodup) (hes : ∀ e ∈ es, isKey e.1 ∧ isFaithful e.2) :
    isFaithful (.map ((es.map fun e => (.str e.1, e.2)) ++ sectionEntry key ins)) := by
  cases ins with
  | nil =>
    rw [sectionEntry, List.isEmpty_nil, if_pos rfl, List.append_nil]
    exact isFaithful_of_entries es Prod.fst Prod.snd (List.nodup_cons.mp hnodup).2 hes
  | cons i ins =>
    have hall := isFaithful_of_entries (es ++ [(key, .map (entriesToYaml (i :: ins) []))]) Prod.fst
      Prod.snd
      (by rw [List.map_append]; exact (List.perm_append_singleton _ _).nodup_iff.mpr hnodup)
      (List.forall_mem_append.mpr ⟨hes, List.forall_mem_singleton.mpr ⟨hkey, h⟩⟩)
    rw [List.map_append, List.map_singleton] at hall
    rwa [sectionEntry_cons]

theorem isFaithful_single {k : String} {v : Value}
    (hk : k ∈ ["literal", "variable", "node", "id", "opcode", "inputs", "workflow_call", "args"])
    (hv : isFaithful v) : isFaithful (.map [(.str k, v)]) :=
  isFaithful_of_entries [()] (fun _ => k) (fun _ => v) (List.nodup_singleton _)
    fun _ _ => ⟨Form.isKey_word_of_value hk, hv⟩

mutual

theorem isFaithful_toYaml : (e : InputExpr) → e.isWritable → e.Distinct →
    (∀ i ∈ e.inlineIds, (Form.Leaf.string i).isSound) → isFaithful e.toYaml
  | .literal v, h, _, _ => isFaithful_single (by simp) h
  | .variable name, h, _, _ => isFaithful_single (by simp) h
  | .node id, h, _, _ => isFaithful_single (by simp) h
  | .inline id opcode inputs, h, hdistinct, hids => by
    rw [isWritable, Bool.and_eq_true] at h
    have hinputs := areFaithful_toYaml inputs h.2 hdistinct
      fun i hi => hids i (List.mem_append_right _ hi)
    have hid := Form.isKey_word_of_value (k := "id") (by simp)
    have hopcode := Form.isKey_word_of_value (k := "opcode") (by simp)
    have hkey := Form.isKey_word_of_value (k := "inputs") (by simp)
    cases id with
    | none =>
      exact isFaithful_sectionEntry [("opcode", .str opcode)] hkey hinputs (by simp)
        (List.forall_mem_singleton.mpr ⟨hopcode, h.1⟩)
    | some i =>
      exact isFaithful_sectionEntry [("id", .str i), ("opcode", .str opcode)] hkey hinputs
        (by simp) (List.forall_mem_cons.mpr
          ⟨⟨hid, hids i List.mem_cons_self⟩, List.forall_mem_singleton.mpr ⟨hopcode, h.1⟩⟩)
  | .call workflow args, h, hdistinct, hids => by
    rw [isWritable, Bool.and_eq_true] at h
    have hargs := areFaithful_toYaml args h.2 hdistinct hids
    exact isFaithful_sectionEntry [("workflow_call", .str workflow)]
      (Form.isKey_word_of_value (by simp)) hargs (by simp)
      (List.forall_mem_singleton.mpr ⟨Form.isKey_word_of_value (by simp), h.1⟩)

theorem areFaithful_toYaml : (ins : Inputs) → areWritable ins → DistinctIn ins →
    (∀ i ∈ inlineIdsIn ins, (Form.Leaf.string i).isSound) →
      isFaithful (.map (entriesToYaml ins []))
  | ins, h, hdistinct, hids => by
    rw [entriesToYaml_eq hdistinct]
    exact isFaithful_of_entries ins Prod.fst (·.2.toYaml) hdistinct.nodup
      (entriesFaithful_toYaml ins h hdistinct hids)

theorem entriesFaithful_toYaml : (ins : Inputs) → areWritable ins → DistinctIn ins →
    (∀ i ∈ inlineIdsIn ins, (Form.Leaf.string i).isSound) →
      ∀ i ∈ ins, isKey i.1 ∧ isFaithful i.2.toYaml
  | [], _, _, _ => by simp
  | (key, e) :: rest, h, hdistinct, hids => by
    simp only [areWritable, Bool.and_eq_true] at h
    refine List.forall_mem_cons.mpr ⟨⟨h.1.1, ?_⟩, ?_⟩
    · exact isFaithful_toYaml e h.1.2 hdistinct.2.1 fun i hi => hids i (List.mem_append_left _ hi)
    · exact entriesFaithful_toYaml rest h.2 hdistinct.2.2
        fun i hi => hids i (List.mem_append_right _ hi)

end

end InputExpr

namespace Form

open InputExpr (areWritable areFaithful_toYaml loadInputs_toYaml inlineIdsIn DistinctIn)

variable {id opcode : String} {ins : Inputs} {next : Option String}

/-- The entries of a node without branches. -/
def nodeEntries (opcode : String) (ins : Inputs) (next : Option String) : List (String × Form) :=
  ("opcode", ofValue (.str opcode)) ::
    ((if ins.isEmpty then [] else [("inputs", ofValue (inputsToYaml ins))]) ++
      next.toList.map fun t => ("next", ofValue (.str t)))

/-- What it takes to read a node without branches back from where it is written. -/
structure Written (opcode : String) (ins : Inputs) (next : Option String) : Prop where
  opcode : isKey opcode
  writable : areWritable ins
  distinct : DistinctIn ins
  ids : ∀ i ∈ inlineIdsIn ins, (Leaf.string i).isSound
  next : ∀ t ∈ next, isKey t

namespace Written

variable (h : Written opcode ins next)

include h

theorem isFaithful_inputs : isFaithful (inputsToYaml ins) :=
  areFaithful_toYaml ins h.writable h.distinct h.ids

theorem sound : entriesSound (nodeEntries opcode ins next) := by
  have hstring {s : String} (hs : isKey s) : (ofValue (.str s)).isSound := Leaf.isSound_string hs
  refine entriesSound_cons.mpr ⟨isKey_ownWord (by decide), hstring h.opcode, ?_⟩
  refine entriesSound_append.mpr ⟨?_, entriesSound_iff.mpr ?_⟩
  · split
    · rfl
    · exact entriesSound_cons.mpr
        ⟨isKey_ownWord (by decide), (ofValue_faithful _ h.isFaithful_inputs).1, rfl⟩
  · intro e he
    obtain ⟨t, ht, rfl⟩ := List.mem_map.mp he
    have hkey : isKey "next" := isKey_ownWord (by decide)
    exact ⟨hkey, hstring (h.next t (Option.mem_toList.mp ht))⟩

/-- A node without branches is read back. -/
theorem loads (id : String) : Loads (nodeEntries opcode ins next) ⟨id, opcode, ins, next, []⟩ := by
  have hstring {s : String} (hs : isKey s) : (ofValue (.str s)).value = .str s :=
    Leaf.value_string (Leaf.isSound_string hs)
  have hinputs : (ofValue (inputsToYaml ins)).value = inputsToYaml ins :=
    (ofValue_faithful _ h.isFaithful_inputs).2
  have hnodup : ((nodeEntries opcode ins next).map (·.1)).Nodup := by
    cases ins <;> cases next <;> simp [nodeEntries]
  refine ⟨h.sound, hnodup, Document.loadNode_map_eq_ok.mpr ⟨rfl, ne_of_isKey h.opcode, ?_, ?_, ?_, ?_⟩⟩
  · rw [lookup_entryValues, nodeEntries, firstOf?, List.find?_cons_of_pos (by simp)]
    exact congrArg some (hstring h.opcode)
  · rw [Document.loadSection_eq_lookup, lookup_entryValues]
    cases ins with
    | nil => cases next <;> rfl
    | cons i ins =>
      have hfirst : firstOf? "inputs" (nodeEntries opcode (i :: ins) next) =
          some (ofValue (inputsToYaml (i :: ins))) := rfl
      rw [hfirst, Option.map_some, hinputs]
      exact loadInputs_toYaml id _ h.distinct
  · rw [lookup_entryValues]
    cases next with
    | none => cases ins <;> rfl
    | some t =>
      have hkey := h.next t rfl
      have hfirst : firstOf? "next" (nodeEntries opcode ins (some t)) = some (ofValue (.str t)) := by
        cases ins <;> rfl
      rw [hfirst, Option.map_some, hstring hkey]
      simp [Document.loadPointer, ne_of_isKey hkey]
  · have hfirst : firstOf? "branches" (nodeEntries opcode ins next) = none := by
      cases ins <;> cases next <;> rfl
    rw [Document.loadHeads, Document.field?, lookup_entryValues, hfirst]
    rfl

theorem lines_eq (hid : isKey id) : mappingLines [(id, .map (nodeEntries opcode ins next))] =
    Outline.nested id (Outline.field "opcode" (.str opcode) ++
      (if ins.isEmpty then [] else Outline.field "inputs" (inputsToYaml ins)) ++
        next.toList.flatMap fun t => Outline.field "next" (.str t)) := by
  have hfield {k : String} {v : Value} (hk : k ∈ ownWords) (hv : isFaithful v) :
      Outline.field k v = mappingLines [(k, ofValue v)] := lines_field (isKey_ownWord hk) hv
  have hstring {s : String} (hs : isKey s) : isFaithful (.str s) := Leaf.isSound_string hs
  have hnext : (next.toList.flatMap fun t => Outline.field "next" (.str t)) =
      mappingLines (next.toList.map fun t => ("next", ofValue (.str t))) := by
    cases next with
    | none => rfl
    | some t => exact (List.append_nil _).trans (hfield (by decide) (hstring (h.next t rfl)))
  have hinputs : (if ins.isEmpty then [] else Outline.field "inputs" (inputsToYaml ins)) =
      mappingLines (if ins.isEmpty then [] else [("inputs", ofValue (inputsToYaml ins))]) := by
    split
    · rfl
    · exact hfield (by decide) h.isFaithful_inputs
  rw [hnext, hinputs, hfield (by decide) (hstring h.opcode), List.append_assoc, ← mappingLines_append,
    ← mappingLines_append, Outline.nested, renderString_of_isKey hid]
  exact List.append_nil _

end Written

end Form

end BlockFlow
