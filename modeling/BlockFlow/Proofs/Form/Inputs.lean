import BlockFlow.Edit.Input
import BlockFlow.Proofs.Form.Pointer
import BlockFlow.Proofs.Pointers
import BlockFlow.Proofs.Resets

/-!
Resetting inputs in the outline of a form. Main statement: what is loaded afterwards has a literal at
the path that was reset.
-/

namespace BlockFlow

open Outcome Yaml InputExpr

namespace Document

variable {owner key : String} {vs vs' : List (Value × Value)} {e : InputExpr} {inner : Inputs}

/-- Reporters written in place and calls are told by their keys. -/
theorem loadValue_map_cases (h : loadValue owner key (.map vs) = .ok e)
    (hbelow : e.below? = some inner) : Value.lookup "literal" vs = none ∧
      Value.lookup "variable" vs = none ∧ Value.lookup "node" vs = none ∧
      ((∃ name, Value.lookup "workflow_call" vs = some (.str name) ∧ e = .call name inner ∧
          loadSection owner "args" vs = .ok inner) ∨
        ∃ id opcode, Value.lookup "workflow_call" vs = none ∧
          Value.lookup "opcode" vs = some (.str opcode) ∧ inlineId owner key vs = .ok id ∧
          e = .inline id opcode inner ∧ loadSection (id.getD owner) "inputs" vs = .ok inner) := by
  rw [loadValue] at h
  split at h
  · cases h
    cases hbelow
  · rename_i hliteral
    split at h
    · cases h
      cases hbelow
    · cases h
    · rename_i hvariable
      split at h
      · cases h
        cases hbelow
      · cases h
      · rename_i hnode
        refine ⟨hliteral, hvariable, hnode, ?_⟩
        split at h
        · rename_i name hcall
          obtain ⟨args, hargs, h⟩ := bind_eq_ok.mp h
          cases h
          cases hbelow
          exact .inl ⟨name, hcall, rfl, hargs⟩
        · cases h
        · rename_i hcall
          split at h
          · rename_i opcode hopcode
            obtain ⟨id, hid, h⟩ := bind_eq_ok.mp h
            obtain ⟨inputs, hinputs, h⟩ := bind_eq_ok.mp h
            cases h
            cases hbelow
            exact .inr ⟨id, opcode, hcall, hopcode, hid, rfl, hinputs⟩
          · cases h
          · cases h

theorem loadValue_call {name : String} (hliteral : Value.lookup "literal" vs = none)
    (hvariable : Value.lookup "variable" vs = none) (hnode : Value.lookup "node" vs = none)
    (hcall : Value.lookup "workflow_call" vs = some (.str name))
    (hargs : loadSection owner "args" vs = .ok inner) :
    loadValue owner key (.map vs) = .ok (.call name inner) := by
  simp only [loadValue, hliteral, hvariable, hnode, hcall]
  exact bind_eq_ok.mpr ⟨inner, hargs, rfl⟩

theorem loadValue_inline {id : Option String} {opcode : String}
    (hliteral : Value.lookup "literal" vs = none) (hvariable : Value.lookup "variable" vs = none)
    (hnode : Value.lookup "node" vs = none) (hcall : Value.lookup "workflow_call" vs = none)
    (hopcode : Value.lookup "opcode" vs = some (.str opcode)) (hid : inlineId owner key vs = .ok id)
    (hinputs : loadSection (id.getD owner) "inputs" vs = .ok inner) :
    loadValue owner key (.map vs) = .ok (.inline id opcode inner) := by
  simp only [loadValue, hliteral, hvariable, hnode, hcall, hopcode]
  exact bind_eq_ok.mpr ⟨id, hid, bind_eq_ok.mpr ⟨inner, hinputs, rfl⟩⟩

end Document

namespace Form

mutual

/-- Whether calls have no inputs beside their arguments. -/
def callsPlain : Form → Bool
  | map es => !((es.map (·.1)).contains "workflow_call" && (es.map (·.1)).contains "inputs") &&
      entriesCallsPlain es
  | seq items => itemsCallsPlain items
  | _ => true

def entriesCallsPlain : List (String × Form) → Bool
  | [] => true
  | (_, f) :: es => f.callsPlain && entriesCallsPlain es

def itemsCallsPlain : List Form → Bool
  | [] => true
  | f :: items => f.callsPlain && itemsCallsPlain items

end

variable {es es' : List (String × Form)} {k : String} {f : Form} {owner : String} {ins : Inputs}

theorem callsPlain_map : (map es).callsPlain ↔
    ("workflow_call" ∈ es.map (·.1) → "inputs" ∉ es.map (·.1)) ∧ ∀ e ∈ es, e.2.callsPlain := by
  have hentries : entriesCallsPlain es ↔ ∀ e ∈ es, e.2.callsPlain := by
    induction es with
    | nil => simp [entriesCallsPlain]
    | cons e es ih => rw [entriesCallsPlain, Bool.and_eq_true, ih, List.forall_mem_cons]
  rw [callsPlain, Bool.and_eq_true, hentries]
  simp only [Bool.not_eq_true', Bool.and_eq_false_iff, List.contains_eq_mem,
    decide_eq_false_iff_not, imp_iff_not_or]

theorem callsPlain_seq {items : List Form} :
    (seq items).callsPlain ↔ ∀ f ∈ items, f.callsPlain := by
  rw [callsPlain]
  induction items with
  | nil => simp [itemsCallsPlain]
  | cons f items ih => rw [itemsCallsPlain, Bool.and_eq_true, ih, List.forall_mem_cons]

theorem loadInputs_entryValues : Document.loadInputs owner (entryValues es) = .ok ins ↔
    List.Forall₂ (fun e i => i.1 = e.1 ∧ Document.loadValue owner i.1 e.2.value = .ok i.2)
      es ins := by
  induction es generalizing ins with
  | nil =>
    rw [entryValues, Document.loadInputs, List.forall₂_nil_left_iff, Except.ok.injEq, eq_comm]
  | cons e es ih =>
    simp only [entryValues, Document.loadInputs, Document.keyName, bind_eq_ok, Except.ok.injEq,
      exists_eq_left', ih]
    rw [List.forall₂_cons_left_iff]
    constructor
    · rintro ⟨v, hv, more, hmore, rfl⟩
      exact ⟨(e.1, v), more, ⟨rfl, hv⟩, hmore, rfl⟩
    · rintro ⟨⟨key, v⟩, more, ⟨rfl, hv⟩, hmore, rfl⟩
      exact ⟨v, hv, more, hmore, rfl⟩

/-- Inputs that are there stand below their key. -/
theorem exists_map_of_loadSection (h : Document.loadSection owner k (entryValues es) = .ok ins)
    (hne : ins ≠ []) : ∃ xs, firstOf? k es = some (.map xs) ∧
      Document.loadInputs owner (entryValues xs) = .ok ins := by
  rw [Document.loadSection_eq_lookup, lookup_entryValues] at h
  cases hfirst : firstOf? k es with
  | none =>
    rw [hfirst] at h
    cases h
    exact absurd rfl hne
  | some f =>
    rw [hfirst, Option.map_some] at h
    cases f with
    | map xs => exact ⟨xs, rfl, h⟩
    | bare =>
      cases h
      exact absurd rfl hne
    | seq items => cases h
    | leaf l =>
      rw [value] at h
      cases hv : l.value with
      | null =>
        rw [hv] at h
        cases h
        exact absurd rfl hne
      | map vs =>
        rw [hv, value_leaf_map hv] at h
        cases h
        exact absurd rfl hne
      | _ =>
        rw [hv] at h
        cases h

theorem loadSection_map {xs : List (String × Form)} (h : firstOf? k es = some (.map xs)) :
    Document.loadSection owner k (entryValues es) =
      Document.loadInputs owner (entryValues xs) := by
  rw [Document.loadSection_eq_lookup, lookup_entryValues, h]
  rfl

theorem isKey_literal : isKey "literal" := isKey_ownWord (by decide)

/-- Defaults are written on one line. -/
theorem exists_leaf_default (type : String) : ∃ l : Leaf, l.isSound ∧
    Outline.inlineOrNull (defaultLiteral type) = l.text := by
  have hplain (text : String) (h : isPlainText text.toList) :
      ∃ l : Leaf, l.isSound ∧ text.toList = l.text := ⟨.plain text.toList, h, rfl⟩
  unfold defaultLiteral
  split
  · exact hplain "0" (by decide +kernel)
  · exact hplain "0.0" (by decide +kernel)
  · exact hplain "0.0" (by decide +kernel)
  · exact hplain "false" (by decide +kernel)
  · exact ⟨.quoted [], rfl, rfl⟩
  · exact ⟨.quoted [], rfl, rfl⟩
  · exact ⟨.noItems, rfl, rfl⟩
  · exact ⟨.noEntries, rfl, rfl⟩
  · exact hplain "null" (by decide +kernel)

/-- The literal that stands for an input after a reset. -/
def literal (l : Leaf) : Form := .map [("literal", .leaf l)]

theorem isSound_literal {l : Leaf} (h : l.isSound) : (literal l).isSound :=
  isSound_map.mpr ⟨List.cons_ne_nil _ _, List.nodup_singleton _,
    entriesSound_cons.mpr ⟨isKey_literal, h, rfl⟩⟩

theorem callsPlain_literal (l : Leaf) : (literal l).callsPlain := rfl

theorem loadValue_literal (owner key : String) (l : Leaf) :
    Document.loadValue owner key (literal l).value = .ok (.literal l.value) := by
  simp [literal, value, entryValues, Document.loadValue, Value.lookup]

theorem loadInputs_append {xs xs' : List (String × Form)} {ins' : Inputs}
    (h : Document.loadInputs owner (entryValues xs) = .ok ins)
    (h' : Document.loadInputs owner (entryValues xs') = .ok ins') :
    Document.loadInputs owner (entryValues (xs ++ xs')) = .ok (ins ++ ins') :=
  loadInputs_entryValues.mpr
    (List.rel_append (loadInputs_entryValues.mp h) (loadInputs_entryValues.mp h'))

theorem loadInputs_cons {xs : List (String × Form)} {g : Form} {key : String} {e : InputExpr}
    (hg : Document.loadValue owner key g.value = .ok e)
    (h : Document.loadInputs owner (entryValues xs) = .ok ins) :
    Document.loadInputs owner (entryValues ((key, g) :: xs)) = .ok ((key, e) :: ins) :=
  loadInputs_entryValues.mpr (.cons ⟨rfl, hg⟩ (loadInputs_entryValues.mp h))

theorem keys_of_loadInputs {xs : List (String × Form)}
    (h : Document.loadInputs owner (entryValues xs) = .ok ins) : ins.map (·.1) = xs.map (·.1) := by
  have hall := (loadInputs_entryValues.mp h).flip
  refine List.forall₂_eq_eq_eq ▸ (List.forall₂_map_left_iff.mpr (List.forall₂_map_right_iff.mpr
    (hall.imp ?_)))
  exact fun _ _ hi => hi.1

/-- The entry of an input, and those around it. -/
theorem exists_split_of_loadInputs {xs : List (String × Form)} {key : String} {e : InputExpr}
    (h : Document.loadInputs owner (entryValues xs) = .ok ins) (hkeys : (xs.map (·.1)).Nodup)
    (hmem : (key, e) ∈ ins) :
    ∃ xs₁ g xs₂ ins₁ ins₂, xs = xs₁ ++ (key, g) :: xs₂ ∧ ins = ins₁ ++ (key, e) :: ins₂ ∧
      (key ∉ xs₁.map (·.1) ∧ key ∉ xs₂.map (·.1)) ∧ (key ∉ ins₁.map (·.1) ∧ key ∉ ins₂.map (·.1)) ∧
      Document.loadInputs owner (entryValues xs₁) = .ok ins₁ ∧
      Document.loadValue owner key g.value = .ok e ∧
      Document.loadInputs owner (entryValues xs₂) = .ok ins₂ := by
  obtain ⟨ins₁, ins₂, rfl⟩ := List.append_of_mem hmem
  obtain ⟨xs₁, rest, rfl, h₁, hrest⟩ :=
    exists_append_of_forall₂ (loadInputs_entryValues.mp h).flip
  obtain ⟨⟨k, g⟩, xs₂, ⟨hk, hg⟩, h₂, rfl⟩ := List.forall₂_cons_left_iff.mp hrest
  obtain rfl : key = k := hk
  have h₁ := loadInputs_entryValues.mpr h₁.flip
  have h₂ := loadInputs_entryValues.mpr h₂.flip
  have hfresh := fresh_of_nodup hkeys
  refine ⟨xs₁, g, xs₂, ins₁, ins₂, rfl, rfl, hfresh, ?_, h₁, hg, h₂⟩
  rw [keys_of_loadInputs h₁, keys_of_loadInputs h₂]
  exact hfresh

/-- Values that are no literals are mappings. -/
theorem exists_map_of_not_literal {g : Form} {key : String} {e : InputExpr}
    (h : Document.loadValue owner key g.value = .ok e) (hnot : ∀ v, e ≠ .literal v) :
    ∃ gs, g = .map gs := by
  cases g with
  | map gs => exact ⟨gs, rfl⟩
  | bare =>
    cases h
    exact absurd rfl (hnot _)
  | seq items => cases h
  | leaf l =>
    rw [value] at h
    cases hv : l.value with
    | map vs =>
      rw [hv, value_leaf_map hv] at h
      cases h
    | seq vs =>
      rw [hv] at h
      cases h
    | _ =>
      rw [hv] at h
      cases h
      exact absurd rfl (hnot _)

/-- Reporters in place and calls are mappings. -/
theorem exists_map_of_loadValue {g : Form} {key : String} {e : InputExpr} {inner : Inputs}
    (h : Document.loadValue owner key g.value = .ok e) (hbelow : e.below? = some inner) :
    ∃ gs, g = .map gs := by
  refine exists_map_of_not_literal h fun v hv => ?_
  rw [hv] at hbelow
  cases hbelow

theorem not_mem_of_lookup (h : Value.lookup k (entryValues es) = none) : k ∉ es.map (·.1) := by
  rw [lookup_entryValues, Option.map_eq_none_iff] at h
  intro hmem
  obtain ⟨g, hg⟩ := exists_firstOf? hmem
  rw [h] at hg
  cases hg

theorem mem_of_lookup {v : Value} (h : Value.lookup k (entryValues es) = some v) :
    k ∈ es.map (·.1) := by
  rw [lookup_entryValues] at h
  obtain ⟨g, hg, -⟩ := Option.map_eq_some_iff.mp h
  exact List.mem_map_of_mem (mem_of_firstOf? hg)

/-- Entries of a block of which one holds inputs. -/
structure Block (c : String) (es : List (String × Form)) : Prop where
  sound : entriesSound es
  nodup : (es.map (·.1)).Nodup
  plain : ∀ g, firstOf? c es = some g → g.callsPlain

/-- Whether inputs under a key are found. -/
def IsSection (c : String) (es : List (String × Form)) : Prop :=
  c = "inputs" ∨ c = "args" ∧ "inputs" ∉ es.map (·.1)

end Form

namespace InputExpr

theorem setAt_append {v e : InputExpr} {key : String} {q : List String} {ins₁ ins₂ : Inputs}
    (h₁ : key ∉ ins₁.map (·.1)) (h₂ : key ∉ ins₂.map (·.1)) :
    setAt v (key :: q) (ins₁ ++ (key, e) :: ins₂) =
      ins₁ ++ (key, if q.isEmpty then v else mapInputs (setAt v q) e) :: ins₂ := by
  have hfront := setAt_of_not_mem (v := v) (q := q) h₁
  have hrest := setAt_of_not_mem (v := v) (q := q) h₂
  rw [setAt] at hfront hrest ⊢
  rw [List.map_append, List.map_cons, if_pos rfl, hfront, hrest]

theorem mapInputs_of_below {f : Inputs → Inputs} {e : InputExpr} {inner : Inputs}
    (h : e.below? = some inner) : mapInputs f e = mapInputs (fun _ => f inner) e := by
  cases e <;> cases h <;> rfl

end InputExpr

namespace Slot

open Form (Block IsSection entriesSound)

variable {s : Slot} {es es₁ es₂ xs xs₁ xs₂ gs : List (String × Form)} {c key owner : String}
  {ins₁ ins₂ : Inputs} {g : Form} {e : InputExpr}

/-- The line of the inputs of a block. -/
theorem slotsLine?_fill (hc : IsSection c (es₁ ++ (c, g) :: es₂))
    (hes : entriesSound (es₁ ++ (c, g) :: es₂)) (h₁ : c ∉ es₁.map (·.1)) :
    (s.fill (.map (es₁ ++ (c, g) :: es₂))).slotsLine? s.line =
      some (s.line + 1 + (Form.mappingLines es₁).length) := by
  rw [Outline.slotsLine?]
  rcases hc with rfl | ⟨rfl, hnot⟩
  · rw [find?_fill_append hes h₁]
    rfl
  · rw [find?_fill_none hes hnot, find?_fill_append hes h₁]
    rfl

/-- The values inside a reporter written in place or a call are found in its own block. -/
theorem enter_fill {d : Draft} {w : Workflow} {missing : EditError} {inner : Inputs} {b : Nat × String}
    (hd : d.outline = s.fill (.map gs)) (hgs : entriesSound gs)
    (hload : Document.loadValue owner key (Form.map gs).value = .ok e)
    (hbelow : e.below? = some inner) (h : d.enter w missing s.line = .ok b) : b.1 = s.line := by
  obtain ⟨-, -, hnode, hkeys⟩ := Document.loadValue_map_cases hload hbelow
  have hnone := find?_fill_none (s := s) hgs (Form.not_mem_of_lookup hnode)
  unfold Draft.enter at h
  simp only [hd, hnone] at h
  cases hopcode : (s.fill (.map gs)).find? s.line "opcode" with
  | some j =>
    rw [hopcode] at h
    cases h
    rfl
  | none =>
    simp only [hopcode] at h
    by_cases hcall : ((s.fill (.map gs)).find? s.line "workflow_call").isSome
    · rw [if_pos hcall] at h
      cases h
      rfl
    · rw [if_neg hcall] at h
      cases h

/-- Replacing the value of an input. -/
theorem block_replace (hes : Block c (es₁ ++ (c, .map (xs₁ ++ (key, g) :: xs₂)) :: es₂))
    (h₁ : c ∉ es₁.map (·.1)) {g' : Form} (hg' : g'.isSound) (hplain : g'.callsPlain) :
    Block c (es₁ ++ (c, .map (xs₁ ++ (key, g') :: xs₂)) :: es₂) := by
  obtain ⟨hsound₁, hc, hmap, hsound₂⟩ := sound_entry hes.sound
  obtain ⟨-, hkeys, hxs⟩ := Form.isSound_map.mp hmap
  obtain ⟨hx₁, hkey, -, hx₂⟩ := sound_entry hxs
  have hnew : (Form.map (xs₁ ++ (key, g') :: xs₂)).isSound :=
    Form.isSound_map.mpr ⟨by simp, by simpa using hkeys,
      Form.entriesSound_append.mpr ⟨hx₁, Form.entriesSound_cons.mpr ⟨hkey, hg', hx₂⟩⟩⟩
  have hold := hes.plain _ (Form.firstOf?_append h₁)
  rw [Form.callsPlain_map] at hold
  refine ⟨Form.entriesSound_append.mpr ⟨hsound₁, Form.entriesSound_cons.mpr ⟨hc, hnew, hsound₂⟩⟩,
    by simpa using hes.nodup, fun f hf => ?_⟩
  rw [Form.firstOf?_append h₁, Option.some.injEq] at hf
  rw [← hf, Form.callsPlain_map]
  refine ⟨by simpa using hold.1, fun x hx => ?_⟩
  rcases List.mem_append.mp hx with hx | hx
  · exact hold.2 x (List.mem_append_left _ hx)
  · rcases List.mem_cons.mp hx with rfl | hx
    · exact hplain
    · exact hold.2 x (List.mem_append_right _ (List.mem_cons_of_mem _ hx))

theorem firstOf?_replace {k : String} {f f' : Form} (hk : k ≠ c) :
    firstOf? k (es₁ ++ (c, f) :: es₂) = firstOf? k (es₁ ++ (c, f') :: es₂) := by
  simp [firstOf?, List.find?_append, Ne.symm hk]

end Slot

namespace Form

variable {c key owner : String} {gs gs' : List (String × Form)} {inner inner' : Inputs}
  {e : InputExpr}

/-- Entries beside those of inputs. -/
def Beside (c : String) (gs gs' : List (String × Form)) : Prop :=
  ∀ k, k ≠ c → firstOf? k gs' = firstOf? k gs

theorem Beside.lookup (h : Beside c gs gs') {k : String} (hk : k ≠ c) :
    Value.lookup k (entryValues gs') = Value.lookup k (entryValues gs) := by
  rw [lookup_entryValues, lookup_entryValues, h k hk]

/-- With other inputs the rest of a node is loaded as before. -/
theorem Loads.of_inputs {n : NodeDef} {inputs : Inputs} (h : Loads gs n) (hsound : entriesSound gs')
    (hnodup : (gs'.map (·.1)).Nodup) (hbeside : Beside "inputs" gs gs')
    (hload : Document.loadSection n.id "inputs" (entryValues gs') = .ok inputs) :
    Loads gs' { n with inputs := inputs } := by
  obtain ⟨-, hne, hopcode, -, hnext, hheads⟩ := Document.loadNode_map_eq_ok.mp h.load
  refine ⟨hsound, hnodup, Document.loadNode_map_eq_ok.mpr ⟨rfl, hne, ?_, hload, ?_, ?_⟩⟩
  · rw [hbeside.lookup (by decide), hopcode]
  · rw [hbeside.lookup (by decide), hnext]
  · rw [loadHeads_congr (hbeside "branches" (by decide)), hheads]

theorem Block.callsPlain (h : Block c gs') (hbeside : Beside c gs gs')
    (hplain : (Form.map gs).callsPlain)
    (hcalls : "workflow_call" ∈ gs'.map (·.1) → "inputs" ∉ gs'.map (·.1)) :
    (Form.map gs').callsPlain := by
  rw [callsPlain_map] at hplain ⊢
  refine ⟨hcalls, fun x hx => ?_⟩
  have hfirst := firstOf?_of_mem h.nodup hx
  by_cases hk : x.1 = c
  · exact h.plain x.2 (hk ▸ hfirst)
  · rw [hbeside x.1 hk] at hfirst
    exact hplain.2 _ (mem_of_firstOf? hfirst)

theorem Block.isSound (h : Block c gs') {k : String} {v : Value}
    (hk : Value.lookup k (entryValues gs') = some v) : (Form.map gs').isSound := by
  refine isSound_map.mpr ⟨?_, h.nodup, h.sound⟩
  rintro rfl
  cases hk

/-- A value with other inputs inside. -/
theorem loadValue_inner (hload : Document.loadValue owner key (Form.map gs).value = .ok e)
    (hbelow : e.below? = some inner) (hplain : (Form.map gs).callsPlain) :
    ∃ c' owner', IsSection c' gs ∧
      Document.loadSection owner' c' (entryValues gs) = .ok inner ∧
      ∀ gs' inner', Block c' gs' → Beside c' gs gs' →
        Document.loadSection owner' c' (entryValues gs') = .ok inner' →
          (Form.map gs').isSound ∧ (Form.map gs').callsPlain ∧
            Document.loadValue owner key (Form.map gs').value =
              .ok (mapInputs (fun _ => inner') e) := by
  obtain ⟨hliteral, hvariable, hnode, ⟨name, hcall, rfl, hargs⟩ |
    ⟨id, opcode, hcall, hopcode, hid, rfl, hinputs⟩⟩ := Document.loadValue_map_cases hload hbelow
  · have hnot : "inputs" ∉ gs.map (·.1) := (callsPlain_map.mp hplain).1 (mem_of_lookup hcall)
    refine ⟨"args", owner, .inr ⟨rfl, hnot⟩, hargs, fun gs' inner' hblock hbeside hinner => ?_⟩
    have hcall' := (hbeside.lookup (by decide)).trans hcall
    refine ⟨hblock.isSound hcall', hblock.callsPlain hbeside hplain fun _ hmem => ?_, ?_⟩
    · obtain ⟨g, hg⟩ := exists_firstOf? hmem
      rw [hbeside _ (by decide)] at hg
      exact hnot (List.mem_map_of_mem (mem_of_firstOf? hg))
    · exact Document.loadValue_call ((hbeside.lookup (by decide)).trans hliteral)
        ((hbeside.lookup (by decide)).trans hvariable) ((hbeside.lookup (by decide)).trans hnode)
        hcall' hinner
  · refine ⟨"inputs", id.getD owner, .inl rfl, hinputs, fun gs' inner' hblock hbeside hinner => ?_⟩
    have hopcode' := (hbeside.lookup (by decide)).trans hopcode
    have hcall' := (hbeside.lookup (by decide)).trans hcall
    refine ⟨hblock.isSound hopcode', hblock.callsPlain hbeside hplain fun hmem => ?_, ?_⟩
    · exact absurd hmem (not_mem_of_lookup hcall')
    · refine Document.loadValue_inline ((hbeside.lookup (by decide)).trans hliteral)
        ((hbeside.lookup (by decide)).trans hvariable) ((hbeside.lookup (by decide)).trans hnode)
        hcall' hopcode' ?_ hinner
      rw [Document.inlineId, Document.field?_congr (hbeside.lookup (by decide))]
      exact hid

end Form

namespace Slot

open Form (Block IsSection Beside entriesSound)

/-- The entry of an input in the outline of a draft, and what is left of the search for an input at
which it was found. -/
structure Entry (d : Draft) (w : Workflow) (node : String) (post : List String)
    (p : Draft.InputPlace) where
  slot : Slot
  front : List (String × Form)
  key : String
  form : Form
  back : List (String × Form)
  owner : String
  block : Nat
  opcode : String
  sound : entriesSound (front ++ (key, form) :: back)
  nodup : ((front ++ (key, form) :: back).map (·.1)).Nodup
  outline : d.outline = slot.fill (.map (front ++ (key, form) :: back))
  slots : d.outline.slotsLine? block = some slot.line
  search : d.inputFrom w node block opcode (key :: post) = .ok p

namespace Entry

variable {d : Draft} {w : Workflow} {node : String} {post : List String} {p : Draft.InputPlace}

/-- The outline with another value in the entry. -/
def fill (E : Entry d w node post p) (g : Form) : Outline :=
  E.slot.fill (.map (E.front ++ (E.key, g) :: E.back))

theorem fresh (E : Entry d w node post p) : E.key ∉ E.front.map (·.1) :=
  (fresh_of_nodup E.nodup).1

theorem find? (E : Entry d w node post p) : d.outline.find? E.slot.line E.key =
    some (E.slot.line + 1 + (Form.mappingLines E.front).length) := by
  rw [E.outline]
  exact find?_fill_append E.sound E.fresh

/-- The search ends at the last name of the path. -/
theorem place (E : Entry d w node [] p) : p = ⟨E.slot.line, E.key, E.opcode⟩ := by
  have hsearch := E.search
  rw [Draft.inputFrom, E.slots] at hsearch
  simp only [E.find?, List.isEmpty_nil, if_true] at hsearch
  exact (Except.ok.inj hsearch).symm

/-- The search goes on inside the value. -/
theorem exists_enter (E : Entry d w node post p) (hpost : post ≠ []) :
    ∃ missing block opcode, d.enter w missing
      (E.slot.line + 1 + (Form.mappingLines E.front).length) = .ok (block, opcode) ∧
        d.inputFrom w node block opcode post = .ok p := by
  have hsearch := E.search
  rw [Draft.inputFrom, E.slots] at hsearch
  simp only [E.find?] at hsearch
  rw [if_neg (by simpa using hpost)] at hsearch
  obtain ⟨⟨block, opcode⟩, henter, hrest⟩ := bind_eq_ok.mp hsearch
  exact ⟨_, block, opcode, henter, hrest⟩

end Entry

variable {s : Slot} {es : List (String × Form)} {c owner node : String} {d : Draft} {w : Workflow}
  {ins : Inputs}

/-- The first name on a path through a block leads to the entry of an input. With another value in the
entry, the block is loaded with that value under the name. -/
theorem exists_first {post : List String} {key opcode : String} {e : InputExpr}
    {p : Draft.InputPlace} (hblock : Block c es) (hsection : IsSection c es)
    (hload : Document.loadSection owner c (Form.entryValues es) = .ok ins) (hmem : (key, e) ∈ ins)
    (hd : d.outline = s.fill (.map es))
    (hplace : d.inputFrom w node s.line opcode (key :: post) = .ok p) :
    ∃ (E : Entry d w node post p) (ins₁ ins₂ : Inputs), ins = ins₁ ++ (key, e) :: ins₂ ∧
      (key ∉ ins₁.map (·.1) ∧ key ∉ ins₂.map (·.1)) ∧ E.form.callsPlain ∧
      Document.loadValue E.owner E.key E.form.value = .ok e ∧
      ∀ g e', g.isSound → g.callsPlain → Document.loadValue E.owner E.key g.value = .ok e' →
        ∃ es', E.fill g = s.fill (.map es') ∧ Block c es' ∧ Beside c es es' ∧
          Document.loadSection owner c (Form.entryValues es') = .ok (ins₁ ++ (key, e') :: ins₂) := by
  -- The inputs stand in a block of their own.
  obtain ⟨xs, hfirst, hinputs⟩ := Form.exists_map_of_loadSection hload (List.ne_nil_of_mem hmem)
  obtain ⟨es₁, es₂, rfl, h₁⟩ := Form.exists_split_of_firstOf? hfirst
  obtain ⟨-, hc, hmap, hsound₂⟩ := sound_entry hblock.sound
  obtain ⟨-, hkeys, hxs⟩ := Form.isSound_map.mp hmap
  obtain ⟨xs₁, g, xs₂, ins₁, ins₂, rfl, rfl, -, hfresh, hl₁, hg, hl₂⟩ :=
    Form.exists_split_of_loadInputs hinputs hkeys hmem
  have hplain : g.callsPlain :=
    (Form.callsPlain_map.mp (hblock.plain _ (Form.firstOf?_append h₁))).2 _
      (List.mem_append_right _ List.mem_cons_self)
  let t : Slot := s.inner es₁ es₂ c hc hsound₂
  have htfill (f : Form) : t.fill f = s.fill (.map (es₁ ++ (c, f) :: es₂)) := fill_inner _ _
  have htline : t.line = s.line + 1 + (Form.mappingLines es₁).length := line_inner _ _
  have hslots := slotsLine?_fill (s := s) hsection hblock.sound h₁
  rw [← hd, ← htline] at hslots
  let E : Entry d w node post p := {
    slot := t
    front := xs₁
    key := key
    form := g
    back := xs₂
    owner := owner
    block := s.line
    opcode := opcode
    sound := hxs
    nodup := hkeys
    outline := by rw [hd, htfill]
    slots := hslots
    search := hplace }
  refine ⟨E, ins₁, ins₂, rfl, hfresh, hplain, hg, fun g' e' hg' hplain' hvalue => ?_⟩
  refine ⟨_, htfill _, block_replace hblock h₁ hg' hplain', fun k hk => firstOf?_replace hk, ?_⟩
  rw [Form.loadSection_map (Form.firstOf?_append h₁),
    Form.loadInputs_append hl₁ (Form.loadInputs_cons hvalue hl₂)]

/-- A path through a block leads to the entry of an input. With another value in the entry, the block
is loaded with that value there. -/
theorem exists_entry {post : List String} {e : InputExpr} {p : Draft.InputPlace} (q : List String) :
    ∀ (s : Slot) (es : List (String × Form)) (c owner : String) (ins : Inputs) (opcode : String),
      Block c es → IsSection c es → Document.loadSection owner c (Form.entryValues es) = .ok ins →
      EndsAt q ins e → d.outline = s.fill (.map es) →
      d.inputFrom w node s.line opcode (q ++ post) = .ok p →
      ∃ E : Entry d w node post p, Document.loadValue E.owner E.key E.form.value = .ok e ∧
        ∀ g e', g.isSound → g.callsPlain → Document.loadValue E.owner E.key g.value = .ok e' →
          ∃ es', E.fill g = s.fill (.map es') ∧ Block c es' ∧ Beside c es es' ∧
            Document.loadSection owner c (Form.entryValues es') = .ok (setAt e' q ins) := by
  induction q with
  | nil => exact fun _ _ _ _ _ _ _ _ _ h => h.elim
  | cons key rest ih =>
    intro s es c owner ins opcode hblock hsection hload hends hd hplace
    obtain ⟨e₀, hmem, hrest⟩ := hends
    obtain ⟨E₀, ins₁, ins₂, rfl, hfresh, hplain, hg, hset₀⟩ :=
      exists_first hblock hsection hload hmem hd hplace
    cases rest with
    | nil =>
      have he : e = e₀ := by
        rcases hrest with ⟨-, he⟩ | ⟨inner, -, hinner⟩
        · exact he
        · exact hinner.elim
      refine ⟨E₀, he ▸ hg, fun g' e' hg' hplain' hvalue => ?_⟩
      rw [setAt_append hfresh.1 hfresh.2]
      exact hset₀ g' e' hg' hplain' hvalue
    | cons k rest =>
      -- The value is a block itself, in which the path goes on.
      obtain ⟨inner, hbelow, hends⟩ := hrest.resolve_left fun h => List.cons_ne_nil _ _ h.1
      obtain ⟨gs, hgs⟩ := Form.exists_map_of_loadValue hg hbelow
      obtain ⟨-, hkey, hsound, hback⟩ := sound_entry E₀.sound
      rw [hgs] at hg hplain hsound
      obtain ⟨-, hgkeys, hgsound⟩ := Form.isSound_map.mp hsound
      obtain ⟨c', owner', hsection', hload', hvalue⟩ := Form.loadValue_inner hg hbelow hplain
      have hinner : Block c' gs := ⟨hgsound, hgkeys, fun f hf =>
        (Form.callsPlain_map.mp hplain).2 _ (mem_of_firstOf? hf)⟩
      let u : Slot := E₀.slot.inner E₀.front E₀.back E₀.key hkey hback
      have hufill (f : Form) : u.fill f = E₀.fill f := fill_inner _ _
      have huline : u.line = E₀.slot.line + 1 + (Form.mappingLines E₀.front).length :=
        line_inner _ _
      have houtline : d.outline = u.fill (.map gs) := by
        rw [hufill, E₀.outline, hgs]
        rfl
      obtain ⟨_, block, opcode', henter, hplace⟩ := E₀.exists_enter (List.cons_ne_nil _ _)
      obtain rfl : block = u.line :=
        enter_fill houtline hgsound hg hbelow (huline ▸ henter)
      obtain ⟨E, hform, hset⟩ := ih u gs c' owner' inner opcode' hinner hsection' hload' hends
        houtline hplace
      refine ⟨E, hform, fun g' e' hg' hplain' hvalue' => ?_⟩
      obtain ⟨gs', hfill, hblock', hbeside', hload''⟩ := hset g' e' hg' hplain' hvalue'
      obtain ⟨hsound', hplain', hg'⟩ := hvalue gs' _ hblock' hbeside' hload''
      rw [setAt_append hfresh.1 hfresh.2]
      obtain ⟨es', hfill', hafter⟩ := hset₀ _ _ hsound' hplain' hg'
      refine ⟨es', by rw [hfill, hufill, hfill'], ?_⟩
      rw [← mapInputs_of_below (f := setAt e' (k :: rest)) hbelow] at hafter
      exact hafter

/-- Resetting an input of a block: what is loaded afterwards has a literal there. -/
theorem reset_fill {q : List String} {opcode : String} {p : Draft.InputPlace} (hblock : Block c es)
    (hsection : IsSection c es)
    (hload : Document.loadSection owner c (Form.entryValues es) = .ok ins) (halong : Along q ins)
    (hd : d.outline = s.fill (.map es)) (hplace : d.inputFrom w node s.line opcode q = .ok p) :
    ∃ es' v, d.outline.setBlock p.container p.key [Outline.literalLine (d.defaultAt p)] =
        s.fill (.map es') ∧ Block c es' ∧ Beside c es es' ∧
          Document.loadSection owner c (Form.entryValues es') = .ok (setAt (.literal v) q ins) := by
  obtain ⟨e, hends⟩ := halong.exists_endsAt
  rw [← List.append_nil q] at hplace
  obtain ⟨E, -, hset⟩ := exists_entry q s es c owner ins opcode hblock hsection hload hends hd hplace
  obtain ⟨l, hl, htext⟩ := Form.exists_leaf_default
    (((d.catalog.get? E.opcode).bind (·.inputType? E.key)).getD "str")
  obtain ⟨es', hfill, hnew⟩ := hset (Form.literal l) (.literal l.value) (Form.isSound_literal hl)
    (Form.callsPlain_literal l) (Form.loadValue_literal E.owner E.key l)
  refine ⟨es', l.value, ?_, hnew⟩
  have hlines : [Outline.literalLine (d.defaultAt p)] = (Form.literal l).lines := by
    rw [E.place, Draft.defaultAt, Outline.literalLine, htext]
    rfl
  have hput := setBlock_fill (s := E.slot) (f := Form.literal l) E.sound (sound_entry E.sound).2.1
    E.nodup (Form.solid_lines _ (Form.isSound_literal hl)) fun _ heq => by cases heq
  rw [hlines, E.place, E.outline, hput, Form.put_append E.fresh, ← hfill, Entry.fill]

end Slot

namespace Form

variable {es fs : List (String × Form)} {n : NodeDef} {d : Draft} {w : Workflow} {s : Slot}
  {p : Draft.InputPlace} {path : List String} {node opcode : String}

/-- Whether calls among the inputs of a node have no inputs beside their arguments. -/
def PlainInputs (fs : List (String × Form)) : Prop :=
  ∀ g, firstOf? "inputs" fs = some g → g.callsPlain

/-- The node that is read once an input of it is reset. -/
theorem Loads.reset (h : Loads fs n) (hplain : PlainInputs fs) (halong : Along path n.inputs)
    (hd : d.outline = s.fill (.map fs)) (hplace : d.inputFrom w node s.line opcode path = .ok p) :
    ∃ fs' v, d.outline.setBlock p.container p.key [Outline.literalLine (d.defaultAt p)] =
        s.fill (.map fs') ∧
      Loads fs' { n with inputs := setAt (.literal v) path n.inputs } ∧ PlainInputs fs' := by
  obtain ⟨hid, hne, hopcode, hinputs, hnext, hheads⟩ := Document.loadNode_map_eq_ok.mp h.load
  obtain ⟨fs', v, hset, hblock, hbeside, hload⟩ := Slot.reset_fill ⟨h.sound, h.nodup, hplain⟩
    (.inl rfl) hinputs halong hd hplace
  refine ⟨fs', v, hset, ⟨hblock.sound, hblock.nodup, ?_⟩, hblock.plain⟩
  refine Document.loadNode_map_eq_ok.mpr ⟨rfl, hne, ?_, hload, ?_, ?_⟩
  · rw [hbeside.lookup (by decide), hopcode]
  · rw [hbeside.lookup (by decide), hnext]
  · rw [loadHeads_congr (hbeside "branches" (by decide)), hheads]

/-- The inputs under a key of sound entries stand in a block of their own, when there are some. -/
theorem inputs_of_loadSection {c owner : String} {ins : Inputs} (hes : (Form.map es).isSound)
    (h : Document.loadSection owner c (entryValues es) = .ok ins) : ins = [] ∨
      ∃ xs, entriesSound xs ∧ (xs.map (·.1)).Nodup ∧
        Document.loadInputs owner (entryValues xs) = .ok ins := by
  by_cases hne : ins = []
  · exact .inl hne
  · obtain ⟨xs, hfirst, hload⟩ := exists_map_of_loadSection h hne
    obtain ⟨-, hkeys, hxs⟩ := isSound_map.mp
      (entriesSound_iff.mp (isSound_map.mp hes).2.2 _ (mem_of_firstOf? hfirst)).2
    exact .inr ⟨xs, hxs, hkeys, hload⟩

mutual

/-- What loads from sound forms has inputs with different names. -/
theorem distinct_of_loadValue {owner key : String} : (e : InputExpr) → (g : Form) → g.isSound →
    Document.loadValue owner key g.value = .ok e → e.Distinct
  | .inline id opcode inputs, g, hg, h => by
    obtain ⟨gs, rfl⟩ := exists_map_of_loadValue h rfl
    obtain ⟨-, -, -, ⟨_, -, ⟨⟩, -⟩ | ⟨_, _, -, -, -, ⟨⟩, hinputs⟩⟩ :=
      Document.loadValue_map_cases h rfl
    obtain rfl | ⟨xs, hxs, hkeys, hload⟩ := inputs_of_loadSection hg hinputs
    · trivial
    · exact distinctIn_of_loadInputs inputs xs hxs hkeys hload
  | .call name args, g, hg, h => by
    obtain ⟨gs, rfl⟩ := exists_map_of_loadValue h rfl
    obtain ⟨-, -, -, ⟨_, -, ⟨⟩, hargs⟩ | ⟨_, _, -, -, -, ⟨⟩, -⟩⟩ :=
      Document.loadValue_map_cases h rfl
    obtain rfl | ⟨xs, hxs, hkeys, hload⟩ := inputs_of_loadSection hg hargs
    · trivial
    · exact distinctIn_of_loadInputs args xs hxs hkeys hload
  | .literal _, _, _, _ => trivial
  | .variable _, _, _, _ => trivial
  | .node _, _, _, _ => trivial

theorem distinctIn_of_loadInputs {owner : String} : (ins : Inputs) →
    (xs : List (String × Form)) → entriesSound xs → (xs.map (·.1)).Nodup →
    Document.loadInputs owner (entryValues xs) = .ok ins → DistinctIn ins
  | [], _, _, _, _ => trivial
  | (k, e) :: ins, xs, hxs, hkeys, h => by
    obtain ⟨⟨k', g⟩, ys, ⟨rfl, hvalue⟩, hall, rfl⟩ :=
      List.forall₂_cons_right_iff.mp (loadInputs_entryValues.mp h)
    obtain ⟨-, hg, hys⟩ := entriesSound_cons.mp hxs
    have hrest := loadInputs_entryValues.mpr hall
    have hsame := keys_of_loadInputs hrest
    rw [List.map_cons, List.nodup_cons, ← hsame] at hkeys
    exact ⟨hkeys.1, distinct_of_loadValue e _ hg hvalue,
      distinctIn_of_loadInputs ins ys hys (hsame ▸ hkeys.2) hrest⟩

end

theorem Loads.distinct (h : Loads fs n) : DistinctIn n.inputs := by
  obtain ⟨-, -, -, hinputs, -⟩ := Document.loadNode_map_eq_ok.mp h.load
  obtain hnil | ⟨xs, hxs, hkeys, hload⟩ := inputs_of_loadSection h.sound_map hinputs
  · rw [hnil]
    trivial
  · exact distinctIn_of_loadInputs _ xs hxs hkeys hload

theorem Loads.isKey_input {key : String} (h : Loads fs n) (hkey : key ∈ n.inputs.map (·.1)) :
    isKey key := by
  obtain ⟨-, -, -, hinputs, -⟩ := Document.loadNode_map_eq_ok.mp h.load
  obtain hnil | ⟨xs, hxs, -, hload⟩ := inputs_of_loadSection h.sound_map hinputs
  · rw [hnil] at hkey
    cases hkey
  · exact isKey_of_mem hxs (keys_of_loadInputs hload ▸ hkey)

end Form

end BlockFlow
