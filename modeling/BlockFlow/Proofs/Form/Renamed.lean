import BlockFlow.Proofs.Form.Inputs
import BlockFlow.Proofs.Form.Respell
import BlockFlow.Proofs.Form.Scene
import BlockFlow.Proofs.Form.Section

/-!
What a form is loaded as once a variable or a workflow is renamed in its lines. Main statement: where
nothing else reads as a use of the old name, a node uses the new name where it used the old one.
-/

namespace BlockFlow

open Yaml (Value)

namespace InputExpr

section

variable (old new : String)

mutual

/-- The value of an input with another name for a variable. -/
def renameVariable : InputExpr → InputExpr
  | .literal v => .literal v
  | .variable name => .variable (if name = old then new else name)
  | .node id => .node id
  | .inline id opcode inputs => .inline id opcode (renameVariables inputs)
  | .call workflow args => .call workflow (renameVariables args)

def renameVariables : Inputs → Inputs
  | [] => []
  | (key, e) :: ins => (key, e.renameVariable) :: renameVariables ins

end

end

section

variable (word old new : String)

mutual

/-- The value of an input with another name for what the key `word` refers to. -/
def respell : InputExpr → InputExpr
  | .literal v => .literal v
  | .variable name => .variable (if "variable" = word ∧ name = old then new else name)
  | .node id => .node id
  | .inline id opcode inputs => .inline id opcode (respellInputs inputs)
  | .call workflow args =>
    .call (if "workflow_call" = word ∧ workflow = old then new else workflow) (respellInputs args)

def respellInputs : Inputs → Inputs
  | [] => []
  | (key, e) :: ins => (key, e.respell) :: respellInputs ins

end

end

/-- The text of a literal. -/
def literalText? : InputExpr → Option String
  | .literal v => v.text?
  | _ => none

section

variable (name : String)

mutual

/-- Whether something inside that is no reference reads as a use of the variable. -/
def looksLike : InputExpr → Bool
  | .literal v => v.mentions name
  | .inline _ _ inputs => inputsLookLike inputs
  | .call _ args => inputsLookLike args
  | _ => false

def inputsLookLike : Inputs → Bool
  | [] => false
  | (key, e) :: ins =>
    key = "variable" && e.literalText? = some name || e.looksLike || inputsLookLike ins

end

end

section

variable (word name : String)

mutual

/-- Whether something inside that refers to nothing shows the name behind the key `word`. -/
def reads : InputExpr → Bool
  | .literal v => v.reads word name
  | .inline _ _ inputs => inputsRead inputs
  | .call _ args => inputsRead args
  | _ => false

def inputsRead : Inputs → Bool
  | [] => false
  | (key, e) :: ins => key = word && e.literalText? = some name || e.reads || inputsRead ins

end

end

end InputExpr

/-- Whether something in a node that is no reference reads as a use of a variable. -/
def NodeDef.looksLike (name : String) (n : NodeDef) : Bool :=
  InputExpr.inputsLookLike name n.inputs ||
    n.branches.any fun b => b.1 = "variable" && b.2 = some name

/-- Whether something in a node that refers to nothing shows the name behind the key `word`. -/
def NodeDef.reads (word name : String) (n : NodeDef) : Bool :=
  InputExpr.inputsRead word name n.inputs ||
    n.branches.any fun b => b.1 = word && b.2.getD "" = name

/-! A variable is one of the two kinds of names. -/

section

variable {old new name : String}

namespace Yaml.Value

theorem shown?_eq_some (hname : Form.isKey name) {v : Value} :
    v.shown? = some name ↔ v.text? = some name := by
  have hitems : name ≠ "[]" := by
    rintro rfl
    revert hname
    decide +kernel
  have hentries : name ≠ "\x7b\x7d" := by
    rintro rfl
    revert hname
    decide +kernel
  unfold shown?
  split
  · simp [text?, hitems.symm]
  · simp [text?, hentries.symm]
  · rfl

mutual

theorem reads_variable (hname : Form.isKey name) : (v : Value) →
    v.reads "variable" name = v.mentions name
  | .seq items => itemsRead_variable hname items
  | .map entries => entriesRead_variable hname entries
  | .tagged _ v => reads_variable hname v
  | .null | .bool _ | .int _ | .float _ | .str _ => rfl

theorem entriesRead_variable (hname : Form.isKey name) : (es : List (Value × Value)) →
    entriesRead "variable" name es = entriesMention name es
  | [] => rfl
  | (k, v) :: es => by
    simp only [entriesRead, entriesMention, shown?_eq_some hname, reads_variable hname v,
      entriesRead_variable hname es]

theorem itemsRead_variable (hname : Form.isKey name) : (items : List Value) →
    itemsRead "variable" name items = itemsMention name items
  | [] => rfl
  | v :: items => by
    rw [itemsRead, itemsMention, reads_variable hname v, itemsRead_variable hname items]

end

end Yaml.Value

namespace InputExpr

mutual

theorem respell_variable : (e : InputExpr) → e.respell "variable" old new = e.renameVariable old new
  | .literal _ => rfl
  | .variable name => by simp only [respell, renameVariable, true_and]
  | .node _ => rfl
  | .inline id opcode inputs => congrArg (inline id opcode) (respellInputs_variable inputs)
  | .call workflow args => by
    rw [respell, renameVariable, if_neg (by simp), respellInputs_variable args]

theorem respellInputs_variable : (ins : Inputs) →
    respellInputs "variable" old new ins = renameVariables old new ins
  | [] => rfl
  | (key, e) :: ins => by
    rw [respellInputs, renameVariables, respell_variable e, respellInputs_variable ins]

end

mutual

theorem reads_variable (hname : Form.isKey name) : (e : InputExpr) →
    e.reads "variable" name = e.looksLike name
  | .literal v => Value.reads_variable hname v
  | .variable _ | .node _ => rfl
  | .inline _ _ inputs => inputsRead_variable hname inputs
  | .call _ args => inputsRead_variable hname args

theorem inputsRead_variable (hname : Form.isKey name) : (ins : Inputs) →
    inputsRead "variable" name ins = inputsLookLike name ins
  | [] => rfl
  | (key, e) :: ins => by
    rw [inputsRead, inputsLookLike, reads_variable hname e, inputsRead_variable hname ins]

end

end InputExpr

theorem NodeDef.reads_variable (hname : Form.isKey name) {n : NodeDef} :
    n.reads "variable" name = n.looksLike name := by
  have hhead (t : Option String) : t.getD "" = name ↔ t = some name := by
    cases t <;> simp [(Form.ne_of_isKey hname).symm]
  simp only [NodeDef.reads, NodeDef.looksLike, InputExpr.inputsRead_variable hname, hhead]

end

namespace Document

variable {owner key : String} {vs : List (Value × Value)} {e : InputExpr}

/-- Literals and references are told by the first of their keys. -/
theorem loadValue_map_atoms (h : loadValue owner key (.map vs) = .ok e) (hnone : e.below? = none) :
    (∃ v, Value.lookup "literal" vs = some v ∧ e = .literal v) ∨
      Value.lookup "literal" vs = none ∧
        ((∃ name, Value.lookup "variable" vs = some (.str name) ∧ e = .variable name) ∨
          Value.lookup "variable" vs = none ∧
            ∃ id, Value.lookup "node" vs = some (.str id) ∧ e = .node id) := by
  rw [loadValue] at h
  split at h
  · rename_i v hliteral
    exact .inl ⟨v, hliteral, (Except.ok.inj h).symm⟩
  · rename_i hliteral
    refine .inr ⟨hliteral, ?_⟩
    split at h
    · rename_i name hvariable
      exact .inl ⟨name, hvariable, (Except.ok.inj h).symm⟩
    · cases h
    · rename_i hvariable
      refine .inr ⟨hvariable, ?_⟩
      split at h
      · rename_i id hnode
        exact ⟨id, hnode, (Except.ok.inj h).symm⟩
      · cases h
      · split at h
        · obtain ⟨args, -, h⟩ := Outcome.bind_eq_ok.mp h
          cases h
          cases hnone
        · cases h
        · split at h
          · obtain ⟨id, -, h⟩ := Outcome.bind_eq_ok.mp h
            obtain ⟨inputs, -, h⟩ := Outcome.bind_eq_ok.mp h
            cases h
            cases hnone
          · cases h
          · cases h

/-- An interface is read list by list. -/
theorem loadInterface_map {vs : List (Value × Value)} {interface : Interface} :
    loadInterface owner (some (.map vs)) = .ok interface ↔
      listOf? interfaceInput? (field? "inputs" vs) = some interface.inputs ∧
        listOf? string? (field? "outputs" vs) = some interface.outputs := by
  obtain ⟨inputs, outputs⟩ := interface
  rw [loadInterface]
  generalize listOf? interfaceInput? _ = found
  generalize listOf? string? _ = found'
  cases found <;> cases found' <;> simp [bind, Except.bind]

/-- What shows a name is a scalar, and so a literal. -/
theorem literalText?_of_loadValue {v : Value} {name : String} (h : loadValue owner key v = .ok e)
    (hshown : v.shown? = some name) : e.literalText? = some name := by
  cases v with
  | null => cases hshown
  | seq items => cases h
  | map vs =>
    cases vs with
    | nil => cases h
    | cons entry vs => cases hshown
  | tagged tag v => cases hshown
  | _ =>
    cases h
    exact hshown

end Document

namespace Form

open InputExpr

/-- The keys in front of names that can be renamed. -/
def referringKeys : List String := ["variable", "workflow_call"]

variable {word old new k owner : String} {own : Bool} {f : Form} {es : List (String × Form)}
  {ins : Inputs}

theorem ne_of_referring (hword : word ∈ referringKeys) (hk : k ∉ referringKeys) : k ≠ word :=
  (ne_of_mem_of_not_mem hword hk).symm

theorem respell_of_str {s : String} (h : f.value = .str s) : f.respell word old new own = f := by
  cases f with
  | leaf l => rfl
  | bare => rfl
  | map es => cases h
  | seq items => cases h

theorem lookup_respell (hk : k ≠ word) :
    Value.lookup k (entryValues (respellEntries word old new own es)) =
      (firstOf? k es).map fun f => (f.respell word old new true).value := by
  rw [lookup_entryValues, firstOf?_respellEntries hk, Option.map_map]
  rfl

theorem lookup_respell_none (h : Value.lookup k (entryValues es) = none) :
    Value.lookup k (entryValues (respellEntries word old new own es)) = none := by
  have hkeys : (respellEntries word old new own es).map (·.1) = es.map (·.1) := keys_respellEntries
  have hmem : k ∉ (respellEntries word old new own es).map (·.1) := hkeys ▸ not_mem_of_lookup h
  rw [lookup_entryValues, firstOf?_eq_none hmem]
  rfl

/-- A string stays where its key is another one. -/
theorem lookup_respell_str {s : String} (hk : k ≠ word)
    (h : Value.lookup k (entryValues es) = some (.str s)) :
    Value.lookup k (entryValues (respellEntries word old new own es)) = some (.str s) := by
  rw [lookup_entryValues] at h
  obtain ⟨f, hf, hvalue⟩ := Option.map_eq_some_iff.mp h
  rw [lookup_respell hk, hf, Option.map_some, respell_of_str hvalue, hvalue]

/-- The name behind a key, and the new one. -/
theorem lookup_respell_name {name : String} (hnew : (Leaf.string new).isSound)
    (h : Value.lookup k (entryValues es) = some (.str name)) :
    Value.lookup k (entryValues (respellEntries word old new true es)) =
      some (.str (if k = word ∧ name = old then new else name)) := by
  induction es with
  | nil => cases h
  | cons e es ih =>
    obtain ⟨k', f⟩ := e
    rw [entryValues, Value.lookup] at h
    rw [respellEntries, entryValues, Value.lookup]
    by_cases hk : k' = k
    · rw [if_pos hk] at h ⊢
      have hvalue : f.value = .str name := Option.some.inj h
      have hshown : f.value.shown? = some name := by rw [hvalue]; rfl
      rw [hshown, Option.some.injEq, hk]
      simp only [true_and, Option.some.injEq]
      split
      · rw [value, Leaf.value_string hnew]
      · rw [respell_of_str hvalue, hvalue]
    · rw [if_neg hk] at h ⊢
      exact ih h

section Kept

variable (hword : word ∈ referringKeys)

include hword

theorem inlineId_respell {key : String} {id : Option String}
    (h : Document.inlineId owner key (entryValues es) = .ok id) :
    Document.inlineId owner key (entryValues (respellEntries word old new own es)) = .ok id := by
  rw [Document.inlineId, Document.field?, lookup_entryValues] at h
  rw [Document.inlineId, Document.field?, lookup_respell (ne_of_referring hword (by decide))]
  cases hfirst : firstOf? "id" es with
  | none =>
    rw [hfirst] at h
    exact h
  | some f =>
    rw [hfirst] at h
    cases f with
    | map vs => cases h
    | seq items => cases h
    | leaf l => exact h
    | bare => exact h

/-- Inputs under a key, given what becomes of those in a block. -/
theorem loadSection_respell {c : String} (hc : c ∉ referringKeys)
    (h : Document.loadSection owner c (entryValues es) = .ok ins)
    (hblock : ∀ xs, Document.loadInputs owner (entryValues xs) = .ok ins →
      Document.loadInputs owner (entryValues (respellEntries word old new true xs)) =
        .ok (respellInputs word old new ins)) :
    Document.loadSection owner c (entryValues (respellEntries word old new own es)) =
      .ok (respellInputs word old new ins) := by
  rw [Document.loadSection_eq_lookup, lookup_entryValues] at h
  rw [Document.loadSection_eq_lookup, lookup_respell (ne_of_referring hword hc)]
  cases hfirst : firstOf? c es with
  | none =>
    rw [hfirst] at h
    cases h
    rfl
  | some f =>
    rw [hfirst] at h
    cases f with
    | map xs => exact hblock xs h
    | bare =>
      cases h
      rfl
    | seq items => cases h
    | leaf l =>
      rw [Option.map_some, value] at h
      rw [Option.map_some, respell, value]
      cases hv : l.value with
      | null =>
        rw [hv] at h
        cases h
        rfl
      | map vs =>
        rw [hv, value_leaf_map hv] at h
        rw [value_leaf_map hv]
        cases h
        rfl
      | _ =>
        rw [hv] at h
        cases h

mutual

theorem loadValue_respell (hnew : (Leaf.string new).isSound) {owner key : String} :
    (e : InputExpr) → (g : Form) → Document.loadValue owner key g.value = .ok e →
      e.reads word old = false → Document.loadValue owner key (g.respell word old new true).value =
        .ok (e.respell word old new)
  | .literal v, .leaf _, h, _ => h
  | .literal v, .bare, h, _ => h
  | .literal v, .seq _, h, _ => nomatch h
  | .literal v, .map gs, h, hclear => by
    obtain ⟨v, hliteral, ⟨⟩⟩ | ⟨-, ⟨_, -, ⟨⟩⟩ | ⟨-, _, -, ⟨⟩⟩⟩ :=
      Document.loadValue_map_atoms h rfl
    have hnew : Value.lookup "literal" (entryValues (respellEntries word old new true gs)) = some v := by
      rw [lookup_entryValues] at hliteral
      obtain ⟨f, hf, rfl⟩ := Option.map_eq_some_iff.mp hliteral
      rw [lookup_respell (ne_of_referring hword (by decide)), hf, Option.map_some,
        respell_of_not_reads f true hclear]
    simp only [respell, value, Document.loadValue, hnew]
    rfl
  | .variable name, g, h, _ => by
    obtain ⟨gs, rfl⟩ := exists_map_of_not_literal h nofun
    obtain ⟨_, -, ⟨⟩⟩ | ⟨hliteral, ⟨name, hvariable, ⟨⟩⟩ | ⟨-, _, -, ⟨⟩⟩⟩ :=
      Document.loadValue_map_atoms h rfl
    simp only [respell, value, Document.loadValue, lookup_respell_none hliteral,
      lookup_respell_name hnew hvariable]
    rfl
  | .node id, g, h, _ => by
    obtain ⟨gs, rfl⟩ := exists_map_of_not_literal h nofun
    obtain ⟨_, -, ⟨⟩⟩ | ⟨hliteral, ⟨_, -, ⟨⟩⟩ | ⟨hvariable, id, hnode, ⟨⟩⟩⟩ :=
      Document.loadValue_map_atoms h rfl
    simp only [respell, value, Document.loadValue, lookup_respell_none hliteral,
      lookup_respell_none hvariable, lookup_respell_str (ne_of_referring hword (by decide)) hnode]
    rfl
  | .inline id opcode inputs, g, h, hclear => by
    obtain ⟨gs, rfl⟩ := exists_map_of_loadValue h rfl
    obtain ⟨hliteral, hvariable, hnode, ⟨_, -, ⟨⟩, -⟩ | ⟨id, opcode, hcall, hopcode, hid, ⟨⟩, hin⟩⟩ :=
      Document.loadValue_map_cases h rfl
    refine Document.loadValue_inline (lookup_respell_none hliteral) (lookup_respell_none hvariable)
      (lookup_respell_none hnode) (lookup_respell_none hcall)
      (lookup_respell_str (ne_of_referring hword (by decide)) hopcode) ?_
      (loadSection_respell hword (by decide) hin fun xs hxs =>
        loadInputs_respell hnew inputs xs hxs hclear)
    exact inlineId_respell hword hid
  | .call workflow args, g, h, hclear => by
    obtain ⟨gs, rfl⟩ := exists_map_of_loadValue h rfl
    obtain ⟨hliteral, hvariable, hnode, ⟨name, hcall, ⟨⟩, hargs⟩ | ⟨_, _, -, -, -, ⟨⟩, -⟩⟩ :=
      Document.loadValue_map_cases h rfl
    exact Document.loadValue_call (lookup_respell_none hliteral) (lookup_respell_none hvariable)
      (lookup_respell_none hnode) (lookup_respell_name hnew hcall)
      (loadSection_respell hword (by decide) hargs fun xs hxs =>
        loadInputs_respell hnew args xs hxs hclear)

/-- Inputs use the new name where they used the old one. -/
theorem loadInputs_respell (hnew : (Leaf.string new).isSound) {owner : String} : (ins : Inputs) →
    (xs : List (String × Form)) → Document.loadInputs owner (entryValues xs) = .ok ins →
      inputsRead word old ins = false →
        Document.loadInputs owner (entryValues (respellEntries word old new true xs)) =
          .ok (respellInputs word old new ins)
  | [], xs, h, _ => by
    obtain rfl := List.forall₂_nil_right_iff.mp (loadInputs_entryValues.mp h)
    rfl
  | (key, e) :: ins, xs, h, hclear => by
    obtain ⟨⟨key, g⟩, xs, ⟨rfl, hvalue⟩, hrest, rfl⟩ :=
      List.forall₂_cons_right_iff.mp (loadInputs_entryValues.mp h)
    simp only [inputsRead, Bool.or_eq_false_iff] at hclear
    obtain ⟨⟨huse, hclear⟩, hclears⟩ := hclear
    have hnot : ¬ (true = true ∧ key = word ∧ g.value.shown? = some old) := by
      rintro ⟨-, rfl, hshown⟩
      rw [Document.literalText?_of_loadValue hvalue hshown] at huse
      simp at huse
    rw [respellEntries, if_neg hnot]
    exact loadInputs_cons (loadValue_respell hnew e g hvalue hclear)
      (loadInputs_respell hnew ins xs (loadInputs_entryValues.mpr hrest) hclears)

end

omit hword in
/-- Heads of branches stay. -/
theorem respellEntries_heads {bs : List (String × Form)} (hbs : ∀ b ∈ bs, b.2.IsPointer)
    (hclear : ∀ b ∈ bs, ¬ (b.1 = word ∧ b.2.target?.getD "" = old)) :
    respellEntries word old new own bs = bs := by
  induction bs generalizing own with
  | nil => rfl
  | cons b bs ih =>
    obtain ⟨k, f⟩ := b
    obtain ⟨hf, hbs⟩ := List.forall_mem_cons.mp hbs
    obtain ⟨hk, hclear⟩ := List.forall_mem_cons.mp hclear
    have hsame : f.respell word old new true = f := by
      cases f with
      | leaf l => rfl
      | bare => rfl
      | _ => rcases hf with hf | ⟨_, hf⟩ <;> cases hf
    have hnot : ¬ (own = true ∧ k = word ∧ f.value.shown? = some old) := by
      rintro ⟨-, rfl, hshown⟩
      refine hk ⟨rfl, ?_⟩
      rcases hf with hf | ⟨s, hf⟩
      · rw [hf] at hshown
        cases hshown
      · rw [hf] at hshown
        obtain rfl : s = old := Option.some.inj hshown
        by_cases hs : s = "" <;> simp [target?, hf, hs]
    rw [respellEntries, if_neg hnot, hsame, ih hbs hclear]

theorem loadHeads_respell {id : String} {heads : List (String × Option String)}
    (h : Document.loadHeads id (entryValues es) = .ok heads)
    (hclear : (heads.any fun b => b.1 = word && b.2.getD "" = old) = false) :
    Document.loadHeads id (entryValues (respellEntries word old new own es)) = .ok heads := by
  obtain ⟨hpointers, rfl⟩ := loadHeads_eq_ok h
  rw [Document.loadHeads, Document.field?, lookup_entryValues] at h
  rw [Document.loadHeads, Document.field?, lookup_respell (ne_of_referring hword (by decide))]
  unfold branches at hpointers hclear h ⊢
  cases hfirst : firstOf? "branches" es with
  | none => rfl
  | some f =>
    rw [hfirst] at hpointers hclear h
    cases f with
    | map bs =>
      have hsame : respellEntries word old new true bs = bs := by
        refine respellEntries_heads hpointers fun b hb huse => ?_
        simp only [Option.map_some, Option.getD_some, inside, List.any_map, List.any_eq_false,
          Function.comp_apply, Bool.and_eq_true, decide_eq_true_eq] at hclear
        exact hclear b hb huse
      simpa [respell, hsame] using h
    | bare => exact h
    | leaf l => exact h
    | seq items => cases h

/-- A node with another name for a variable or a workflow. -/
theorem loadNode_respell {id : String} {n : NodeDef} (hnew : (Leaf.string new).isSound)
    (h : Document.loadNode id f.value = .ok n) (hclear : n.reads word old = false) :
    Document.loadNode id (f.respell word old new true).value =
      .ok { n with inputs := respellInputs word old new n.inputs } := by
  obtain ⟨es, rfl⟩ := exists_map_of_loadNode h
  obtain ⟨hid, hne, hopcode, hinputs, hnext, hheads⟩ := Document.loadNode_map_eq_ok.mp h
  simp only [NodeDef.reads, Bool.or_eq_false_iff] at hclear
  refine Document.loadNode_map_eq_ok.mpr ⟨hid, hne,
    lookup_respell_str (ne_of_referring hword (by decide)) hopcode, ?_, ?_,
    loadHeads_respell hword hheads hclear.2⟩
  · exact loadSection_respell hword (by decide) hinputs fun xs hxs =>
      loadInputs_respell hword hnew n.inputs xs hxs hclear.1
  · rw [lookup_entryValues] at hnext
    rw [lookup_respell (ne_of_referring hword (by decide))]
    cases hfirst : firstOf? "next" es with
    | none =>
      rw [hfirst] at hnext
      exact hnext
    | some g =>
      rw [hfirst] at hnext
      cases g with
      | leaf l => exact hnext
      | bare => exact hnext
      | map vs => cases hnext
      | seq items => cases hnext

end Kept

section Interface

variable {α : Type} {x : α}

/-- What is read from scalars only stays. -/
theorem read_respell {read : Value → Option α} (hmap : ∀ vs, read (.map vs) = none)
    (hseq : ∀ vs, read (.seq vs) = none) (h : read f.value = some x) :
    read (f.respell word old new own).value = some x := by
  cases f with
  | leaf l => exact h
  | bare => exact h
  | map es => exact absurd ((hmap _).symm.trans h) nofun
  | seq items => exact absurd ((hseq _).symm.trans h) nofun

theorem string?_respell {s : String} (h : Document.string? f.value = some s) :
    Document.string? (f.respell word old new own).value = some s :=
  read_respell (fun _ => rfl) (fun _ => rfl) h

theorem bool?_respell {b : Bool} (h : Document.bool? f.value = some b) :
    Document.bool? (f.respell word old new own).value = some b :=
  read_respell (fun _ => rfl) (fun _ => rfl) h

theorem mapM_entryValues : ((entryValues es).mapM fun (k, v) =>
    (Document.string? k).map fun k => (k, v)) = some (namedValues es) := by
  induction es with
  | nil => rfl
  | cons e es ih =>
    rw [entryValues, List.mapM_cons, ih]
    rfl

/-- The only entry of a key stays the only one. -/
theorem onlyField?_respell (hk : k ≠ word) {v : Option Value}
    (h : Document.onlyField? k (namedValues es) = some v) :
    (v = none ∧ Document.onlyField? k (namedValues (respellEntries word old new own es)) = some none) ∨
      ∃ f : Form, v = some f.value ∧
        Document.onlyField? k (namedValues (respellEntries word old new own es)) =
          some (some (f.respell word old new true).value) := by
  have hfilter : (namedValues (respellEntries word old new own es)).filter (·.1 = k) =
      (es.filter (·.1 = k)).map fun e => (e.1, (e.2.respell word old new true).value) := by
    clear h
    induction es generalizing own with
    | nil => rfl
    | cons e es ih =>
      obtain ⟨k', f⟩ := e
      have hrest := @ih true
      rw [namedValues] at hrest ⊢
      by_cases heq : k' = k
      · simp [respellEntries, heq, hk, hrest]
      · simp [respellEntries, heq, hrest]
  have hold : (namedValues es).filter (·.1 = k) =
      (es.filter (·.1 = k)).map fun e => (e.1, e.2.value) := by
    rw [namedValues, List.filter_map]
    rfl
  rw [Document.onlyField?, hold] at h
  rw [Document.onlyField?, hfilter]
  generalize es.filter (·.1 = k) = found at h ⊢
  rcases found with _ | ⟨e, _ | ⟨e', rest⟩⟩
  · exact .inl ⟨(Option.some.inj h).symm, rfl⟩
  · exact .inr ⟨e.2, (Option.some.inj h).symm, rfl⟩
  · cases h

/-- A field of an interface input, which may have a default. -/
def fieldOf? (read : Value → Option α) (absent : Option α) (k : String)
    (es : List (String × Form)) : Option α :=
  (Document.onlyField? k (namedValues es)).bind fun
    | none => absent
    | some v => read v

theorem fieldOf?_respell {read : Value → Option α} {absent : Option α}
    (hread : ∀ (g : Form) (x : α), read g.value = some x →
      read (g.respell word old new true).value = some x) (hk : k ≠ word)
    (h : fieldOf? read absent k es = some x) :
    fieldOf? read absent k (respellEntries word old new own es) = some x := by
  obtain ⟨found, hfound, hx⟩ := Option.bind_eq_some_iff.mp h
  obtain ⟨rfl, hsame⟩ | ⟨g, rfl, hsame⟩ := onlyField?_respell hk hfound
  · exact Option.bind_eq_some_iff.mpr ⟨_, hsame, hx⟩
  · exact Option.bind_eq_some_iff.mpr ⟨_, hsame, hread g x hx⟩

/-- An interface input is read field by field. -/
theorem interfaceInput?_map : Document.interfaceInput? (map es).value =
    (fieldOf? Document.string? none "name" es).bind fun name =>
      (fieldOf? Document.string? (some "any") "type" es).bind fun type =>
        (fieldOf? Document.bool? (some false) "required" es).bind fun required =>
          some ⟨name, type, required⟩ := by
  have huntagged : (Value.map (entryValues es)).untagged = .map (entryValues es) := rfl
  rw [value, Document.interfaceInput?, huntagged]
  simp only [mapM_entryValues, fieldOf?, Option.bind_eq_bind, Option.bind_some]
  rcases Document.onlyField? "name" (namedValues es) with _ | _ | v
  · rfl
  · rfl
  · rcases Document.onlyField? "type" (namedValues es) with _ | _ | u
    · rfl
    all_goals
      rcases Document.onlyField? "required" (namedValues es) with _ | _ | b <;> rfl

theorem interfaceInput?_respell (hword : word ∈ referringKeys) {i : InterfaceInput}
    (h : Document.interfaceInput? f.value = some i) :
    Document.interfaceInput? (f.respell word old new own).value = some i := by
  cases f with
  | leaf l => exact h
  | bare => exact h
  | seq items => cases h
  | map es =>
    rw [interfaceInput?_map] at h
    obtain ⟨name, hname, h⟩ := Option.bind_eq_some_iff.mp h
    obtain ⟨type, htype, h⟩ := Option.bind_eq_some_iff.mp h
    obtain ⟨required, hrequired, h⟩ := Option.bind_eq_some_iff.mp h
    rw [respell, interfaceInput?_map,
      fieldOf?_respell (fun _ _ => string?_respell) (ne_of_referring hword (by decide)) hname,
      Option.bind_some,
      fieldOf?_respell (fun _ _ => string?_respell) (ne_of_referring hword (by decide)) htype,
      Option.bind_some,
      fieldOf?_respell (fun _ _ => bool?_respell) (ne_of_referring hword (by decide)) hrequired]
    exact h

/-- A list whose items are read as before. -/
theorem listOf?_respell {item? : Value → Option α} {xs : List α} (hk : k ≠ word)
    (hitem : ∀ (f : Form) (x : α), item? f.value = some x →
      item? (f.respell word old new false).value = some x)
    (h : Document.listOf? item? (Document.field? k (entryValues es)) = some xs) :
    Document.listOf? item? (Document.field? k (entryValues (respellEntries word old new own es))) =
      some xs := by
  rw [Document.field?, lookup_entryValues] at h
  rw [Document.field?, lookup_respell hk]
  cases hfirst : firstOf? k es with
  | none =>
    rw [hfirst] at h
    exact h
  | some f =>
    rw [hfirst] at h
    cases f with
    | leaf l => exact h
    | bare => exact h
    | map vs => cases h
    | seq items =>
      have hitems (items : List Form) (xs : List α) (h : (itemValues items).mapM item? = some xs) :
          (itemValues (respellItems word old new items)).mapM item? = some xs := by
        induction items generalizing xs with
        | nil => exact h
        | cons f items ih =>
          rw [itemValues, List.mapM_cons] at h
          obtain ⟨x, hx, h⟩ := Option.bind_eq_some_iff.mp h
          obtain ⟨ys, hys, h⟩ := Option.bind_eq_some_iff.mp h
          rw [respellItems, itemValues, List.mapM_cons, hitem f x hx, ih ys hys]
          exact h
      exact hitems items xs h

/-- The interface does not change. -/
theorem loadInterface_respell (hword : word ∈ referringKeys) {wname : String} {interface : Interface}
    (h : Document.loadInterface wname (Document.field? "interface" (entryValues es)) =
      .ok interface) : Document.loadInterface wname
        (Document.field? "interface" (entryValues (respellEntries word old new own es))) =
          .ok interface := by
  rw [Document.field?, lookup_entryValues] at h
  rw [Document.field?, lookup_respell (ne_of_referring hword (by decide))]
  cases hfirst : firstOf? "interface" es with
  | none =>
    rw [hfirst] at h
    exact h
  | some f =>
    rw [hfirst] at h
    cases f with
    | leaf l => exact h
    | bare => exact h
    | seq items => cases h
    | map vs =>
      obtain ⟨hinputs, houtputs⟩ := Document.loadInterface_map.mp h
      exact Document.loadInterface_map.mpr
        ⟨listOf?_respell (ne_of_referring hword (by decide))
            (fun _ _ => interfaceInput?_respell hword) hinputs,
          listOf?_respell (ne_of_referring hword (by decide)) (fun _ _ => string?_respell) houtputs⟩

end Interface

/-- The variables of a workflow as a mapping. -/
def variableEntries (vars : List (String × Value)) : List (Value × Value) :=
  vars.map fun p => (.str p.1, p.2)

/-- Variables do not change where none shows the old name. -/
theorem loadVariables_respell (hword : word ∈ referringKeys) {vars : List (String × Value)}
    (h : Document.loadVariables owner (Document.field? "variables" (entryValues es)) = .ok vars)
    (hclear : Value.entriesRead word old (variableEntries vars) = false) :
    Document.loadVariables owner (Document.field? "variables"
      (entryValues (respellEntries word old new own es))) = .ok vars := by
  rw [Document.field?, lookup_entryValues] at h
  rw [Document.field?, lookup_respell (ne_of_referring hword (by decide))]
  cases hfirst : firstOf? "variables" es with
  | none =>
    rw [hfirst] at h
    exact h
  | some f =>
    rw [hfirst] at h
    cases f with
    | leaf l => exact h
    | bare => exact h
    | seq items => cases h
    | map vs =>
      obtain rfl := Except.ok.inj (h.symm.trans loadVariables_entryValues)
      have hvalues : variableEntries (namedValues vs) = entryValues vs := by
        rw [variableEntries, namedValues, List.map_map, entryValues_eq_map]
        rfl
      rw [hvalues] at hclear
      rw [Option.map_some, respell, respellEntries_of_not_reads vs true hclear]
      exact h

/-- The nodes of a workflow with another name for a variable or a workflow. -/
theorem loadNodes_respell (hword : word ∈ referringKeys) {ns : List NodeDef}
    (hnew : (Leaf.string new).isSound)
    (h : Document.loadNodes owner (Document.field? "nodes" (entryValues es)) = .ok ns)
    (hclear : ∀ n ∈ ns, n.reads word old = false) :
    Document.loadNodes owner (Document.field? "nodes" (entryValues (respellEntries word old new own es))) =
      .ok (ns.map fun n => { n with inputs := respellInputs word old new n.inputs }) := by
  rw [Document.field?, lookup_entryValues] at h
  rw [Document.field?, lookup_respell (ne_of_referring hword (by decide))]
  cases hfirst : firstOf? "nodes" es with
  | none =>
    rw [hfirst] at h
    cases h
    rfl
  | some f =>
    rw [hfirst] at h
    cases f with
    | bare =>
      cases h
      rfl
    | seq items => cases h
    | leaf l =>
      rw [Option.map_some, value] at h
      rw [Option.map_some, respell, value]
      cases hv : l.value with
      | null =>
        rw [hv] at h
        cases h
        rfl
      | map vs =>
        rw [hv, value_leaf_map hv] at h
        rw [value_leaf_map hv]
        cases h
        rfl
      | _ =>
        rw [hv] at h
        cases h
    | map xs =>
      have hall := Scene.loadNodes_map.mp h
      refine Scene.loadNodes_map.mpr ?_
      clear h hfirst
      induction hall with
      | nil => exact .nil
      | @cons e n xs ns hload _ ih =>
        obtain ⟨id, f⟩ := e
        obtain ⟨hn, hclear⟩ := List.forall_mem_cons.mp hclear
        have hnot : ¬ (true = true ∧ id = word ∧ f.value.shown? = some old) := by
          rintro ⟨-, -, hshown⟩
          obtain ⟨es, rfl⟩ := exists_map_of_loadNode hload
          cases es with
          | nil => cases hload
          | cons e es => cases hshown
        rw [respellEntries, if_neg hnot]
        exact .cons (loadNode_respell hword hnew hload hn) (ih hclear)

/-- A workflow with another name for a variable or a workflow, where nothing but references shows the
old one. -/
theorem loadWorkflow_respell (own : Bool) (hword : word ∈ referringKeys) {w : Workflow}
    (hnew : (Leaf.string new).isSound) (h : Document.loadWorkflow (map es).value = .ok w)
    (hvars : Value.entriesRead word old (variableEntries w.vars) = false)
    (hnodes : ∀ n ∈ w.nodes, n.reads word old = false) :
    Document.loadWorkflow (map (respellEntries word old new own es)).value = .ok { w with
      nodes := w.nodes.map fun n => { n with inputs := respellInputs word old new n.inputs } } := by
  obtain ⟨hne, hname, hinterface, hvariables, hload⟩ := Document.loadWorkflow_map_eq_ok.mp h
  exact Document.loadWorkflow_map_eq_ok.mpr ⟨hne,
    lookup_respell_str (ne_of_referring hword (by decide)) hname,
    loadInterface_respell hword hinterface, loadVariables_respell hword hvariables hvars,
    loadNodes_respell hword hnew hload hnodes⟩

end Form

end BlockFlow
