import BlockFlow.Edit.Inlining
import BlockFlow.Proofs.Form.Written
import BlockFlow.Proofs.Tree.Agreeing

/-!
Nodes written in place of references to them. Main statement: the value resolves to what it did, and
ways down from it meet the same ids.
-/

namespace BlockFlow

open Relation InputExpr

namespace Workflow

mutual

/-- The second value is the first with nodes in place of some references to them, and of some in what
is written. -/
inductive InPlace (w : Workflow) : InputExpr → InputExpr → Prop where
  | literal (v : Yaml.Value) : InPlace w (.literal v) (.literal v)
  | variable (name : String) : InPlace w (.variable name) (.variable name)
  | node (id : String) : InPlace w (.node id) (.node id)
  | written {id : String} {n : NodeDef} {inputs : Inputs} (hn : w.node? id = some n)
    (h : InPlaceIn w n.inputs inputs) :
    InPlace w (.node id) (.inline (some id) n.opcode inputs)
  | inline (id : Option String) (opcode : String) {inputs inputs' : Inputs}
    (h : InPlaceIn w inputs inputs') : InPlace w (.inline id opcode inputs) (.inline id opcode inputs')
  | call (workflow : String) {args args' : Inputs} (h : InPlaceIn w args args') :
    InPlace w (.call workflow args) (.call workflow args')

inductive InPlaceIn (w : Workflow) : Inputs → Inputs → Prop where
  | nil : InPlaceIn w [] []
  | cons (key : String) {e e' : InputExpr} {inputs inputs' : Inputs} (he : InPlace w e e')
    (h : InPlaceIn w inputs inputs') : InPlaceIn w ((key, e) :: inputs) ((key, e') :: inputs')

end

variable {w : Workflow} {orphans : List String}
  {take : String → List String → InputExpr × List String}

mutual

theorem InPlace.refl (w : Workflow) : (e : InputExpr) → w.InPlace e e
  | .literal v => .literal v
  | .variable name => .variable name
  | .node id => .node id
  | .inline id opcode inputs => .inline id opcode (InPlaceIn.refl w inputs)
  | .call workflow args => .call workflow (InPlaceIn.refl w args)

theorem InPlaceIn.refl (w : Workflow) : (inputs : Inputs) → w.InPlaceIn inputs inputs
  | [] => .nil
  | (key, e) :: rest => .cons key (InPlace.refl w e) (InPlaceIn.refl w rest)

end

mutual

theorem inPlace_inlineValue (ht : ∀ id taken, w.InPlace (.node id) (take id taken).1) :
    ∀ (e : InputExpr) (taken : List String), w.InPlace e (w.inlineValue orphans take e taken).1
  | .literal v, _ => by
    rw [inlineValue]
    · exact .literal v
    all_goals simp
  | .variable name, _ => by
    rw [inlineValue]
    · exact .variable name
    all_goals simp
  | .node id, taken => by
    rw [inlineValue]
    split
    case isTrue => exact ht id taken
    case isFalse => exact .node id
  | .inline id opcode inputs, taken => by
    rw [inlineValue]
    exact .inline id opcode (inPlaceIn_inlineEntries ht inputs taken)
  | .call workflow args, taken => by
    rw [inlineValue]
    exact .call workflow (inPlaceIn_inlineEntries ht args taken)

theorem inPlaceIn_inlineEntries (ht : ∀ id taken, w.InPlace (.node id) (take id taken).1) :
    ∀ (inputs : Inputs) (taken : List String),
      w.InPlaceIn inputs (w.inlineEntries orphans take inputs taken).1
  | [], _ => by
    rw [inlineEntries]
    exact .nil
  | (key, e) :: rest, taken => by
    rw [inlineEntries]
    exact .cons key (inPlace_inlineValue ht e taken) (inPlaceIn_inlineEntries ht rest _)

end

/-- An orphan is written in place of a reference to it. -/
theorem inPlace_inlineOrphan (jumps : Nat) (id : String) (taken : List String) :
    w.InPlace (.node id) (w.inlineOrphan orphans jumps id taken).1 := by
  induction jumps generalizing id taken with
  | zero => exact .node id
  | succ jumps ih =>
    rw [inlineOrphan]
    cases hn : w.node? id with
    | none => exact .node id
    | some n => exact .written hn (inPlaceIn_inlineEntries ih n.inputs _)

/-- What is written of an orphan that is there. -/
theorem exists_inline_of_inlineOrphan {id : String} {n : NodeDef} (hn : w.node? id = some n)
    (jumps : Nat) (taken : List String) : ∃ inputs,
      (w.inlineOrphan orphans (jumps + 1) id taken).1 = .inline (some id) n.opcode inputs ∧
        w.InPlaceIn n.inputs inputs := by
  rw [inlineOrphan, hn]
  exact ⟨_, rfl, inPlaceIn_inlineEntries (inPlace_inlineOrphan jumps) n.inputs _⟩

mutual

/-- What is written in place resolves to what the references do. -/
theorem Resolves.inPlace {owner key : String} {e e' : InputExpr} {v : Resolved} :
    w.Resolves owner key e v → w.InPlace e e' → w.Resolves owner key e' v
  | .literal _ _ v, .literal _ => .literal _ _ v
  | .variable _ _ name, .variable _ => .variable _ _ name
  | .node _ _ hn h, .node _ => .node _ _ hn h
  | .node _ _ hn h, .written hn' hin => by
    obtain rfl := Option.some.inj (hn.symm.trans hn')
    obtain rfl := node?_id hn
    exact .inline _ _ _ (h.inPlaceIn hin)
  | .inline _ _ opcode h, .inline _ _ hin => .inline _ _ opcode (h.inPlaceIn hin)
  | .call _ _ name h, .call _ hin => .call _ _ name (h.inPlaceIn hin)

theorem ResolvesIn.inPlaceIn {owner : String} {inputs inputs' : Inputs} {slots : Slots} :
    w.ResolvesIn owner inputs slots → w.InPlaceIn inputs inputs' →
      w.ResolvesIn owner inputs' slots
  | .nil _, .nil => .nil _
  | .cons he h, .cons _ hv hin => .cons (he.inPlace hv) (h.inPlaceIn hin)

end

/-- The second reporter is the first with nodes written in place in its inputs. -/
structure WrittenAs (w : Workflow) (r r' : Reporter) : Prop where
  id : r'.id = r.id
  inputs : w.InPlaceIn r.inputs r'.inputs

mutual

/-- The reporters of a value stay, but for what is written in place in their inputs. -/
theorem InPlace.reporters {e e' : InputExpr} (owner key : String) : w.InPlace e e' →
    List.Forall₂ w.WrittenAs (e.reporters w owner key) (e'.reporters w owner key)
  | .literal _ => .nil
  | .variable _ => .nil
  | .node _ => List.forall₂_same.mpr fun _ _ => ⟨rfl, InPlaceIn.refl w _⟩
  | .written hn h => by
    rw [InputExpr.reporters, hn]
    exact .cons ⟨(node?_id hn).symm, h⟩ .nil
  | .inline _ _ h => .cons ⟨rfl, h⟩ .nil
  | .call _ h => h.reporters owner

theorem InPlaceIn.reporters {inputs inputs' : Inputs} (owner : String) :
    w.InPlaceIn inputs inputs' →
      List.Forall₂ w.WrittenAs (reportersIn w owner inputs) (reportersIn w owner inputs')
  | .nil => .nil
  | .cons key he h => List.rel_append (he.reporters owner key) (h.reporters owner)

end

namespace WrittenAs

variable {r r' s s' : Reporter} (h : w.WrittenAs r r')

include h

theorem forall₂_uses : List.Forall₂ w.WrittenAs (reportersIn w r.id r.inputs)
    (reportersIn w r'.id r'.inputs) := by
  rw [h.id]
  exact h.inputs.reporters r.id

/-- Ways down from a reporter stay when nodes are written in place. -/
theorem exists_written (hway : ReflTransGen w.Uses r s) :
    ∃ s', ReflTransGen w.Uses r' s' ∧ w.WrittenAs s s' := by
  induction hway with
  | refl => exact ⟨r', .refl, h⟩
  | tail _ hstep ih =>
    obtain ⟨s', hway', hs⟩ := ih
    obtain ⟨t', ht', ht⟩ := exists_mem_of_forall₂ hs.forall₂_uses hstep
    exact ⟨t', hway'.tail ht', ht⟩

/-- No others are made. -/
theorem exists_original (hway : ReflTransGen w.Uses r' s') :
    ∃ s, ReflTransGen w.Uses r s ∧ w.WrittenAs s s' := by
  induction hway with
  | refl => exact ⟨r, .refl, h⟩
  | tail _ hstep ih =>
    obtain ⟨s, hway, hs⟩ := ih
    obtain ⟨t, ht, hts⟩ := exists_mem_of_forall₂ hs.forall₂_uses.flip hstep
    exact ⟨t, hway.tail ht, hts⟩

theorem acyclic (hr : w.Acyclic r) : w.Acyclic r' := by
  refine acyclic_iff.mpr fun s' u' hs hu => ?_
  obtain ⟨s, hway, hs⟩ := h.exists_original hs
  obtain ⟨t', hstep, hrest⟩ := TransGen.head'_iff.mp hu
  obtain ⟨t, ht, hts⟩ := exists_mem_of_forall₂ hs.forall₂_uses.flip hstep
  obtain ⟨u, htu, hu⟩ := hts.exists_original hrest
  rw [hu.id, hs.id]
  exact acyclic_iff.mp hr s u hway (.head' ht htu)

end WrittenAs

end Workflow

/-- A property of values that is one of the ids, opcodes, calls and names of inputs at any depth. -/
structure Throughout (P : InputExpr → Prop) (Q : Inputs → Prop) (own : Option String → String → Prop)
    (calling : String → Prop) (named : String → List String → Prop) : Prop where
  inline : ∀ id opcode inputs, P (.inline id opcode inputs) ↔ own id opcode ∧ Q inputs
  call : ∀ workflow args, P (.call workflow args) ↔ calling workflow ∧ Q args
  nil : Q []
  cons : ∀ key e inputs, Q ((key, e) :: inputs) ↔ named key (inputs.map (·.1)) ∧ P e ∧ Q inputs

namespace Workflow

variable {w : Workflow}

theorem InPlaceIn.keys {inputs inputs' : Inputs} : w.InPlaceIn inputs inputs' →
    inputs'.map (·.1) = inputs.map (·.1)
  | .nil => rfl
  | .cons key _ h => congrArg (key :: ·) h.keys

section Throughout

variable {P : InputExpr → Prop} {Q : Inputs → Prop} {own : Option String → String → Prop}
  {calling : String → Prop} {named : String → List String → Prop}

mutual

/-- What holds throughout a value and the nodes holds of what is written in place. -/
theorem InPlace.keeps {e e' : InputExpr} (h : Throughout P Q own calling named)
    (hw : ∀ n ∈ w.nodes, own (some n.id) n.opcode ∧ Q n.inputs) : w.InPlace e e' → P e → P e'
  | .literal _, he | .variable _, he | .node _, he => he
  | .written hn hin, _ => by
    obtain ⟨hown, hinputs⟩ := hw _ (node?_mem hn)
    rw [node?_id hn] at hown
    exact (h.inline _ _ _).mpr ⟨hown, hin.keeps h hw hinputs⟩
  | .inline _ _ hin, he => by
    obtain ⟨hown, hinputs⟩ := (h.inline _ _ _).mp he
    exact (h.inline _ _ _).mpr ⟨hown, hin.keeps h hw hinputs⟩
  | .call _ hin, he => by
    obtain ⟨hcalling, hargs⟩ := (h.call _ _).mp he
    exact (h.call _ _).mpr ⟨hcalling, hin.keeps h hw hargs⟩

theorem InPlaceIn.keeps {inputs inputs' : Inputs} (h : Throughout P Q own calling named)
    (hw : ∀ n ∈ w.nodes, own (some n.id) n.opcode ∧ Q n.inputs) :
    w.InPlaceIn inputs inputs' → Q inputs → Q inputs'
  | .nil, _ => h.nil
  | .cons _ he hin, hinputs => by
    obtain ⟨hnamed, hvalue, hrest⟩ := (h.cons _ _ _).mp hinputs
    refine (h.cons _ _ _).mpr ⟨?_, he.keeps h hw hvalue, hin.keeps h hw hrest⟩
    rwa [hin.keys]

end

end Throughout

end Workflow

namespace InputExpr

theorem throughout_opcodes (K : String → Prop) : Throughout (fun e => ∀ o ∈ e.opcodes, K o)
    (fun inputs => ∀ o ∈ opcodesIn inputs, K o) (fun _ o => K o) (fun _ => True)
    (fun _ _ => True) := by
  constructor <;> simp [opcodes, opcodesIn, or_imp, forall_and]

theorem throughout_calls (K : String → Prop) : Throughout (fun e => ∀ o ∈ e.calls, K o)
    (fun inputs => ∀ o ∈ callsIn inputs, K o) (fun _ _ => True) K (fun _ _ => True) := by
  constructor <;> simp [calls, callsIn, or_imp, forall_and]

theorem throughout_inlineIds (K : String → Prop) : Throughout (fun e => ∀ i ∈ e.inlineIds, K i)
    (fun inputs => ∀ i ∈ inlineIdsIn inputs, K i) (fun id _ => ∀ i ∈ id, K i) (fun _ => True)
    (fun _ _ => True) := by
  constructor <;> simp [inlineIds, inlineIdsIn, or_imp, forall_and]

theorem throughout_isWritable : Throughout (fun e => e.isWritable)
    (fun inputs => areWritable inputs) (fun _ opcode => (Form.Leaf.string opcode).isSound)
    (fun workflow => (Form.Leaf.string workflow).isSound) (fun key _ => Form.isKey key) := by
  constructor <;> simp [isWritable, areWritable, and_assoc]

theorem throughout_distinct : Throughout Distinct DistinctIn (fun _ _ => True) (fun _ => True)
    (fun key rest => key ∉ rest) := by
  constructor <;> simp [Distinct, DistinctIn]

end InputExpr

end BlockFlow
