import BlockFlow.Catalog.Builtin
import BlockFlow.Edit
import BlockFlow.Proofs.Tree.WellFormed

/-!
What edits leave behind. A text that was edited is read again as a document, but its tree is not
built. Main statement: after any run of edits the text has a tree exactly when the document read from
it is well formed.
-/

namespace BlockFlow

open Outcome

namespace Tree

variable {c : Catalog} {text : String} {d : Document}

theorem parse_eq_ofDocument (hd : Document.load text = .ok d) :
    Tree.parse c text = Tree.ofDocument d c := by
  rw [Tree.parse, hd]
  rfl

/-- A text has a tree exactly when it is read as a document whose workflows are well formed. -/
theorem exists_parse (hd : Document.load text = .ok d) :
    (∃ t, Tree.parse c text = .ok t) ↔ ∀ w ∈ d.workflows, w.WellFormed d c w.Shown := by
  rw [parse_eq_ofDocument hd, exists_ofDocument]

theorem load_of_parse {t : Tree} (h : Tree.parse c text = .ok t) :
    ∃ d, Document.load text = .ok d := by
  obtain ⟨d, hd, -⟩ := bind_eq_ok.mp h
  exact ⟨d, hd⟩

end Tree

namespace Edit

variable {c : Catalog} {e : Edit} {es : List Edit} {text edited : String} {r : Edited}

/-- An edit is carried out on the outline of a document, and what it leaves is a document. -/
theorem exists_run_made (h : e.apply c text = .ok r) : ∃ d after d',
    Document.load text = .ok d ∧
      e.run ⟨c, d, Outline.ofChars text.toList⟩ = .ok (after, r.nodeId) ∧
        r.text = String.ofList after.outline.toChars ∧ Document.load r.text = .ok d' := by
  simp only [apply, applyChars, bind_eq_ok] at h
  obtain ⟨-, -, draft, hdraft, ⟨after, id⟩, hrun, hfinish⟩ := h
  cases hd : Document.ofChars text.toList with
  | error e => simp only [Draft.ofChars, hd, reduceCtorEq] at hdraft
  | ok d =>
    simp only [Draft.ofChars, hd, Except.ok.injEq] at hdraft
    subst hdraft
    cases hd' : Document.ofChars after.outline.toChars with
    | error e => simp only [Draft.finish, hd', reduceCtorEq] at hfinish
    | ok d' =>
      simp only [Draft.finish, hd', Except.ok.injEq] at hfinish
      subst hfinish
      refine ⟨d, after, d', hd, hrun, rfl, ?_⟩
      rw [Document.load, String.toList_ofList, hd']

theorem exists_run (h : e.apply c text = .ok r) : ∃ d after id d',
    Document.load text = .ok d ∧ e.run ⟨c, d, Outline.ofChars text.toList⟩ = .ok (after, id) ∧
      r.text = String.ofList after.outline.toChars ∧ Document.load r.text = .ok d' := by
  obtain ⟨d, after, d', hd, hrun, htext, hd'⟩ := exists_run_made h
  exact ⟨d, after, r.nodeId, d', hd, hrun, htext, hd'⟩

theorem run_made {x : Except EditError (Draft × String)} {after : Draft} {made : Option String}
    (h : run.made x = .ok (after, made)) : ∃ id, made = some id ∧ x = .ok (after, id) := by
  cases x with
  | error e => cases h
  | ok p =>
    cases h
    exact ⟨p.2, rfl, rfl⟩

theorem load_of_apply (h : e.apply c text = .ok r) : ∃ d, Document.load r.text = .ok d := by
  obtain ⟨_, _, _, d, -, -, -, hd⟩ := exists_run h
  exact ⟨d, hd⟩

/-- The documents before and after an edit of characters. -/
def documents? (c : Catalog) (e : Edit) (cs : List Char) : Option (Document × Document) :=
  match Document.ofChars cs, e.check c with
  | .ok d, .ok () =>
    match e.run ⟨c, d, Outline.ofChars cs⟩ with
    | .ok (edited, _) => (Document.ofChars edited.outline.toChars).toOption.map fun d' => (d, d')
    | .error _ => none
  | _, _ => none

/-- Trying an edit on characters tells what it does to their text. -/
theorem exists_apply {cs : List Char} {P : Document × Document → Bool}
    (htext : text = String.ofList cs) (h : (documents? c e cs).any P) :
    ∃ d r d', Document.load text = .ok d ∧ e.apply c text = .ok r ∧
      Document.load r.text = .ok d' ∧ P (d, d') := by
  obtain ⟨⟨d, d'⟩, hdocs, hP⟩ := (Option.any_eq_true _ _).mp h
  unfold documents? at hdocs
  split at hdocs
  · rename_i old hold hcheck
    split at hdocs
    · rename_i draft id hrun
      obtain ⟨new, hnew, heq⟩ := Option.map_eq_some_iff.mp hdocs
      obtain ⟨rfl, rfl⟩ := Prod.mk.inj heq
      have hload : Document.ofChars draft.outline.toChars = .ok new := by
        cases hx : Document.ofChars draft.outline.toChars <;> simp_all [Except.toOption]
      refine ⟨old, ⟨String.ofList draft.outline.toChars, id⟩, new, ?_, ?_, ?_, hP⟩
      · rw [htext, Document.load, String.toList_ofList, hold]
      · simp [htext, apply, applyChars, Draft.ofChars, Draft.finish, bind, Except.bind, hold,
          hcheck, hrun, hload]
      · rw [Document.load, String.toList_ofList, hload]
    · cases hdocs
  · cases hdocs

/-- One edit after the other, all of which succeed. -/
inductive Run (c : Catalog) : String → List Edit → String → Prop where
  | nil {text : String} : Run c text [] text
  | cons {e : Edit} {es : List Edit} {text edited : String} {r : Edited}
    (first : e.apply c text = .ok r) (rest : Run c r.text es edited) : Run c text (e :: es) edited

theorem Run.load (h : Run c text es edited) (hd : ∃ d, Document.load text = .ok d) :
    ∃ d, Document.load edited = .ok d := by
  induction h with
  | nil => exact hd
  | cons first _ ih => exact ih (load_of_apply first)

/-- The reporter `a` of the print node `p`. -/
def printed : String :=
  "workflows:
  - name: m
    nodes:
      start: {opcode: workflow_start, next: p}
      p:
        opcode: io_print
        inputs: {STRING: {node: a}}
      a:
        opcode: io_input
"

end Edit

end BlockFlow
