import BlockFlow.Edit
import BlockFlow.Proofs.Edit.Draft
import BlockFlow.Proofs.Edit.Start
import BlockFlow.Proofs.Outline.Change

/-!
Edits of the contents of a workflow write inside its block. Main statement: what such an edit leaves
is the outline before with changes inside that block only.
-/

namespace BlockFlow

open Outcome

/-- The workflow is found at an item whose nodes do not begin on the item's own line, and no mapping
is written behind its name. -/
structure Outline.Steady (o : Outline) (name : String) (w : Nat) : Prop where
  line : o.workflowLine? name = some w
  nodes : (o.line w).itemKey? ≠ some "nodes".toList
  name : ∀ i, o.findBelow? w "name" = some i → (o.line i).flowMapping? = none

namespace Outline.Steady

variable {o : Outline} {name : String} {w : Nat}

theorem itemAt (h : o.Steady name w) : o.ItemAt w := by
  obtain ⟨root, -, hmem, -, -⟩ := workflowLine?_eq_some.mp h.line
  obtain ⟨-, -, hitem, d, -, hd⟩ := mem_items_iff.mp hmem
  exact ⟨hitem, by rw [depth_of_indent? hd, hd]⟩

theorem flowMapping? {l : Line} (h : o.Steady name w)
    (hkey : (o.line w).itemKey? ≠ some "name".toList)
    (hl : (o.body w).find? (Line.isTitle (o.depth w)) = some l) : l.flowMapping? = none := by
  rw [find?_body] at hl
  obtain ⟨⟨m, i⟩, hfind, rfl⟩ := Option.map_eq_some_iff.mp hl
  obtain ⟨hwi, -, rfl⟩ := mem_numberedBody (List.mem_of_find?_eq_some hfind)
  have hbelow : o.findBelow? w "name" = some i := by
    unfold Line.isTitle at hfind
    rw [findBelow?, find?_of_isItem h.itemAt.isItem hkey, hfind, Option.map_some,
      Option.filter_some, if_pos (by simpa using Nat.ne_of_gt hwi)]
  exact h.name i hbelow

end Outline.Steady

namespace Draft

variable {o : Outline} {name id key : String} {w i : Nat} {d d' : Draft} {wf : Workflow} {s : Span}

theorem name_of_workflow (h : d.workflow name = .ok wf) : wf.name = name := by
  rw [workflow_eq_ok] at h
  simpa using List.find?_some h

theorem slotsLine?_inside {j : Nat} (hi : d.outline.Place w i)
    (h : d.outline.slotsLine? i = some j) : d.outline.DeepPlace w j := by
  rcases Option.or_eq_some_iff.mp h with h | ⟨-, h⟩
  · exact hi.find? h
  · exact hi.find? h

section

variable (hs : o.Steady name w)
include hs

theorem eq_of_workflowLine (h : o.Patched w d.outline) (hi : d.workflowLine name = .ok i) :
    i = w := by
  rw [workflowLine_eq_ok, h.workflowLine? hs.line, Option.some.injEq] at hi
  exact hi.symm

theorem nodeSpan_inside (h : o.Patched w d.outline) (hspan : d.nodeSpan name id = .ok s) :
    ∃ i, s = d.outline.span i ∧ d.outline.DeepPlace w i := by
  simp only [nodeSpan, bind_eq_ok] at hspan
  obtain ⟨i, hi, hspan⟩ := hspan
  rw [eq_of_workflowLine hs h hi] at hspan
  split at hspan
  · rename_i s' hs'
    cases hspan
    obtain ⟨nodes, hnodes, hs'⟩ := Option.bind_eq_some_iff.mp hs'
    obtain ⟨j, hj, heq⟩ := Option.bind_eq_some_iff.mp hs'
    cases heq
    have hown : (d.outline.line w).itemKey? ≠ some "nodes".toList := by
      rw [h.line_eq (Nat.le_refl w)]
      exact hs.nodes
    have hplace : d.outline.Place w nodes := h.place_of_find? (by decide) hown hnodes
    exact ⟨j, rfl, hplace.find? hj⟩
  · cases hspan

theorem nodeLine_inside (h : o.Patched w d.outline) (hline : d.nodeLine name id = .ok i) :
    d.outline.DeepPlace w i := by
  simp only [nodeLine, bind_eq_ok] at hline
  obtain ⟨s, hspan, hi⟩ := hline
  cases hi
  obtain ⟨i, rfl, hplace⟩ := nodeSpan_inside hs h hspan
  exact hplace

/-! Nodes -/

theorem insertNode_inside {after : Option String} {block : List Line} (h : o.Patched w d.outline)
    (hd : d.insertNode name after block = .ok d') : o.Patched w d'.outline := by
  cases after with
  | some id =>
    simp only [insertNode, bind_eq_ok] at hd
    obtain ⟨s, hspan, hd⟩ := hd
    cases hd
    obtain ⟨i, rfl, hplace⟩ := nodeSpan_inside hs h hspan
    exact h.insert hplace.place (Line.nameless_indentAll hplace.lt_depth)
  | none =>
    simp only [insertNode, bind_eq_ok] at hd
    obtain ⟨i, hi, hd⟩ := hd
    cases hd
    rw [eq_of_workflowLine hs h hi]
    obtain ⟨hensured, hplace⟩ := h.ensureBlock_item "nodes" (by decide)
    exact hensured.insert hplace (Line.nameless_indentAll hplace.lt_entryDepth)

theorem removeNodes_inside {ids : List String} (h : o.Patched w d.outline)
    (hd : d.removeNodes name ids = .ok d') : o.Patched w d'.outline := by
  refine foldlM_preserves (P := fun d => o.Patched w d.outline) (fun d id d' h hd => ?_) h hd
  obtain ⟨s, hspan, hd⟩ := bind_eq_ok.mp hd
  cases hd
  obtain ⟨i, rfl, hplace⟩ := nodeSpan_inside hs h hspan
  exact h.removeBlock hplace.place

/-! Pointers -/

theorem setPointer_inside {slot : LinkSlot} {target : Option String} (h : o.Patched w d.outline)
    (hd : d.setPointer name id slot target = .ok d') : o.Patched w d'.outline := by
  obtain ⟨i, hi, hd⟩ := bind_eq_ok.mp hd
  cases hd
  exact h.setPointer (nodeLine_inside hs h hi)

theorem setPointers_inside {slots : List (String × LinkSlot)} {target : Option String}
    (h : o.Patched w d.outline) (hd : d.setPointers name slots target = .ok d') :
    o.Patched w d'.outline :=
  foldlM_preserves (P := fun d => o.Patched w d.outline)
    (fun _ _ _ h hd => setPointer_inside hs h hd) h hd

theorem clearInto_inside {g : LinkGraph} {gone : List String} {kept : String × LinkSlot → Bool}
    (h : o.Patched w d.outline) (hd : d.clearInto g name gone kept = .ok d') :
    o.Patched w d'.outline :=
  foldlM_preserves (P := fun d => o.Patched w d.outline)
    (fun _ _ _ h hd => setPointers_inside hs h hd) h hd

/-! Inputs -/

theorem enter_inside {missing : EditError} {block : Nat × String} (h : o.Patched w d.outline)
    (hwf : wf.name = name) (hi : d.outline.DeepPlace w i)
    (hblock : d.enter wf missing i = .ok block) : d.outline.DeepPlace w block.1 := by
  simp only [enter] at hblock
  split at hblock
  · split at hblock
    · cases hblock
    · simp only [bind_eq_ok] at hblock
      obtain ⟨j, hj, hblock⟩ := hblock
      cases hblock
      rw [hwf] at hj
      exact nodeLine_inside hs h hj
  · split at hblock
    · cases hblock
      exact hi
    · split at hblock
      · cases hblock
        exact hi
      · cases hblock

/-- By induction on the path: each step stays inside the block of the workflow, also when it follows
a reference. -/
theorem inputFrom_inside {node : String} {path : List String} {opcode : String} {p : InputPlace}
    (h : o.Patched w d.outline) (hwf : wf.name = name) (hi : d.outline.DeepPlace w i)
    (hp : d.inputFrom wf node i opcode path = .ok p) : d.outline.DeepPlace w p.container := by
  induction path generalizing i opcode with
  | nil => cases hp
  | cons key rest ih =>
    simp only [inputFrom] at hp
    split at hp
    · cases hp
    · rename_i container hcontainer
      have hdeep := slotsLine?_inside hi.place hcontainer
      split at hp
      · cases hp
      · rename_i slot hslot
        split at hp
        · cases hp
          exact hdeep
        · simp only [bind_eq_ok] at hp
          obtain ⟨⟨block, opcode⟩, hblock, hp⟩ := hp
          exact ih (enter_inside hs h hwf (hdeep.place.find? hslot) hblock) hp

theorem inputPlace_inside {node : String} {path : List String} {p : InputPlace}
    (h : o.Patched w d.outline) (hwf : wf.name = name) (hp : d.inputPlace wf node path = .ok p) :
    d.outline.DeepPlace w p.container := by
  unfold inputPlace at hp
  split at hp
  · cases hp
  · simp only [bind_eq_ok, hwf] at hp
    obtain ⟨i, hi, n, -, hp⟩ := hp
    exact inputFrom_inside hs h hwf (nodeLine_inside hs h hi) hp

theorem resetInput_inside {node : String} {path : List String} (h : o.Patched w d.outline)
    (hwf : wf.name = name) (hd : d.resetInput wf node path = .ok d') : o.Patched w d'.outline := by
  obtain ⟨p, hp, hd⟩ := bind_eq_ok.mp hd
  cases hd
  exact h.setBlock (inputPlace_inside hs h hwf hp).place

theorem resetReferences_inside {gone : List String} (h : o.Patched w d.outline)
    (hwf : wf.name = name) (hd : d.resetReferences wf gone = .ok d') : o.Patched w d'.outline := by
  refine foldlM_preserves (P := fun d => o.Patched w d.outline) (fun d id d' h hd => ?_) h hd
  exact foldlM_preserves (P := fun d => o.Patched w d.outline)
    (fun d p d' h hd => resetInput_inside hs h hwf hd) h hd

theorem deleteReporter_inside {path : List String} (h : o.Patched w d.outline)
    (hd : d.deleteReporter name id path = .ok d') : o.Patched w d'.outline := by
  simp only [deleteReporter, bind_eq_ok] at hd
  obtain ⟨wf, hwf, -, -, cleared, hcleared, hd⟩ := hd
  have hname := name_of_workflow hwf
  have hkept := resetInput_inside hs h hname hcleared
  split at hd
  · simp only [dropReporter, bind_eq_ok, hname] at hd
    obtain ⟨g, -, hd⟩ := hd
    split at hd
    · exact removeNodes_inside hs hkept hd
    · cases hd
      exact hkept
  · cases hd
    exact hkept

/-! Variables -/

theorem variablesLine_inside (h : o.Patched w d.outline) (hd : d.variablesLine name = .ok (d', i)) :
    o.Patched w d'.outline ∧ d'.outline.Place w i := by
  simp only [variablesLine, bind_eq_ok] at hd
  obtain ⟨line, hline, hd⟩ := hd
  rw [eq_of_workflowLine hs h hline] at hd
  cases hd
  exact h.ensureBlock_item "variables" (by decide)

theorem writeVariable_inside {v : Yaml.Value} (h : o.Patched w d.outline)
    (hd : d.writeVariable name key v = .ok d') : o.Patched w d'.outline := by
  simp only [writeVariable, bind_eq_ok] at hd
  obtain ⟨⟨d, vars⟩, hvars, hd⟩ := hd
  cases hd
  obtain ⟨hkept, hplace⟩ := variablesLine_inside hs h hvars
  exact hkept.setValue hplace

theorem addVariable_inside {v : Yaml.Value} (h : o.Patched w d.outline)
    (hd : d.addVariable name key v = .ok d') : o.Patched w d'.outline := by
  simp only [addVariable, bind_eq_ok] at hd
  obtain ⟨wf, -, hd⟩ := hd
  split at hd
  · cases hd
  · exact writeVariable_inside hs h hd

theorem updateVariable_inside {v : Yaml.Value} (h : o.Patched w d.outline)
    (hd : d.updateVariable name key v = .ok d') : o.Patched w d'.outline := by
  simp only [updateVariable, bind_eq_ok] at hd
  obtain ⟨wf, -, hd⟩ := hd
  split at hd
  · cases hd
  · exact writeVariable_inside hs h hd

theorem reassign_inside {old new : String} (h : o.Patched w d.outline) (hwf : wf.name = name)
    (hd : d.reassign wf old new = .ok d') : o.Patched w d'.outline := by
  refine foldlM_preserves (P := fun d => o.Patched w d.outline) (fun d n d' h hd => ?_) h hd
  split at hd
  · cases hd
    exact h
  · simp only [bind_eq_ok, hwf] at hd
    obtain ⟨i, hi, hd⟩ := hd
    cases hd
    obtain ⟨hensured, hplace⟩ := h.ensureBlock "inputs" (nodeLine_inside hs h hi).place
    exact hensured.setBlock hplace.place

theorem mapLines_inside {old new : String} (h : o.Patched w d.outline)
    (hspan : d.workflowSpan name = .ok s) :
    o.Patched w (d.outline.mapLines s.start s.stop (·.renameVariable old new)) := by
  obtain ⟨i, hi, heq⟩ := bind_eq_ok.mp hspan
  rw [eq_of_workflowLine hs h hi] at heq
  cases heq
  exact h.renameVariable fun hkey l hl => hs.flowMapping? hkey hl

theorem renameVariable_inside {old new : String} (h : o.Patched w d.outline)
    (hd : d.renameVariable name old new = .ok d') : o.Patched w d'.outline := by
  simp only [renameVariable, bind_eq_ok] at hd
  obtain ⟨wf, hwf, hd⟩ := hd
  split at hd
  · cases hd
  · split at hd
    · cases hd
      exact h
    · split at hd
      · cases hd
      · simp only [bind_eq_ok] at hd
        obtain ⟨⟨d₁, vars⟩, hvars, s, hspan, hd⟩ := hd
        obtain ⟨hkept, hplace⟩ := variablesLine_inside hs h hvars
        refine reassign_inside hs (mapLines_inside hs ?_ hspan) (name_of_workflow hwf) hd
        simp only [withOutline]
        split
        · rename_i j hj
          exact hkept.renameKey (hplace.find? hj)
        · exact hkept

theorem deleteVariable_inside (h : o.Patched w d.outline)
    (hd : d.deleteVariable name key = .ok d') : o.Patched w d'.outline := by
  simp only [deleteVariable, bind_eq_ok] at hd
  obtain ⟨wf, -, hd⟩ := hd
  split at hd
  · cases hd
  · simp only [bind_eq_ok] at hd
    obtain ⟨⟨d, vars⟩, hvars, hd⟩ := hd
    cases hd
    obtain ⟨hkept, hplace⟩ := variablesLine_inside hs h hvars
    refine (hkept.removeEntry hplace).collapse (hplace.congr hkept.itemAt fun k hk => ?_)
    exact hkept.line_removeEntry hplace hk

/-! The interface -/

theorem interfaceList_inside {list : String} (h : o.Patched w d.outline)
    (hd : d.interfaceList name list = .ok (d', i)) :
    o.Patched w d'.outline ∧ d'.outline.DeepPlace w i := by
  simp only [interfaceList, bind_eq_ok] at hd
  obtain ⟨line, hline, hd⟩ := hd
  rw [eq_of_workflowLine hs h hline] at hd
  cases hd
  obtain ⟨hensured, hplace⟩ := h.ensureBlock_item "interface" (by decide)
  exact hensured.ensureBlock list hplace

theorem interfaceItem_inside {list : String} {item : Nat} (h : o.Patched w d.outline)
    (hd : d.interfaceItem name list key = .ok (d', i, item)) :
    o.Patched w d'.outline ∧ d'.outline.DeepPlace w i ∧ d'.outline.DeepPlace w item ∧ i < item := by
  simp only [interfaceItem, bind_eq_ok] at hd
  obtain ⟨⟨d, line⟩, hlist, hd⟩ := hd
  obtain ⟨hkept, hplace⟩ := interfaceList_inside hs h hlist
  simp only at hd
  split at hd
  · rename_i j hj
    cases hd
    exact ⟨hkept, hplace, Outline.Patched.deepPlace_of_findItem? hplace hj⟩
  · cases hd

theorem addInterfaceInput_inside {input : InterfaceInput} (h : o.Patched w d.outline)
    (hd : d.addInterfaceInput name input = .ok d') : o.Patched w d'.outline := by
  simp only [addInterfaceInput, bind_eq_ok] at hd
  obtain ⟨wf, -, hd⟩ := hd
  split at hd
  · cases hd
  · simp only [bind_eq_ok] at hd
    obtain ⟨⟨d, list⟩, hlist, hd⟩ := hd
    cases hd
    obtain ⟨hkept, hplace⟩ := interfaceList_inside hs h hlist
    exact hkept.appendItem hplace

theorem addInterfaceOutput_inside (h : o.Patched w d.outline)
    (hd : d.addInterfaceOutput name key = .ok d') : o.Patched w d'.outline := by
  simp only [addInterfaceOutput, bind_eq_ok] at hd
  obtain ⟨wf, -, hd⟩ := hd
  split at hd
  · cases hd
  · simp only [bind_eq_ok] at hd
    obtain ⟨⟨d, list⟩, hlist, hd⟩ := hd
    cases hd
    obtain ⟨hkept, hplace⟩ := interfaceList_inside hs h hlist
    exact hkept.appendItem hplace

theorem updateInterfaceInput_inside {input : InterfaceInput} (h : o.Patched w d.outline)
    (hd : d.updateInterfaceInput name key input = .ok d') : o.Patched w d'.outline := by
  simp only [updateInterfaceInput, bind_eq_ok] at hd
  obtain ⟨wf, -, hd⟩ := hd
  split at hd
  · cases hd
  · split at hd
    · cases hd
    · simp only [bind_eq_ok] at hd
      obtain ⟨⟨d, list, item⟩, hitem, hd⟩ := hd
      cases hd
      obtain ⟨hkept, -, hplace, -⟩ := interfaceItem_inside hs h hitem
      exact hkept.replace hplace.place (Line.nameless_indentAll hplace.lt_depth)

theorem removeInterfaceItem_inside {list : String} (h : o.Patched w d.outline)
    (hd : d.removeInterfaceItem name list key = .ok d') : o.Patched w d'.outline := by
  simp only [removeInterfaceItem, bind_eq_ok] at hd
  obtain ⟨⟨d, line, item⟩, hitem, hd⟩ := hd
  cases hd
  obtain ⟨hkept, hlist, hplace, hlt⟩ := interfaceItem_inside hs h hitem
  have hremoved : o.Patched w (d.outline.remove item (d.outline.blockEnd item)) :=
    hkept.replace hplace.place (List.forall_mem_nil _)
  refine hremoved.collapse (hlist.place.congr hkept.itemAt fun k hk => ?_)
  have hsize := hkept.le_size hplace.place
  have hend : item < d.outline.blockEnd item := Outline.lt_blockEnd
  exact Outline.line_splice_of_lt (by omega) (by omega)

theorem removeInterfaceInput_inside (h : o.Patched w d.outline)
    (hd : d.removeInterfaceInput name key = .ok d') : o.Patched w d'.outline := by
  simp only [removeInterfaceInput, bind_eq_ok] at hd
  obtain ⟨wf, -, hd⟩ := hd
  split at hd
  · exact removeInterfaceItem_inside hs h hd
  · cases hd

theorem removeInterfaceOutput_inside (h : o.Patched w d.outline)
    (hd : d.removeInterfaceOutput name key = .ok d') : o.Patched w d'.outline := by
  simp only [removeInterfaceOutput, bind_eq_ok] at hd
  obtain ⟨wf, -, hd⟩ := hd
  split at hd
  · exact removeInterfaceItem_inside hs h hd
  · cases hd

/-! Numbered branches and inputs -/

theorem renumber_inside {section_ stem : String} {numbers : List Nat} (h : o.Patched w d.outline)
    (hd : d.renumber name id section_ stem numbers = .ok d') : o.Patched w d'.outline := by
  induction numbers generalizing d with
  | nil =>
    cases hd
    exact h
  | cons k rest ih =>
    simp only [renumber, bind_eq_ok] at hd
    obtain ⟨i, hi, hd⟩ := hd
    split at hd
    · cases hd
      exact h
    · rename_i block hblock
      have hplace := (nodeLine_inside hs h hi).place.find? hblock
      refine ih ?_ hd
      split
      · rename_i entry hentry
        exact h.renameKey (hplace.place.find? hentry)
      · exact h

theorem removeFrom_inside {section_ : String} (h : o.Patched w d.outline)
    (hd : d.removeFrom name id section_ key = .ok d') : o.Patched w d'.outline := by
  simp only [removeFrom, bind_eq_ok] at hd
  obtain ⟨i, hi, hd⟩ := hd
  split at hd
  · rename_i block hblock
    cases hd
    exact h.removeEntry ((nodeLine_inside hs h hi).place.find? hblock).place
  · cases hd
    exact h

theorem addBranch_inside (h : o.Patched w d.outline) (hd : d.addBranch name id = .ok d') :
    o.Patched w d'.outline := by
  simp only [addBranch, bind_eq_ok] at hd
  obtain ⟨wf, -, n, -, ⟨stem, least, count⟩, -, i, hi, hd⟩ := hd
  cases hd
  obtain ⟨hensured, hplace⟩ := h.ensureBlock "branches" (nodeLine_inside hs h hi).place
  exact hensured.setScalar hplace.place

theorem removeBranch_inside (h : o.Patched w d.outline) (hd : d.removeBranch name id key = .ok d') :
    o.Patched w d'.outline := by
  simp only [removeBranch, bind_eq_ok] at hd
  obtain ⟨wf, hwf, n, -, ⟨stem, least, count⟩, -, hd⟩ := hd
  simp only at hd
  split at hd
  · cases hd
  · split at hd
    · cases hd
    · simp only [bind_eq_ok] at hd
      obtain ⟨g, -, d₁, h₁, d₂, h₂, d₃, h₃, d₄, h₄, h₅⟩ := hd
      have hcleared := clearInto_inside hs h h₁
      have hreset := resetReferences_inside hs hcleared (name_of_workflow hwf) h₂
      exact removeNodes_inside hs (renumber_inside hs (removeFrom_inside hs hreset h₃) h₄) h₅

theorem addInput_inside (h : o.Patched w d.outline) (hd : d.addInput name id = .ok d') :
    o.Patched w d'.outline := by
  simp only [addInput, bind_eq_ok] at hd
  obtain ⟨wf, -, n, -, numbered, -, i, hi, hd⟩ := hd
  cases hd
  obtain ⟨hensured, hplace⟩ := h.ensureBlock "inputs" (nodeLine_inside hs h hi).place
  exact hensured.setBlock hplace.place

theorem removeInput_inside (h : o.Patched w d.outline) (hd : d.removeInput name id key = .ok d') :
    o.Patched w d'.outline := by
  simp only [removeInput, bind_eq_ok] at hd
  obtain ⟨wf, hwf, n, -, numbered, -, hd⟩ := hd
  split at hd
  · cases hd
  · split at hd
    · cases hd
    · simp only [bind_eq_ok] at hd
      obtain ⟨d₁, h₁, d₂, h₂, hd⟩ := hd
      have hkept := renumber_inside hs (removeFrom_inside hs h h₁) h₂
      split at hd
      · cases hd
        exact hkept
      · simp only [bind_eq_ok] at hd
        obtain ⟨g, -, hd⟩ := hd
        exact removeNodes_inside hs hkept hd

/-! Adding, removing and linking nodes -/

theorem addNode_inside {args : NewNode} (hargs : args.workflow = name) (h : o.Patched w d.outline)
    (hd : d.addNode args = .ok (d', id)) : o.Patched w d'.outline := by
  unfold addNode at hd
  split at hd
  · cases hd
  · simp only [bind_eq_ok] at hd
    obtain ⟨wf, hwf, point, -, -, -, d₁, h₁, d₂, h₂, hd⟩ := hd
    cases hd
    rw [hargs] at hwf
    rw [name_of_workflow hwf] at h₁ h₂
    exact setPointers_inside hs (insertNode_inside hs h h₁) h₂

theorem duplicateNode_inside {copy : String} (h : o.Patched w d.outline)
    (hd : d.duplicateNode name id = .ok (d', copy)) : o.Patched w d'.outline := by
  simp only [duplicateNode, bind_eq_ok] at hd
  obtain ⟨wf, -, n, -, hd⟩ := hd
  split at hd
  · cases hd
  · simp only [bind_eq_ok] at hd
    obtain ⟨d₁, h₁, hd⟩ := hd
    cases hd
    exact insertNode_inside hs h h₁

theorem deleteNode_inside (h : o.Patched w d.outline) (hd : d.deleteNode name id = .ok d') :
    o.Patched w d'.outline := by
  simp only [deleteNode, bind_eq_ok] at hd
  obtain ⟨wf, hwf, n, -, hd⟩ := hd
  split at hd
  · cases hd
  · simp only [bind_eq_ok] at hd
    obtain ⟨g, -, d₁, h₁, d₂, h₂, h₃⟩ := hd
    have hrelinked : o.Patched w d₁.outline :=
      foldlM_preserves (P := fun d => o.Patched w d.outline)
        (fun _ _ _ h hd => setPointers_inside hs h hd) h h₁
    exact removeNodes_inside hs (resetReferences_inside hs hrelinked (name_of_workflow hwf) h₂) h₃

theorem connect_inside {slot : LinkSlot} {target : String} (h : o.Patched w d.outline)
    (hd : d.connect name id slot target = .ok d') : o.Patched w d'.outline := by
  simp only [connect, bind_eq_ok] at hd
  obtain ⟨wf, -, s, -, t, -, -, -, hd⟩ := hd
  split at hd
  · cases hd
  · simp only [bind_eq_ok] at hd
    obtain ⟨g, -, hd⟩ := hd
    split at hd
    · cases hd
    · simp only [bind_eq_ok] at hd
      obtain ⟨d₁, h₁, h₂⟩ := hd
      exact setPointer_inside hs (setPointers_inside hs h h₁) h₂

theorem disconnect_inside {slot : LinkSlot} (h : o.Patched w d.outline)
    (hd : d.disconnect name id slot = .ok d') : o.Patched w d'.outline := by
  simp only [disconnect, bind_eq_ok] at hd
  obtain ⟨wf, -, s, -, hd⟩ := hd
  split at hd
  · cases hd
  · exact setPointer_inside hs h hd

theorem convertOrphan_inside {target input : String} (h : o.Patched w d.outline)
    (hd : d.convertOrphan name id target input = .ok d') : o.Patched w d'.outline := by
  simp only [convertOrphan, bind_eq_ok] at hd
  obtain ⟨wf, hwf, g, -, -, -, hd⟩ := hd
  split at hd
  · cases hd
  · simp only [bind_eq_ok] at hd
    obtain ⟨t, -, hd⟩ := hd
    split at hd
    · cases hd
    · split at hd
      · cases hd
      · simp only [bind_eq_ok] at hd
        obtain ⟨d₁, h₁, i, hi, d₂, h₂, h₃⟩ := hd
        have hreset := resetReferences_inside hs h (name_of_workflow hwf) h₁
        obtain ⟨hensured, hplace⟩ :=
          hreset.ensureBlock "inputs" (nodeLine_inside hs hreset hi).place
        refine removeNodes_inside hs (clearInto_inside hs ?_ h₂) h₃
        exact hensured.setBlock hplace.place

end

end Draft

namespace Edit

open Draft

variable {o : Outline} {name : String} {w : Nat} {d after : Draft} {e : Edit} {made : Option String}

/-- The workflow whose contents an edit changes. Edits of workflows as a whole have none. -/
def contentsOf? : Edit → Option String
  | .addNode args => some args.workflow
  | .deleteNode workflow _ | .duplicateNode workflow _ | .connect workflow _ _ _
  | .disconnect workflow _ _ | .convertOrphan workflow _ _ _ | .deleteReporter workflow _ _
  | .addVariable workflow _ _ | .updateVariable workflow _ _ | .renameVariable workflow _ _
  | .deleteVariable workflow _ | .addInterfaceInput workflow _ | .updateInterfaceInput workflow _ _
  | .removeInterfaceInput workflow _ | .addInterfaceOutput workflow _
  | .removeInterfaceOutput workflow _ | .addBranch workflow _ | .removeBranch workflow _ _
  | .addInput workflow _ | .removeInput workflow _ _ => some workflow
  | .createWorkflow _ | .renameWorkflow _ _ | .deleteWorkflow _ | .extract _ => none

/-- An edit of the contents of a workflow changes the outline inside its block only. -/
theorem inside_of_run (hs : o.Steady name w) (he : e.contentsOf? = some name)
    (h : o.Patched w d.outline) (hrun : e.run d = .ok (after, made)) :
    o.Patched w after.outline := by
  cases e with
  | addNode args =>
    obtain ⟨id, -, hadd⟩ := run_made hrun
    exact addNode_inside hs (Option.some.inj he) h hadd
  | duplicateNode =>
    cases he
    obtain ⟨id, -, hadd⟩ := run_made hrun
    exact duplicateNode_inside hs h hadd
  | deleteNode =>
    cases he
    exact deleteNode_inside hs h (run_changed hrun)
  | connect =>
    cases he
    exact connect_inside hs h (run_changed hrun)
  | disconnect =>
    cases he
    exact disconnect_inside hs h (run_changed hrun)
  | convertOrphan =>
    cases he
    exact convertOrphan_inside hs h (run_changed hrun)
  | deleteReporter =>
    cases he
    exact deleteReporter_inside hs h (run_changed hrun)
  | addVariable =>
    cases he
    exact addVariable_inside hs h (run_changed hrun)
  | updateVariable =>
    cases he
    exact updateVariable_inside hs h (run_changed hrun)
  | renameVariable =>
    cases he
    exact renameVariable_inside hs h (run_changed hrun)
  | deleteVariable =>
    cases he
    exact deleteVariable_inside hs h (run_changed hrun)
  | addInterfaceInput =>
    cases he
    exact addInterfaceInput_inside hs h (run_changed hrun)
  | updateInterfaceInput =>
    cases he
    exact updateInterfaceInput_inside hs h (run_changed hrun)
  | removeInterfaceInput =>
    cases he
    exact removeInterfaceInput_inside hs h (run_changed hrun)
  | addInterfaceOutput =>
    cases he
    exact addInterfaceOutput_inside hs h (run_changed hrun)
  | removeInterfaceOutput =>
    cases he
    exact removeInterfaceOutput_inside hs h (run_changed hrun)
  | addBranch =>
    cases he
    exact addBranch_inside hs h (run_changed hrun)
  | removeBranch =>
    cases he
    exact removeBranch_inside hs h (run_changed hrun)
  | addInput =>
    cases he
    exact addInput_inside hs h (run_changed hrun)
  | removeInput =>
    cases he
    exact removeInput_inside hs h (run_changed hrun)
  | createWorkflow => cases he
  | renameWorkflow => cases he
  | deleteWorkflow => cases he
  | extract => cases he

end Edit

end BlockFlow
