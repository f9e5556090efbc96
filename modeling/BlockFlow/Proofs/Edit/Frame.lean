import BlockFlow.Proofs.Edit.Inside
import BlockFlow.Proofs.Text.Lines

/-!
Which lines an edit leaves as they are. Main statement: an edit of the contents of a workflow leaves
all lines outside its block, but may drop blank lines right behind it.
-/

namespace BlockFlow

open Outcome

/-- Outside a block two texts have the same lines, but blank lines right behind the block may be
dropped. -/
def AgreeOutside (s : Span) (text edited : List Char) : Prop := ∃ inside dropped rest,
  (Text.lines text).drop s.stop = dropped ++ rest ∧ (∀ l ∈ dropped, Text.trim l = []) ∧
    Text.lines edited = (Text.lines text).take s.start ++ inside ++ rest

theorem AgreeOutside.getLast? {s : Span} {text edited : List Char} {l : Line}
    (h : AgreeOutside s text edited) (hl : ((Text.lines text).drop s.stop).getLast? = some l)
    (hblank : Text.trim l ≠ []) : (Text.lines edited).getLast? = some l := by
  obtain ⟨inside, dropped, rest, hdrop, hdropped, hlines⟩ := h
  rw [hdrop] at hl
  cases rest with
  | nil =>
    rw [List.append_nil] at hl
    exact absurd (hdropped l (List.mem_of_getLast? hl)) hblank
  | cons m rest =>
    rw [List.getLast?_append_of_ne_nil _ (by simp)] at hl
    rw [hlines, List.getLast?_append_of_ne_nil _ (by simp), hl]

namespace Edit

/-- The characters that an edit makes of others. -/
def editedChars? (c : Catalog) (e : Edit) (cs : List Char) : Option (List Char) :=
  match Draft.ofChars c cs, e.check c with
  | .ok d, .ok () =>
    match e.run d with
    | .ok (edited, _) =>
      if (Document.ofChars edited.outline.toChars).isOk then some edited.outline.toChars else none
    | .error _ => none
  | _, _ => none

theorem apply_of_editedChars? {c : Catalog} {e : Edit} {text : String} {cs edited : List Char}
    (htext : text = String.ofList cs) (h : editedChars? c e cs = some edited) :
    ∃ r, e.apply c text = .ok r ∧ r.text.toList = edited := by
  unfold editedChars? at h
  split at h
  · rename_i d hd hcheck
    split at h
    · rename_i after id hrun
      split at h
      · rename_i hok
        cases h
        obtain ⟨d', hd'⟩ := isOk_iff.mp hok
        refine ⟨⟨String.ofList after.outline.toChars, id⟩, ?_, String.toList_ofList⟩
        simp [htext, apply, applyChars, bind, Except.bind, hcheck, hd, hrun, Draft.finish, hd']
      · cases h
    · cases h
  · cases h

theorem exists_ofChars {c : Catalog} {cs : List Char} {d : Draft} (h : Draft.ofChars c cs = .ok d) :
    ∃ doc, Document.ofChars cs = .ok doc ∧ d = ⟨c, doc, Outline.ofChars cs⟩ := by
  unfold Draft.ofChars at h
  split at h
  · rename_i doc hdoc
    cases h
    exact ⟨doc, hdoc, rfl⟩
  · cases h

/-- The block of a workflow in the characters of a document. -/
def locateIn? (c : Catalog) (cs : List Char) (workflow : String) : Option Span :=
  ((Draft.ofChars c cs).toOption.bind fun d => (d.workflowSpan workflow).toOption)

theorem locate_of_locateIn? {c : Catalog} {text workflow : String} {cs : List Char} {s : Span}
    (htext : text = String.ofList cs) (h : locateIn? c cs workflow = some s) :
    (∃ d, Document.load text = .ok d) ∧ locate c text workflow none = .ok s := by
  obtain ⟨d, hd, hs⟩ := Option.bind_eq_some_iff.mp h
  rw [toOption_eq_some] at hd hs
  obtain ⟨doc, hdoc, -⟩ := exists_ofChars hd
  rw [htext]
  refine ⟨⟨doc, by rw [Document.load, String.toList_ofList, hdoc]⟩, ?_⟩
  rw [locate, String.toList_ofList, hd]
  exact hs

theorem workflowLine?_of_locate {c : Catalog} {text workflow : String} {s : Span}
    (h : locate c text workflow none = .ok s) :
    (Outline.ofChars text.toList).workflowLine? workflow = some s.start ∧
      s = (Outline.ofChars text.toList).span s.start := by
  obtain ⟨d, hd, h⟩ := bind_eq_ok.mp h
  obtain ⟨doc, -, rfl⟩ := exists_ofChars hd
  obtain ⟨w, hw, h⟩ := bind_eq_ok.mp h
  cases h
  exact ⟨Draft.workflowLine_eq_ok.mp hw, rfl⟩

/-- Changes inside a block leave the lines outside of it, also when they are written and read again.
-/
theorem agreeOutside_of_patched {cs : List Char} {w : Nat} {p : Outline}
    (hret : Text.ReturnsEndLines cs) (h : (Outline.ofChars cs).Patched w p) :
    AgreeOutside ((Outline.ofChars cs).span w) cs p.toChars := by
  obtain ⟨inner, tail, h⟩ := h
  obtain ⟨dropped, hdropped, hblank⟩ := h.dropped
  have hline : ∀ l ∈ Text.lines cs, Text.IsLine l := Text.isLine_of_lines hret
  have htail : Text.lines cs =
      (Text.lines cs).take ((Outline.ofChars cs).blockEnd w) ++ dropped ++ tail := by
    rw [List.append_assoc, ← hdropped]
    exact (List.take_append_drop _ _).symm
  have hafter : ∀ l ∈ tail, Text.IsLine l := fun l hl => hline l (by
    rw [htail]
    exact List.mem_append_right _ hl)
  have hlast : p.ended = false → tail.getLast? ≠ some [] := fun hended hnil => by
    rw [h.ended] at hended
    refine Text.getLast?_lines hended ?_
    have hne : tail ≠ [] := fun heq => by
      rw [heq] at hnil
      cases hnil
    rw [htail, List.getLast?_append_of_ne_nil _ hne, hnil]
  have hlines : p.lines =
      (Text.lines cs).take w ++ ((Outline.ofChars cs).line w :: inner) ++ tail := by
    rw [h.lines, Outline.take_succ h.item.lt_size]
    simp only [Outline.ofChars, List.append_assoc, List.cons_append, List.nil_append]
  have hchars : p.toChars = Text.joinLines p.lines ++ Text.lineEnd p.ended := by
    rw [Outline.toChars, if_neg]
    rw [hlines]
    simp
  have hne : (Outline.ofChars cs).line w :: inner ≠ [] := List.cons_ne_nil _ _
  obtain ⟨mid, hmid⟩ := Text.exists_lines_joinLines (fun l hl => hline l (List.mem_of_mem_take hl))
    hafter hne hlast
  refine ⟨mid, dropped, tail, hdropped, hblank, ?_⟩
  rw [hchars, hlines]
  exact hmid

/-- A first workflow whose node goes, and a second one behind a blank line. -/
def twoItems : String :=
  "workflows:
  - name: m
    nodes:
      p: {opcode: io_print}

  - name: n
    nodes: {}
"

/-- An edit of the contents of a workflow leaves the lines outside its block, where the nodes of the
workflow do not begin on the item's own line and no mapping is written behind its name. -/
theorem agreeOutside_of_apply (c : Catalog) (text workflow : String) (e : Edit) (r : Edited)
    (s : Span) (hret : Text.ReturnsEndLines text.toList) (he : e.contentsOf? = some workflow)
    (hs : locate c text workflow none = .ok s)
    (hnodes : ((Outline.ofChars text.toList).line s.start).itemKey? ≠ some "nodes".toList)
    (hname : ∀ i, (Outline.ofChars text.toList).findBelow? s.start "name" = some i →
      ((Outline.ofChars text.toList).line i).flowMapping? = none) (hr : e.apply c text = .ok r) :
    AgreeOutside s text.toList r.text.toList := by
  obtain ⟨hline, hspan⟩ := workflowLine?_of_locate hs
  obtain ⟨d, after, id, d', -, hrun, htext, -⟩ := exists_run hr
  have hsteady : (Outline.ofChars text.toList).Steady workflow s.start := ⟨hline, hnodes, hname⟩
  have hpatched := inside_of_run hsteady he hsteady.itemAt.patched hrun
  rw [htext, String.toList_ofList, hspan]
  exact agreeOutside_of_patched hret hpatched

set_option maxRecDepth 2000 in
theorem twoItems_deleteNode : ∃ (r : Edited) (s : Span), Text.ReturnsEndLines twoItems.toList ∧
    locate Catalog.builtin twoItems "m" none = .ok s ∧
    ((Outline.ofChars twoItems.toList).line s.start).itemKey? ≠ some "nodes".toList ∧
    (∀ i, (Outline.ofChars twoItems.toList).findBelow? s.start "name" = some i →
      ((Outline.ofChars twoItems.toList).line i).flowMapping? = none) ∧
    (deleteNode "m" "p").apply Catalog.builtin twoItems = .ok r ∧
    AgreeOutside s twoItems.toList r.text.toList := by
  let e : Edit := .deleteNode "m" "p"
  obtain ⟨cs, htext, hret, hspan, hnodes, hbelow, hedited⟩ : ∃ cs, twoItems = String.ofList cs ∧
      '\r' ∉ cs ∧ locateIn? Catalog.builtin cs "m" = some ⟨1, 4, 2⟩ ∧
      ((Outline.ofChars cs).line 1).itemKey? ≠ some "nodes".toList ∧
      (Outline.ofChars cs).findBelow? 1 "name" = none ∧
      (editedChars? Catalog.builtin e cs).isSome :=
    ⟨_, rfl, by decide +kernel, by decide +kernel, by decide +kernel, by decide +kernel,
      by decide +kernel⟩
  obtain ⟨-, hlocate⟩ := locate_of_locateIn? htext hspan
  obtain ⟨edited, hedited⟩ := Option.isSome_iff_exists.mp hedited
  obtain ⟨r, hr, -⟩ := apply_of_editedChars? htext hedited
  obtain rfl : twoItems.toList = cs := by rw [htext, String.toList_ofList]
  have hlines := Text.returnsEndLines_of_not_mem hret
  have hname : ∀ i, (Outline.ofChars twoItems.toList).findBelow? 1 "name" = some i →
      ((Outline.ofChars twoItems.toList).line i).flowMapping? = none := by
    intro i hi
    rw [hbelow] at hi
    cases hi
  exact ⟨r, ⟨1, 4, 2⟩, hlines, hlocate, hnodes, hname, hr, agreeOutside_of_apply Catalog.builtin
    twoItems "m" e r ⟨1, 4, 2⟩ hlines rfl hlocate hnodes hname hr⟩

/-- The first node of the first workflow is on the line of the item, and what is on its other lines
is the second workflow's name to the line. -/
def keyOnItem : String :=
  "workflows:
  - nodes:
      nodes:
        opcode: control_if
        branches: {THEN: t}
      t: {opcode: io_print}
    name: m
  - name: m
      two
    nodes:
      t: {opcode: io_print}
"

set_option maxRecDepth 2000 in
/-- Deleting a node can delete the item of its workflow, and then a node of the next one. -/
theorem delete_next_item : ¬ ∀ (text workflow : String) (e : Edit) (r : Edited) (s : Span),
    Text.ReturnsEndLines text.toList → (∃ d, Document.load text = .ok d) →
    e.contentsOf? = some workflow → locate Catalog.builtin text workflow none = .ok s →
    e.apply Catalog.builtin text = .ok r → AgreeOutside s text.toList r.text.toList := by
  intro h
  let e : Edit := .deleteNode "m" "nodes"
  let s : Span := ⟨1, 7, 2⟩
  obtain ⟨cs, htext, hret, hspan, hlast, hedited⟩ : ∃ cs, keyOnItem = String.ofList cs ∧
      '\r' ∉ cs ∧ locateIn? Catalog.builtin cs "m" = some s ∧
      ((Text.lines cs).drop s.stop).getLast? = some "      t: \x7bopcode: io_print\x7d".toList ∧
      (editedChars? Catalog.builtin e cs).any fun edited =>
        (Text.lines edited).getLast? = some "    nodes:".toList :=
    ⟨_, rfl, by decide +kernel, by decide +kernel, by decide +kernel, by decide +kernel⟩
  obtain ⟨hload, hlocate⟩ := locate_of_locateIn? htext hspan
  obtain ⟨edited, hedited, hafter⟩ := (Option.any_eq_true _ _).mp hedited
  obtain ⟨r, hr, hchars⟩ := apply_of_editedChars? htext hedited
  have hagree := h keyOnItem "m" e r s (by
    rw [htext, String.toList_ofList]
    exact Text.returnsEndLines_of_not_mem hret) hload rfl hlocate hr
  rw [htext, String.toList_ofList, hchars] at hagree
  have hkept := hagree.getLast? hlast (by decide)
  simp only [decide_eq_true_eq] at hafter
  rw [hafter] at hkept
  exact absurd hkept (by decide)

end Edit

end BlockFlow
