import BlockFlow.Proofs.Outline.Blocks
import BlockFlow.Proofs.Outline.Line
import Mathlib.Data.List.Forall2

/-!
Outlines that agree line by line in everything by which blocks and entries are found. Main statement:
the same is found in both.
-/

namespace BlockFlow

/-- The brackets of a list without items. -/
def Line.blank : Line := ['[', ']']

/-- Lines with the same depth and keys. What stands behind the key may differ where the second line has
brackets. -/
structure Line.Alike (l m : Line) : Prop where
  indent : l.indent? = m.indent?
  item : l.isItem = m.isItem
  key : l.key? = m.key?
  itemKey : m.isItem = true → l.itemKey? = m.itemKey?
  value : l.value? = m.value? ∨ m.value? = some Line.blank

namespace Line

variable {l m : Line} {ls ms : List Line}

theorem Alike.refl (l : Line) : l.Alike l := ⟨rfl, rfl, rfl, fun _ => rfl, .inl rfl⟩

theorem Alike.deeper (h : l.Alike m) (n : Nat) : (l.deeper n).Alike (m.deeper n) := by
  refine ⟨?_, ?_, ?_, ?_, ?_⟩
  · rw [indent?_deeper, indent?_deeper, h.indent]
  · rw [isItem_deeper, isItem_deeper, h.item]
  · rw [key?_deeper, key?_deeper, h.key]
  · simpa only [itemKey?, isItem, Line.deeper, Text.trimStart_spaces] using h.itemKey
  · simpa only [value?, Line.deeper, Text.trimStart_spaces] using h.value

/-- Lines without blanks at the front. -/
def Flush (l : Line) : Prop := Text.trimStart l = l

theorem pair?_of_startsItem (h : startsItem l) : pair? l = none := by
  unfold startsItem at h
  split at h
  · rfl
  · rfl
  · cases h

theorem dropStem?_dash (h : startsItem l = false) : Text.dropStem? ['-', ' '] l = none := by
  cases l with
  | nil => rfl
  | cons c rest =>
    by_cases hc : c = '-'
    · subst hc
      cases rest with
      | nil => rfl
      | cons d rest =>
        have hd : ' ' ≠ d := by
          rintro rfl
          cases h
        simp [Text.dropStem?, hd]
    · simp [Text.dropStem?, Ne.symm hc]

/-- What follows a dash is read like a line of its own. -/
theorem itemKey?_dash_flush (h : l.Flush) : itemKey? ('-' :: ' ' :: l) = l.key? := by
  have hblank := Text.trimStart_spaces 1 l
  rw [h] at hblank
  have htail : Text.trimStart ((Text.trimStart ('-' :: ' ' :: l)).drop 1) = l := hblank
  rw [itemKey?, htail, key?, h]

theorem value?_dash_flush (h : l.Flush) : value? ('-' :: ' ' :: l) =
    if l.isItem then none else l.value? := by
  have hwhole : value? ('-' :: ' ' :: l) = (pair? l).map fun p => dropComment p.2 := rfl
  have hitem : l.isItem = startsItem l := by rw [isItem, h]
  rw [hwhole, hitem]
  split
  · rename_i hstart
    rw [pair?_of_startsItem hstart]
    rfl
  · rename_i hstart
    rw [value?, h, dropStem?_dash (Bool.eq_false_iff.mpr hstart), Option.getD_none]

theorem Alike.dash (h : l.Alike m) (hl : l.Flush) (hm : m.Flush) :
    Alike ('-' :: ' ' :: l) ('-' :: ' ' :: m) := by
  refine ⟨rfl, rfl, rfl, fun _ => ?_, ?_⟩
  · rw [itemKey?_dash_flush hl, itemKey?_dash_flush hm, h.key]
  · rw [value?_dash_flush hl, value?_dash_flush hm, h.item]
    split
    · exact .inl rfl
    · exact h.value

theorem alike_deeper (h : List.Forall₂ Alike ls ms) (n : Nat) :
    List.Forall₂ Alike (ls.map (·.deeper n)) (ms.map (·.deeper n)) := by
  rw [List.forall₂_map_left_iff, List.forall₂_map_right_iff]
  exact h.imp fun _ _ hl => hl.deeper n

theorem alike_self (ls : List Line) : List.Forall₂ Alike ls ls :=
  List.forall₂_same.mpr fun l _ => .refl l

end Line

namespace Outline

/-- Outlines with alike lines. -/
def Alike (o p : Outline) : Prop := List.Forall₂ Line.Alike o.lines p.lines

variable {o p : Outline} {ls ms : List Line}

theorem reach_alike (h : List.Forall₂ Line.Alike ls ms) (base : Nat) (item : Bool) :
    reach base item ls = reach base item ms := by
  induction h with
  | nil => rfl
  | cons hl _ ih => rw [reach, reach, hl.indent, hl.item, ih]

theorem Alike.line (h : o.Alike p) (i : Nat) : (o.line i).Alike (p.line i) := by
  rw [Outline.line, Outline.line, List.getD_eq_getElem?_getD, List.getD_eq_getElem?_getD]
  rcases lt_or_ge i o.lines.length with hi | hi
  · have hi' : i < p.lines.length := h.length_eq ▸ hi
    rw [List.getElem?_eq_getElem hi, List.getElem?_eq_getElem hi']
    exact List.Forall₂.get h hi hi'
  · have hi' : p.lines.length ≤ i := h.length_eq ▸ hi
    rw [List.getElem?_eq_none hi, List.getElem?_eq_none hi']
    exact .refl _

theorem Alike.blockEnd (h : o.Alike p) (i : Nat) : o.blockEnd i = p.blockEnd i := by
  have hl := h.line i
  have hdrop : List.Forall₂ Line.Alike (o.lines.drop (i + 1)) (p.lines.drop (i + 1)) :=
    List.forall₂_drop _ h
  rw [Outline.blockEnd, Outline.blockEnd, hl.indent]
  simp only [hl.item, reach_alike hdrop]

theorem Alike.body (h : o.Alike p) (i : Nat) : List.Forall₂ Line.Alike (o.body i) (p.body i) := by
  rw [Outline.body, Outline.body, slice, slice, h.blockEnd i]
  exact List.forall₂_take _ (List.forall₂_drop _ h)

theorem Alike.depth (h : o.Alike p) (i : Nat) : o.depth i = p.depth i := by
  rw [Outline.depth, Outline.depth, (h.line i).indent]

theorem findSome?_alike (h : List.Forall₂ Line.Alike ls ms) :
    ls.findSome? (·.indent?) = ms.findSome? (·.indent?) := by
  induction h with
  | nil => rfl
  | cons hl _ ih => rw [List.findSome?_cons, List.findSome?_cons, hl.indent, ih]

theorem Alike.bodyDepth? (h : o.Alike p) (i : Nat) : o.bodyDepth? i = p.bodyDepth? i :=
  findSome?_alike (h.body i)

/-- What is read off numbered lines is the same when it is the same for each line. -/
theorem filterMap_alike {α : Type} {f : Line × Nat → Option α}
    (hf : ∀ (l m : Line) (j : Nat), l.Alike m → f (l, j) = f (m, j))
    (h : List.Forall₂ Line.Alike ls ms) (start : Nat) :
    (ls.zipIdx start).filterMap f = (ms.zipIdx start).filterMap f := by
  induction h generalizing start with
  | nil => rfl
  | cons hl _ ih =>
    rw [List.zipIdx_cons, List.zipIdx_cons, List.filterMap_cons, List.filterMap_cons, hf _ _ _ hl, ih]

theorem entriesAt_alike (column : Nat) (h : List.Forall₂ Line.Alike ls ms) (start : Nat) :
    entriesAt column (ls.zipIdx start) = entriesAt column (ms.zipIdx start) :=
  filterMap_alike (fun l m j hl => by simp only [hl.indent, hl.item, hl.key]) h start

theorem Alike.entries (h : o.Alike p) (i : Nat) : o.entries i = p.entries i := by
  have hl := h.line i
  have hbody (column : Nat) :
      entriesAt column (o.numberedBody i) = entriesAt column (p.numberedBody i) :=
    entriesAt_alike column (h.body i) (i + 1)
  rw [Outline.entries, Outline.entries]
  rw [hl.item]
  split
  · rename_i hitem
    rw [hl.itemKey hitem, h.depth i, hbody]
  · simp only [h.bodyDepth? i, hbody]

/-- The same entries are found. -/
theorem Alike.find? (h : o.Alike p) (i : Nat) (key : String) : o.find? i key = p.find? i key := by
  rw [Outline.find?, Outline.find?, h.entries i]

theorem Alike.findBelow? (h : o.Alike p) (i : Nat) (key : String) :
    o.findBelow? i key = p.findBelow? i key := by
  rw [Outline.findBelow?, Outline.findBelow?, h.find? i key]

/-- The same items are found. -/
theorem Alike.items (h : o.Alike p) (i : Nat) : o.items i = p.items i := by
  rw [Outline.items, Outline.items, h.bodyDepth? i]
  cases p.bodyDepth? i with
  | none => rfl
  | some column =>
    exact filterMap_alike (fun l m j hl => by simp only [hl.indent, hl.item]) (h.body i) (i + 1)

theorem findIdx?_alike (h : List.Forall₂ Line.Alike ls ms) {f : Line → Bool}
    (hf : ∀ l m : Line, l.Alike m → f l = f m) : ls.findIdx? f = ms.findIdx? f := by
  induction h with
  | nil => rfl
  | cons hl _ ih => rw [List.findIdx?_cons, List.findIdx?_cons, hf _ _ hl, ih]

theorem Alike.workflowsLine? (h : o.Alike p) : o.workflowsLine? = p.workflowsLine? :=
  findIdx?_alike h fun l m hl => by simp only [hl.indent, hl.key]

/-- A scalar is the same unless brackets stand in its place. -/
theorem Alike.scalar? (h : o.Alike p) {i : Nat} (hi : (p.line i).value? ≠ some Line.blank) :
    o.scalar? i = p.scalar? i := by
  rw [Outline.scalar?, Outline.scalar?, Line.scalar?, Line.scalar?, (h.line i).value.resolve_right hi]

end Outline

end BlockFlow
