import BlockFlow.Edit.Workflows
import BlockFlow.Proofs.Form.Site

/-!
Values in the form that edits write them in, and the lists that edits add items to.
-/

namespace BlockFlow

namespace Form

/-- A string as it is written: without quotes where these are not needed. -/
def Leaf.string (s : String) : Leaf :=
  if Outline.isPlain s.toList then .plain s.toList else .quoted s.toList

theorem Leaf.text_string (s : String) : (Leaf.string s).text = Outline.renderString s := by
  rw [Leaf.string, Outline.renderString, Outline.renderChars]
  split <;> rfl

/-- A string that is read back is read as itself. -/
theorem Leaf.value_string {s : String} (h : (Leaf.string s).isSound) :
    (Leaf.string s).value = .str s := by
  unfold Leaf.string at h ⊢
  split
  · rename_i hplain
    rw [if_pos hplain] at h
    simp only [Outline.isPlain, Bool.and_eq_true] at hplain
    obtain ⟨v, hload, hv⟩ := (Option.any_eq_true _ _).mp hplain.2
    rw [show Yaml.load? s.toList = Yaml.load? (Leaf.plain s.toList).text from rfl,
      load?_leaf h] at hload
    obtain rfl := Option.some.inj hload
    cases hvalue : (Leaf.plain s.toList).value <;> simp_all [Yaml.Value.isStr]
  · rw [Leaf.value, String.ofList_toList]

/-- A key as a string. -/
theorem Leaf.string_of_isKey {k : String} (h : isKey k) : Leaf.string k = .plain k.toList := by
  simp only [isKey, Bool.and_eq_true] at h
  exact if_pos h.1.1.1.1

theorem ne_of_isKey {k : String} (h : isKey k) : k ≠ "" :=
  fun heq => Yaml.isPlainText_ne_nil (isPlainText_of_isKey h) (heq ▸ rfl)

theorem Leaf.isSound_string {k : String} (h : isKey k) : (Leaf.string k).isSound := by
  rw [string_of_isKey h]
  exact isPlainText_of_isKey h

/-- The items of a list. -/
def listed : Form → List Form
  | seq items => items
  | _ => []

theorem itemsSound_listed {f : Form} (h : f.isSound) : itemsSound f.listed := by
  cases f with
  | seq items => exact (isSound_seq.mp h).2
  | _ => rfl

end Form

namespace Line

theorem indentAll_eq_map {ls : List Line} (h : Form.Solid ls) (n : Nat) :
    indentAll n ls = ls.map (·.deeper n) := by
  refine List.map_congr_left fun l hl => if_neg ?_
  obtain ⟨m, hm⟩ := h l hl
  intro hempty
  rw [List.isEmpty_iff.mp hempty] at hm
  cases hm

end Line

namespace Slot

open Form (itemsSound itemLines sequenceLines Solid)

variable {s : Slot} {items : List Form}

/-- The line of a key is replaced by that of another value without lines below. -/
theorem setLine_head (f g : Form) (h : f.bodyLines = g.bodyLines) :
    (s.fill f).setLine s.line ((Form.headLine s.key g).deeper s.column) = s.fill g := by
  have hlines : (s.fill f).lines.set s.line ((Form.headLine s.key g).deeper s.column) =
      (s.fill g).lines := by
    rw [lines_fill, lines_fill, line, List.set_append_right _ _ le_rfl, Nat.sub_self, h]
    rfl
  exact congrArg (Outline.mk · true) hlines

/-- A block that nothing is left of is written behind its key. -/
theorem collapse_block {f : Form} {l : Form.Leaf} (hsolid : Solid f.bodyLines)
    (hleaf : ∀ l, f ≠ .leaf l) :
    (s.fill f).collapse s.line l.text = s.fill (if f.lines = [] then .leaf l else f) := by
  have hbare : (s.fill f).line s.line = (s.fill .bare).line s.line := by
    rw [line_fill, line_fill]
    cases f with
    | leaf l => exact absurd rfl (hleaf l)
    | _ => rfl
  have hbody : f.bodyLines = f.lines := by
    cases f with
    | leaf l => exact absurd rfl (hleaf l)
    | _ => rfl
  have hkey : ((s.fill f).line s.line).key? = some s.key.toList := by
    rw [hbare, line_fill, Line.key?_deeper, Form.key?_headLine s.isKey]
  have hvalue : (s.fill f).value s.line = [] := by
    rw [Outline.value, hbare]
    exact value_fill (f := .bare) rfl
  rw [Outline.collapse, blockEnd_fill hsolid, hvalue, hkey, depth_fill, hbody]
  by_cases hnil : f.lines = []
  · have hrender : Outline.renderChars s.key.toList = s.key.toList :=
      Form.renderString_of_isKey s.isKey
    simp only [hnil, List.length_nil, Nat.add_zero, decide_true, List.isEmpty_nil, Bool.and_self,
      if_true, hrender]
    exact setLine_head (s := s) f (.leaf l) (hbody.trans hnil)
  · have hne : s.line + 1 + f.lines.length ≠ s.line + 1 := by
      have hlength := List.length_pos_iff.mpr hnil
      omega
    simp only [hne, hnil, decide_false, Bool.false_and, Bool.false_eq_true, if_false]

/-- An item behind those of a list. -/
theorem insert_item (hitems : itemsSound items) (f : Form) :
    (s.fill (.seq items)).insert ((s.fill (.seq items)).blockEnd s.line)
      ((itemLines f f.lines).map (·.deeper (s.column + 2))) = s.fill (.seq (items ++ [f])) := by
  let block := s.above ++ Line.deeper s.column (s.key.toList ++ [':']) ::
    (sequenceLines items).map (·.deeper (s.column + 2))
  have hlines : (s.fill (.seq items)).lines = block ++ s.rest := by
    rw [lines_fill]
    simp [block, Form.headLine, Form.bodyLines, Form.lines]
  have hend : (s.fill (.seq items)).blockEnd s.line = block.length := by
    have hsolid : Solid (Form.bodyLines (.seq items)) := Form.solid_sequenceLines items hitems
    rw [blockEnd_fill hsolid]
    simp only [block, line, Form.bodyLines, Form.lines, List.length_append, List.length_cons,
      List.length_map]
    omega
  have hfill : (s.fill (.seq (items ++ [f]))).lines =
      block ++ (itemLines f f.lines).map (·.deeper (s.column + 2)) ++ s.rest := by
    rw [lines_fill]
    simp [block, Form.headLine, Form.bodyLines, Form.lines, Form.sequenceLines_append,
      sequenceLines]
  rw [Outline.insert, Outline.splice, hend, hlines, List.take_left, List.drop_left, ← hfill]
  rfl

theorem itemDepth_fill (hitems : itemsSound items) :
    (s.fill (.seq items)).itemDepth s.line (s.column + 2) = s.column + 2 := by
  rw [Outline.itemDepth, items_fill hitems]
  cases items with
  | nil => rfl
  | cons f items =>
    obtain ⟨rest, ls, hlines, -, -⟩ := exists_itemLines (Form.itemsSound_cons.mp hitems).1
    have hline : (s.fill (.seq (f :: items))).line (s.line + 1) =
        Line.deeper (s.column + 2) ('-' :: rest) := by
      apply Outline.line_eq_of_getElem?
      rw [lines_fill, line, List.getElem?_append_right (Nat.le_succ _),
        Nat.succ_sub (Nat.le_refl _), Nat.sub_self]
      simp [Form.bodyLines, Form.lines, sequenceLines, hlines]
    rw [itemPlaces, List.head?_cons, Option.bind_some, hline, Line.indent?_deeper,
      Form.indent?_dash]
    rfl

end Slot

end BlockFlow
