import BlockFlow.Proofs.Outline.Names

/-!
Changes inside the block of a workflow. Main statements: lines below the line of the item can be
replaced by others that give the item no name, and the workflow is found at the same line then.
-/

namespace BlockFlow

namespace Line

variable {base d : Nat} {l : Line}

/-- The line may be written into the block of an item at depth `base`, and does not name the item.
-/
structure Nameless (base : Nat) (l : Line) : Prop where
  deeper : l.DeeperThan base
  notTitle : l.isTitle base = false

/-- The line has content and stands deeper than the entries of an item at depth `base`. -/
def Deep (base : Nat) (l : Line) : Prop := ∃ d, l.indent? = some d ∧ base + 2 < d

/-- The line holds an entry of an item at depth `base`, other than its name. -/
structure IsSection (base : Nat) (l : Line) : Prop where
  indent : l.indent? = some (base + 2)
  notItem : l.isItem = false
  key : l.key? ≠ some "name".toList

theorem Inside.nameless (h : l.Inside (base + 2) false) : l.Nameless base := by
  refine ⟨fun d hd => ?_, ?_⟩
  · rcases h d hd with hlt | ⟨rfl, -, -⟩ <;> omega
  · by_contra htitle
    rw [Bool.not_eq_false, isTitle_iff] at htitle
    obtain ⟨hindent, hitem, -⟩ := htitle
    rcases h _ hindent with hlt | ⟨-, -, h⟩
    · omega
    · rw [hitem] at h
      cases h

theorem DeeperThan.nameless (h : l.DeeperThan (base + 2)) : l.Nameless base := h.inside.nameless

theorem nameless_of_blank (h : Text.trim l = []) : l.Nameless base :=
  (inside_of_none (indent?_of_trimStart (Text.trimStart_eq_nil h))).nameless

theorem Deep.deeperThan (h : l.Deep base) : l.DeeperThan (base + 2) := by
  obtain ⟨d, hd, hlt⟩ := h
  intro k hk
  rw [hd] at hk
  cases hk
  exact hlt

theorem IsSection.nameless (h : l.IsSection base) : l.Nameless base := by
  refine ⟨fun d hd => ?_, ?_⟩
  · rw [h.indent] at hd
    cases hd
    omega
  · by_contra htitle
    rw [Bool.not_eq_false, isTitle_iff] at htitle
    exact h.key htitle.2.2

end Line

namespace Outline

variable {o p q : Outline} {w i j k a b : Nat} {inner tail ls : List Line} {l : Line}
  {name key : String}

/-- The line at `w` is an item. -/
structure ItemAt (o : Outline) (w : Nat) : Prop where
  isItem : (o.line w).isItem = true
  indent : (o.line w).indent? = some (o.depth w)

/-- The outline `p` is `o` with the lines `inner` in place of the block of the item at `w`, and
`tail` behind it: what stood there, but blank lines at its front may be dropped. The line that names
the item is the same. -/
structure PatchedBy (o : Outline) (w : Nat) (inner tail : List Line) (p : Outline) : Prop where
  item : o.ItemAt w
  lines : p.lines = o.lines.take (w + 1) ++ (inner ++ tail)
  ended : p.ended = o.ended
  dropped : ∃ ls, o.lines.drop (o.blockEnd w) = ls ++ tail ∧ ∀ l ∈ ls, Text.trim l = []
  deeper : ∀ l ∈ inner, l.DeeperThan (o.depth w)
  title : (o.line w).itemKey? ≠ some "name".toList →
    inner.find? (Line.isTitle (o.depth w)) = (o.body w).find? (Line.isTitle (o.depth w))

/-- The outline `p` is `o` with changes inside the block of the item at `w` only. -/
def Patched (o : Outline) (w : Nat) (p : Outline) : Prop := ∃ inner tail, PatchedBy o w inner tail p

theorem ItemAt.lt_size (h : o.ItemAt w) : w < o.size := lt_size_of_indent? h.indent

theorem ItemAt.body_eq (h : o.ItemAt w) : o.body w =
    (o.lines.drop (w + 1)).take (reach (o.depth w) true (o.lines.drop (w + 1))) := by
  rw [body_of_indent? h.indent, h.isItem]

theorem ItemAt.blockEnd_eq (h : o.ItemAt w) :
    o.blockEnd w = w + 1 + reach (o.depth w) true (o.lines.drop (w + 1)) := by
  rw [blockEnd_of_indent? h.indent, h.isItem]

theorem ItemAt.drop_blockEnd (h : o.ItemAt w) : o.lines.drop (o.blockEnd w) =
    (o.lines.drop (w + 1)).drop (reach (o.depth w) true (o.lines.drop (w + 1))) := by
  rw [h.blockEnd_eq, List.drop_drop]

theorem ItemAt.patched (h : o.ItemAt w) : Patched o w o := by
  refine ⟨o.body w, o.lines.drop (o.blockEnd w), h, ?_, rfl, ⟨[], rfl, by simp⟩, ?_, fun _ => rfl⟩
  · rw [h.body_eq, h.drop_blockEnd, List.take_append_drop, List.take_append_drop]
  · intro l hl
    rw [h.body_eq] at hl
    exact Line.inside_item.mp (inside_of_mem_take _ l hl)

/-- What is found first is found first after a change that has no part in it. -/
theorem find?_splice {p : Line → Bool} {xs : List Line} (hab : a ≤ b)
    (hout : ∀ x ∈ (xs.drop a).take (b - a), p x = false) (hin : ∀ x ∈ ls, p x = false) :
    (xs.take a ++ ls ++ xs.drop b).find? p = xs.find? p := by
  have hcut : xs = xs.take a ++ ((xs.drop a).take (b - a) ++ xs.drop b) := by
    have hrest := List.take_append_drop (b - a) (xs.drop a)
    rw [List.drop_drop, Nat.add_sub_cancel' hab] at hrest
    rw [hrest, List.take_append_drop]
  have hmid : ((xs.drop a).take (b - a)).find? p = none := by simpa using hout
  have hls : ls.find? p = none := by simpa using hin
  conv => rhs; rw [hcut]
  simp only [List.find?_append, hmid, hls, Option.or_none, Option.none_or]

namespace PatchedBy

theorem length_take (h : PatchedBy o w inner tail p) : (o.lines.take (w + 1)).length = w + 1 :=
  List.length_take_of_le (Nat.succ_le_of_lt h.item.lt_size)

theorem line_eq (h : PatchedBy o w inner tail p) (hk : k ≤ w) : p.line k = o.line k := by
  have hlength := h.length_take
  rw [line, line, List.getD_eq_getElem?_getD, List.getD_eq_getElem?_getD, h.lines,
    List.getElem?_append_left (by omega), List.getElem?_take_of_lt (by omega)]

theorem depth_eq (h : PatchedBy o w inner tail p) : p.depth w = o.depth w := by
  rw [depth, depth, h.line_eq (Nat.le_refl w)]

theorem itemAt (h : PatchedBy o w inner tail p) : p.ItemAt w := by
  have hline := h.line_eq (Nat.le_refl w)
  exact ⟨by rw [hline]; exact h.item.isItem, by rw [h.depth_eq, hline]; exact h.item.indent⟩

theorem drop_lines (h : PatchedBy o w inner tail p) : p.lines.drop (w + 1) = inner ++ tail := by
  rw [h.lines]
  exact List.drop_left' h.length_take

theorem take_lines (h : PatchedBy o w inner tail p) (hwa : w < a) (ha : a ≤ w + 1 + inner.length) :
    p.lines.take a = o.lines.take (w + 1) ++ inner.take (a - (w + 1)) := by
  have hlength := h.length_take
  rw [h.lines, List.take_append, hlength, List.take_of_length_le (by omega),
    List.take_append_of_le_length (by omega)]

theorem drop_lines_of_lt (h : PatchedBy o w inner tail p) (hwb : w < b)
    (hb : b ≤ w + 1 + inner.length) : p.lines.drop b = inner.drop (b - (w + 1)) ++ tail := by
  have hlength := h.length_take
  rw [h.lines, List.drop_append, hlength, List.drop_of_length_le (by omega),
    List.drop_append_of_le_length (by omega), List.nil_append]

theorem getElem?_inner (h : PatchedBy o w inner tail p) (hk : k < inner.length) :
    p.lines[w + 1 + k]? = inner[k]? := by
  rw [← List.getElem?_drop, h.drop_lines, List.getElem?_append_left hk]

theorem reach_tail (h : PatchedBy o w inner tail p) : reach (o.depth w) true tail = 0 := by
  obtain ⟨ls, hls, hblank⟩ := h.dropped
  have hreach := reach_drop (o.depth w) true (o.lines.drop (w + 1))
  rw [← h.item.drop_blockEnd, hls] at hreach
  exact reach_of_dropped
    (fun l hl => Line.indent?_of_trimStart (Text.trimStart_eq_nil (hblank l hl))) hreach

theorem blockEnd_eq (h : PatchedBy o w inner tail p) :
    p.blockEnd w = w + 1 + reach (o.depth w) true inner := by
  rw [h.itemAt.blockEnd_eq, h.depth_eq, h.drop_lines, reach_append h.reach_tail]

theorem blockEnd_le (h : PatchedBy o w inner tail p) : p.blockEnd w ≤ w + 1 + inner.length := by
  have hreach := reach_le_length (o.depth w) true inner
  rw [h.blockEnd_eq]
  omega

theorem body_eq (h : PatchedBy o w inner tail p) :
    p.body w = inner.take (reach (o.depth w) true inner) := by
  rw [h.itemAt.body_eq, h.depth_eq, h.drop_lines, reach_append h.reach_tail,
    List.take_append_of_le_length (reach_le_length ..)]

/-- Lines are replaced by others; neither these nor those name the item. -/
theorem splice (h : PatchedBy o w inner tail p) (hwa : w < a) (hab : a ≤ b)
    (hb : b ≤ w + 1 + inner.length)
    (hout : ∀ k, a ≤ k → k < b → (p.line k).isTitle (o.depth w) = false)
    (hin : ∀ l ∈ ls, l.Nameless (o.depth w)) :
    PatchedBy o w (inner.take (a - (w + 1)) ++ ls ++ inner.drop (b - (w + 1))) tail
      (p.splice a b ls) := by
  refine ⟨h.item, ?_, h.ended, h.dropped, ?_, fun hkey => ?_⟩
  · rw [Outline.splice]
    simp only [h.take_lines hwa (Nat.le_trans hab hb), h.drop_lines_of_lt (by omega) hb,
      List.append_assoc]
  · intro l hl
    rw [List.mem_append, List.mem_append] at hl
    rcases hl with (hl | hl) | hl
    · exact h.deeper l (List.mem_of_mem_take hl)
    · exact (hin l hl).deeper
    · exact h.deeper l (List.mem_of_mem_drop hl)
  · rw [← h.title hkey]
    refine find?_splice (Nat.sub_le_sub_right hab _) (fun l hl => ?_)
      fun l hl => (hin l hl).notTitle
    obtain ⟨m, hm, hget⟩ := List.mem_take_iff_getElem.mp hl
    rw [List.length_drop] at hm
    rw [List.getElem_drop] at hget
    have hline : p.line (w + 1 + (a - (w + 1) + m)) = l := by
      refine line_eq_of_getElem? ?_
      rw [h.getElem?_inner (by omega)]
      exact List.getElem?_eq_some_iff.mpr ⟨_, hget⟩
    rw [← hline]
    exact hout _ (by omega) (by omega)

/-- A blank line right behind what was changed can be dropped. -/
theorem dropBlank (h : PatchedBy o w inner (l :: tail) p) (hl : Text.trim l = [])
    (hlines : q.lines = o.lines.take (w + 1) ++ (inner ++ tail)) (hended : q.ended = p.ended) :
    PatchedBy o w inner tail q := by
  obtain ⟨ls, hls, hblank⟩ := h.dropped
  refine ⟨h.item, hlines, hended.trans h.ended, ⟨ls ++ [l], by simp [hls], ?_⟩, h.deeper, h.title⟩
  rw [List.forall_mem_append, List.forall_mem_singleton]
  exact ⟨hblank, hl⟩

end PatchedBy

/-! Places inside the block -/

/-- The line at `i` is an entry of the item at `w`, or deeper inside its block. -/
structure Place (p : Outline) (w i : Nat) : Prop where
  above : w < i
  below : i < p.blockEnd w
  line : (p.line i).Deep (p.depth w) ∨ (p.line i).IsSection (p.depth w)

/-- The line at `i` is inside the block of the item at `w`, deeper than its entries. -/
structure DeepPlace (p : Outline) (w i : Nat) : Prop where
  above : w < i
  below : i < p.blockEnd w
  line : (p.line i).Deep (p.depth w)

theorem DeepPlace.place (h : DeepPlace p w i) : Place p w i := ⟨h.above, h.below, .inl h.line⟩

theorem DeepPlace.lt_depth (h : DeepPlace p w i) : p.depth w + 2 < p.depth i := by
  obtain ⟨d, hd, hlt⟩ := h.line
  rwa [depth_of_indent? hd]

namespace Place

theorem indent? (h : Place p w i) : (p.line i).indent? = some (p.depth i) := by
  rcases h.line with ⟨d, hd, -⟩ | hsection
  · rw [depth_of_indent? hd, hd]
  · rw [depth_of_indent? hsection.indent, hsection.indent]

theorem le_depth (h : Place p w i) : p.depth w + 2 ≤ p.depth i := by
  rcases h.line with ⟨d, hd, hlt⟩ | hsection
  · rw [depth_of_indent? hd]
    omega
  · rw [depth_of_indent? hsection.indent]

theorem blockEnd_le (h : Place p w i) : p.blockEnd i ≤ p.blockEnd w :=
  blockEnd_le_blockEnd h.above h.below h.indent?

theorem deep_of_isItem (h : Place p w i) (hitem : (p.line i).isItem = true) : DeepPlace p w i := by
  refine ⟨h.above, h.below, h.line.resolve_right fun hsection => ?_⟩
  rw [hsection.notItem] at hitem
  cases hitem

theorem nameless_line (h : Place p w i) : (p.line i).Nameless (p.depth w) :=
  h.line.elim (fun h => h.deeperThan.nameless) (·.nameless)

/-- What stands in the block of a place does not name the item. -/
theorem nameless (h : Place p w i) (hik : i ≤ k) (hk : k < p.blockEnd i) :
    (p.line k).Nameless (p.depth w) := by
  rcases Nat.eq_or_lt_of_le hik with rfl | hlt
  · exact h.nameless_line
  · have hin := inside_of_lt_blockEnd h.indent? hlt hk
    refine Line.Inside.nameless fun d hd => ?_
    have hdepth := h.le_depth
    rcases hin d hd with hdeeper | ⟨rfl, hnot, hitem⟩
    · exact .inl (by omega)
    · exact (Nat.eq_or_lt_of_le hdepth).symm.imp id fun heq => ⟨heq.symm, rfl, hitem⟩

theorem deep_of_isEntry (h : Place p w i) (hj : p.IsEntry i key j) : DeepPlace p w j := by
  obtain ⟨d, hd, hlt, -⟩ := hj.deeper
  have hdepth := h.le_depth
  exact ⟨Nat.lt_trans h.above hj.above, Nat.lt_of_lt_of_le hj.below h.blockEnd_le, d, hd, by omega⟩

/-- What is found below a place stands deeper than the entries of the item. -/
theorem find? (h : Place p w i) (hj : p.find? i key = some j) : DeepPlace p w j := by
  rcases find?_cases hj with ⟨rfl, hitem, -⟩ | hentry
  · exact h.deep_of_isItem hitem
  · exact h.deep_of_isEntry hentry

theorem lt_entryDepth (h : Place p w i) : p.depth w + 2 < p.entryDepth i :=
  Nat.lt_of_le_of_lt h.le_depth depth_lt_entryDepth

/-- Where a place is depends on the lines down to it only. -/
theorem congr (h : Place p w i) (hp : p.ItemAt w) (hlines : ∀ k ≤ i, q.line k = p.line k) :
    Place q w i := by
  have hw : q.line w = p.line w := hlines w (Nat.le_of_lt h.above)
  have hdepth : q.depth w = p.depth w := by rw [depth, depth, hw]
  have hi : q.line i = p.line i := hlines i (Nat.le_refl i)
  refine ⟨h.above, ?_, by rw [hi, hdepth]; exact h.line⟩
  refine lt_blockEnd_of_inside (by rw [hw]; exact hp.indent) h.above (fun k hk hki => ?_)
    ⟨_, by rw [hi]; exact h.indent?⟩
  rw [hlines k hki, hw]
  exact inside_of_lt_blockEnd hp.indent hk (Nat.lt_of_le_of_lt hki h.below)

end Place

/-- The items of a list below an entry stand deeper than the entries of the item. -/
theorem DeepPlace.of_mem_items (h : DeepPlace p w i) (hj : j ∈ p.items i) : DeepPlace p w j := by
  obtain ⟨hij, hjend, -, d, -, hd⟩ := mem_items_iff.mp hj
  have hdepth := h.lt_depth
  refine ⟨Nat.lt_trans h.above hij, Nat.lt_of_lt_of_le hjend h.place.blockEnd_le, d, hd, ?_⟩
  rcases inside_of_lt_blockEnd h.place.indent? hij hjend d hd with hlt | ⟨rfl, -, -⟩ <;> omega

/-! Lines of an outline after a change -/

theorem line_splice_of_lt (ha : a ≤ p.size) (hk : k < a) : (p.splice a b ls).line k = p.line k := by
  have hlength : (p.lines.take a).length = a := List.length_take_of_le ha
  rw [line, line, List.getD_eq_getElem?_getD, List.getD_eq_getElem?_getD, splice]
  simp only [List.append_assoc]
  rw [List.getElem?_append_left (by omega), List.getElem?_take_of_lt hk]

theorem line_splice_self (ha : a ≤ p.size) : (p.splice a b (l :: ls)).line a = l := by
  have hlength : (p.lines.take a).length = a := List.length_take_of_le ha
  refine line_eq_of_getElem? ?_
  rw [splice]
  simp only [List.append_assoc]
  rw [List.getElem?_append_right (by omega), hlength, Nat.sub_self]
  rfl

theorem setLine_eq_splice (hi : i < p.size) : p.setLine i l = p.splice i (i + 1) [l] := by
  rw [size] at hi
  rw [setLine, splice, List.set_eq_take_append_cons_drop, if_pos hi, List.append_assoc]
  rfl

namespace Patched

theorem itemAt (h : Patched o w p) : p.ItemAt w := by
  obtain ⟨inner, tail, h⟩ := h
  exact h.itemAt

theorem line_eq (h : Patched o w p) (hk : k ≤ w) : p.line k = o.line k := by
  obtain ⟨inner, tail, h⟩ := h
  exact h.line_eq hk

theorem blockEnd_le_size (h : Patched o w p) : p.blockEnd w ≤ p.size :=
  Outline.blockEnd_le_size h.itemAt.indent

/-- Lines in the block of a place are replaced by lines that do not name the item. -/
theorem splice (h : Patched o w p) (hi : Place p w i) (hia : i ≤ a) (hab : a ≤ b)
    (hb : b ≤ p.blockEnd i) (hin : ∀ l ∈ ls, l.Nameless (p.depth w)) :
    Patched o w (p.splice a b ls) := by
  obtain ⟨inner, tail, h⟩ := h
  have hend := h.blockEnd_le
  have hplace := hi.blockEnd_le
  have habove := hi.above
  refine ⟨_, tail, h.splice (by omega) hab (by omega) (fun k hak hkb => ?_) ?_⟩
  · rw [← h.depth_eq]
    exact (hi.nameless (Nat.le_trans hia hak) (Nat.lt_of_lt_of_le hkb hb)).notTitle
  · rwa [← h.depth_eq]

/-- The first of the new lines is a place when it stands like one. -/
theorem place_splice (h : Patched o w p) (hwa : w < a) (ha : a ≤ p.blockEnd w)
    (hl : l.Deep (p.depth w) ∨ l.IsSection (p.depth w)) : Place (p.splice a b (l :: ls)) w a := by
  have hsize := h.blockEnd_le_size
  have hlines (k : Nat) (hk : k < a) : (p.splice a b (l :: ls)).line k = p.line k :=
    line_splice_of_lt (by omega) hk
  have hself : (p.splice a b (l :: ls)).line a = l := line_splice_self (by omega)
  have hw := hlines w hwa
  have hindent := h.itemAt.indent
  refine ⟨hwa, ?_, by rw [depth, hself, hw]; exact hl⟩
  refine lt_blockEnd_of_inside (by rw [hw]; exact hindent) hwa (fun k hk hka => ?_) ?_
  · rw [hw]
    rcases Nat.eq_or_lt_of_le hka with rfl | hlt
    · rw [hself]
      exact (hl.elim (fun h => h.deeperThan.nameless) (·.nameless)).deeper.inside
    · rw [hlines k hlt]
      exact inside_of_lt_blockEnd hindent hk (Nat.lt_of_lt_of_le hlt ha)
  · rw [hself]
    rcases hl with ⟨d, hd, -⟩ | hsection
    · exact ⟨d, hd⟩
    · exact ⟨_, hsection.indent⟩

theorem deepPlace_splice (h : Patched o w p) (hwa : w < a) (ha : a ≤ p.blockEnd w)
    (hl : l.Deep (p.depth w)) : DeepPlace (p.splice a b (l :: ls)) w a := by
  have hplace : Place (p.splice a b (l :: ls)) w a := h.place_splice hwa ha (.inl hl)
  have hsize := h.blockEnd_le_size
  refine ⟨hplace.above, hplace.below, ?_⟩
  rw [depth, line_splice_self (by omega), line_splice_of_lt (by omega) hwa]
  exact hl

/-! Finding the workflow again -/

theorem workflowsLine? {root : Nat} (h : Patched o w p) (hroot : o.workflowsLine? = some root)
    (hw : root < w) : p.workflowsLine? = some root := by
  obtain ⟨inner, tail, h⟩ := h
  rw [Outline.workflowsLine?, ← List.take_append_drop (w + 1) o.lines, List.findIdx?_append,
    h.length_take] at hroot
  rw [Outline.workflowsLine?, h.lines, List.findIdx?_append]
  cases hfront : (o.lines.take (w + 1)).findIdx? fun l =>
      l.indent? = some 0 && l.key? = some "workflows".toList with
  | some i =>
    rw [hfront] at hroot
    exact hroot
  | none =>
    rw [hfront, Option.none_or] at hroot
    obtain ⟨m, -, hm⟩ := Option.map_eq_some_iff.mp hroot
    omega

/-- The item has the same name. -/
theorem workflowName?_self (h : Patched o w p) : p.workflowName? w = o.workflowName? w := by
  have hitem := h.itemAt.isItem
  obtain ⟨inner, tail, h⟩ := h
  have hline := h.line_eq (Nat.le_refl w)
  by_cases hkey : (o.line w).itemKey? = some "name".toList
  · rw [workflowName?_of_itemKey? h.item.isItem hkey, workflowName?_of_itemKey? hitem
      (by rwa [hline]), scalar?, scalar?, hline]
  · have hrest : (inner.drop (reach (o.depth w) true inner)).find? (Line.isTitle (o.depth w)) =
        none := by
      rw [List.find?_eq_none]
      intro l hl htitle
      have hdeeper (x : Line) (hx : x ∈ inner) := Line.inside_item.mpr (h.deeper x hx)
      rw [Line.isTitle_iff, indent?_of_mem_drop hdeeper l hl] at htitle
      cases htitle.1
    have hbody : (p.body w).find? (Line.isTitle (o.depth w)) =
        (o.body w).find? (Line.isTitle (o.depth w)) := by
      rw [← h.title hkey, h.body_eq]
      conv => rhs; rw [← List.take_append_drop (reach (o.depth w) true inner) inner]
      rw [List.find?_append, hrest, Option.or_none]
    rw [workflowName?_of_isItem h.item.isItem hkey, workflowName?_of_isItem hitem (by rwa [hline]),
      h.depth_eq, hbody]

/-- The blocks of items above are the same. -/
theorem body_eq_of_lt (h : Patched o w p) (hjw : j < w) (hitem : (o.line j).isItem = true)
    (hindent : (o.line j).indent? = some (o.depth w)) : p.body j = o.body j := by
  obtain ⟨inner, tail, h⟩ := h
  have hstop : ¬ (o.line w).Inside (o.depth w) true := fun hin => by
    have hlt := Line.inside_item.mp hin _ h.item.indent
    omega
  have hwline := h.line_eq (Nat.le_refl w)
  have hsize := lt_size_of_indent? h.itemAt.indent
  have hjline := h.line_eq (Nat.le_of_lt hjw)
  have hfront : (p.lines.drop (j + 1)).take (w - (j + 1)) =
      (o.lines.drop (j + 1)).take (w - (j + 1)) := by
    rw [← List.drop_take, ← List.drop_take]
    congr 1
    rw [h.lines, List.take_append_of_le_length (by rw [h.length_take]; omega), List.take_take,
      Nat.min_eq_left (by omega)]
  rw [body_of_indent? (by rw [hjline]; exact hindent), body_of_indent? hindent, hjline, hitem,
    drop_eq_append hjw hsize, drop_eq_append hjw h.item.lt_size, hwline, hfront,
    reach_append_stop h.item.indent hstop, reach_append_stop h.item.indent hstop,
    List.take_append_of_le_length (reach_le_length ..),
    List.take_append_of_le_length (reach_le_length ..)]

theorem bodyDepth?_eq {root : Nat} (h : Patched o w p) (hroot : root < w)
    (ho : w < o.blockEnd root) (hp : w < p.blockEnd root) :
    p.bodyDepth? root = o.bodyDepth? root := by
  obtain ⟨inner, tail, h⟩ := h
  have hfront : (p.lines.drop (root + 1)).take (w - root) =
      (o.lines.drop (root + 1)).take (w - root) := by
    have hsub : w - root = w + 1 - (root + 1) := by omega
    rw [hsub, ← List.drop_take, ← List.drop_take, h.lines,
      List.take_append_of_le_length (by rw [h.length_take]), List.take_take, Nat.min_self]
  have hcut (q : Outline) (hq : w < q.blockEnd root) : q.body root =
      (q.lines.drop (root + 1)).take (w - root) ++
        ((q.lines.drop (root + 1)).drop (w - root)).take (q.blockEnd root - (w + 1)) := by
    rw [body, slice, ← List.take_add]
    congr 1
    omega
  have hmem : o.line w ∈ (o.lines.drop (root + 1)).take (w - root) := by
    rw [List.mem_take_iff_getElem]
    have hsize := h.item.lt_size
    rw [size] at hsize
    refine ⟨w - (root + 1), by rw [List.length_drop]; omega, ?_⟩
    rw [List.getElem_drop]
    refine (line_eq_of_getElem? (List.getElem?_eq_some_iff.mpr ⟨by omega, ?_⟩)).symm
    congr 1
    omega
  obtain ⟨d, hd⟩ : ∃ d, ((o.lines.drop (root + 1)).take (w - root)).findSome? (·.indent?) =
      some d := by
    rw [← Option.isSome_iff_exists, List.findSome?_isSome_iff]
    exact ⟨_, hmem, by rw [h.item.indent]; rfl⟩
  rw [bodyDepth?, bodyDepth?, hcut p hp, hcut o ho, List.findSome?_append, List.findSome?_append,
    hfront, hd]
  rfl

/-- A workflow is found where it was. -/
theorem workflowLine? (h : Patched o w p) (hw : o.workflowLine? name = some w) :
    p.workflowLine? name = some w := by
  obtain ⟨root, hroot, hmem, hname, hfirst⟩ := workflowLine?_eq_some.mp hw
  obtain ⟨hrw, hend, hitem, column, hcolumn, hindent⟩ := mem_items_iff.mp hmem
  obtain ⟨base, hbase⟩ := indent?_of_lt_blockEnd hrw hend
  have hlines (k : Nat) (hk : k ≤ w) : p.line k = o.line k := h.line_eq hk
  have hrootLine := hlines root (Nat.le_of_lt hrw)
  have hpend : w < p.blockEnd root := by
    refine lt_blockEnd_of_inside (by rw [hrootLine]; exact hbase) hrw (fun k hk hkw => ?_)
      ⟨column, by rw [hlines w (Nat.le_refl w)]; exact hindent⟩
    rw [hlines k hkw, hrootLine]
    exact inside_of_lt_blockEnd hbase hk (Nat.lt_of_le_of_lt hkw hend)
  have hbody := h.bodyDepth?_eq hrw hend hpend
  have hitems (j : Nat) (hj : j ≤ w) : j ∈ p.items root ↔ j ∈ o.items root := by
    rw [mem_items_iff, mem_items_iff, hbody, hlines j hj]
    have hp : j < p.blockEnd root := by omega
    have ho : j < o.blockEnd root := by omega
    simp only [hp, ho]
  refine workflowLine?_eq_some.mpr ⟨root, h.workflowsLine? hroot hrw,
    (hitems w (Nat.le_refl w)).mpr hmem, by rw [h.workflowName?_self, hname], fun j hj hjw => ?_⟩
  have hjo := (hitems j (Nat.le_of_lt hjw)).mp hj
  obtain ⟨-, -, hjitem, d, hd, hjindent⟩ := mem_items_iff.mp hjo
  rw [hcolumn] at hd
  cases hd
  have hsame := h.body_eq_of_lt hjw hjitem (by rw [depth_of_indent? hindent]; exact hjindent)
  rw [workflowName?_congr (hlines j (Nat.le_of_lt hjw)) hsame hjitem]
  exact hfirst j hjo hjw

end Patched

end Outline

end BlockFlow
