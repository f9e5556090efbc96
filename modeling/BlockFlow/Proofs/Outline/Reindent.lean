import BlockFlow.Proofs.Outline.Nesting
import Mathlib.Data.List.DropRight
import Mathlib.Data.List.Forall2

/-!
Blocks that are moved to another column. Main statement: moving a block twice is moving it once, each
of its lines moves by as much as the first one, and whatever is found below a line of the block is
found below the moved line at the same distance.
-/

namespace BlockFlow

namespace Line

variable {a b base d n : Nat} {item : Bool} {l m : Line} {ls ms : List Line}

/-- How wide the blanks at the front of a line are. -/
def lead (l : Line) : Nat := Text.byteWidth (l.takeWhile Text.isBlank)

/-- A line moved along with one that goes from the column `base` to the column `column`. -/
def moved (column base : Nat) (l : Line) : Line :=
  if (Text.trimStart l).isEmpty then []
  else deeper (column + (l.lead - base)) (Text.trimStart l)

theorem reindent_eq_map (column : Nat) (ls : List Line) :
    reindent column ls = ls.map (moved column (depthOf ls)) := rfl

theorem trimStart_trimStart (l : Line) : Text.trimStart (Text.trimStart l) = Text.trimStart l :=
  List.dropWhile_idempotent _ l

theorem lead_trimStart (l : Line) : lead (Text.trimStart l) = 0 := by
  have hnil : (Text.trimStart l).takeWhile Text.isBlank = [] := by
    have hsplit := List.takeWhile_append_dropWhile (p := Text.isBlank) (l := Text.trimStart l)
    rw [show (Text.trimStart l).dropWhile Text.isBlank = Text.trimStart l from
      trimStart_trimStart l] at hsplit
    simpa using hsplit
  rw [lead, hnil]
  rfl

theorem lead_deeper (n : Nat) (l : Line) : lead (deeper n l) = n + l.lead := by
  rw [lead, deeper, Text.takeWhile_spaces, Text.byteWidth_append, Text.byteWidth_spaces, lead]

theorem lead_of_indent? (h : l.indent? = some d) : l.lead = d := by
  unfold indent? at h
  split at h
  · cases h
  · cases h
  · exact Option.some.inj h

theorem trimStart_ne_nil_of_indent? (h : l.indent? = some d) : Text.trimStart l ≠ [] := by
  intro hnil
  rw [indent?_of_trimStart hnil] at h
  cases h

/-! Moved lines -/

theorem moved_of_blank (h : Text.trimStart l = []) : moved a base l = [] := by
  rw [moved, h]
  rfl

theorem moved_of_ne_nil (h : Text.trimStart l ≠ []) :
    moved a base l = deeper (a + (l.lead - base)) (Text.trimStart l) := by
  rw [moved, if_neg (by simpa using h)]

theorem trimStart_moved (a base : Nat) (l : Line) :
    Text.trimStart (moved a base l) = Text.trimStart l := by
  by_cases h : Text.trimStart l = []
  · rw [moved_of_blank h, h]
    rfl
  · rw [moved_of_ne_nil h, deeper, Text.trimStart_spaces, trimStart_trimStart]

theorem lead_moved (h : Text.trimStart l ≠ []) : (moved a base l).lead = a + (l.lead - base) := by
  rw [moved_of_ne_nil h, lead_deeper, lead_trimStart, Nat.add_zero]

theorem moved_moved (a b base : Nat) (l : Line) : moved b a (moved a base l) = moved b base l := by
  by_cases h : Text.trimStart l = []
  · rw [moved_of_blank h, moved_of_blank h, moved_of_blank rfl]
  · have hmoved : Text.trimStart (moved a base l) ≠ [] := by rwa [trimStart_moved]
    rw [moved_of_ne_nil hmoved, trimStart_moved, lead_moved h, Nat.add_sub_cancel_left,
      moved_of_ne_nil h]

theorem depthOf_cons_of_blank (h : Text.trimStart l = []) : depthOf (l :: ls) = depthOf ls := by
  rw [depthOf, h]
  rfl

theorem depthOf_cons (h : Text.trimStart l ≠ []) : depthOf (l :: ls) = l.lead := by
  rw [depthOf, if_neg (by simpa using h), lead]

/-- Lines that are moved stand at the column, unless all of them are blank. -/
theorem depthOf_reindent (a : Nat) (ls : List Line) :
    depthOf (reindent a ls) = a ∨ ∀ l ∈ ls, Text.trimStart l = [] := by
  rw [reindent_eq_map]
  induction ls with
  | nil => exact .inr (by simp)
  | cons l ls ih =>
    by_cases h : Text.trimStart l = []
    · have hblank : Text.trimStart (moved a (depthOf ls) l) = [] := by rwa [trimStart_moved]
      rw [depthOf_cons_of_blank h, List.map_cons, depthOf_cons_of_blank hblank]
      exact ih.imp_right fun hls => List.forall_mem_cons.mpr ⟨h, hls⟩
    · have hmoved : Text.trimStart (moved a l.lead l) ≠ [] := by rwa [trimStart_moved]
      refine .inl ?_
      rw [depthOf_cons h, List.map_cons, depthOf_cons hmoved, lead_moved h, Nat.sub_self,
        Nat.add_zero]

/-- Moving lines twice is moving them once. -/
theorem reindent_reindent (a b : Nat) (ls : List Line) :
    reindent b (reindent a ls) = reindent b ls := by
  rcases depthOf_reindent a ls with hdepth | hblank
  · rw [reindent_eq_map b (reindent a ls), hdepth, reindent_eq_map, reindent_eq_map, List.map_map]
    exact List.map_congr_left fun l _ => moved_moved a b (depthOf ls) l
  · simp only [reindent_eq_map, List.map_map]
    refine List.map_congr_left fun l hl => ?_
    rw [Function.comp_apply, moved_of_blank (hblank l hl), moved_of_blank (hblank l hl),
      moved_of_blank rfl]

/-- The second line is the first one, moved along with a line that goes from the column `base` to the
column `column`. Lines without content need not keep their depth. -/
structure Moves (base column : Nat) (l m : Line) : Prop where
  above : ∀ d, l.indent? = some d → base ≤ d
  indent : m.indent? = l.indent?.map fun d => column + (d - base)
  item : m.isItem = l.isItem
  key : m.key? = l.key?
  itemKey : m.itemKey? = l.itemKey?

theorem indent?_moved (a base : Nat) (l : Line) :
    (moved a base l).indent? = l.indent?.map fun d => a + (d - base) := by
  have hstart := trimStart_moved a base l
  cases h : l.indent? with
  | none =>
    unfold indent? at h ⊢
    rw [hstart]
    split at h
    · rfl
    · rfl
    · cases h
  | some d =>
    have hlead : (moved a base l).lead = a + (l.lead - base) :=
      lead_moved (trimStart_ne_nil_of_indent? h)
    rw [lead_of_indent? h] at hlead
    unfold indent? at h ⊢
    rw [hstart]
    split at h
    · cases h
    · cases h
    · exact congrArg some hlead

theorem moves_moved (h : ∀ d, l.indent? = some d → base ≤ d) :
    Moves base a l (moved a base l) where
  above := h
  indent := indent?_moved a base l
  item := by rw [isItem, isItem, trimStart_moved]
  key := by rw [key?, key?, trimStart_moved]
  itemKey := by rw [itemKey?, itemKey?, trimStart_moved]

theorem moves_self (h : ∀ d, l.indent? = some d → base ≤ d) : Moves base base l l where
  above := h
  indent := by
    cases hd : l.indent? with
    | none => rfl
    | some d =>
      have hle := h d hd
      rw [Option.map_some, Nat.add_sub_cancel' hle]
  item := rfl
  key := rfl
  itemKey := rfl

namespace Moves

theorem indent_eq_iff (h : Moves base a l m) (hd : base ≤ d) :
    m.indent? = some (a + (d - base)) ↔ l.indent? = some d := by
  rw [h.indent, Option.map_eq_some_iff]
  constructor
  · rintro ⟨k, hk, heq⟩
    have hle := h.above k hk
    rw [hk, show k = d by omega]
  · intro hl
    exact ⟨d, hl, rfl⟩

/-- Lines that move together stay in the block of each other. -/
theorem inside_iff (h : Moves base a l m) (hd : base ≤ d) :
    m.Inside (a + (d - base)) item ↔ l.Inside d item := by
  cases hl : l.indent? with
  | none => simp [Inside, h.indent, hl]
  | some k =>
    have hk := h.above k hl
    have hlt : a + (d - base) < a + (k - base) ↔ d < k := by omega
    have heq : k - base = d - base ↔ k = d := by omega
    simp [Inside, h.indent, hl, h.item, hlt, heq]

theorem reach_eq (h : List.Forall₂ (Moves base a) ls ms) (hd : base ≤ d) :
    Outline.reach (a + (d - base)) item ms = Outline.reach d item ls := by
  induction h with
  | nil => rfl
  | @cons l m ls ms hl _ ih =>
    obtain hnone | ⟨k, hk, hin⟩ | ⟨k, hk, hin⟩ := Outline.reach_cases d item l
    · have hm : m.indent? = none := by rw [hl.indent, hnone, Option.map_none]
      rw [Outline.reach_none hnone, Outline.reach_none hm, ih]
    · have hm := (hl.indent_eq_iff (hl.above k hk)).mpr hk
      rw [Outline.reach_inside hk hin, Outline.reach_inside hm ((hl.inside_iff hd).mpr hin), ih]
    · have hm := (hl.indent_eq_iff (hl.above k hk)).mpr hk
      rw [Outline.reach_stop hk hin, Outline.reach_stop hm (mt (hl.inside_iff hd).mp hin)]

theorem above_of_mem (h : List.Forall₂ (Moves base a) ls ms) :
    ∀ l ∈ ls, ∀ d, l.indent? = some d → base ≤ d := by
  induction h with
  | nil => simp
  | cons hl _ ih => exact List.forall_mem_cons.mpr ⟨hl.above, ih⟩

theorem findSome?_indent? (h : List.Forall₂ (Moves base a) ls ms) :
    ms.findSome? (·.indent?) = (ls.findSome? (·.indent?)).map fun d => a + (d - base) := by
  induction h with
  | nil => rfl
  | @cons l m ls ms hl _ ih =>
    rw [List.findSome?_cons, List.findSome?_cons, hl.indent]
    cases l.indent? with
    | none => exact ih
    | some d => rfl

/-- What is read off numbered lines is the same when it is the same for each line, apart from the
numbers. -/
theorem filterMap_eq {α : Type} {f g : Line × Nat → Option α} {φ : α → α} {k : Nat}
    (hfg : ∀ (l m : Line) (j : Nat), Moves base a l m → f (l, k + j) = (g (m, j)).map φ)
    (h : List.Forall₂ (Moves base a) ls ms) (start : Nat) :
    (ls.zipIdx (k + start)).filterMap f = ((ms.zipIdx start).filterMap g).map φ := by
  induction h generalizing start with
  | nil => rfl
  | @cons l m ls ms hl _ ih =>
    rw [List.zipIdx_cons, List.zipIdx_cons, List.filterMap_cons, List.filterMap_cons,
      hfg l m start hl, Nat.add_assoc, ih (start + 1)]
    cases g (m, start) <;> rfl

theorem entriesAt_eq {column k : Nat} (hcolumn : base ≤ column)
    (h : List.Forall₂ (Moves base a) ls ms) (start : Nat) :
    Outline.entriesAt column (ls.zipIdx (k + start)) =
      (Outline.entriesAt (a + (column - base)) (ms.zipIdx start)).map fun e => (k + e.1, e.2) := by
  refine filterMap_eq (fun l m j hl => ?_) h start
  simp only [hl.indent_eq_iff hcolumn, hl.item, hl.key]
  split
  · rw [Option.map_map]
    rfl
  · rfl

end Moves

end Line

namespace Outline

open Line

variable {o p q r : Outline} {a b base d i k n : Nat} {ls tail : List Line}

/-- What is found below each line of the outline `q` is found below the line of `r` that stands `k`
lines further down, at the same distance. -/
structure Embeds (q r : Outline) (k : Nat) : Prop where
  blockEnd : ∀ n < q.size, r.blockEnd (k + n) = k + q.blockEnd n
  entries : ∀ n < q.size, r.entries (k + n) = (q.entries n).map fun e => (k + e.1, e.2)
  find? : ∀ n < q.size, ∀ key, r.find? (k + n) key = (q.find? n key).map (k + ·)
  items : ∀ n < q.size, r.items (k + n) = (q.items n).map (k + ·)

/-- The lines of `r` from the line `k` on are `ls` and `tail`. The first of these move to the lines of
`q`, and no block of them goes on into the others. -/
structure MovesTo (base a : Nat) (r : Outline) (k : Nat) (ls tail : List Line) (q : Outline) :
    Prop where
  drop : r.lines.drop k = ls ++ tail
  lines : List.Forall₂ (Moves base a) ls q.lines
  ends : ∀ n < q.size, ∀ d, (r.line (k + n)).indent? = some d →
    reach d (r.line (k + n)).isItem tail = 0

theorem body_of_none (h : (o.line i).indent? = none) : o.body i = [] := by
  rw [body, slice, blockEnd, h, Nat.sub_self, List.take_zero]

/-- A line with a dash has content. -/
theorem hasContent_of_isItem (h : (o.line i).isItem = true) : o.HasContent i := by
  unfold HasContent indent?
  unfold isItem startsItem at h
  split at h
  · rename_i heq
    rw [heq]
    rfl
  · rename_i heq
    rw [heq]
    rfl
  · cases h

namespace MovesTo

variable (h : MovesTo base a r k ls tail q)

include h

theorem drop_add (hn : n ≤ q.size) : r.lines.drop (k + n) = ls.drop n ++ tail := by
  rw [← List.drop_drop, h.drop, List.drop_append_of_le_length]
  rwa [h.lines.length_eq]

theorem moves (hn : n < q.size) : Moves base a (r.line (k + n)) (q.line n) := by
  have hls : n < ls.length := by rwa [h.lines.length_eq]
  have hline : r.lines[k + n]? = some ls[n] := by
    rw [← List.getElem?_drop, h.drop, List.getElem?_append_left hls, List.getElem?_eq_getElem hls]
  rw [line_eq_of_getElem? hline, line_eq_of_getElem? (List.getElem?_eq_getElem hn)]
  exact List.Forall₂.get h.lines hls hn

theorem reach_eq (hn : n < q.size) (hd : (r.line (k + n)).indent? = some d) :
    reach (a + (d - base)) (q.line n).isItem (q.lines.drop (n + 1)) =
      reach d (r.line (k + n)).isItem (ls.drop (n + 1)) := by
  have hmoves := h.moves hn
  rw [hmoves.item]
  exact Moves.reach_eq (List.forall₂_drop _ h.lines) (hmoves.above d hd)

theorem blockEnd_eq (hn : n < q.size) : r.blockEnd (k + n) = k + q.blockEnd n := by
  have hmoves := h.moves hn
  cases hd : (r.line (k + n)).indent? with
  | none =>
    have hq : (q.line n).indent? = none := by rw [hmoves.indent, hd, Option.map_none]
    rw [blockEnd, blockEnd, hd, hq]
    exact Nat.add_assoc k n 1
  | some d =>
    have hq := (hmoves.indent_eq_iff (hmoves.above d hd)).mpr hd
    rw [blockEnd_of_indent? hd, blockEnd_of_indent? hq, h.reach_eq hn hd, Nat.add_assoc k n 1,
      h.drop_add (n := n + 1) hn, reach_append (h.ends n hn d hd)]
    omega

theorem body_moves (hn : n < q.size) :
    List.Forall₂ (Moves base a) (r.body (k + n)) (q.body n) := by
  have hmoves := h.moves hn
  cases hd : (r.line (k + n)).indent? with
  | none =>
    have hq : (q.line n).indent? = none := by rw [hmoves.indent, hd, Option.map_none]
    rw [body_of_none hd, body_of_none hq]
    exact .nil
  | some d =>
    have hq := (hmoves.indent_eq_iff (hmoves.above d hd)).mpr hd
    rw [body_of_indent? hd, body_of_indent? hq, h.reach_eq hn hd, Nat.add_assoc k n 1,
      h.drop_add (n := n + 1) hn, reach_append (h.ends n hn d hd),
      List.take_append_of_le_length (reach_le_length _ _ _)]
    exact List.forall₂_take _ (List.forall₂_drop _ h.lines)

theorem bodyDepth?_eq (hn : n < q.size) :
    q.bodyDepth? n = (r.bodyDepth? (k + n)).map fun d => a + (d - base) :=
  Moves.findSome?_indent? (h.body_moves hn)

/-- The first line with content of a body is not left of the lines that move. -/
theorem base_le_of_bodyDepth? (hn : n < q.size) (hd : r.bodyDepth? (k + n) = some d) :
    base ≤ d := by
  obtain ⟨l, hl, hindent⟩ := List.exists_of_findSome?_eq_some hd
  exact Moves.above_of_mem (h.body_moves hn) l hl d hindent

theorem entriesAt_eq {column : Nat} (hn : n < q.size) (hcolumn : base ≤ column) :
    entriesAt column (r.numberedBody (k + n)) =
      (entriesAt (a + (column - base)) (q.numberedBody n)).map fun e => (k + e.1, e.2) :=
  Moves.entriesAt_eq hcolumn (h.body_moves hn) (n + 1)

theorem entries_eq (hn : n < q.size) :
    r.entries (k + n) = (q.entries n).map fun e => (k + e.1, e.2) := by
  have hmoves := h.moves hn
  rw [entries, entries, hmoves.item]
  split
  · rename_i hitem
    have hd := (hasContent_of_isItem hitem).indent?
    have hle := hmoves.above _ hd
    have hq := (hmoves.indent_eq_iff hle).mpr hd
    rw [h.entriesAt_eq hn (by omega : base ≤ r.depth (k + n) + 2), depth_of_indent? hq,
      hmoves.itemKey, List.map_append, show a + (r.depth (k + n) + 2 - base) =
        a + (r.depth (k + n) - base) + 2 by omega]
    congr 1
    cases (r.line (k + n)).itemKey? <;> rfl
  · rw [h.bodyDepth?_eq hn]
    cases hd : r.bodyDepth? (k + n) with
    | none => rfl
    | some column => exact h.entriesAt_eq hn (h.base_le_of_bodyDepth? hn hd)

theorem items_eq (hn : n < q.size) : r.items (k + n) = (q.items n).map (k + ·) := by
  rw [items, items, h.bodyDepth?_eq hn]
  cases hd : r.bodyDepth? (k + n) with
  | none => rfl
  | some column =>
    have hle := h.base_le_of_bodyDepth? hn hd
    refine Moves.filterMap_eq (fun l m j hl => ?_) (h.body_moves hn) (n + 1)
    simp only [hl.indent_eq_iff hle, hl.item]
    split <;> rfl

theorem find?_eq (hn : n < q.size) (key : String) :
    r.find? (k + n) key = (q.find? n key).map (k + ·) := by
  rw [find?, find?, h.entries_eq hn, List.find?_map, Option.map_map, Option.map_map]
  rfl

theorem embeds : Embeds q r k where
  blockEnd _ hn := h.blockEnd_eq hn
  entries _ hn := h.entries_eq hn
  find? _ hn := h.find?_eq hn
  items _ hn := h.items_eq hn

end MovesTo

/-! Moved blocks -/

theorem slice_append_drop (o : Outline) (k n : Nat) :
    o.slice k (k + n) ++ o.lines.drop (k + n) = o.lines.drop k := by
  rw [slice, Nat.add_sub_cancel_left, ← List.drop_drop, List.take_append_drop]

theorem mem_slice_iff {l : Line} (hend : d ≤ o.size) :
    l ∈ o.slice i d ↔ ∃ j, i ≤ j ∧ j < d ∧ o.line j = l := by
  rw [slice, List.mem_iff_getElem?]
  constructor
  · rintro ⟨n, hn⟩
    rw [List.getElem?_take] at hn
    split at hn
    · rw [List.getElem?_drop] at hn
      exact ⟨i + n, by omega, by omega, line_eq_of_getElem? hn⟩
    · cases hn
  · rintro ⟨j, hij, hj, rfl⟩
    refine ⟨j - i, ?_⟩
    rw [List.getElem?_take, if_pos (by omega), List.getElem?_drop, Nat.add_sub_cancel' hij]
    exact getElem?_line (by omega)

theorem depthOf_block (h : o.HasContent i) : depthOf (o.slice i (o.blockEnd i)) = o.depth i := by
  have hlt : i < o.blockEnd i := lt_blockEnd
  have hcons : o.slice i (o.blockEnd i) = o.line i :: o.body i := by
    rw [slice, drop_eq_cons h.lt_size, show o.blockEnd i - i = o.blockEnd i - (i + 1) + 1 by omega,
      List.take_succ_cons, body, slice]
  rw [hcons, depthOf_cons (trimStart_ne_nil_of_indent? h.indent?), lead_of_indent? h.indent?]

/-- The lines of a block stand no further left than its first line. -/
theorem depth_le_of_mem_block (h : o.HasContent i) {l : Line}
    (hl : l ∈ o.slice i (o.blockEnd i)) (hd : l.indent? = some d) : o.depth i ≤ d := by
  obtain ⟨j, hij, hj, rfl⟩ := (mem_slice_iff (blockEnd_le_size h.indent?)).mp hl
  rcases Nat.eq_or_lt_of_le hij with rfl | hij
  · rw [depth_of_indent? hd]
  · rcases inside_of_lt_blockEnd h.indent? hij hj d hd with hlt | ⟨heq, -, -⟩
    · exact Nat.le_of_lt hlt
    · exact heq.ge

/-- What ends a block ends the blocks in it. -/
theorem reach_eq_zero_of_inside
    (hin : n ≠ 0 → (r.line (k + n)).Inside (r.depth k) (r.line k).isItem)
    (hzero : reach (r.depth k) (r.line k).isItem tail = 0)
    (hd : (r.line (k + n)).indent? = some d) : reach d (r.line (k + n)).isItem tail = 0 := by
  by_cases hn : n = 0
  · subst hn
    rw [Nat.add_zero] at hd ⊢
    rwa [← depth_of_indent? hd]
  · have hmono := reach_mono tail fun m hm => (hin hn).trans hd hm
    omega

theorem add_size_of_reindent (hi : o.HasContent i)
    (hq : q.lines = reindent a (o.slice i (o.blockEnd i))) : i + q.size = o.blockEnd i := by
  have hlt : i < o.blockEnd i := lt_blockEnd
  have hsize := blockEnd_le_size hi.indent?
  rw [size] at hsize
  rw [size, hq, reindent_eq_map, List.length_map, slice, List.length_take, List.length_drop]
  omega

/-- A block moves to what it is at another column. -/
theorem movesTo_reindent (hi : o.HasContent i)
    (hq : q.lines = reindent a (o.slice i (o.blockEnd i))) :
    MovesTo (o.depth i) a o i (o.slice i (o.blockEnd i)) (o.lines.drop (o.blockEnd i)) q where
  drop := by
    have hlt : i < o.blockEnd i := lt_blockEnd
    have hsplit := slice_append_drop o i (o.blockEnd i - i)
    rw [Nat.add_sub_cancel' (Nat.le_of_lt hlt)] at hsplit
    exact hsplit.symm
  lines := by
    rw [hq, reindent_eq_map, depthOf_block hi, List.forall₂_map_right_iff, List.forall₂_same]
    exact fun l hl => moves_moved fun d hd => depth_le_of_mem_block hi hl hd
  ends n hn d hd := by
    have hsize := add_size_of_reindent hi hq
    refine reach_eq_zero_of_inside (fun hne => ?_) (endsBy_blockEnd hi).reach_eq_zero hd
    exact inside_of_lt_blockEnd hi.indent? (by omega) (by omega)

theorem line_of_slice (hp : p.slice k (k + q.size) = q.lines) (hn : n < q.size) :
    p.line (k + n) = q.line n := by
  have hline := getElem?_line hn
  rw [← hp, slice, List.getElem?_take, if_pos (by omega), List.getElem?_drop] at hline
  exact line_eq_of_getElem? hline

/-- A block that was moved stays as it is where it stands among other lines. -/
theorem movesTo_slice (hi : o.HasContent i)
    (hq : q.lines = reindent a (o.slice i (o.blockEnd i)))
    (hp : p.slice k (k + q.size) = q.lines) (hends : p.EndsBy k (k + q.size)) :
    MovesTo a a p k q.lines (p.lines.drop (k + q.size)) q where
  drop := by rw [← hp, slice_append_drop]
  lines := by
    refine List.forall₂_same.mpr fun l hl => moves_self fun d hd => ?_
    obtain ⟨n, hn, rfl⟩ := List.mem_iff_getElem.mp hl
    have hmoves := (movesTo_reindent hi hq).moves hn
    rw [← line_eq_of_getElem? (List.getElem?_eq_getElem hn), hmoves.indent] at hd
    obtain ⟨m, -, rfl⟩ := Option.map_eq_some_iff.mp hd
    exact Nat.le_add_right a _
  ends n hn d hd := by
    have hsize := add_size_of_reindent hi hq
    have hfirst := (movesTo_reindent hi hq).moves (show 0 < q.size by omega)
    have hmoves := (movesTo_reindent hi hq).moves hn
    have hdepth : p.depth k = a := by
      have hindent := (hfirst.indent_eq_iff (Nat.le_refl _)).mpr hi.indent?
      rw [← line_of_slice hp (by omega), Nat.sub_self] at hindent
      exact depth_of_indent? hindent
    have hitem : (p.line k).isItem = (o.line i).isItem := by
      have hline := line_of_slice hp (show 0 < q.size by omega)
      rw [Nat.add_zero] at hline
      rw [hline, hfirst.item, Nat.add_zero]
    refine reach_eq_zero_of_inside (fun hne => ?_) hends.reach_eq_zero hd
    have hin := inside_of_lt_blockEnd hi.indent? (show i < i + n by omega) (by omega)
    have hmoved := (hmoves.inside_iff (Nat.le_refl _)).mpr hin
    rw [Nat.sub_self] at hmoved
    rw [hdepth, hitem, line_of_slice hp hn]
    exact hmoved

/-- Moving a block twice is moving it once. Each line of a moved block stands as much to the side as
the first one, with the same key, and what is found below it is found at the same distance: in the
moved block alone, and in every outline in which it ends where its lines do. -/
theorem reindent_block (o : Outline) (i a b : Nat) (hi : o.HasContent i) :
    let ls := o.slice i (o.blockEnd i)
    reindent b (reindent a ls) = reindent b ls ∧
    ∀ q : Outline, q.lines = reindent a ls → i + q.size = o.blockEnd i ∧
      (∀ n < q.size, Moves (o.depth i) a (o.line (i + n)) (q.line n)) ∧
      Embeds q o i ∧
      ∀ (p : Outline) (k : Nat), p.slice k (k + q.size) = q.lines →
        (∀ n < q.size, p.line (k + n) = q.line n) ∧
        (p.EndsBy k (k + q.size) → Embeds q p k) := by
  refine ⟨reindent_reindent a b _, fun q hq => ?_⟩
  have hmoves := movesTo_reindent hi hq
  refine ⟨add_size_of_reindent hi hq, fun n hn => hmoves.moves hn, hmoves.embeds, ?_⟩
  intro p k hp
  refine ⟨fun n hn => line_of_slice hp hn, fun hends => ?_⟩
  exact (movesTo_slice hi hq hp hends).embeds

/-- A node behind a wide blank, with a note to the left of it, a blank line that is not empty and a
list that stands no deeper than its key. -/
def indented : Outline where
  lines := ["nodes:", "\u3000p:", " # note", "\u3000- x: 1", "   ", "\u3000  y: 2",
    "last:"].map String.toList
  ended := true

/-- Its block at column 0. -/
def flush : Outline where
  lines := ["p:", "# note", "- x: 1", "", "  y: 2"].map String.toList
  ended := true

/-- The same lines between others. -/
def hosting : Outline where
  lines := ["a:", "p:", "# note", "- x: 1", "", "  y: 2", "", "b:"].map String.toList
  ended := false

theorem indented_moves : indented.HasContent 1 ∧
    flush.lines = reindent 0 (indented.slice 1 (indented.blockEnd 1)) ∧
    hosting.slice 1 6 = flush.lines ∧ hosting.EndsBy 1 6 ∧
    Moves 3 0 (indented.line 5) (flush.line 4) ∧
    indented.find? 3 "y" = some 5 ∧ hosting.find? 3 "y" = some 5 := by
  have hi : indented.HasContent 1 := by decide +kernel
  have hq : flush.lines = reindent 0 (indented.slice 1 (indented.blockEnd 1)) := by
    decide +kernel
  have hp : hosting.slice 1 (1 + flush.size) = flush.lines := by decide +kernel
  have hends : hosting.EndsBy 1 6 := by
    intro j hj hcontent _
    have hlt : j < 8 := hcontent.lt_size
    obtain rfl | rfl : j = 6 ∨ j = 7 := by omega
    · exact absurd hcontent (by decide +kernel)
    · decide +kernel
  obtain ⟨-, hall⟩ := reindent_block indented 1 0 0 hi
  obtain ⟨-, hmoves, hsource, hplaced⟩ := hall flush hq
  have hy : flush.find? 2 "y" = some 4 := by decide +kernel
  refine ⟨hi, hq, hp, hends, hmoves 4 (by decide), ?_, ?_⟩
  · rw [hsource.find? 2 (by decide) "y", hy]
    rfl
  · rw [((hplaced hosting 1 hp).2 hends).find? 2 (by decide) "y", hy]
    rfl

end Outline

end BlockFlow
