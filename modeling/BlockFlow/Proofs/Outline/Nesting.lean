import BlockFlow.Proofs.Outline.Blocks
import Mathlib.Data.Nat.Find
import Mathlib.Order.Interval.Set.Basic
import Mathlib.Data.Set.Lattice
import Mathlib.Order.CompletePartialOrder

/-!
How blocks lie to each other. Main statement: where the block of a line ends can be told from the
depths of the lines alone, and of two blocks that have a line in common one holds the other.
-/

namespace BlockFlow.Outline

variable {o : Outline} {base d i j n s t : Nat} {item : Bool} {l : Line}
  {ls above rest : List Line}

/-- The line is neither blank nor a comment. -/
def HasContent (o : Outline) (i : Nat) : Prop := (o.line i).indent?.isSome

instance : Decidable (o.HasContent i) := inferInstanceAs (Decidable (_ = true))

/-- The line `j` stands deeper than the line `i`, or is an item at the depth of that line, which is
none itself. -/
def Under (o : Outline) (i j : Nat) : Prop :=
  o.depth i < o.depth j ∨
    o.depth j = o.depth i ∧ (o.line i).isItem = false ∧ (o.line j).isItem = true

instance : Decidable (o.Under i j) := inferInstanceAs (Decidable (_ ∨ _))

/-- The first line with content from the line `stop` on, if there is one, stands apart from the line
`i`. -/
def EndsBy (o : Outline) (i stop : Nat) : Prop :=
  ∀ j, stop ≤ j → o.HasContent j → (∀ k, stop ≤ k → k < j → ¬ o.HasContent k) → ¬ o.Under i j

/-- The block of the line `i` ends right above the line `stop`. -/
structure IsBlock (o : Outline) (i stop : Nat) : Prop where
  start : i < stop
  size : stop ≤ o.size
  last : o.HasContent (stop - 1)
  inside : ∀ j, i < j → j < stop → o.HasContent j → o.Under i j
  next : o.EndsBy i stop

/-- The lines of the block of a line. -/
def block (o : Outline) (i : Nat) : Set Nat := Set.Ico i (o.blockEnd i)

theorem HasContent.indent? (h : o.HasContent i) : (o.line i).indent? = some (o.depth i) := by
  obtain ⟨d, hd⟩ := Option.isSome_iff_exists.mp h
  rw [hd, depth_of_indent? hd]

theorem indent?_of_not_hasContent (h : ¬ o.HasContent i) : (o.line i).indent? = none :=
  Option.not_isSome_iff_eq_none.mp h

theorem HasContent.lt_size (h : o.HasContent i) : i < o.size := lt_size_of_indent? h.indent?

theorem inside_iff_under (hj : o.HasContent j) :
    (o.line j).Inside (o.depth i) (o.line i).isItem ↔ o.Under i j := by
  simp [Line.Inside, hj.indent?, Under]

/-! The end of a block -/

/-- The last line that a block reaches has content. -/
theorem exists_of_reach_eq_succ (h : reach base item ls = n + 1) :
    ∃ l, ls[n]? = some l ∧ l.indent?.isSome := by
  induction ls generalizing n with
  | nil => cases h
  | cons l ls ih =>
    obtain hl | ⟨d, hd, hl⟩ | ⟨d, hd, hl⟩ := reach_cases base item l
    · rw [reach_none hl] at h
      split at h
      · cases h
      · obtain ⟨m, hm⟩ := Nat.exists_eq_succ_of_ne_zero ‹reach base item ls ≠ 0›
        obtain rfl : m + 1 = n := by omega
        exact ih hm
    · rw [reach_inside hd hl] at h
      cases n with
      | zero => exact ⟨l, rfl, by rw [hd]; rfl⟩
      | succ m => exact ih (by omega)
    · rw [reach_stop hd hl] at h
      cases h

/-- Where a block does not reach, the first line with content may not stand in it. -/
theorem not_inside_of_reach_eq_zero (h : reach base item (above ++ l :: rest) = 0)
    (habove : ∀ x ∈ above, x.indent? = none) (hl : l.indent? = some d) :
    ¬ l.Inside base item := by
  intro hin
  have hreach := reach_append_cons rest (fun x hx => Line.inside_of_none (habove x hx)) hl hin
  omega

theorem hasContent_last (h : o.HasContent i) : o.HasContent (o.blockEnd i - 1) := by
  rw [blockEnd_of_indent? h.indent?]
  cases hreach : reach (o.depth i) (o.line i).isItem (o.lines.drop (i + 1)) with
  | zero => exact h
  | succ n =>
    obtain ⟨l, hl, hcontent⟩ := exists_of_reach_eq_succ hreach
    rw [List.getElem?_drop] at hl
    have hline : o.line (i + 1 + n) = l := line_eq_of_getElem? hl
    rw [show i + 1 + (n + 1) - 1 = i + 1 + n by omega, HasContent, hline]
    exact hcontent

theorem endsBy_blockEnd (hi : o.HasContent i) : o.EndsBy i (o.blockEnd i) := by
  intro j hend hj hfirst
  have hlt : i < o.blockEnd i := lt_blockEnd
  have hzero := reach_drop (o.depth i) (o.line i).isItem (o.lines.drop (i + 1))
  rw [List.drop_drop, ← blockEnd_of_indent? hi.indent?] at hzero
  have hsplit := drop_eq_append (o := o) (i := o.blockEnd i - 1) (j := j) (by omega) hj.lt_size
  rw [show o.blockEnd i - 1 + 1 = o.blockEnd i by omega] at hsplit
  rw [hsplit] at hzero
  rw [← inside_iff_under hj]
  refine not_inside_of_reach_eq_zero hzero ?_ hj.indent?
  intro x hx
  obtain ⟨k, hk, rfl⟩ := List.mem_take_iff_getElem.mp hx
  have hnone := indent?_of_not_hasContent (hfirst (o.blockEnd i + k) (by omega) (by omega))
  rw [List.getElem_drop]
  rwa [line_eq_of_getElem? (List.getElem?_eq_getElem _)] at hnone

theorem isBlock_blockEnd (h : o.HasContent i) : o.IsBlock i (o.blockEnd i) where
  start := lt_blockEnd
  size := blockEnd_le_size h.indent?
  last := hasContent_last h
  inside _ hij hj hcontent :=
    (inside_iff_under hcontent).mp (inside_of_lt_blockEnd h.indent? hij hj)
  next := endsBy_blockEnd h

/-- Among the lines with content from some line on, one comes first. -/
theorem exists_first_hasContent (h : s ≤ j) (hj : o.HasContent j) :
    ∃ k, s ≤ k ∧ k ≤ j ∧ o.HasContent k ∧ ∀ m, s ≤ m → m < k → ¬ o.HasContent m := by
  have hex : ∃ k, s ≤ k ∧ o.HasContent k := ⟨j, h, hj⟩
  obtain ⟨hle, hcontent⟩ := Nat.find_spec hex
  refine ⟨Nat.find hex, hle, Nat.find_min' hex ⟨h, hj⟩, hcontent, ?_⟩
  intro m hm hlt hin
  exact Nat.find_min hex hlt ⟨hm, hin⟩

/-- The block of a line above reaches nothing there. -/
theorem EndsBy.reach_eq_zero (h : o.EndsBy i s) :
    reach (o.depth i) (o.line i).isItem (o.lines.drop s) = 0 := by
  cases hreach : reach (o.depth i) (o.line i).isItem (o.lines.drop s) with
  | zero => rfl
  | succ n =>
    exfalso
    obtain ⟨l, hl, hcontent⟩ := exists_of_reach_eq_succ hreach
    rw [List.getElem?_drop] at hl
    have hlast : o.HasContent (s + n) := by
      rw [HasContent, line_eq_of_getElem? hl]
      exact hcontent
    obtain ⟨k, hk, hkn, hk', hfirst⟩ :=
      exists_first_hasContent (Nat.le_add_right s n) hlast
    have hmem : o.line k ∈ (o.lines.drop s).take (n + 1) := by
      refine List.mem_iff_getElem?.mpr ⟨k - s, ?_⟩
      rw [List.getElem?_take, if_pos (by omega), List.getElem?_drop, Nat.add_sub_cancel' hk]
      exact getElem?_line hk'.lt_size
    have hin : (o.line k).Inside (o.depth i) (o.line i).isItem :=
      inside_of_mem_take (o.lines.drop s) (o.line k) (by rwa [hreach])
    exact h k hk hk' hfirst ((inside_iff_under hk').mp hin)

namespace IsBlock

/-- A block does not go on behind another end of it: the first line with content there would have to
be in it and could not be. -/
theorem le (hs : o.IsBlock i s) (ht : o.IsBlock i t) : s ≤ t := by
  by_contra hlt
  obtain ⟨k, hk, hlast, hcontent, hfirst⟩ := exists_first_hasContent (s := t) (by omega) hs.last
  have hunder : o.Under i k := by
    have := ht.start
    exact hs.inside k (by omega) (by omega) hcontent
  exact ht.next k hk hcontent hfirst hunder

/-- A block has one end. -/
theorem unique (hs : o.IsBlock i s) (ht : o.IsBlock i t) : s = t :=
  Nat.le_antisymm (hs.le ht) (ht.le hs)

end IsBlock

/-! Two blocks -/

theorem block_subset (hij : i ≤ j) (hj : j < o.blockEnd i) (hcontent : o.HasContent j) :
    o.block j ⊆ o.block i := by
  rcases Nat.eq_or_lt_of_le hij with rfl | hij
  · exact subset_rfl
  · exact Set.Ico_subset_Ico (by omega) (blockEnd_le_blockEnd hij hj hcontent.indent?)

/-- Of two blocks the lower one starts in the other or behind it. -/
theorem block_subset_or_disjoint (hij : i ≤ j) (hcontent : o.HasContent j) :
    o.block j ⊆ o.block i ∨ Disjoint (o.block i) (o.block j) := by
  rcases Nat.lt_or_ge j (o.blockEnd i) with hj | hj
  · exact .inl (block_subset hij hj hcontent)
  · refine .inr (Set.disjoint_left.mpr ?_)
    intro k hki hkj
    have hlow : k < o.blockEnd i := hki.2
    have hhigh : j ≤ k := hkj.1
    omega

/-- The block of a line with content ends in one place, which the depths of the lines tell. A block
that starts in another one ends there too, so that two blocks are nested or have no line in
common. -/
theorem blocks_laminar (o : Outline) :
    (∀ i, o.HasContent i → ∀ stop, o.IsBlock i stop ↔ stop = o.blockEnd i) ∧
    (∀ i j, o.HasContent i → o.HasContent j → i < j → j < o.blockEnd i →
      o.blockEnd j ≤ o.blockEnd i) ∧
    ∀ i j, o.HasContent i → o.HasContent j →
      o.block i ⊆ o.block j ∨ o.block j ⊆ o.block i ∨ Disjoint (o.block i) (o.block j) := by
  refine ⟨?_, ?_, ?_⟩
  · intro i hi stop
    constructor
    · intro h
      exact h.unique (isBlock_blockEnd hi)
    · rintro rfl
      exact isBlock_blockEnd hi
  · intro i j _ hj hij hend
    exact blockEnd_le_blockEnd hij hend hj.indent?
  · intro i j hi hj
    rcases Nat.le_total i j with hij | hij
    · exact .inr (block_subset_or_disjoint hij hj)
    · rcases block_subset_or_disjoint hij hi with h | h
      · exact .inl h
      · exact .inr (.inr h.symm)

/-- A list that stands no deeper than its key, with entries of its item at odd depths. -/
def ragged : Outline where
  lines := ["key:", "# note", "- a: 1", "    b: 2", "   c: 3", "", "  # note", "last: 4"].map
    String.toList
  ended := true

theorem ragged_laminar : ragged.HasContent 0 ∧ ragged.HasContent 2 ∧ ragged.HasContent 3 ∧
    ragged.IsBlock 0 5 ∧ ragged.IsBlock 2 5 ∧ ragged.IsBlock 3 4 ∧
    ragged.blockEnd 2 ≤ ragged.blockEnd 0 ∧
    (ragged.block 3 ⊆ ragged.block 7 ∨ ragged.block 7 ⊆ ragged.block 3 ∨
      Disjoint (ragged.block 3) (ragged.block 7)) := by
  have h0 : ragged.HasContent 0 := by decide +kernel
  have h2 : ragged.HasContent 2 := by decide +kernel
  have h3 : ragged.HasContent 3 := by decide +kernel
  have h7 : ragged.HasContent 7 := by decide +kernel
  obtain ⟨hend, hinside, hapart⟩ := blocks_laminar ragged
  refine ⟨h0, h2, h3, (hend 0 h0 5).mpr ?_, (hend 2 h2 5).mpr ?_, (hend 3 h3 4).mpr ?_,
    hinside 0 2 h0 h2 (by decide) ?_, hapart 3 7 h3 h7⟩ <;> decide +kernel

end BlockFlow.Outline
