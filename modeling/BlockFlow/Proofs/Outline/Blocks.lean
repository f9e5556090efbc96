import BlockFlow.Proofs.Outline.Line

/-!
Where blocks end. Main statements: the block of a line inside a block ends no later than that one,
and what a look-up finds below a line stands inside its block.
-/

namespace BlockFlow

namespace Line

/-- A line with content may stand in the block of a line at depth `base`, which is an item or not.
-/
def Inside (base : Nat) (item : Bool) (l : Line) : Prop :=
  ∀ d, l.indent? = some d → base < d ∨ d = base ∧ item = false ∧ l.isItem = true

variable {base d : Nat} {item : Bool} {l : Line}

theorem inside_of_none (h : l.indent? = none) : l.Inside base item := by
  intro d hd
  rw [h] at hd
  cases hd

theorem DeeperThan.inside (h : l.DeeperThan base) : l.Inside base item :=
  fun d hd => .inl (h d hd)

theorem inside_item : l.Inside base true ↔ l.DeeperThan base := by
  simp [Inside, DeeperThan]

theorem inside_iff (h : l.indent? = some d) :
    l.Inside base item ↔ (base < d || (d = base && !item && l.isItem)) = true := by
  simp [Inside, h, and_assoc]

/-- What may stand in the block of a line may stand wherever that line may stand. -/
theorem Inside.trans {m : Line} (hl : l.Inside base item) (hd : l.indent? = some d)
    (hm : m.Inside d l.isItem) : m.Inside base item := by
  intro k hk
  rcases hm k hk with hlt | ⟨rfl, hitem, hmitem⟩
  · rcases hl d hd with h | ⟨rfl, -, -⟩
    · exact .inl (Nat.lt_trans h hlt)
    · exact .inl hlt
  · rcases hl _ hd with h | ⟨-, -, h⟩
    · exact .inl h
    · rw [hitem] at h
      cases h

end Line

namespace Outline

variable {o : Outline} {base base' d i j : Nat} {item item' : Bool} {l : Line}
  {ls above rest tail : List Line}

/-! How far blocks reach -/

theorem reach_none (h : l.indent? = none) : reach base item (l :: rest) =
    if reach base item rest = 0 then 0 else reach base item rest + 1 := by
  rw [reach, h]
  cases reach base item rest <;> rfl

theorem reach_inside (h : l.indent? = some d) (hl : l.Inside base item) :
    reach base item (l :: rest) = reach base item rest + 1 := by
  rw [reach, h]
  simp only
  rw [if_pos ((Line.inside_iff h).mp hl)]

theorem reach_stop (h : l.indent? = some d) (hl : ¬ l.Inside base item) :
    reach base item (l :: rest) = 0 := by
  rw [reach, h]
  simp only
  rw [if_neg (fun hin => hl ((Line.inside_iff h).mpr hin))]

/-- The three ways a line counts for the reach of a block. -/
theorem reach_cases (base : Nat) (item : Bool) (l : Line) :
    l.indent? = none ∨ (∃ d, l.indent? = some d ∧ l.Inside base item) ∨
      ∃ d, l.indent? = some d ∧ ¬ l.Inside base item := by
  cases h : l.indent? with
  | none => exact .inl rfl
  | some d =>
    by_cases hl : l.Inside base item
    · exact .inr (.inl ⟨d, rfl, hl⟩)
    · exact .inr (.inr ⟨d, rfl, hl⟩)

theorem reach_le_length (base : Nat) (item : Bool) (ls : List Line) :
    reach base item ls ≤ ls.length := by
  induction ls with
  | nil => exact Nat.le_refl 0
  | cons l ls ih =>
    rw [List.length_cons]
    obtain h | ⟨d, h, hl⟩ | ⟨d, h, hl⟩ := reach_cases base item l
    · rw [reach_none h]
      split <;> omega
    · rw [reach_inside h hl]
      omega
    · rw [reach_stop h hl]
      omega

theorem inside_of_mem_take (ls : List Line) :
    ∀ l ∈ ls.take (reach base item ls), l.Inside base item := by
  induction ls with
  | nil => simp
  | cons l ls ih =>
    obtain h | ⟨d, h, hl⟩ | ⟨d, h, hl⟩ := reach_cases base item l
    · rw [reach_none h]
      split
      · simp
      · rw [List.take_succ_cons, List.forall_mem_cons]
        exact ⟨Line.inside_of_none h, ih⟩
    · rw [reach_inside h hl, List.take_succ_cons, List.forall_mem_cons]
      exact ⟨hl, ih⟩
    · rw [reach_stop h hl]
      simp

/-- Nothing of the block is left behind its reach. -/
theorem reach_drop (base : Nat) (item : Bool) (ls : List Line) :
    reach base item (ls.drop (reach base item ls)) = 0 := by
  induction ls with
  | nil => rfl
  | cons l ls ih =>
    obtain h | ⟨d, h, hl⟩ | ⟨d, h, hl⟩ := reach_cases base item l
    · have heq : reach base item (l :: ls) =
          if reach base item ls = 0 then 0 else reach base item ls + 1 := reach_none h
      split at heq
      · rw [heq, List.drop_zero, heq]
      · rw [heq, List.drop_succ_cons, ih]
    · rw [reach_inside h hl, List.drop_succ_cons, ih]
    · have heq : reach base item (l :: ls) = 0 := reach_stop h hl
      rw [heq, List.drop_zero, heq]

theorem reach_append (h : reach base item tail = 0) :
    reach base item (ls ++ tail) = reach base item ls := by
  induction ls with
  | nil => exact h
  | cons l ls ih =>
    rw [List.cons_append]
    obtain h | ⟨d, h, hl⟩ | ⟨d, h, hl⟩ := reach_cases base item l
    · rw [reach_none h, reach_none h, ih]
    · rw [reach_inside h hl, reach_inside h hl, ih]
    · rw [reach_stop h hl, reach_stop h hl]

/-- A block with a line in it takes the lines in front of that one, and goes on behind it. -/
theorem reach_append_cons (rest : List Line) (habove : ∀ x ∈ above, x.Inside base item)
    (h : l.indent? = some d) (hl : l.Inside base item) :
    reach base item (above ++ l :: rest) = above.length + 1 + reach base item rest := by
  induction above with
  | nil =>
    rw [List.nil_append, reach_inside h hl, List.length_nil]
    omega
  | cons x above ih =>
    rw [List.forall_mem_cons] at habove
    have hx := ih habove.2
    rw [List.cons_append, List.length_cons]
    cases hindent : x.indent? with
    | none =>
      rw [reach_none hindent, if_neg (by omega), hx]
      omega
    | some d =>
      rw [reach_inside hindent habove.1, hx]
      omega

/-- A block does not look past a line that may not stand in it. -/
theorem reach_append_stop (h : l.indent? = some d) (hl : ¬ l.Inside base item) :
    reach base item (above ++ l :: rest) = reach base item above := by
  rw [reach_append (reach_stop h hl)]

theorem reach_mono (ls : List Line) (h : ∀ l : Line, l.Inside base item → l.Inside base' item') :
    reach base item ls ≤ reach base' item' ls := by
  induction ls with
  | nil => exact Nat.le_refl 0
  | cons l ls ih =>
    obtain hl | ⟨d, hd, hl⟩ | ⟨d, hd, hl⟩ := reach_cases base item l
    · rw [reach_none hl, reach_none hl]
      split <;> split <;> omega
    · rw [reach_inside hd hl, reach_inside hd (h l hl)]
      omega
    · rw [reach_stop hd hl]
      exact Nat.zero_le _

/-- Lines that may all stand in a block are in it up to the last one with content. -/
theorem indent?_of_mem_drop (hls : ∀ l ∈ ls, l.Inside base item) :
    ∀ l ∈ ls.drop (reach base item ls), l.indent? = none := by
  intro l hl
  cases h : l.indent? with
  | none => rfl
  | some d =>
    obtain ⟨front, back, hback⟩ := List.append_of_mem hl
    have hmem : ∀ x ∈ front ++ l :: back, x.Inside base item := fun x hx =>
      hls x (List.mem_of_mem_drop (hback ▸ hx))
    have hreach := reach_append_cons back (fun x hx => hmem x (List.mem_append_left _ hx)) h
      (hmem l (by simp))
    rw [← hback, reach_drop] at hreach
    omega

theorem reach_of_dropped (hls : ∀ l ∈ ls, l.indent? = none) (h : reach base item (ls ++ tail) = 0) :
    reach base item tail = 0 := by
  induction ls with
  | nil => exact h
  | cons l ls ih =>
    rw [List.forall_mem_cons] at hls
    rw [List.cons_append, reach_none hls.1] at h
    split at h
    · rename_i hzero
      exact ih hls.2 hzero
    · omega

/-! Lines and blocks -/

theorem line_eq_of_getElem? (h : o.lines[i]? = some l) : o.line i = l := by
  rw [line, List.getD_eq_getElem?_getD, h]
  rfl

theorem getElem?_line (h : i < o.size) : o.lines[i]? = some (o.line i) := by
  rw [line, List.getD_eq_getElem?_getD, List.getElem?_eq_getElem h]
  rfl

theorem lt_size_of_indent? (h : (o.line i).indent? = some d) : i < o.size := by
  by_contra hge
  rw [line, List.getD_eq_getElem?_getD, List.getElem?_eq_none (by simpa [size] using hge)] at h
  cases h

theorem depth_of_indent? (h : (o.line i).indent? = some d) : o.depth i = d := by
  rw [depth, h, Option.getD_some]

theorem drop_eq_cons (h : i < o.size) : o.lines.drop i = o.line i :: o.lines.drop (i + 1) := by
  rw [List.drop_eq_getElem_cons h]
  congr 1
  exact (line_eq_of_getElem? (List.getElem?_eq_getElem h)).symm

theorem take_succ (h : i < o.size) : o.lines.take (i + 1) = o.lines.take i ++ [o.line i] := by
  rw [List.take_add_one, getElem?_line h]
  rfl

theorem drop_eq_append (hij : i < j) (hj : j < o.size) : o.lines.drop (i + 1) =
    (o.lines.drop (i + 1)).take (j - (i + 1)) ++ o.line j :: o.lines.drop (j + 1) := by
  have htake := List.take_append_drop (j - (i + 1)) (o.lines.drop (i + 1))
  rw [List.drop_drop, show i + 1 + (j - (i + 1)) = j by omega, drop_eq_cons hj] at htake
  exact htake.symm

theorem blockEnd_of_indent? (h : (o.line i).indent? = some d) :
    o.blockEnd i = i + 1 + reach d (o.line i).isItem (o.lines.drop (i + 1)) := by
  rw [blockEnd, h]

theorem lt_blockEnd : i < o.blockEnd i := by
  unfold blockEnd
  split <;> omega

theorem blockEnd_le_size (h : (o.line i).indent? = some d) : o.blockEnd i ≤ o.size := by
  have hi := lt_size_of_indent? h
  have hreach := reach_le_length d (o.line i).isItem (o.lines.drop (i + 1))
  rw [List.length_drop] at hreach
  rw [blockEnd_of_indent? h]
  rw [size] at hi ⊢
  omega

theorem body_of_indent? (h : (o.line i).indent? = some d) : o.body i =
    (o.lines.drop (i + 1)).take (reach d (o.line i).isItem (o.lines.drop (i + 1))) := by
  rw [body, slice, blockEnd_of_indent? h, Nat.add_sub_cancel_left]

theorem mem_numberedBody (h : (l, j) ∈ o.numberedBody i) :
    i < j ∧ j < o.blockEnd i ∧ o.line j = l := by
  rw [numberedBody, List.mem_zipIdx_iff_le_and_getElem?_sub] at h
  obtain ⟨hle, hget⟩ := h
  rw [body, slice, List.getElem?_take] at hget
  split at hget
  · rw [List.getElem?_drop, show i + 1 + (j - (i + 1)) = j by omega] at hget
    exact ⟨by omega, by omega, line_eq_of_getElem? hget⟩
  · cases hget

theorem mem_numberedBody_of_lt (hij : i < j) (hj : j < o.blockEnd i)
    (hd : (o.line j).indent? = some d) :
    (o.line j, j) ∈ o.numberedBody i := by
  rw [numberedBody, List.mem_zipIdx_iff_le_and_getElem?_sub]
  refine ⟨hij, ?_⟩
  rw [body, slice, List.getElem?_take, if_pos (by omega), List.getElem?_drop,
    show i + 1 + (j - (i + 1)) = j by omega]
  exact getElem?_line (lt_size_of_indent? hd)

/-- The lines of a block may stand in it. -/
theorem inside_of_lt_blockEnd (hd : (o.line i).indent? = some d) (hij : i < j)
    (hj : j < o.blockEnd i) : (o.line j).Inside d (o.line i).isItem := by
  cases hindent : (o.line j).indent? with
  | none => exact Line.inside_of_none hindent
  | some k =>
    have hmem := List.mem_map_of_mem (f := Prod.fst) (mem_numberedBody_of_lt hij hj hindent)
    rw [numberedBody, List.zipIdx_map_fst, body_of_indent? hd] at hmem
    exact inside_of_mem_take _ _ hmem

theorem indent?_of_lt_blockEnd (hij : i < j) (hj : j < o.blockEnd i) :
    ∃ d, (o.line i).indent? = some d := by
  unfold blockEnd at hj
  split at hj
  · omega
  · rename_i d hd
    exact ⟨d, hd⟩

/-- The block of a line in a block ends no later than that one. -/
theorem blockEnd_le_blockEnd (hij : i < j) (hj : j < o.blockEnd i)
    (hd : (o.line j).indent? = some d) : o.blockEnd j ≤ o.blockEnd i := by
  obtain ⟨base, hbase⟩ := indent?_of_lt_blockEnd hij hj
  have hin := inside_of_lt_blockEnd hbase hij hj
  have hsize := lt_size_of_indent? hd
  have hfront : ∀ x ∈ (o.lines.drop (i + 1)).take (j - (i + 1)),
      x.Inside base (o.line i).isItem := by
    intro x hx
    refine inside_of_mem_take (o.lines.drop (i + 1)) x ?_
    rw [blockEnd_of_indent? hbase] at hj
    exact List.take_subset_take_left _ (by omega) hx
  have hlength : ((o.lines.drop (i + 1)).take (j - (i + 1))).length = j - (i + 1) := by
    rw [List.length_take, List.length_drop]
    rw [size] at hsize
    omega
  have hmono := reach_mono (o.lines.drop (j + 1)) fun m hm => hin.trans hd hm
  rw [blockEnd_of_indent? hbase, blockEnd_of_indent? hd, drop_eq_append hij hsize,
    reach_append_cons _ hfront hd hin, hlength]
  omega

/-- A line with content is in the block of a line above it when it and all lines between may stand
there. -/
theorem lt_blockEnd_of_inside (hd : (o.line i).indent? = some d) (hij : i < j)
    (hin : ∀ k, i < k → k ≤ j → (o.line k).Inside d (o.line i).isItem)
    (hj : ∃ k, (o.line j).indent? = some k) : j < o.blockEnd i := by
  obtain ⟨k, hk⟩ := hj
  have hsize := lt_size_of_indent? hk
  have hfront : ∀ x ∈ (o.lines.drop (i + 1)).take (j - (i + 1)), x.Inside d (o.line i).isItem := by
    intro x hx
    obtain ⟨m, hm, hget⟩ := List.mem_take_iff_getElem.mp hx
    rw [List.getElem_drop] at hget
    have hline := hin (i + 1 + m) (by omega) (by omega)
    rwa [line_eq_of_getElem? (List.getElem?_eq_some_iff.mpr ⟨_, hget⟩)] at hline
  have hreach := reach_append_cons (o.lines.drop (j + 1)) hfront hk
    (hin j hij (Nat.le_refl j))
  rw [← drop_eq_append hij hsize, List.length_take, List.length_drop] at hreach
  rw [blockEnd_of_indent? hd]
  rw [size] at hsize
  omega

/-! Entries and items -/

/-- The line `j` in the block of the line `i` holds an entry right below that line. -/
structure IsEntry (o : Outline) (i : Nat) (key : String) (j : Nat) : Prop where
  above : i < j
  below : j < o.blockEnd i
  deeper : ∃ d, (o.line j).indent? = some d ∧ o.depth i < d ∧
    ((o.line i).isItem → d = o.depth i + 2)
  notItem : (o.line j).isItem = false
  key : (o.line j).key? = some key.toList

theorem mem_entriesAt {column : Nat} {ls : List (Line × Nat)} {key : Line}
    (h : (j, key) ∈ entriesAt column ls) : ∃ l, (l, j) ∈ ls ∧ l.indent? = some column ∧
      l.isItem = false ∧ l.key? = some key := by
  obtain ⟨⟨l, k⟩, hmem, heq⟩ := List.mem_filterMap.mp h
  obtain ⟨hif, hmap⟩ := Option.ite_none_right_eq_some.mp heq
  obtain ⟨key', hkey, hpair⟩ := Option.map_eq_some_iff.mp hmap
  cases hpair
  simp only [Bool.and_eq_true, decide_eq_true_eq, Bool.not_eq_true'] at hif
  exact ⟨l, hmem, hif.1, hif.2, hkey⟩

/-- An entry stands on the line of its item, or in its block. -/
theorem find?_cases {key : String} (h : o.find? i key = some j) :
    (j = i ∧ (o.line i).isItem = true ∧ (o.line i).itemKey? = some key.toList) ∨
      o.IsEntry i key j := by
  obtain ⟨⟨j', k⟩, hfind, rfl⟩ := Option.map_eq_some_iff.mp h
  have hk : k = key.toList := by simpa using List.find?_some hfind
  subst hk
  have hmem := List.mem_of_find?_eq_some hfind
  simp only [entries] at hmem
  split at hmem
  · rename_i hitem
    rcases List.mem_append.mp hmem with hown | hat
    · obtain ⟨k, hkey, heq⟩ := Option.map_eq_some_iff.mp (Option.mem_toList.mp hown)
      cases heq
      exact .inl ⟨rfl, hitem, hkey⟩
    · obtain ⟨l, hl, hindent, hnot, hkey⟩ := mem_entriesAt hat
      obtain ⟨hij, hj, rfl⟩ := mem_numberedBody hl
      exact .inr ⟨hij, hj, ⟨_, hindent, by omega, fun _ => rfl⟩, hnot, hkey⟩
  · rename_i hitem
    split at hmem
    · cases hmem
    · obtain ⟨l, hl, hindent, hnot, hkey⟩ := mem_entriesAt hmem
      obtain ⟨hij, hj, rfl⟩ := mem_numberedBody hl
      obtain ⟨base, hbase⟩ := indent?_of_lt_blockEnd hij hj
      refine .inr ⟨hij, hj, ⟨_, hindent, ?_, fun h => absurd h hitem⟩, hnot, hkey⟩
      rw [depth_of_indent? hbase]
      rcases inside_of_lt_blockEnd hbase hij hj _ hindent with hlt | ⟨-, -, h⟩
      · exact hlt
      · rw [hnot] at h
        cases h

theorem findBelow?_cases {key : String} (h : o.findBelow? i key = some j) : o.IsEntry i key j := by
  obtain ⟨hfind, hne⟩ := Option.filter_eq_some_iff.mp h
  rcases find?_cases hfind with ⟨heq, -, -⟩ | hentry
  · simp [heq] at hne
  · exact hentry

theorem mem_items_iff : j ∈ o.items i ↔ i < j ∧ j < o.blockEnd i ∧ (o.line j).isItem = true ∧
    ∃ d, o.bodyDepth? i = some d ∧ (o.line j).indent? = some d := by
  unfold items
  split
  · rename_i hnone
    simp [hnone]
  · rename_i column hcolumn
    rw [List.mem_filterMap]
    constructor
    · rintro ⟨⟨l, k⟩, hmem, heq⟩
      obtain ⟨hij, hj, rfl⟩ := mem_numberedBody hmem
      obtain ⟨hif, hk⟩ := Option.ite_none_right_eq_some.mp heq
      cases hk
      simp only [Bool.and_eq_true, decide_eq_true_eq] at hif
      exact ⟨hij, hj, hif.2, column, hcolumn, hif.1⟩
    · rintro ⟨hij, hj, hitem, d, hd, hindent⟩
      rw [hcolumn] at hd
      cases hd
      exact ⟨(o.line j, j), mem_numberedBody_of_lt hij hj hindent, by simp [hindent, hitem]⟩

theorem depth_lt_entryDepth : o.depth i < o.entryDepth i := by
  simp only [entryDepth]
  split
  · omega
  · split
    · omega
    · split
      · rename_i hif
        simp only [Bool.and_eq_true, decide_eq_true_eq] at hif
        exact hif.1
      · omega

theorem entryDepth_of_isItem (h : (o.line i).isItem = true) : o.entryDepth i = o.depth i + 2 := by
  rw [entryDepth, if_pos h]

end Outline

end BlockFlow
