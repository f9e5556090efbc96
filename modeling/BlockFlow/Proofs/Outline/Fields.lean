import BlockFlow.Proofs.Outline.Patch

/-!
The entries right below a line, each with all lines it has, and lines that are put between them.
Main statement: a line with a key that is put into a block leaves the entries around it as they were.
-/

namespace BlockFlow.Outline

variable {o p : Outline} {i j c base d : Nat} {item : Bool} {key : String} {k l : Line}
  {ls tail tail' above block below : List Line} {e : Nat × Line}

/-! Entries with what belongs to them -/

/-- The lines of an entry right below the line `i`: its own, and with it those that stand deeper
than its key, and items that stand no deeper. The key on the line of an item stands two columns
deeper than the dash. -/
def fieldLines (o : Outline) (i j : Nat) : List Line :=
  let ls := o.lines.drop (j + 1)
  o.line j :: ls.take (reach (if j = i then o.depth i + 2 else o.depth j) false ls)

/-- The keys right below a line, each with the lines of its entry. -/
def fields (o : Outline) (i : Nat) : List (Line × List Line) :=
  (o.entries i).map fun e => (e.2, o.fieldLines i e.1)

/-- The keys right below a line. -/
def keys (o : Outline) (i : Nat) : List Line := (o.entries i).map (·.2)

theorem map_fields (o : Outline) (i : Nat) : (o.fields i).map (·.1) = o.keys i := by
  simp [fields, keys]

/-- The entry on the line of an item. -/
def ownEntry (o : Outline) (i : Nat) : List (Nat × Line) :=
  if (o.line i).isItem then ((o.line i).itemKey?.map fun k => (i, k)).toList else []

/-- The keys at depth `c` among lines in front of others, each with the lines of its entry. -/
def fieldsAt (c : Nat) : List Line → List Line → List (Line × List Line)
  | [], _ => []
  | l :: ls, tail =>
    let field := if l.indent? = some c && !l.isItem then
      l.key?.map fun k => (k, l :: (ls ++ tail).take (reach c false (ls ++ tail))) else none
    field.toList ++ fieldsAt c ls tail

theorem fieldsAt_append (c : Nat) (ls ms tail : List Line) :
    fieldsAt c (ls ++ ms) tail = fieldsAt c ls (ms ++ tail) ++ fieldsAt c ms tail := by
  induction ls with
  | nil => rfl
  | cons l ls ih => simp only [List.cons_append, fieldsAt, ih, List.append_assoc]

/-- What belongs to a key depends on the lines up to the next one. -/
theorem take_reach_congr (h : reach c item tail = 0) (h' : reach c item tail' = 0) :
    (ls ++ tail).take (reach c item (ls ++ tail)) =
      (ls ++ tail').take (reach c item (ls ++ tail')) := by
  have hle := reach_le_length c item ls
  rw [reach_append h, reach_append h', List.take_append_of_le_length hle,
    List.take_append_of_le_length hle]

theorem fieldsAt_congr (h : reach c false tail = 0) (h' : reach c false tail' = 0) :
    fieldsAt c ls tail = fieldsAt c ls tail' := by
  induction ls with
  | nil => rfl
  | cons l ls ih => rw [fieldsAt, fieldsAt, ih, take_reach_congr h h']

theorem not_inside_self (h : l.indent? = some c) (hitem : l.isItem = false) :
    ¬ l.Inside c false := by
  simp [Line.inside_iff h, hitem]

/-- Lines that belong to a key hold no other key at its depth. -/
theorem fieldsAt_of_inside (h : ∀ l ∈ ls, l.Inside c false) (tail : List Line) :
    fieldsAt c ls tail = [] := by
  induction ls with
  | nil => rfl
  | cons l ls ih =>
    obtain ⟨hl, hls⟩ := List.forall_mem_cons.mp h
    have hnone : (l.indent? = some c && !l.isItem) = false := by
      by_contra hentry
      simp only [Bool.not_eq_false, Bool.and_eq_true, decide_eq_true_eq,
        Bool.not_eq_true'] at hentry
      exact not_inside_self hentry.1 hentry.2 hl
    rw [fieldsAt, ih hls]
    simp [hnone]

/-- The lines of an entry hold this entry alone. -/
theorem fieldsAt_entry (hindent : (o.line j).indent? = some c) (hitem : (o.line j).isItem = false)
    (hkey : (o.line j).key? = some k) (tail : List Line) :
    ∃ ls, fieldsAt c (o.line j :: o.body j) tail = [(k, ls)] := by
  have hinside : ∀ l ∈ o.body j, l.Inside c false := by
    rw [body_of_indent? hindent, hitem]
    exact inside_of_mem_take _
  rw [fieldsAt, fieldsAt_of_inside hinside]
  simp [hindent, hitem, hkey]

/-- Entries among lines that stand below the line `i`. -/
theorem map_entriesAt {n : Nat} (hn : i < n) (h : o.lines.drop n = ls ++ tail) :
    (entriesAt c (ls.zipIdx n)).map (fun e => (e.2, o.fieldLines i e.1)) = fieldsAt c ls tail := by
  induction ls generalizing n with
  | nil => rfl
  | cons l ls ih =>
    have hline : o.line n = l := line_eq_of_getElem? (by
      rw [← Nat.add_zero n, ← List.getElem?_drop, h]
      rfl)
    have hdrop : o.lines.drop (n + 1) = ls ++ tail := by
      rw [← List.drop_drop, h]
      rfl
    have ih := ih (Nat.lt_succ_of_lt hn) hdrop
    unfold entriesAt at ih ⊢
    rw [List.zipIdx_cons, List.filterMap_cons, fieldsAt, ← ih]
    by_cases hentry : (l.indent? = some c && !l.isItem) = true
    · have hdepth : o.depth n = c := by
        simp only [Bool.and_eq_true, decide_eq_true_eq] at hentry
        rw [depth, hline, hentry.1, Option.getD_some]
      simp only [hentry, if_true]
      cases hkey : l.key? with
      | none => rfl
      | some k =>
        simp only [Option.map_some, List.map_cons, Option.toList_some, List.singleton_append,
          fieldLines, hline, hdrop, hdepth]
        rw [if_neg (Nat.ne_of_gt hn)]
    · rw [Bool.not_eq_true] at hentry
      simp [hentry]

/-- Entries stand at depth `c` below the line `i`. -/
structure Column (o : Outline) (i c : Nat) : Prop where
  indent : (o.line i).indent? = some (o.depth i)
  deeper : o.depth i < c
  item : (o.line i).isItem = true → c = o.depth i + 2
  first : (o.line i).isItem = false → ∀ l, firstContent? (o.body i) = some l →
    l.indent? = some c ∧ l.isItem = false

theorem findSome?_indent? (ls : List Line) :
    ls.findSome? (·.indent?) = (firstContent? ls).bind (·.indent?) := by
  induction ls with
  | nil => rfl
  | cons l ls ih =>
    rw [List.findSome?_cons, ih, firstContent?, firstContent?, List.find?_cons]
    cases hindent : l.indent? with
    | none => rfl
    | some d => simp [hindent]

/-- Below an item, and below a line with nothing or a mapping in its block, entries stand where new
ones are put. -/
theorem column_entryDepth (hi : (o.line i).indent? = some d) (hfirst : (o.line i).isItem = false →
    ∀ l, firstContent? (o.body i) = some l → l.isItem = false) :
    o.Column i (o.entryDepth i) := by
  have hdepth := depth_of_indent? hi
  refine ⟨by rw [hdepth, hi], depth_lt_entryDepth, entryDepth_of_isItem, fun hitem l hl => ?_⟩
  have hnot := hfirst hitem l hl
  obtain ⟨e, he⟩ : ∃ e, l.indent? = some e := by
    rw [firstContent?] at hl
    exact Option.isSome_iff_exists.mp (by simpa using List.find?_some hl)
  have hin : l.Inside (o.depth i) (o.line i).isItem := by
    have hmem := List.mem_of_find?_eq_some hl
    rw [body_of_indent? hi, ← hdepth] at hmem
    exact inside_of_mem_take _ l hmem
  have hlt : o.depth i < e := by
    rcases hin e he with hlt | ⟨-, -, h⟩
    · exact hlt
    · rw [hnot] at h
      cases h
  refine ⟨?_, hnot⟩
  simp [entryDepth, hitem, hl, he, hlt, hnot]

theorem Column.entries_eq (h : o.Column i c) :
    o.entries i = o.ownEntry i ++ entriesAt c (o.numberedBody i) := by
  simp only [entries, ownEntry]
  split
  · rename_i hitem
    rw [h.item hitem]
  · rename_i hitem
    rw [bodyDepth?, findSome?_indent?]
    cases hfirst : firstContent? (o.body i) with
    | some l => simp [(h.first (by simpa using hitem) l hfirst).1]
    | none =>
      have hnone : ∀ l ∈ o.body i, l.indent? = none := by
        simpa [firstContent?] using hfirst
      have hentries : entriesAt c (o.numberedBody i) = [] := by
        rw [entriesAt, List.filterMap_eq_nil_iff]
        rintro ⟨l, n⟩ hmem
        simp [hnone l (List.fst_mem_of_mem_zipIdx hmem)]
      simp [hentries]

theorem drop_eq_body_append (h : (o.line i).indent? = some d) :
    o.lines.drop (i + 1) = o.body i ++ o.lines.drop (o.blockEnd i) := by
  have hcut := List.take_append_drop (reach d (o.line i).isItem (o.lines.drop (i + 1)))
    (o.lines.drop (i + 1))
  rw [List.drop_drop] at hcut
  rw [body_of_indent? h, blockEnd_of_indent? h, hcut]

theorem Column.fields_eq (hcol : o.Column i c) :
    o.fields i = (o.ownEntry i).map (fun e => (e.2, o.fieldLines i e.1)) ++
      fieldsAt c (o.body i) (o.lines.drop (o.blockEnd i)) := by
  rw [fields, hcol.entries_eq, List.map_append, numberedBody,
    map_entriesAt (Nat.lt_succ_self i) (drop_eq_body_append hcol.indent)]

theorem Column.of_find? (hcol : o.Column i c) (h : o.find? i key = some j) (hne : j ≠ i) :
    i < j ∧ j < o.blockEnd i ∧ (o.line j).indent? = some c ∧ (o.line j).isItem = false ∧
      (o.line j).key? = some key.toList := by
  obtain ⟨⟨j', k⟩, hfind, rfl⟩ := Option.map_eq_some_iff.mp h
  have hk : k = key.toList := by simpa using List.find?_some hfind
  subst hk
  have hmem := List.mem_of_find?_eq_some hfind
  rw [hcol.entries_eq] at hmem
  rcases List.mem_append.mp hmem with hown | hat
  · simp only [ownEntry] at hown
    split at hown
    · obtain ⟨k, -, heq⟩ := Option.map_eq_some_iff.mp (Option.mem_toList.mp hown)
      cases heq
      exact absurd rfl hne
    · cases hown
  · obtain ⟨l, hl, hindent, hnot, hkey⟩ := mem_entriesAt hat
    obtain ⟨hij, hj, rfl⟩ := mem_numberedBody hl
    exact ⟨hij, hj, hindent, hnot, hkey⟩

/-! Putting a line into a block -/

/-- The block of a line reaches over a block inside it. -/
theorem reach_over {base' : Nat} {item' : Bool} (ls : List Line)
    (h : ∀ l : Line, l.Inside base' item' → l.Inside base item) : reach base item ls =
      reach base' item' ls + reach base item (ls.drop (reach base' item' ls)) := by
  induction ls with
  | nil => rfl
  | cons l ls ih =>
    obtain hl | ⟨d, hd, hl⟩ | ⟨d, hd, hl⟩ := reach_cases base' item' l
    · have hinner : reach base' item' (l :: ls) =
          if reach base' item' ls = 0 then 0 else reach base' item' ls + 1 := reach_none hl
      by_cases hzero : reach base' item' ls = 0
      · rw [hinner, if_pos hzero, List.drop_zero, Nat.zero_add]
      · rw [hinner, if_neg hzero, List.drop_succ_cons, reach_none hl, if_neg (by omega), ih]
        omega
    · rw [reach_inside hd hl, List.drop_succ_cons, reach_inside hd (h l hl), ih]
      omega
    · have hinner : reach base' item' (l :: ls) = 0 := reach_stop hd hl
      rw [hinner, List.drop_zero, Nat.zero_add]

theorem length_body (h : (o.line i).indent? = some d) :
    i + 1 + (o.body i).length = o.blockEnd i := by
  have hle := reach_le_length d (o.line i).isItem (o.lines.drop (i + 1))
  rw [body_of_indent? h, List.length_take_of_le hle, blockEnd_of_indent? h]

/-- Below the line `i` stand `above`, which are lines of its block, then `block` and then `below`.
Both of these begin with a line that belongs to no key at depth `c` above it. -/
structure Room (o : Outline) (i c : Nat) (above block below : List Line) : Prop where
  lines : o.lines.drop (i + 1) = above ++ (block ++ below)
  inside : ∀ l ∈ above, l.Inside (o.depth i) (o.line i).isItem
  reach : reach (o.depth i) (o.line i).isItem (above ++ (block ++ below)) =
    above.length + (block.length + reach (o.depth i) (o.line i).isItem below)
  stop : Outline.reach c false (block ++ below) = 0
  clear : Outline.reach c false below = 0

namespace Room

/-- The lines of the block behind the room. -/
def rest (o : Outline) (i : Nat) (below : List Line) : List Line :=
  below.take (Outline.reach (o.depth i) (o.line i).isItem below)

theorem body_eq (h : Room o i c above block below)
    (hi : (o.line i).indent? = some (o.depth i)) :
    o.body i = above ++ (block ++ rest o i below) := by
  have hlength : above.length + (block.length + Outline.reach (o.depth i) (o.line i).isItem below) -
      above.length - block.length = Outline.reach (o.depth i) (o.line i).isItem below := by omega
  rw [body_of_indent? hi, h.lines, h.reach, rest, List.take_append, List.take_append,
    hlength, List.take_of_length_le (by omega), List.take_of_length_le (by omega)]

theorem entries_eq (h : Room o i c above block below) (hcol : o.Column i c) :
    o.entries i = (o.ownEntry i ++ entriesAt c (above.zipIdx (i + 1))) ++
      (entriesAt c (block.zipIdx (i + 1 + above.length)) ++
        entriesAt c ((rest o i below).zipIdx (i + 1 + above.length + block.length))) := by
  rw [hcol.entries_eq, numberedBody, h.body_eq hcol.indent, List.zipIdx_append, List.zipIdx_append]
  simp only [entriesAt, List.filterMap_append, List.append_assoc]

theorem fields_eq (h : Room o i c above block below) (hcol : o.Column i c) :
    o.fields i = ((o.ownEntry i).map (fun e => (e.2, o.fieldLines i e.1)) ++
      fieldsAt c above (block ++ below)) ++ (fieldsAt c block below ++
        fieldsAt c (rest o i below) (below.drop (rest o i below).length)) := by
  have hbelow : rest o i below ++ below.drop (rest o i below).length = below := by
    have hlength : (rest o i below).length = Outline.reach (o.depth i) (o.line i).isItem below :=
      List.length_take_of_le (reach_le_length ..)
    rw [hlength, rest, List.take_append_drop]
  have hlines : o.lines.drop (i + 1) = (above ++ (block ++ rest o i below)) ++
      below.drop (rest o i below).length := by
    rw [h.lines, List.append_assoc, List.append_assoc, hbelow]
  rw [fields, hcol.entries_eq, List.map_append, numberedBody, h.body_eq hcol.indent,
    map_entriesAt (Nat.lt_succ_self i) hlines, fieldsAt_append, fieldsAt_append, List.append_assoc,
    hbelow, List.append_assoc]

/-- There is room behind the block of a line. -/
theorem behind (hcol : o.Column i c) : Room o i c (o.body i) [] (o.lines.drop (o.blockEnd i)) := by
  have hreach := reach_drop (o.depth i) (o.line i).isItem (o.lines.drop (i + 1))
  rw [List.drop_drop, ← blockEnd_of_indent? hcol.indent] at hreach
  have hcut := drop_eq_body_append hcol.indent
  have hclear : Outline.reach c false (o.lines.drop (o.blockEnd i)) = 0 := by
    refine Nat.le_zero.mp (le_of_le_of_eq (reach_mono _ fun m hm e he => .inl ?_) hreach)
    have hdeeper := hcol.deeper
    rcases hm e he with hlt | ⟨rfl, -, -⟩ <;> omega
  refine ⟨hcut, ?_, ?_, hclear, hclear⟩
  · rw [body_of_indent? hcol.indent]
    exact inside_of_mem_take _
  · have hlength := length_body hcol.indent
    have hend := blockEnd_of_indent? hcol.indent
    rw [List.nil_append, ← hcut, hreach, List.length_nil]
    omega

/-- There is room in the place of an entry. -/
theorem at_ (hcol : o.Column i c) (hij : i < j) (hj : j < o.blockEnd i)
    (hindent : (o.line j).indent? = some c) (hitem : (o.line j).isItem = false) :
    Room o i c ((o.lines.drop (i + 1)).take (j - (i + 1))) (o.line j :: o.body j)
      (o.lines.drop (o.blockEnd j)) := by
  have hsize := lt_size_of_indent? hindent
  have hcut : o.lines.drop (i + 1) = (o.lines.drop (i + 1)).take (j - (i + 1)) ++
      (o.line j :: o.body j ++ o.lines.drop (o.blockEnd j)) := by
    rw [List.cons_append, ← drop_eq_body_append hindent]
    exact drop_eq_append hij hsize
  have hin := inside_of_lt_blockEnd hcol.indent hij hj
  have hinside : ∀ x ∈ (o.lines.drop (i + 1)).take (j - (i + 1)),
      x.Inside (o.depth i) (o.line i).isItem := by
    intro x hx
    refine inside_of_mem_take (o.lines.drop (i + 1)) x ?_
    rw [blockEnd_of_indent? hcol.indent] at hj
    exact List.take_subset_take_left _ (by omega) hx
  refine ⟨hcut, hinside, ?_, ?_, ?_⟩
  · have hover := reach_over (o.lines.drop (j + 1)) fun m hm => hin.trans hindent hm
    have hlength := length_body hindent
    have hend := blockEnd_of_indent? hindent
    rw [List.drop_drop, ← hend] at hover
    rw [List.cons_append, reach_append_cons _ hinside hindent hin, ← drop_eq_body_append hindent,
      hover, List.length_cons]
    omega
  · exact reach_stop hindent (not_inside_self hindent hitem)
  · have hreach := reach_drop c (o.line j).isItem (o.lines.drop (j + 1))
    rwa [List.drop_drop, ← blockEnd_of_indent? hindent, hitem] at hreach

theorem le_size (h : Room o i c above block below) (hi : (o.line i).indent? = some d) :
    i + 1 + above.length ≤ o.size := by
  have hsize := lt_size_of_indent? hi
  have hlength := congrArg List.length h.lines
  rw [List.length_drop, List.length_append] at hlength
  rw [size] at hsize ⊢
  omega

/-- A line with a key at depth `c` put into the room. -/
theorem splice (h : Room o i c above block below) (hcol : o.Column i c)
    (hl : l.indent? = some c) (hitem : l.isItem = false)
    (hp : p = o.splice (i + 1 + above.length) (i + 1 + above.length + block.length) [l]) :
    p.line i = o.line i ∧ p.Column i c ∧ Room p i c above [l] below := by
  have hsize := lt_size_of_indent? hcol.indent
  have htop : (o.lines.take (i + 1)).length = i + 1 := List.length_take_of_le hsize
  have hsplit : o.lines = o.lines.take (i + 1) ++ above ++ block ++ below := by
    rw [List.append_assoc, List.append_assoc, ← h.lines, List.take_append_drop]
  have htake : o.lines.take (i + 1 + above.length) = o.lines.take (i + 1) ++ above := by
    have hcut := congrArg (List.take (i + 1 + above.length)) hsplit
    rw [List.append_assoc] at hcut
    exact hcut.trans (List.take_left' (by rw [List.length_append, htop]))
  have hdrop : o.lines.drop (i + 1 + above.length + block.length) = below :=
    (congrArg (List.drop _) hsplit).trans
      (List.drop_left' (by rw [List.length_append, List.length_append, htop]))
  have hlines : p.lines = o.lines.take (i + 1) ++ (above ++ ([l] ++ below)) := by
    rw [hp, Outline.splice]
    simp only [htake, hdrop, List.append_assoc]
  have hline : p.line i = o.line i := by
    rw [hp]
    exact line_splice_of_lt (h.le_size hcol.indent) (by omega)
  have hdepth : p.depth i = o.depth i := by rw [depth, depth, hline]
  have hindent : (p.line i).indent? = some (p.depth i) := by rw [hline, hdepth, hcol.indent]
  have hroom : Room p i c above [l] below := by
    refine ⟨?_, ?_, ?_, ?_, h.clear⟩
    · rw [hlines]
      exact List.drop_left' htop
    · rw [hline, hdepth]
      exact h.inside
    · rw [hline, hdepth, List.singleton_append, reach_append_cons _ h.inside hl fun d hd => ?_,
        List.length_singleton, Nat.add_assoc]
      rw [hl] at hd
      cases hd
      exact .inl hcol.deeper
    · exact reach_stop hl (not_inside_self hl hitem)
  refine ⟨hline, ⟨hindent, by rw [hdepth]; exact hcol.deeper, ?_, ?_⟩, hroom⟩
  · rw [hline, hdepth]
    exact hcol.item
  · rw [hline]
    intro hnot m hm
    rw [hroom.body_eq hindent, firstContent?, List.find?_append] at hm
    rcases Option.or_eq_some_iff.mp hm with hm | ⟨-, hm⟩
    · refine hcol.first hnot m ?_
      rw [h.body_eq hcol.indent, firstContent?, List.find?_append, hm, Option.some_or]
    · rw [List.singleton_append, List.find?_cons_of_pos (by simp [hl])] at hm
      cases hm
      exact ⟨hl, hitem⟩

/-- An entry put into the room is found, when none in front of it has the key. -/
theorem find?_splice (h : Room o i c above block below) (hcol : o.Column i c)
    (hl : l.indent? = some c) (hkey : l.key? = some key.toList)
    (hp : p = o.splice (i + 1 + above.length) (i + 1 + above.length + block.length) [l])
    (hfresh : ∀ e ∈ o.ownEntry i ++ entriesAt c (above.zipIdx (i + 1)), e.2 ≠ key.toList) :
    p.find? i key = some (i + 1 + above.length) := by
  have hitem := Line.not_isItem_of_key? hkey
  obtain ⟨hline, hcol', hroom⟩ := h.splice hcol hl hitem hp
  have hown : p.ownEntry i = o.ownEntry i := by rw [ownEntry, ownEntry, hline]
  have hnone : (p.ownEntry i ++ entriesAt c (above.zipIdx (i + 1))).find? (·.2 = key.toList) =
      none := by
    rw [hown, List.find?_eq_none]
    simpa using hfresh
  rw [find?, hroom.entries_eq hcol', List.find?_append, hnone, Option.none_or]
  simp [entriesAt, hl, hitem, hkey]

/-- An entry put into the room leaves the entries around it as they were. -/
theorem fields_splice (h : Room o i c above block below) (hcol : o.Column i c)
    (hl : l.indent? = some c) (hkey : l.key? = some key.toList)
    (hp : p = o.splice (i + 1 + above.length) (i + 1 + above.length + block.length) [l]) :
    p.fields i = ((o.ownEntry i).map (fun e => (e.2, o.fieldLines i e.1)) ++
      fieldsAt c above (block ++ below)) ++ ((key.toList, [l]) ::
        fieldsAt c (rest o i below) (below.drop (rest o i below).length)) := by
  have hitem := Line.not_isItem_of_key? hkey
  obtain ⟨hline, hcol', hroom⟩ := h.splice hcol hl hitem hp
  have hdepth : p.depth i = o.depth i := by rw [depth, depth, hline]
  have hown : (p.ownEntry i).map (fun e => (e.2, p.fieldLines i e.1)) =
      (o.ownEntry i).map (fun e => (e.2, o.fieldLines i e.1)) := by
    simp only [ownEntry, hline]
    split
    · rename_i hdash
      have hlines : p.fieldLines i i = o.fieldLines i i := by
        simp only [fieldLines, if_true, hline, hdepth, h.lines, hroom.lines]
        rw [← hcol.item hdash, take_reach_congr hroom.stop h.stop]
      cases (o.line i).itemKey? with
      | none => rfl
      | some k => simp [hlines]
    · rfl
  rw [hroom.fields_eq hcol', hown, fieldsAt_congr hroom.stop h.stop]
  simp [fieldsAt, hl, hitem, hkey, rest, hline, hdepth, h.clear]

theorem lt_of_mem_front (hmem : e ∈ o.ownEntry i ++ entriesAt c (above.zipIdx (i + 1))) :
    e.1 < i + 1 + above.length := by
  rcases List.mem_append.mp hmem with hown | hat
  · simp only [ownEntry] at hown
    split at hown
    · obtain ⟨k, -, rfl⟩ := Option.map_eq_some_iff.mp (Option.mem_toList.mp hown)
      simp only
      omega
    · cases hown
  · obtain ⟨l, hl, -⟩ := mem_entriesAt hat
    exact List.snd_lt_add_of_mem_zipIdx hl

end Room

end BlockFlow.Outline
