import BlockFlow.Edit.Interface
import BlockFlow.Edit.Pointer
import BlockFlow.Proofs.Outline.Patch

/-!
The changes of an outline, made at places inside the block of a workflow. Main statement: each of
them changes nothing outside that block.
-/

namespace BlockFlow

namespace Line

variable {base d : Nat} {l : Line} {ls : List Line} {old new : String}

theorem nameless_deeper (h : base + 2 < d) : (l.deeper d).Nameless base :=
  (deeperThan_deeper h).nameless

theorem nameless_indentAll (h : base + 2 < d) : ∀ l ∈ indentAll d ls, Nameless base l :=
  fun l hl => (deeperThan_indentAll h l hl).nameless

/-- Renaming a variable leaves the first line that names the item, when no mapping is on it. -/
theorem find?_isTitle_renameVariable
    (h : ∀ l, ls.find? (isTitle base) = some l → l.flowMapping? = none) :
    (ls.map (·.renameVariable old new)).find? (isTitle base) = ls.find? (isTitle base) := by
  induction ls with
  | nil => rfl
  | cons l ls ih =>
    rw [List.map_cons, List.find?_cons, List.find?_cons]
    cases htitle : l.isTitle base with
    | true =>
      have hflow : l.flowMapping? = none := h l (by rw [List.find?_cons, htitle])
      rw [renameVariable_of_isTitle htitle hflow, htitle]
    | false =>
      have hrenamed : (l.renameVariable old new).isTitle base = false := by
        by_contra hne
        rw [Bool.not_eq_false] at hne
        rw [isTitle_of_renameVariable hne] at htitle
        cases htitle
      rw [hrenamed]
      refine ih fun m hm => h m ?_
      rw [List.find?_cons, htitle]
      exact hm

end Line

namespace Outline

variable {o p : Outline} {w i j base d : Nat} {key name old new : String} {text : Line}
  {ls : List Line}

theorem indent?_keyLine : (keyLine d key).indent? = some d := by
  rw [keyLine, Line.indent?_deeper, renderString, indent?_renderChars]
  rfl

theorem deep_keyLine (h : base + 2 < d) : (keyLine d key).Deep base := ⟨d, indent?_keyLine, h⟩

/-- A block is removed alone, or with the blank line behind it. -/
theorem removeBlock_cases (p : Outline) (s : Span) :
    (s.stop < p.size ∧ Text.trim (p.line s.stop) = [] ∧
      p.removeBlock s = p.remove s.start (s.stop + 1)) ∨
      p.removeBlock s = p.remove s.start s.stop := by
  simp only [removeBlock]
  split
  · rename_i hblank
    simp only [Bool.and_eq_true, decide_eq_true_eq, List.isEmpty_iff] at hblank
    exact .inl ⟨hblank.1.2, hblank.2, rfl⟩
  · exact .inr rfl

/-- The entries of a workflow that edits write to. -/
def sectionKeys : List String := ["nodes", "variables", "interface"]

theorem isSection_keyLine (hkey : key ∈ sectionKeys) : (keyLine (base + 2) key).IsSection base := by
  have hkeys : ∀ key ∈ sectionKeys, Line.isItem (renderString key ++ [':']) = false ∧
      Line.key? (renderString key ++ [':']) ≠ some "name".toList := by
    decide +kernel
  obtain ⟨hitem, hname⟩ := hkeys key hkey
  exact ⟨indent?_keyLine, by rwa [keyLine, Line.isItem_deeper], by rwa [keyLine, Line.key?_deeper]⟩

namespace Patched

/-- An entry of the workflow that is not on the line of the item. -/
theorem place_of_isEntry (h : Patched o w p) (hkey : key ≠ "name") (hj : p.IsEntry w key j) :
    Place p w j := by
  obtain ⟨d, hd, -, hbase⟩ := hj.deeper
  rw [hbase h.itemAt.isItem] at hd
  refine ⟨hj.above, hj.below, .inr ⟨hd, hj.notItem, ?_⟩⟩
  rw [hj.key]
  exact fun heq => hkey (String.toList_inj.mp (Option.some.inj heq))

theorem place_of_find? (h : Patched o w p) (hkey : key ≠ "name")
    (hown : (p.line w).itemKey? ≠ some key.toList) (hj : p.find? w key = some j) : Place p w j := by
  rcases find?_cases hj with ⟨-, -, heq⟩ | hentry
  · exact absurd heq hown
  · exact h.place_of_isEntry hkey hentry

theorem le_size (h : Patched o w p) (hi : Place p w i) : p.blockEnd i ≤ p.size :=
  Nat.le_trans hi.blockEnd_le h.blockEnd_le_size

/-- Replacing the line of a place. -/
theorem setLine (h : Patched o w p) (hi : Place p w i) {l : Line} (hl : l.Nameless (p.depth w)) :
    Patched o w (p.setLine i l) := by
  rw [setLine_eq_splice (lt_size_of_indent? hi.indent?)]
  exact h.splice hi (Nat.le_refl i) (Nat.le_succ i) lt_blockEnd (by simpa using hl)

/-- Adding lines behind the block of a place. -/
theorem insert (h : Patched o w p) (hi : Place p w i) (hls : ∀ l ∈ ls, l.Nameless (p.depth w)) :
    Patched o w (p.insert (p.blockEnd i) ls) :=
  h.splice hi (Nat.le_of_lt lt_blockEnd) (Nat.le_refl _) (Nat.le_refl _) hls

/-- Replacing the block of a place. -/
theorem replace (h : Patched o w p) (hi : Place p w i) (hls : ∀ l ∈ ls, l.Nameless (p.depth w)) :
    Patched o w (p.splice i (p.blockEnd i) ls) :=
  h.splice hi (Nat.le_refl i) (Nat.le_of_lt lt_blockEnd) (Nat.le_refl _) hls

theorem setScalar (h : Patched o w p) (hi : Place p w i) :
    Patched o w (p.setScalar i key text) := by
  unfold Outline.setScalar
  split
  · rename_i j hj
    have hdeep : DeepPlace p w j := hi.find? hj
    split
    · rename_i heq
      subst heq
      exact h.setLine hi (Line.nameless_deeper hdeep.lt_depth)
    · refine h.replace hdeep.place ?_
      rw [List.forall_mem_singleton]
      exact Line.nameless_deeper hdeep.lt_depth
  · refine h.insert hi ?_
    rw [List.forall_mem_singleton]
    exact Line.nameless_deeper hi.lt_entryDepth

theorem nameless_keyLine_cons (hd : base + 2 < d) :
    ∀ l ∈ keyLine d key :: Line.indentAll (d + 2) ls, l.Nameless base := by
  rw [List.forall_mem_cons]
  exact ⟨Line.nameless_deeper hd, Line.nameless_indentAll (by omega)⟩

theorem setBlock (h : Patched o w p) (hi : Place p w i) : Patched o w (p.setBlock i key ls) := by
  unfold Outline.setBlock
  split
  · rename_i j hj
    have hdeep : DeepPlace p w j := hi.deep_of_isEntry (findBelow?_cases hj)
    exact h.replace hdeep.place (nameless_keyLine_cons hdeep.lt_depth)
  · exact h.insert hi (nameless_keyLine_cons hi.lt_entryDepth)

theorem setValue {v : Yaml.Value} (h : Patched o w p) (hi : Place p w i) :
    Patched o w (p.setValue i key v) := by
  unfold Outline.setValue
  split
  · exact h.setScalar hi
  · exact h.setBlock hi

theorem renameKey (h : Patched o w p) (hi : DeepPlace p w i) : Patched o w (p.renameKey i key) :=
  h.setLine hi.place (Line.nameless_deeper hi.lt_depth)

theorem removeEntry (h : Patched o w p) (hi : Place p w i) : Patched o w (p.removeEntry i key) := by
  unfold Outline.removeEntry
  split
  · rename_i j hj
    have hdeep : DeepPlace p w j := hi.deep_of_isEntry (findBelow?_cases hj)
    exact h.replace hdeep.place (by simp)
  · exact h

/-- Removing an entry leaves the lines in front of it. -/
theorem line_removeEntry (h : Patched o w p) (hi : Place p w i) (hj : j ≤ i) :
    (p.removeEntry i key).line j = p.line j := by
  unfold Outline.removeEntry
  split
  · rename_i k hk
    have hentry := findBelow?_cases hk
    have hsize := h.le_size hi
    have habove := hentry.above
    have hbelow := hentry.below
    exact line_splice_of_lt (by omega) (by omega)
  · rfl

theorem ensureBlock (key : String) (h : Patched o w p) (hi : Place p w i) :
    Patched o w (p.ensureBlock i key).1 ∧
      DeepPlace (p.ensureBlock i key).1 w (p.ensureBlock i key).2 := by
  unfold Outline.ensureBlock
  split
  · rename_i j hj
    have hdeep : DeepPlace p w j := hi.deep_of_isEntry (findBelow?_cases hj)
    simp only
    split
    · exact ⟨h, hdeep⟩
    · refine ⟨h.splice hdeep.place (Nat.le_refl j) (Nat.le_succ j) lt_blockEnd
        (nameless_keyLine_cons hdeep.lt_depth), ?_⟩
      exact h.deepPlace_splice hdeep.above (Nat.le_of_lt hdeep.below) (deep_keyLine hdeep.lt_depth)
  · refine ⟨h.insert hi ?_, ?_⟩
    · rw [List.forall_mem_singleton]
      exact Line.nameless_deeper hi.lt_entryDepth
    · exact h.deepPlace_splice (Nat.lt_trans hi.above lt_blockEnd) hi.blockEnd_le
        (deep_keyLine hi.lt_entryDepth)

/-- The line of an entry of the workflow itself, which is added when it is missing. -/
theorem ensureBlock_item (key : String) (h : Patched o w p) (hkey : key ∈ sectionKeys) :
    Patched o w (p.ensureBlock w key).1 ∧
      Place (p.ensureBlock w key).1 w (p.ensureBlock w key).2 := by
  have hitem := h.itemAt
  have hname : key ≠ "name" := fun heq => by
    subst heq
    exact absurd hkey (by decide)
  have hline : (keyLine (p.depth w + 2) key).IsSection (p.depth w) := isSection_keyLine hkey
  unfold Outline.ensureBlock
  split
  · rename_i j hj
    have hplace : Place p w j := h.place_of_isEntry hname (findBelow?_cases hj)
    have hdepth : p.depth j = p.depth w + 2 := by
      obtain ⟨d, hd, -, hbase⟩ := (findBelow?_cases hj).deeper
      rw [depth_of_indent? hd, hbase hitem.isItem]
    simp only
    split
    · exact ⟨h, hplace⟩
    · rw [hdepth]
      refine ⟨h.splice hplace (Nat.le_refl j) (Nat.le_succ j) lt_blockEnd ?_, ?_⟩
      · rw [List.forall_mem_cons]
        exact ⟨hline.nameless, Line.nameless_indentAll (by omega)⟩
      · exact h.place_splice hplace.above (Nat.le_of_lt hplace.below) (.inr hline)
  · rw [entryDepth_of_isItem hitem.isItem]
    refine ⟨?_, h.place_splice lt_blockEnd (Nat.le_refl _) (.inr hline)⟩
    obtain ⟨inner, tail, h⟩ := h
    have hend := h.blockEnd_le
    have hdepth := h.depth_eq
    refine ⟨_, tail, h.splice lt_blockEnd (Nat.le_refl _) (by omega) (fun k hk hlt => by omega) ?_⟩
    rw [List.forall_mem_singleton, ← hdepth]
    exact hline.nameless

/-- An entry that is written anew keeps its key. -/
theorem collapse (h : Patched o w p) (hi : Place p w i) : Patched o w (p.collapse i text) := by
  unfold Outline.collapse
  split
  · split
    · rename_i key hkey
      refine h.setLine hi ⟨Line.deeperThan_deeper (Nat.lt_of_lt_of_le (by omega) hi.le_depth), ?_⟩
      by_contra htitle
      rw [Bool.not_eq_false, Line.isTitle_iff, Line.indent?_deeper, Line.key?_deeper, keyed,
        indent?_renderChars] at htitle
      obtain ⟨hindent, -, hname⟩ := htitle
      have hdepth : p.depth i = p.depth w + 2 := by simpa using hindent
      have heq : key = "name".toList := key?_keyed_renderChars (by decide) hname
      rcases hi.line with ⟨d, hd, hlt⟩ | hsection
      · rw [depth_of_indent? hd] at hdepth
        omega
      · exact hsection.key (heq ▸ hkey)
    · exact h
  · exact h

/-- Removing a block may drop the blank line behind the workflow. -/
theorem removeBlock (h : Patched o w p) (hi : Place p w i) :
    Patched o w (p.removeBlock (p.span i)) := by
  rcases removeBlock_cases p (p.span i) with ⟨hsize, hline, heq⟩ | heq
  · rw [heq]
    simp only [span] at hsize hline ⊢
    obtain ⟨inner, tail, hp⟩ := h
    have hend := hp.blockEnd_le
    have hiend := hi.blockEnd_le
    have hlt : i < p.blockEnd i := lt_blockEnd
    have hout (k : Nat) (hk : i ≤ k) (hkend : k < p.blockEnd i + 1) :
        (p.line k).isTitle (o.depth w) = false := by
      rcases Nat.eq_or_lt_of_le (Nat.le_of_lt_succ hkend) with rfl | hin
      · exact (Line.nameless_of_blank hline).notTitle
      · rw [← hp.depth_eq]
        exact (hi.nameless hk hin).notTitle
    rcases Nat.lt_or_ge (p.blockEnd i) (w + 1 + inner.length) with hin | hge
    · exact ⟨_, tail, hp.splice hi.above (by omega) hin hout (List.forall_mem_nil _)⟩
    · -- The blank line is the first one behind the block of the workflow.
      have hlast : p.blockEnd i = w + 1 + inner.length := by omega
      have hremoved := hp.splice hi.above (Nat.le_of_lt hlt) (Nat.le_of_eq hlast)
        (fun k hk hkend => hout k hk (by omega)) (List.forall_mem_nil _)
      have hrest : inner.drop (p.blockEnd i - (w + 1)) = [] :=
        List.drop_of_length_le (by omega)
      have htail : tail = p.line (p.blockEnd i) :: p.lines.drop (p.blockEnd i + 1) := by
        rw [← drop_eq_cons hsize, hlast, ← List.drop_drop, hp.drop_lines, List.drop_left]
      rw [hrest, List.append_nil, List.append_nil, htail] at hremoved
      refine ⟨_, _, hremoved.dropBlank hline ?_ rfl⟩
      simp only [remove, Outline.splice, hp.take_lines hi.above (by omega), List.append_nil,
        List.append_assoc]
  · rw [heq]
    exact h.replace hi (List.forall_mem_nil _)

/-- Changing each line of the workflow by itself, the line of the item aside. -/
theorem lines_mapLines {inner tail : List Line} {f : Line → Line} (h : PatchedBy o w inner tail p)
    (hf : f (o.line w) = o.line w) : (p.mapLines w (p.blockEnd w) f).lines =
      o.lines.take (w + 1) ++ ((inner.take (reach (o.depth w) true inner)).map f ++
        inner.drop (reach (o.depth w) true inner) ++ tail) := by
  have hsize := h.itemAt.lt_size
  have hend := h.blockEnd_eq
  have hslice : (p.slice w (p.blockEnd w)).map f =
      o.line w :: (inner.take (reach (o.depth w) true inner)).map f := by
    rw [slice, drop_eq_cons hsize, h.drop_lines, hend,
      show w + 1 + reach (o.depth w) true inner - w = reach (o.depth w) true inner + 1 by omega,
      List.take_succ_cons, List.take_append_of_le_length (reach_le_length ..), List.map_cons,
      h.line_eq (Nat.le_refl w), hf]
  have htake : p.lines.take w ++ [o.line w] = o.lines.take (w + 1) := by
    rw [← h.line_eq (Nat.le_refl w), ← take_succ hsize, h.lines, List.take_left' h.length_take]
  have hdrop : p.lines.drop (p.blockEnd w) =
      inner.drop (reach (o.depth w) true inner) ++ tail := by
    rw [hend, ← List.drop_drop, h.drop_lines, List.drop_append_of_le_length (reach_le_length ..)]
  rw [mapLines, Outline.splice]
  simp only [hslice, hdrop]
  rw [← htake]
  simp only [List.append_assoc, List.cons_append, List.nil_append]

/-- Renaming a variable in each line of the workflow, when no mapping is on the line that names it.
-/
theorem renameVariable (h : Patched o w p)
    (hflow : (o.line w).itemKey? ≠ some "name".toList → ∀ l,
      (o.body w).find? (Line.isTitle (o.depth w)) = some l → l.flowMapping? = none) :
    Patched o w (p.mapLines w (p.blockEnd w) (·.renameVariable old new)) := by
  obtain ⟨inner, tail, h⟩ := h
  have hitem : (o.line w).renameVariable old new = o.line w :=
    Line.renameVariable_of_key?_none (Line.key?_of_isItem h.item.isItem)
  refine ⟨_, tail, h.item, lines_mapLines h hitem, h.ended, h.dropped, fun l hl => ?_,
    fun hkey => ?_⟩
  · rcases List.mem_append.mp hl with hl | hl
    · obtain ⟨m, hm, rfl⟩ := List.mem_map.mp hl
      exact Line.deeperThan_renameVariable (h.deeper m (List.mem_of_mem_take hm))
    · exact h.deeper l (List.mem_of_mem_drop hl)
  · have hcut : inner.find? (Line.isTitle (o.depth w)) =
        ((inner.take (reach (o.depth w) true inner)).find? (Line.isTitle (o.depth w))).or
          ((inner.drop (reach (o.depth w) true inner)).find? (Line.isTitle (o.depth w))) := by
      rw [← List.find?_append, List.take_append_drop]
    have hsame : ((inner.take (reach (o.depth w) true inner)).map
        (Line.renameVariable old new)).find? (Line.isTitle (o.depth w)) =
        (inner.take (reach (o.depth w) true inner)).find? (Line.isTitle (o.depth w)) := by
      refine Line.find?_isTitle_renameVariable fun l hl => hflow hkey l ?_
      rw [← h.title hkey, hcut, hl, Option.some_or]
    rw [List.find?_append, hsame, ← hcut, h.title hkey]

/-! Pointers and lists -/

theorem setPointer {keep : Bool} {slot : LinkSlot} {target : Option String} (h : Patched o w p)
    (hi : DeepPlace p w i) : Patched o w (p.setPointer i keep slot target) := by
  cases slot with
  | next =>
    cases target with
    | some target => exact h.setScalar hi.place
    | none => exact h.removeEntry hi.place
  | branch name =>
    cases target with
    | some target =>
      obtain ⟨hensured, hbranches⟩ := h.ensureBlock "branches" hi.place
      exact hensured.setScalar hbranches.place
    | none =>
      rw [Outline.setPointer]
      split
      · exact h
      · rename_i branches hfind
        have hbranches : DeepPlace p w branches := hi.place.find? hfind
        split
        · split
          · exact h.setScalar hbranches.place
          · exact h
        · have hremoved : Patched o w (p.removeEntry branches name) :=
            h.removeEntry hbranches.place
          simp only
          split
          · -- The node stands in front of the entry, or holds it on its own line.
            refine hremoved.removeEntry (hi.place.congr h.itemAt fun k hk => ?_)
            refine h.line_removeEntry hbranches.place (Nat.le_trans hk ?_)
            rcases find?_cases hfind with ⟨heq, -, -⟩ | hentry
            · exact Nat.le_of_eq heq.symm
            · exact Nat.le_of_lt hentry.above
          · exact hremoved

theorem appendItem (h : Patched o w p) (hi : DeepPlace p w i) :
    Patched o w (p.appendItem i ls) := by
  refine h.insert hi.place (Line.nameless_indentAll ?_)
  unfold itemDepth
  cases hitems : p.items i with
  | nil =>
    have hdepth := hi.lt_depth
    simp only [List.head?_nil, Option.bind_none, Option.getD_none]
    omega
  | cons j rest =>
    have hdeep : DeepPlace p w j := hi.of_mem_items (by simp [hitems])
    rw [List.head?_cons, Option.bind_some, hdeep.place.indent?, Option.getD_some]
    exact hdeep.lt_depth

theorem deepPlace_of_findItem? (hi : DeepPlace p w i) (hj : p.findItem? i name = some j) :
    DeepPlace p w j ∧ i < j :=
  have hmem : j ∈ p.items i := List.mem_of_find?_eq_some hj
  ⟨hi.of_mem_items hmem, (mem_items_iff.mp hmem).1⟩

end Patched

end Outline

end BlockFlow
