import BlockFlow.Proofs.Outline.Fields
import BlockFlow.Proofs.Outline.Keys
import Mathlib.Data.List.Basic

/-!
Writing a scalar under a key. Main statement: the line that is written is found again under its key,
with all other entries as they were, exactly when nothing in the key is escaped.
-/

namespace BlockFlow.Outline

open Text.Quoted (IsBare)

variable {o p : Outline} {i j c d : Nat} {key : String} {text k l : Line}
  {above block below : List Line}

/-- The line of an item that holds an entry. -/
def itemLine (d : Nat) (key : String) (text : Line) : Line :=
  Line.deeper d ('-' :: ' ' :: keyed (renderString key) text)

/-- The line of a scalar that is written: the one its key has, or else one behind the block. -/
def scalarLine (o : Outline) (i : Nat) (key : String) : Nat := (o.find? i key).getD (o.blockEnd i)

/-- What is written there. -/
def scalarText (o : Outline) (i : Nat) (key : String) (text : Line) : Line :=
  if o.scalarLine i key = i then itemLine (o.depth i) key text
  else entryLine (o.entryDepth i) key text

/-- In `p`, a scalar is found that was put under a key of the block at `i` in `o`. The keys are
those there were, with this key in its place or behind them, and the other entries have their lines.
-/
structure ReadsBack (o p : Outline) (i : Nat) (key : String) (text : Line) : Prop where
  found : p.find? i key = some (o.scalarLine i key)
  line : p.line (o.scalarLine i key) = o.scalarText i key text
  keys : p.keys i =
    if key.toList ∈ o.keys i then o.keys i else o.keys i ++ [key.toList]
  others : (p.fields i).eraseIdx ((o.keys i).idxOf key.toList) =
    (o.fields i).eraseIdx ((o.keys i).idxOf key.toList)

section

variable {front old back : List (Line × List Line)} {ls : List Line}

theorem keys_of_fields (hold : o.fields i = front ++ (old ++ back))
    (hnew : p.fields i = front ++ (k, ls) :: back) (hfresh : ∀ f ∈ front, f.1 ≠ k)
    (hkey : (∃ ls', old = [(k, ls')]) ∨ old = [] ∧ back = []) :
    p.keys i = (if k ∈ o.keys i then o.keys i else o.keys i ++ [k]) ∧
      (p.fields i).eraseIdx ((o.keys i).idxOf k) = (o.fields i).eraseIdx ((o.keys i).idxOf k) := by
  have hnot : k ∉ front.map (·.1) := by
    intro hmem
    obtain ⟨f, hf, heq⟩ := List.mem_map.mp hmem
    exact hfresh f hf heq
  rw [← map_fields p, ← map_fields o, hold, hnew]
  rcases hkey with ⟨ls', rfl⟩ | ⟨rfl, rfl⟩
  · have hidx : ((front ++ ([(k, ls')] ++ back)).map (·.1)).idxOf k = front.length := by
      rw [List.map_append, List.idxOf_append_of_notMem hnot]
      simp
    rw [hidx, List.eraseIdx_append_of_length_le (Nat.le_refl _),
      List.eraseIdx_append_of_length_le (Nat.le_refl _)]
    simp
  · have hidx : (front.map (·.1)).idxOf k = front.length := by
      rw [List.idxOf_of_notMem hnot, List.length_map]
    rw [List.nil_append, List.append_nil, hidx, List.eraseIdx_append_of_length_le (Nat.le_refl _),
      List.eraseIdx_of_length_le (Nat.le_refl _)]
    simpa using hnot

end

theorem indent?_entryLine (c : Nat) (key : String) (text : Line) :
    (entryLine c key text).indent? = some c := by
  rw [entryLine, Line.indent?_deeper, keyed, renderString, indent?_renderChars]
  rfl

theorem key?_entryLine_iff (c : Nat) (key : String) (text : Line) :
    (entryLine c key text).key? = some key.toList ↔
    ∀ x ∈ key.toList, IsBare x := by
  rw [entryLine, Line.key?_deeper, renderString, key?_written_iff]

namespace Room

/-- A scalar put into the room is read back exactly when its key is. -/
theorem readsBack (h : Room o i c above block below) (hcol : o.Column i c)
    (hc : o.entryDepth i = c)
    (hline : o.scalarLine i key = i + 1 + above.length)
    (hset : o.setScalar i key text = o.splice (i + 1 + above.length)
      (i + 1 + above.length + block.length) [entryLine c key text])
    (hfresh : ∀ e ∈ o.ownEntry i ++ entriesAt c (above.zipIdx (i + 1)), e.2 ≠ key.toList)
    (hblock : (∃ ls, fieldsAt c block below = [(key.toList, ls)]) ∨
      fieldsAt c block below = [] ∧
        fieldsAt c (rest o i below) (below.drop (rest o i below).length) = []) :
    ReadsBack o (o.setScalar i key text) i key text ↔ ∀ x ∈ key.toList, IsBare x := by
  have hindent := indent?_entryLine c key text
  have hwritten : (o.setScalar i key text).line (i + 1 + above.length) = entryLine c key text := by
    rw [hset]
    exact line_splice_self (h.le_size hcol.indent)
  rw [← key?_entryLine_iff c key text]
  constructor
  · intro hread
    have hfound := hread.found
    rw [hline] at hfound
    rcases find?_cases hfound with ⟨heq, -, -⟩ | hentry
    · omega
    · rw [← hwritten, hentry.key]
  · intro hkey
    have hold := h.fields_eq hcol
    have hnew := h.fields_splice hcol hindent hkey hset
    have hfront : ∀ f ∈ (o.ownEntry i).map (fun e => (e.2, o.fieldLines i e.1)) ++
        fieldsAt c above (block ++ below), f.1 ≠ key.toList := by
      rw [← map_entriesAt (Nat.lt_succ_self i) h.lines, ← List.map_append]
      intro f hf
      obtain ⟨e, he, rfl⟩ := List.mem_map.mp hf
      exact hfresh e he
    obtain ⟨hkeys, hothers⟩ := keys_of_fields hold hnew hfront hblock
    refine ⟨?_, ?_, hkeys, hothers⟩
    · rw [hline]
      exact h.find?_splice hcol hindent hkey hset hfresh
    · rw [hline, hwritten, scalarText, hline, if_neg (by omega), hc]

end Room

/-- A scalar with a new key stands behind the block. -/
theorem readsBack_of_none (hcol : o.Column i (o.entryDepth i)) (hnone : o.find? i key = none) :
    ReadsBack o (o.setScalar i key text) i key text ↔ ∀ x ∈ key.toList, IsBare x := by
  have hroom := Room.behind hcol
  have hlength := length_body hcol.indent
  refine hroom.readsBack hcol rfl ?_ ?_ ?_ (.inr ⟨rfl, ?_⟩)
  · rw [scalarLine, hnone, Option.getD_none, hlength]
  · rw [setScalar, hnone, hlength]
    rfl
  · intro e he heq
    have hentries : o.entries i = o.ownEntry i ++ entriesAt (o.entryDepth i)
        ((o.body i).zipIdx (i + 1)) := hcol.entries_eq
    rw [← hentries] at he
    rw [find?, Option.map_eq_none_iff, List.find?_eq_none] at hnone
    exact hnone e he (by simpa using heq)
  · have hreach := reach_drop (o.depth i) (o.line i).isItem (o.lines.drop (i + 1))
    rw [List.drop_drop, ← blockEnd_of_indent? hcol.indent] at hreach
    rw [Room.rest, hreach]
    rfl

/-- A scalar whose key has a line of its own stands in place of all lines of the entry. -/
theorem readsBack_of_ne (hcol : o.Column i (o.entryDepth i)) (hfind : o.find? i key = some j)
    (hne : j ≠ i) :
    ReadsBack o (o.setScalar i key text) i key text ↔ ∀ x ∈ key.toList, IsBare x := by
  obtain ⟨hij, hj, hindent, hitem, hkey⟩ := hcol.of_find? hfind hne
  have hroom := Room.at_ hcol hij hj hindent hitem
  have hsize := lt_size_of_indent? hindent
  have habove : i + 1 + ((o.lines.drop (i + 1)).take (j - (i + 1))).length = j := by
    rw [List.length_take_of_le (by rw [List.length_drop]; rw [size] at hsize; omega)]
    omega
  have hlength := length_body hindent
  refine hroom.readsBack hcol rfl ?_ ?_ ?_ (.inl (fieldsAt_entry hindent hitem hkey _))
  · rw [scalarLine, hfind, Option.getD_some, habove]
  · rw [setScalar, hfind, habove, List.length_cons]
    simp only [if_neg hne, depth_of_indent? hindent]
    rw [← hlength, Nat.add_right_comm]
    rfl
  · -- The entry that is found is the first one with its key.
    refine fun e he heq => ?_
    obtain ⟨e', hfirst⟩ := Option.isSome_iff_exists.mp
      (List.find?_isSome (p := (·.2 = key.toList)).mpr ⟨e, he, by simpa using heq⟩)
    have hlt := Room.lt_of_mem_front (List.mem_of_find?_eq_some hfirst)
    rw [find?, hroom.entries_eq hcol, List.find?_append, hfirst, Option.some_or, Option.map_some,
      Option.some.injEq] at hfind
    omega

theorem trimStart_itemLine (d : Nat) (key : String) (text : Line) :
    Text.trimStart (itemLine d key text) = '-' :: ' ' :: keyed (renderString key) text := by
  rw [itemLine, Line.deeper, Text.trimStart_spaces]
  exact Text.trimStart_of_head (by simp [Text.isBlank])

theorem indent?_itemLine (d : Nat) (key : String) (text : Line) :
    (itemLine d key text).indent? = some d := by
  rw [itemLine, Line.indent?_deeper, indent?_of_head (by decide) (by decide)]
  rfl

theorem isItem_itemLine (d : Nat) (key : String) (text : Line) :
    (itemLine d key text).isItem = true := by
  rw [Line.isItem, trimStart_itemLine, Line.startsItem]

theorem itemKey?_itemLine_iff (d : Nat) (key : String) (text : Line) :
    (itemLine d key text).itemKey? = some key.toList ↔
    ∀ x ∈ key.toList, IsBare x := by
  have hspace := Text.trimStart_spaces 1 (keyed (renderString key) text)
  rw [Line.itemKey?, trimStart_itemLine, List.drop_succ_cons, List.drop_zero,
    show ' ' :: keyed (renderString key) text = Text.spaces 1 ++ keyed (renderString key) text from
      rfl, hspace, ← key?_written_iff key.toList text]
  rfl

/-- An item whose line is written anew keeps all lines below it. -/
theorem Column.setLine (hcol : o.Column i c) (hitem : (o.line i).isItem = true)
    (hl : l.indent? = some (o.depth i)) (hdash : l.isItem = true) (hp : p = o.setLine i l) :
    p.line i = l ∧ p.Column i c ∧ p.body i = o.body i ∧
      p.lines.drop (p.blockEnd i) = o.lines.drop (o.blockEnd i) := by
  have hsize := lt_size_of_indent? hcol.indent
  rw [setLine_eq_splice hsize] at hp
  have hline : p.line i = l := by
    rw [hp]
    exact line_splice_self (Nat.le_of_lt hsize)
  have hdrop : p.lines.drop (i + 1) = o.lines.drop (i + 1) := by
    have hlength : (o.lines.take i ++ [l]).length = i + 1 := by
      rw [List.length_append, List.length_take_of_le (Nat.le_of_lt hsize), List.length_singleton]
    rw [hp, splice]
    exact List.drop_left' hlength
  have hindent : (p.line i).indent? = some (o.depth i) := by rw [hline, hl]
  have hdepth := depth_of_indent? hindent
  have hbody : p.body i = o.body i := by
    rw [body_of_indent? hindent, body_of_indent? hcol.indent, hline, hdash, hitem, hdrop]
  have hbehind : p.lines.drop (p.blockEnd i) = o.lines.drop (o.blockEnd i) := by
    have hrest := congrArg (List.drop (o.body i).length) hdrop
    rw [List.drop_drop, List.drop_drop, length_body hcol.indent] at hrest
    rw [← length_body hindent, hbody, length_body hcol.indent, hrest]
  refine ⟨hline, ⟨by rw [hindent, hdepth], by rw [hdepth]; exact hcol.deeper, ?_, ?_⟩, hbody,
    hbehind⟩
  · rw [hdepth]
    exact fun _ => hcol.item hitem
  · rw [hline, hdash]
    intro hnot
    cases hnot

/-- A scalar whose key stands on the line of the item stands there again. -/
theorem readsBack_of_self (hcol : o.Column i (o.entryDepth i)) (hfind : o.find? i key = some i) :
    ReadsBack o (o.setScalar i key text) i key text ↔ ∀ x ∈ key.toList, IsBare x := by
  have hscalar : o.scalarLine i key = i := by rw [scalarLine, hfind, Option.getD_some]
  obtain ⟨hitem, hkey⟩ : (o.line i).isItem = true ∧ (o.line i).itemKey? = some key.toList := by
    rcases find?_cases hfind with ⟨-, hitem, hkey⟩ | hentry
    · exact ⟨hitem, hkey⟩
    · exact absurd hentry.above (Nat.lt_irrefl i)
  have hset : o.setScalar i key text = o.setLine i (itemLine (o.depth i) key text) := by
    rw [setScalar, hfind]
    simp only [if_true]
    rfl
  generalize o.setScalar i key text = p at hset
  have hdash := isItem_itemLine (o.depth i) key text
  obtain ⟨hline, hcol', hbody, hbehind⟩ :=
    hcol.setLine hitem (indent?_itemLine (o.depth i) key text) hdash hset
  rw [← itemKey?_itemLine_iff (o.depth i) key text, ← hline]
  constructor
  · intro hread
    have hfound := hread.found
    rw [hscalar] at hfound
    rcases find?_cases hfound with ⟨-, -, hkey⟩ | hentry
    · exact hkey
    · exact absurd hentry.above (Nat.lt_irrefl i)
  · intro hkey'
    have hown : o.ownEntry i = [(i, key.toList)] := by simp [ownEntry, hitem, hkey]
    have hown' : p.ownEntry i = [(i, key.toList)] := by
      rw [← hline] at hdash
      simp [ownEntry, hdash, hkey']
    have hold : o.fields i = [] ++ ([(key.toList, o.fieldLines i i)] ++
        fieldsAt (o.entryDepth i) (o.body i) (o.lines.drop (o.blockEnd i))) := by
      rw [hcol.fields_eq, hown]
      rfl
    have hnew : p.fields i = [] ++ (key.toList, p.fieldLines i i) ::
        fieldsAt (o.entryDepth i) (o.body i) (o.lines.drop (o.blockEnd i)) := by
      rw [hcol'.fields_eq, hown', hbody, hbehind]
      rfl
    obtain ⟨hkeys, hothers⟩ := keys_of_fields hold hnew (List.forall_mem_nil _) (.inl ⟨_, rfl⟩)
    refine ⟨?_, ?_, hkeys, hothers⟩
    · rw [hscalar, find?, hcol'.entries_eq, hown']
      simp
    · rw [hscalar, hline, scalarText, hscalar, if_pos rfl]

/-- A scalar that is put under a key is read back, with all other entries as they were, exactly when
nothing in the key is escaped. This holds for every line with content whose block is not a list. -/
theorem readsBack_iff (o : Outline) {i d : Nat} (hi : (o.line i).indent? = some d)
    (hblock : (o.line i).isItem = false →
      ∀ l, firstContent? (o.body i) = some l → l.isItem = false) (key : String) (text : Line) :
    ReadsBack o (o.setScalar i key text) i key text ↔ ∀ c ∈ key.toList, IsBare c := by
  have hcol := column_entryDepth hi hblock
  cases hfind : o.find? i key with
  | none => exact readsBack_of_none hcol hfind
  | some j =>
    by_cases hself : j = i
    · exact readsBack_of_self hcol (hself ▸ hfind)
    · exact readsBack_of_ne hcol hfind hself

/-- Two variables, the second with a list. -/
def counters : Outline := ofChars "variables:\n  up: 1\n  down:\n    - 2\n".toList

theorem counters_readsBack : (counters.line 0).indent? = some 0 ∧
    ReadsBack counters (counters.setScalar 0 "down" ['3']) 0 "down" ['3'] ∧
    ReadsBack counters (counters.setScalar 0 "a: b" ['3']) 0 "a: b" ['3'] := by
  have hi : (counters.line 0).indent? = some 0 := by decide +kernel
  have hblock : (counters.line 0).isItem = false →
      ∀ l, firstContent? (counters.body 0) = some l → l.isItem = false := by
    have hfirst : firstContent? (counters.body 0) = some "  up: 1".toList := by decide +kernel
    rintro - l hl
    rw [hfirst] at hl
    cases hl
    decide +kernel
  have hdown : ("down".toList.all fun c => IsBare c) = true := by decide +kernel
  have hpair : ("a: b".toList.all fun c => IsBare c) = true := by decide +kernel
  exact ⟨hi,
    (readsBack_iff counters hi hblock "down" ['3']).mpr fun c hc =>
      of_decide_eq_true (List.all_eq_true.mp hdown c hc),
    (readsBack_iff counters hi hblock "a: b" ['3']).mpr fun c hc =>
      of_decide_eq_true (List.all_eq_true.mp hpair c hc)⟩

/-- A key with a quote in it is lost. -/
theorem not_readsBack_quote : ¬ ∀ (o : Outline) (i d : Nat), (o.line i).indent? = some d →
    ((o.line i).isItem = false → ∀ l, firstContent? (o.body i) = some l → l.isItem = false) →
    ∀ (key : String) (text : Line), text ≠ [] → '\n' ∉ text →
      ReadsBack o (o.setScalar i key text) i key text := by
  intro h
  have hread := h (ofChars "variables:".toList) 0 0 (by decide +kernel)
    (by rintro - l hl; cases hl) "a\"b" ['1'] (by decide) (by decide)
  exact absurd hread.found (by decide +kernel)

end BlockFlow.Outline
