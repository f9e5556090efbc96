import BlockFlow.Proofs.Form.Context

/-!
A collection that stands on one line is written out below its key. Main statement: this is what is done
with an entry of a page before anything is added below it.
-/

namespace BlockFlow

open Form (ofValue headLine bodyLines Solid)

namespace Form

theorem height_string (s : String) : (leaf (.string s)).height = 0 := by
  rw [Leaf.string]
  split <;> rfl

mutual

/-- Values that are written out are not nested deeper. -/
theorem height_ofValue : (f : Form) → f.isSound → (ofValue f.value).height ≤ f.height
  | leaf (.plain cs), h => by
    obtain ⟨hmap, hseq⟩ := value?_plain_scalar (value?_of_isPlainText h)
    rw [Form.value]
    cases hvalue : (Leaf.plain cs).value with
    | map es => exact absurd hvalue (hmap es)
    | seq vs => exact absurd hvalue (hseq vs)
    | str s => exact (height_string s).le
    | _ => exact Nat.zero_le _
  | leaf (.quoted cs), _ => (height_string (String.ofList cs)).le
  | leaf .noItems, _ => le_rfl
  | leaf .noEntries, _ => le_rfl
  | bare, _ => le_rfl
  | map [], _ => by simp [Form.value, entryValues, ofValue, height, entriesHeight, Leaf.height]
  | map (e :: es), h => Nat.succ_le_succ (height_ofEntries (e :: es) (isSound_map.mp h).2.2)
  | seq [], _ => by simp [Form.value, itemValues, ofValue, height, itemsHeight, Leaf.height]
  | seq (f :: items), h => Nat.succ_le_succ (height_ofItems (f :: items) (isSound_seq.mp h).2)

theorem height_ofEntries : (es : List (String × Form)) → entriesSound es →
    entriesHeight (ofEntries (entryValues es)) ≤ entriesHeight es
  | [], _ => le_rfl
  | (_, f) :: es, h => by
    obtain ⟨-, hf, hrest⟩ := entriesSound_cons.mp h
    exact max_le_max (height_ofValue f hf) (height_ofEntries es hrest)

theorem height_ofItems : (items : List Form) → itemsSound items →
    itemsHeight (ofItems (itemValues items)) ≤ itemsHeight items
  | [], _ => le_rfl
  | f :: items, h => by
    obtain ⟨hf, hrest⟩ := itemsSound_cons.mp h
    exact max_le_max (height_ofValue f hf) (height_ofItems items hrest)

end

end Form

namespace Page

mutual

/-- The page of a form, with no collections on one line. -/
def ofForm : Form → Page
  | .leaf l => leaf l
  | .bare => bare
  | .map entries => map (ofEntries entries)
  | .seq items => seq (ofItems items)

def ofEntries : List (String × Form) → List (String × Page)
  | [] => []
  | (key, f) :: rest => (key, ofForm f) :: ofEntries rest

def ofItems : List Form → List Page
  | [] => []
  | f :: rest => ofForm f :: ofItems rest

end

variable {φ : Form → Form} {q : Page} {C : Context} {key : String}

mutual

theorem form_ofForm : (f : Form) → (ofForm f).form φ = f
  | .leaf _ => rfl
  | .bare => rfl
  | .map entries => congrArg Form.map (entryForms_ofEntries entries)
  | .seq items => congrArg Form.seq (itemForms_ofItems items)

theorem entryForms_ofEntries : (entries : List (String × Form)) →
    entryForms φ (ofEntries entries) = entries
  | [] => rfl
  | (key, f) :: rest => by
    rw [ofEntries, entryForms, form_ofForm f, entryForms_ofEntries rest]

theorem itemForms_ofItems : (items : List Form) → itemForms φ (ofItems items) = items
  | [] => rfl
  | f :: rest => by
    rw [ofItems, itemForms, form_ofForm f, itemForms_ofItems rest]

end

mutual

theorem isSound_ofForm : (f : Form) → (ofForm f).isSound = f.isSound
  | .leaf _ => rfl
  | .bare => rfl
  | .map entries => by
    have hkeys : (ofEntries entries).map (·.1) = entries.map (·.1) := by
      rw [← keys_entryForms (φ := id), entryForms_ofEntries]
    have hempty : (ofEntries entries).isEmpty = entries.isEmpty := by cases entries <;> rfl
    rw [ofForm, isSound, Form.isSound, hkeys, hempty, entriesSound_ofEntries entries]
  | .seq items => by
    have hempty : (ofItems items).isEmpty = items.isEmpty := by cases items <;> rfl
    rw [ofForm, isSound, Form.isSound, hempty, itemsSound_ofItems items]

theorem entriesSound_ofEntries : (entries : List (String × Form)) →
    entriesSound (ofEntries entries) = Form.entriesSound entries
  | [] => rfl
  | (key, f) :: rest => by
    rw [ofEntries, entriesSound, Form.entriesSound, isSound_ofForm f, entriesSound_ofEntries rest]

theorem itemsSound_ofItems : (items : List Form) → itemsSound (ofItems items) = Form.itemsSound items
  | [] => rfl
  | f :: rest => by
    rw [ofItems, itemsSound, Form.itemsSound, isSound_ofForm f, itemsSound_ofItems rest]

end

/-- What stands behind a key gives way to lines below it: a collection is written out, a scalar is
dropped. -/
def opened : Page → Page
  | leaf _ => bare
  | folded f => ofForm (ofValue f.value)
  | p => p

theorem isSound_opened (h : q.isSound) : q.opened.isSound := by
  cases q with
  | leaf l => rfl
  | folded f =>
    rw [opened, isSound_ofForm]
    exact (Form.ofValue_faithful _ (isFoldable_iff.mp h).2.2.2).1
  | _ => exact h

theorem height_opened (h : q.isSound) : q.opened.unfolded.height ≤ q.unfolded.height := by
  cases q with
  | leaf l => exact Nat.zero_le _
  | folded f =>
    rw [opened, unfolded, form_ofForm]
    exact Form.height_ofValue f (isFoldable_iff.mp h).2.1
  | _ => exact le_rfl

/-- Collections keep their value. -/
theorem value_opened (h : q.isSound) (hleaf : ∀ l, q ≠ leaf l) :
    q.opened.unfolded.value = q.unfolded.value := by
  cases q with
  | leaf l => exact absurd rfl (hleaf l)
  | folded f =>
    rw [opened, unfolded, form_ofForm]
    exact (Form.ofValue_faithful _ (isFoldable_iff.mp h).2.2.2).2
  | _ => rfl

/-- The outline of a page. -/
def outline (p : Page) : Outline := ⟨p.written.lines, true⟩

theorem lines_written_ne_nil (h : q.isSound) (hblock : q.isBlock) : q.written.lines ≠ [] := by
  rcases written_eq_bare_or_lines_ne_nil h with hbare | hne
  · cases q with
    | map entries => cases hbare
    | seq items => cases hbare
    | _ => cases hblock
  · exact hne

theorem outline_chars (h : q.isSound) (hblock : q.isBlock) :
    Outline.ofChars q.written.chars = q.outline :=
  Form.outline_of_isLineChar (all_isLineChar_written q h) (lines_written_ne_nil h hblock)

theorem toChars_outline (h : q.isSound) (hblock : q.isBlock) : q.outline.toChars = q.written.chars :=
  Form.toChars_lines (lines_written_ne_nil h hblock)

/-- The lines that a value on the line of its key gives way to. -/
theorem expanded_written (h : q.isSound) (hheight : q.unfolded.height ≤ 128) {l : Form.Leaf}
    (hq : q.written = .leaf l) : Outline.expanded l.text = q.opened.written.lines ∧
      (∀ l, q.opened.written ≠ .leaf l) ∧ Solid q.opened.written.lines := by
  cases q with
  | leaf l' =>
    cases hq
    exact ⟨Form.expanded_leaf h, nofun, List.forall_mem_nil _⟩
  | folded f =>
    cases hq
    obtain ⟨hblock, hf, hfits, hfaithful⟩ := isFoldable_iff.mp h
    have hload := Form.load?_folded hf hfits hblock
    rw [if_pos (by simpa [unfolded, form] using hheight)] at hload
    have hne : ∀ l, ofValue f.value ≠ .leaf l := by
      cases f with
      | map entries =>
        obtain ⟨e, es, rfl⟩ := List.exists_cons_of_ne_nil (Form.isSound_map.mp hf).1
        exact nofun
      | seq items =>
        obtain ⟨e, es, rfl⟩ := List.exists_cons_of_ne_nil (Form.isSound_seq.mp hf).1
        exact nofun
      | _ => cases hblock
    have hsolid := Form.solid_lines _ (Form.ofValue_faithful _ hfaithful).1
    rw [Form.bodyLines_of_not_leaf hne] at hsolid
    rw [opened, written, form_ofForm]
    refine ⟨?_, hne, hsolid⟩
    rw [Form.lines_ofValue f.value hfaithful hne, Form.Leaf.text, Outline.expanded, hload]
    cases f with
    | map entries => rfl
    | seq items => rfl
    | _ => cases hblock
  | _ => cases hq

theorem text_ne_nil (h : q.isSound) {l : Form.Leaf} (hq : q.written = .leaf l) : l.text ≠ [] := by
  cases q with
  | leaf l' =>
    cases hq
    exact Slot.text_ne_nil h
  | folded f =>
    cases hq
    obtain ⟨first, last, inner, htext, -⟩ := Form.exists_brackets_folded h
    rw [Form.Leaf.text, htext]
    exact List.cons_ne_nil _ _
  | _ => cases hq

/-- What stands behind the key of an entry. -/
theorem value?_written (hkey : Form.isKey key) (h : q.isSound) (c : Nat) :
    ((headLine key q.written).deeper c).value? = some (Form.written q.written) := by
  cases q with
  | folded f => exact Form.value?_folded hkey h c
  | leaf l => exact Form.value?_headLine (f := .leaf l) hkey h c
  | _ => exact Form.value?_headLine (f := .bare) hkey rfl c

namespace Context

theorem lines_outline (hC : C.IsApart onLine) : (C.plug q).outline.lines = C.front onLine ++
    (headLine C.key q.written).deeper C.column ::
      ((q.written.bodyLines.map (·.deeper 2)).map (·.deeper C.column) ++ C.back onLine) := by
  rw [outline, written, lines_plug hC, Form.entryLines_eq]
  rfl

theorem line_outline (hC : C.IsApart onLine) : (C.plug q).outline.line (C.front onLine).length =
    (headLine C.key q.written).deeper C.column := by
  apply Outline.line_eq_of_getElem?
  rw [lines_outline hC, List.getElem?_append_right le_rfl, Nat.sub_self]
  rfl

/-- The line of an entry gives way to the lines of another value. -/
theorem splice_outline (hC : C.IsApart onLine) {l : Form.Leaf} (hq : q.written = .leaf l)
    {p : Page} (hp : ∀ l, p.written ≠ .leaf l) (hkey : Form.isKey C.key)
    (hsolid : Solid p.written.lines) :
    (C.plug q).outline.splice (C.front onLine).length ((C.front onLine).length + 1)
      (Outline.keyLine C.column C.key :: Line.indentAll (C.column + 2) p.written.lines) =
        (C.plug p).outline := by
  have hlines := lines_outline (q := q) hC
  rw [hq, show bodyLines (.leaf l) = [] from rfl, List.map_nil, List.map_nil, List.nil_append] at hlines
  have htake : (C.plug q).outline.lines.take (C.front onLine).length = C.front onLine := by
    rw [hlines, List.take_left]
  have hdrop : (C.plug q).outline.lines.drop ((C.front onLine).length + 1) = C.back onLine := by
    rw [hlines, List.drop_length_add_append]
    rfl
  have hentry : (Form.entryLines C.key p.written p.written.lines).map (·.deeper C.column) =
      Outline.keyLine C.column C.key :: Line.indentAll (C.column + 2) p.written.lines := by
    rw [Form.entryLines_of_not_leaf hp, List.map_cons, Slot.map_deeper_deeper,
      Line.indentAll_eq_map hsolid, Outline.keyLine, Form.renderString_of_isKey hkey]
  refine congrArg (Outline.mk · true) ?_
  rw [htake, hdrop, ← hentry, List.append_assoc]
  exact (lines_plug hC).symm

/-- Before anything is added below an entry, what stands behind its key is written out. -/
theorem ensureBlock_outline (hC : C.IsApart onLine) (h : (C.plug q).isSound)
    (hheight : (C.plug q).unfolded.height ≤ 128) {i : Nat}
    (hfound : (C.plug q).outline.findBelow? i C.key = some (C.front onLine).length) :
    (C.plug q).outline.ensureBlock i C.key = ((C.plug q.opened).outline, (C.front onLine).length) := by
  have hq := (isSound_plug.mp h).1
  have hkey := isKey_key h
  have hline := line_outline (q := q) hC
  have hvalue : (C.plug q).outline.value (C.front onLine).length = Form.written q.written := by
    rw [Outline.value, hline, value?_written hkey hq]
    rfl
  have hdepth : (C.plug q).outline.depth (C.front onLine).length = C.column := by
    rw [Outline.depth, hline, Line.indent?_deeper, Form.indent?_headLine hkey]
    rfl
  rw [Outline.ensureBlock, hfound]
  simp only [hvalue, hdepth]
  by_cases hleaf : ∃ l, q.written = .leaf l
  · obtain ⟨l, hl⟩ := hleaf
    obtain ⟨hexpanded, hopened, hsolid⟩ := expanded_written hq (height_le_plug.trans hheight) hl
    have hempty : l.text.isEmpty = false := by simpa using text_ne_nil hq hl
    rw [hl, Form.written, hempty, if_neg Bool.false_ne_true, hexpanded,
      splice_outline hC hl hopened hkey hsolid]
  · have hnone : Form.written q.written = [] ∧ q.opened = q := by
      cases q with
      | leaf l => exact absurd ⟨l, rfl⟩ hleaf
      | folded f => exact absurd ⟨_, rfl⟩ hleaf
      | _ => exact ⟨rfl, rfl⟩
    rw [hnone.1, hnone.2]
    rfl

end Context

end Page

end BlockFlow
