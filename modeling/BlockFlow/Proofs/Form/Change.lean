import BlockFlow.Proofs.Form.Read
import BlockFlow.Proofs.Form.Slot
import BlockFlow.Proofs.Outline.Change

/-!
Changes of an outline in the place of an entry. Main statements: each makes the outline of the form
with the entries changed.
-/

namespace BlockFlow

namespace Form

/-- Puts a value under a key. -/
def put (k : String) (f : Form) : List (String × Form) → List (String × Form)
  | [] => [(k, f)]
  | (k', g) :: es => if k' = k then (k, f) :: es else (k', g) :: put k f es

/-- Leaves out the entry of a key. -/
def erase (k : String) (es : List (String × Form)) : List (String × Form) :=
  es.filter fun e => e.1 ≠ k

variable {k : String} {f g : Form} {es es₁ es₂ : List (String × Form)}

theorem put_of_not_mem (h : k ∉ es.map (·.1)) : put k f es = es ++ [(k, f)] := by
  induction es with
  | nil => rfl
  | cons e es ih =>
    obtain ⟨k', g⟩ := e
    simp only [List.map_cons, List.mem_cons, not_or] at h
    rw [put, if_neg (Ne.symm h.1), ih h.2, List.cons_append]

theorem put_append (h : k ∉ es₁.map (·.1)) :
    put k f (es₁ ++ (k, g) :: es₂) = es₁ ++ (k, f) :: es₂ := by
  induction es₁ with
  | nil => rw [List.nil_append, put, if_pos rfl, List.nil_append]
  | cons e es₁ ih =>
    obtain ⟨k', g'⟩ := e
    simp only [List.map_cons, List.mem_cons, not_or] at h
    rw [List.cons_append, put, if_neg (Ne.symm h.1), ih h.2, List.cons_append]

theorem erase_of_not_mem (h : k ∉ es.map (·.1)) : erase k es = es := by
  refine List.filter_eq_self.mpr fun e he => ?_
  have hne : e.1 ≠ k := fun heq => h (heq ▸ List.mem_map_of_mem he)
  simpa using hne

theorem erase_append (h₁ : k ∉ es₁.map (·.1)) (h₂ : k ∉ es₂.map (·.1)) :
    erase k (es₁ ++ (k, g) :: es₂) = es₁ ++ es₂ := by
  have hrest := erase_of_not_mem h₂
  have hfront := erase_of_not_mem h₁
  rw [erase] at hrest hfront ⊢
  rw [List.filter_append, List.filter_cons_of_neg (by simp), hrest, hfront]

/-- The entry of a key. -/
theorem exists_split {α : Type} {es : List (String × α)} (h : k ∈ es.map (·.1))
    (hnodup : (es.map (·.1)).Nodup) : ∃ es₁ g es₂,
      es = es₁ ++ (k, g) :: es₂ ∧ k ∉ es₁.map (·.1) ∧ k ∉ es₂.map (·.1) := by
  obtain ⟨⟨k', g⟩, hmem, rfl⟩ := List.mem_map.mp h
  obtain ⟨es₁, es₂, rfl⟩ := List.append_of_mem hmem
  simp only [List.map_append, List.map_cons] at hnodup
  rw [List.nodup_append, List.nodup_cons] at hnodup
  obtain ⟨-, ⟨hrest, -⟩, hfront⟩ := hnodup
  exact ⟨es₁, g, es₂, rfl, fun hin => hfront k' hin k' List.mem_cons_self rfl, hrest⟩

theorem value?_plain_scalar {cs : List Char} {v : Yaml.Value} (h : Yaml.Plain.value? cs = some v) :
    (∀ entries, v ≠ .map entries) ∧ ∀ items, v ≠ .seq items := by
  unfold Yaml.Plain.value? at h
  constructor
  all_goals
    rintro x rfl
    split at h
    · cases h
    · split at h
      · cases h
      · split at h
        · cases h
        · cases h
        · split at h <;> cases h

/-- Nothing is left of a scalar that gives way to entries. -/
theorem expanded_leaf {l : Leaf} (hl : l.isSound) : Outline.expanded l.text = [] := by
  rw [Outline.expanded, load?_leaf hl]
  cases l with
  | plain cs =>
    obtain ⟨hmap, hseq⟩ := value?_plain_scalar (value?_of_isPlainText hl)
    split
    · rename_i heq
      exact absurd (Option.some.inj heq) (hmap _)
    · rename_i heq
      exact absurd (Option.some.inj heq) (hseq _)
    · rfl
  | quoted cs => rfl
  | noItems => rfl
  | noEntries => rfl

end Form

namespace Slot

open Form (headLine bodyLines mappingLines entryLines Solid put erase)

variable {s : Slot} {f g : Form} {es es₁ es₂ : List (String × Form)} {k : String}
  {ls : List Line}

theorem splice_fill (hf : Solid f.bodyLines) :
    (s.fill f).splice s.line ((s.fill f).blockEnd s.line) ls = ⟨s.above ++ ls ++ s.rest, true⟩ := by
  have htake : (s.fill f).lines.take s.line = s.above := by
    rw [lines_fill, line, List.take_left]
  have hdrop : (s.fill f).lines.drop (s.line + 1 + f.bodyLines.length) = s.rest := by
    rw [← List.drop_drop, drop_fill, List.drop_left' (List.length_map _)]
  rw [Outline.splice, blockEnd_fill hf, htake, hdrop]
  rfl

theorem replace_fill (hf : Solid f.bodyLines) (g : Form) :
    (s.fill f).splice s.line ((s.fill f).blockEnd s.line)
      ((entryLines s.key g g.lines).map (·.deeper s.column)) = s.fill g := splice_fill hf

theorem solid_map (hes : Form.entriesSound es) : Solid (bodyLines (.map es)) :=
  Form.solid_mappingLines es hes

theorem insert_fill (hes : Form.entriesSound es) (ds : List (String × Form)) :
    (s.fill (.map es)).insert ((s.fill (.map es)).blockEnd s.line)
      ((mappingLines ds).map (·.deeper (s.column + 2))) = s.fill (.map (es ++ ds)) := by
  let block := s.above ++ Line.deeper s.column (s.key.toList ++ [':']) ::
    (mappingLines es).map (·.deeper (s.column + 2))
  have hlines : (s.fill (.map es)).lines = block ++ s.rest := by
    rw [lines_fill]
    simp [block, headLine, bodyLines_map]
  have hend : (s.fill (.map es)).blockEnd s.line = block.length := by
    rw [blockEnd_fill (solid_map hes), bodyLines_map]
    simp only [block, line, List.length_append, List.length_cons, List.length_map]
    omega
  have hfill : (s.fill (.map (es ++ ds))).lines =
      block ++ (mappingLines ds).map (·.deeper (s.column + 2)) ++ s.rest := by
    rw [lines_fill, bodyLines_map, Form.mappingLines_append]
    simp [block, headLine]
  rw [Outline.insert, Outline.splice, hend, hlines, List.take_left, List.drop_left, ← hfill]
  rfl

theorem entryDepth_fill (hes : Form.entriesSound es) :
    (s.fill (.map es)).entryDepth s.line = s.column + 2 := by
  rw [Outline.entryDepth]
  simp only [isItem_fill, depth_fill, Bool.false_eq_true, if_false, body_fill (solid_map hes),
    bodyLines_map,
    Outline.firstContent?]
  cases es with
  | nil => rfl
  | cons e es =>
    obtain ⟨key, f⟩ := e
    have hkey := (Form.entriesSound_cons.mp hes).1
    have hindent : ((headLine key f).deeper (s.column + 2)).indent? = some (s.column + 2) := by
      rw [Line.indent?_deeper, Form.indent?_headLine hkey]
      rfl
    have hfirst : ((mappingLines ((key, f) :: es)).map (·.deeper (s.column + 2))).find?
        (·.indent?.isSome) = some ((headLine key f).deeper (s.column + 2)) := by
      simp [mappingLines, Form.entryLines_eq, hindent]
    rw [hfirst]
    simp [hindent, Line.isItem_deeper, Form.isItem_headLine hkey]

theorem inner_depth (s : Slot) (es₁ : List (String × Form)) (hk : Form.isKey k)
    (h₂ : Form.entriesSound es₂) (g : Form) :
    (s.fill (.map (es₁ ++ (k, g) :: es₂))).depth (s.inner es₁ es₂ k hk h₂).line = s.column + 2 := by
  rw [← fill_inner hk h₂, depth_fill]
  rfl

/-- The parts of an entry among sound ones. -/
theorem sound_entry (h : Form.entriesSound (es₁ ++ (k, g) :: es₂)) :
    Form.entriesSound es₁ ∧ Form.isKey k ∧ g.isSound ∧ Form.entriesSound es₂ := by
  obtain ⟨h₁, hrest⟩ := Form.entriesSound_append.mp h
  exact ⟨h₁, Form.entriesSound_cons.mp hrest⟩

/-- The block of an entry is replaced. -/
theorem splice_entry (hes : Form.entriesSound (es₁ ++ (k, g) :: es₂)) (f : Form) {j : Nat}
    (hj : j = s.line + 1 + (mappingLines es₁).length) :
    (s.fill (.map (es₁ ++ (k, g) :: es₂))).splice j
      ((s.fill (.map (es₁ ++ (k, g) :: es₂))).blockEnd j)
      ((entryLines k f f.lines).map (·.deeper (s.column + 2))) =
        s.fill (.map (es₁ ++ (k, f) :: es₂)) := by
  obtain ⟨-, hk, hg, h₂⟩ := sound_entry hes
  rw [← fill_inner hk h₂, ← fill_inner hk h₂, hj,
    ← line_inner hk h₂]
  exact replace_fill (s := s.inner es₁ es₂ k hk h₂) (Form.solid_lines g hg) f

theorem setScalar_fill {l : Form.Leaf} (hes : Form.entriesSound es) (hk : Form.isKey k)
    (hnodup : (es.map (·.1)).Nodup) : (s.fill (.map es)).setScalar s.line k l.text =
      s.fill (.map (put k (.leaf l) es)) := by
  have hline (d : Nat) : [Outline.entryLine d k l.text] =
      (entryLines k (.leaf l) [l.text]).map (·.deeper d) := by
    simp [Outline.entryLine, entryLines, Form.renderString_of_isKey hk]
  by_cases hmem : k ∈ es.map (·.1)
  · obtain ⟨es₁, g, es₂, rfl, h₁, -⟩ := Form.exists_split hmem hnodup
    have hentry := sound_entry hes
    have hne : s.line + 1 + (mappingLines es₁).length ≠ s.line := by omega
    have hdepth := inner_depth s es₁ hk hentry.2.2.2 g
    rw [line_inner] at hdepth
    rw [Outline.setScalar, find?_fill_append hes h₁]
    simp only [if_neg hne]
    rw [hdepth, hline, Form.put_append h₁]
    exact splice_entry hes (.leaf l) rfl
  · rw [Outline.setScalar, find?_fill_none hes hmem, Form.put_of_not_mem hmem]
    simp only [entryDepth_fill hes, hline]
    simpa [mappingLines, Form.lines] using insert_fill (s := s) hes [(k, .leaf l)]

theorem findBelow?_fill_append (hes : Form.entriesSound (es₁ ++ (k, g) :: es₂))
    (h : k ∉ es₁.map (·.1)) : (s.fill (.map (es₁ ++ (k, g) :: es₂))).findBelow? s.line k =
      some (s.line + 1 + (mappingLines es₁).length) := by
  have hne : s.line + 1 + (mappingLines es₁).length ≠ s.line := by omega
  simp [Outline.findBelow?, find?_fill_append hes h, hne]

theorem findBelow?_fill_none (hes : Form.entriesSound es) (h : k ∉ es.map (·.1)) :
    (s.fill (.map es)).findBelow? s.line k = none := by
  rw [Outline.findBelow?, find?_fill_none hes h]
  rfl

theorem remove_entry (hes : Form.entriesSound (es₁ ++ (k, g) :: es₂)) {j : Nat}
    (hj : j = s.line + 1 + (mappingLines es₁).length) :
    (s.fill (.map (es₁ ++ (k, g) :: es₂))).remove j
      ((s.fill (.map (es₁ ++ (k, g) :: es₂))).blockEnd j) = s.fill (.map (es₁ ++ es₂)) := by
  obtain ⟨-, hk, hg, h₂⟩ := sound_entry hes
  have hlines : (s.fill (.map (es₁ ++ es₂))).lines =
      (s.inner es₁ es₂ k hk h₂).above ++ (s.inner es₁ es₂ k hk h₂).rest := by
    rw [lines_fill, bodyLines_map, Form.mappingLines_append]
    simp [inner, headLine]
  rw [← fill_inner hk h₂, hj, ← line_inner hk h₂, Outline.remove,
    splice_fill (Form.solid_lines g hg), List.append_nil, ← hlines]
  rfl

theorem removeEntry_fill (hes : Form.entriesSound es) (hnodup : (es.map (·.1)).Nodup) :
    (s.fill (.map es)).removeEntry s.line k = s.fill (.map (erase k es)) := by
  by_cases hmem : k ∈ es.map (·.1)
  · obtain ⟨es₁, g, es₂, rfl, h₁, h₂⟩ := Form.exists_split hmem hnodup
    rw [Outline.removeEntry, findBelow?_fill_append hes h₁, Form.erase_append h₁ h₂]
    exact remove_entry hes rfl
  · rw [Outline.removeEntry, findBelow?_fill_none hes hmem, Form.erase_of_not_mem hmem]

/-- A scalar gives way to entries. -/
def opened : Form → Form
  | .leaf _ => .bare
  | f => f

theorem text_ne_nil {l : Form.Leaf} (hl : l.isSound) : l.text ≠ [] := by
  cases l with
  | plain cs => exact Yaml.isPlainText_ne_nil hl
  | quoted cs => exact List.cons_ne_nil _ _
  | noItems => exact List.cons_ne_nil _ _
  | noEntries => exact List.cons_ne_nil _ _

/-- What stands behind a key gives way to entries. -/
theorem open_fill (hg : g.isSound) :
    (if ((s.fill g).value s.line).isEmpty then (s.fill g, s.line)
    else
      let d := (s.fill g).depth s.line
      ((s.fill g).splice s.line (s.line + 1) (Outline.keyLine d s.key ::
        Line.indentAll (d + 2) (Outline.expanded ((s.fill g).value s.line))), s.line)) =
      (s.fill (opened g), s.line) := by
  rw [value_fill hg]
  cases g with
  | leaf l =>
    have hend : (s.fill (.leaf l)).blockEnd s.line = s.line + 1 :=
      blockEnd_fill (Form.solid_lines _ hg)
    have hkey : Outline.keyLine s.column s.key :: Line.indentAll (s.column + 2) [] =
        (entryLines s.key .bare (Form.lines .bare)).map (·.deeper s.column) := by
      simp [Outline.keyLine, Line.indentAll, entryLines, Form.lines,
        Form.renderString_of_isKey s.isKey]
    have hempty : (Form.written (.leaf l)).isEmpty = false := by
      simpa [Form.written] using text_ne_nil hg
    rw [hempty, if_neg Bool.false_ne_true, Form.written, Form.expanded_leaf hg, depth_fill]
    simp only [hkey]
    rw [← hend, replace_fill (Form.solid_lines _ hg) .bare]
    rfl
  | bare => rfl
  | map _ => rfl
  | seq _ => rfl

/-- Entries can be added below an entry that is there. -/
theorem ensureBlock_fill_append (hes : Form.entriesSound (es₁ ++ (k, g) :: es₂))
    (h : k ∉ es₁.map (·.1)) : (s.fill (.map (es₁ ++ (k, g) :: es₂))).ensureBlock s.line k =
      (s.fill (.map (es₁ ++ (k, opened g) :: es₂)), s.line + 1 + (mappingLines es₁).length) := by
  obtain ⟨-, hk, hg, h₂⟩ := sound_entry hes
  rw [Outline.ensureBlock, findBelow?_fill_append hes h]
  simp only
  rw [← fill_inner hk h₂, ← fill_inner hk h₂, ← line_inner hk h₂]
  exact open_fill hg

theorem ensureBlock_fill_none (hes : Form.entriesSound es) (hk : Form.isKey k)
    (h : k ∉ es.map (·.1)) : (s.fill (.map es)).ensureBlock s.line k =
      (s.fill (.map (es ++ [(k, .bare)])), s.line + 1 + (mappingLines es).length) := by
  have hkey : [Outline.keyLine (s.column + 2) k] =
      (mappingLines [(k, .bare)]).map (·.deeper (s.column + 2)) := by
    simp [Outline.keyLine, mappingLines, entryLines, Form.lines, Form.renderString_of_isKey hk]
  rw [Outline.ensureBlock, findBelow?_fill_none hes h]
  simp only [entryDepth_fill hes, hkey]
  rw [insert_fill hes, blockEnd_fill (solid_map hes), bodyLines_map]

theorem setBlock_fill (hes : Form.entriesSound es) (hk : Form.isKey k)
    (hnodup : (es.map (·.1)).Nodup) (hf : Solid f.lines) (hleaf : ∀ l, f ≠ .leaf l) :
    (s.fill (.map es)).setBlock s.line k f.lines = s.fill (.map (put k f es)) := by
  have hlines (d : Nat) : Outline.keyLine d k :: Line.indentAll (d + 2) f.lines =
      (entryLines k f f.lines).map (·.deeper d) := by
    have hindent : Line.indentAll (d + 2) f.lines = f.lines.map (·.deeper (d + 2)) := by
      refine List.map_congr_left fun l hl => if_neg ?_
      obtain ⟨m, hm⟩ := hf l hl
      intro hempty
      rw [List.isEmpty_iff.mp hempty] at hm
      cases hm
    have hhead : headLine k f = k.toList ++ [':'] := by
      cases f with
      | leaf l => exact absurd rfl (hleaf l)
      | _ => rfl
    have hbody : bodyLines f = f.lines := by
      cases f with
      | leaf l => exact absurd rfl (hleaf l)
      | _ => rfl
    rw [Form.entryLines_eq, hhead, hbody, hindent, List.map_cons, map_deeper_deeper,
      Outline.keyLine, Form.renderString_of_isKey hk]
  by_cases hmem : k ∈ es.map (·.1)
  · obtain ⟨es₁, g, es₂, rfl, h₁, -⟩ := Form.exists_split hmem hnodup
    have hentry := sound_entry hes
    have hdepth := inner_depth s es₁ hk hentry.2.2.2 g
    rw [line_inner] at hdepth
    rw [Outline.setBlock, findBelow?_fill_append hes h₁]
    simp only
    rw [hdepth, hlines, Form.put_append h₁]
    exact splice_entry hes f rfl
  · rw [Outline.setBlock, findBelow?_fill_none hes hmem, Form.put_of_not_mem hmem]
    simp only [entryDepth_fill hes, hlines]
    simpa [mappingLines] using insert_fill (s := s) hes [(k, f)]

theorem removeBlock_fill (hf : Solid f.bodyLines) :
    (s.fill f).removeBlock ((s.fill f).span s.line) =
      (s.fill f).remove s.line ((s.fill f).blockEnd s.line) := by
  rcases Outline.removeBlock_cases (s.fill f) ((s.fill f).span s.line) with
    ⟨hsize, hblank, -⟩ | hremove
  · have hdrop : (s.fill f).lines.drop ((s.fill f).blockEnd s.line) = s.rest := by
      rw [blockEnd_fill hf, ← List.drop_drop, drop_fill, List.drop_left' (List.length_map _)]
    rw [Outline.span] at hsize hblank
    have hhead := Outline.drop_eq_cons hsize
    rw [hdrop] at hhead
    obtain ⟨d, hd, -⟩ := s.ends _ (by rw [hhead, List.head?_cons]; rfl)
    rw [Line.indent?_of_trimStart (Text.trimStart_eq_nil hblank)] at hd
    cases hd
  · exact hremove

/-- The block of an entry is removed alone. -/
theorem removeBlock_entry (hes : Form.entriesSound (es₁ ++ (k, g) :: es₂)) {j : Nat}
    (hj : j = s.line + 1 + (mappingLines es₁).length) :
    (s.fill (.map (es₁ ++ (k, g) :: es₂))).removeBlock
      ((s.fill (.map (es₁ ++ (k, g) :: es₂))).span j) = s.fill (.map (es₁ ++ es₂)) := by
  have hremove := remove_entry (s := s) hes hj
  obtain ⟨-, hk, hg, h₂⟩ := sound_entry hes
  rw [← fill_inner hk h₂] at hremove ⊢
  rw [show j = (s.inner es₁ es₂ k hk h₂).line from hj.trans (line_inner hk h₂).symm] at hremove ⊢
  rw [removeBlock_fill (Form.solid_lines g hg), hremove]

end Slot

end BlockFlow
