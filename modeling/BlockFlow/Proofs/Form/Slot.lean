import BlockFlow.Proofs.Form.Line
import BlockFlow.Proofs.Outline.Names
import BlockFlow.Proofs.Outline.Patch

/-!
Places for entries in an outline of a form, and what is found in their blocks.
-/

namespace BlockFlow

open Form (headLine bodyLines mappingLines Solid)

/-- Lines that end a block in front of them. -/
def Ends (base : Nat) (item : Bool) (ls : List Line) : Prop :=
  ∀ l ∈ ls.head?, ∃ d, l.indent? = some d ∧ ¬ l.Inside base item

variable {base column : Nat} {item : Bool} {ls post : List Line}

theorem Ends.reach (h : Ends base item post) (hls : ∀ l ∈ ls, ∃ d, l.indent? = some d ∧ base < d) :
    Outline.reach base item (ls ++ post) = ls.length := by
  induction ls with
  | nil =>
    cases post with
    | nil => rfl
    | cons l post =>
      obtain ⟨d, hd, hl⟩ := h l rfl
      exact Outline.reach_stop hd hl
  | cons l ls ih =>
    obtain ⟨⟨d, hd, hlt⟩, hls⟩ := List.forall_mem_cons.mp hls
    have hl : l.Inside base item := by
      intro d' hd'
      rw [hd] at hd'
      cases hd'
      exact .inl hlt
    rw [List.cons_append, Outline.reach_inside hd hl, ih hls, List.length_cons]

theorem Ends.of_lt {base' : Nat} {item' : Bool} (h : Ends base item ls) (hlt : base < base') :
    Ends base' item' ls := by
  intro l hl
  obtain ⟨d, hd, hnot⟩ := h l hl
  refine ⟨d, hd, fun hin => hnot fun d' hd' => ?_⟩
  rcases hin d' hd' with hdeep | ⟨rfl, -, -⟩
  · exact .inl (Nat.lt_trans hlt hdeep)
  · exact .inl hlt

theorem ends_mappingLines {es : List (String × Form)} (hes : Form.entriesSound es)
    (h : Ends column false post) :
    Ends column false ((mappingLines es).map (·.deeper column) ++ post) := by
  cases es with
  | nil => simpa [mappingLines] using h
  | cons e es =>
    obtain ⟨key, f⟩ := e
    have hkey := (Form.entriesSound_cons.mp hes).1
    intro l hl
    obtain rfl : (headLine key f).deeper column = l := by
      simpa [mappingLines, Form.entryLines_eq] using hl
    refine ⟨column, by rw [Line.indent?_deeper, Form.indent?_headLine hkey]; rfl, fun hin => ?_⟩
    rcases hin column (by rw [Line.indent?_deeper, Form.indent?_headLine hkey]; rfl) with
      hlt | ⟨-, -, hitem⟩
    · exact absurd hlt (Nat.lt_irrefl _)
    · rw [Line.isItem_deeper, Form.isItem_headLine hkey] at hitem
      cases hitem

/-- A place for the value of an entry: the lines above and below the entry, its depth and key. -/
structure Slot where
  above : List Line
  rest : List Line
  column : Nat
  key : String
  isKey : Form.isKey key
  ends : Ends column false rest

namespace Slot

variable {s : Slot} {f g : Form} {es es₁ es₂ : List (String × Form)} {k : String}

/-- The line of the entry. -/
def line (s : Slot) : Nat := s.above.length

/-- The outline with a value in the place. -/
def fill (s : Slot) (f : Form) : Outline :=
  ⟨s.above ++ (Form.entryLines s.key f f.lines).map (·.deeper s.column) ++ s.rest, true⟩

theorem deeper_deeper (m n : Nat) (l : Line) : (l.deeper m).deeper n = l.deeper (n + m) := by
  simp [Line.deeper, Text.spaces, ← List.append_assoc, List.replicate_append_replicate]

theorem map_deeper_deeper (m n : Nat) (ls : List Line) :
    (ls.map (·.deeper m)).map (·.deeper n) = ls.map (·.deeper (n + m)) := by
  simp [List.map_map, Function.comp_def, deeper_deeper]

theorem lines_fill : (s.fill f).lines = s.above ++ (headLine s.key f).deeper s.column ::
    (f.bodyLines.map (·.deeper (s.column + 2)) ++ s.rest) := by
  simp [fill, Form.entryLines_eq, Function.comp_def, deeper_deeper]

theorem line_fill : (s.fill f).line s.line = (headLine s.key f).deeper s.column := by
  apply Outline.line_eq_of_getElem?
  rw [lines_fill, line, List.getElem?_append_right le_rfl, Nat.sub_self]
  rfl

theorem drop_fill : (s.fill f).lines.drop (s.line + 1) =
    f.bodyLines.map (·.deeper (s.column + 2)) ++ s.rest := by
  rw [lines_fill, line, List.drop_length_add_append]
  rfl

theorem indent?_fill : ((s.fill f).line s.line).indent? = some s.column := by
  rw [line_fill, Line.indent?_deeper, Form.indent?_headLine s.isKey]
  rfl

theorem depth_fill : (s.fill f).depth s.line = s.column := Outline.depth_of_indent? indent?_fill

theorem isItem_fill : ((s.fill f).line s.line).isItem = false := by
  rw [line_fill, Line.isItem_deeper, Form.isItem_headLine s.isKey]

theorem value_fill (hf : f.isSound) : (s.fill f).value s.line = f.written := by
  rw [Outline.value, line_fill, Form.value?_headLine s.isKey hf]
  rfl

theorem blockEnd_fill (hf : Solid f.bodyLines) :
    (s.fill f).blockEnd s.line = s.line + 1 + f.bodyLines.length := by
  have hdeep : ∀ l ∈ f.bodyLines.map (·.deeper (s.column + 2)),
      ∃ d, l.indent? = some d ∧ s.column < d := by
    intro l hl
    obtain ⟨d, hd, hle⟩ := hf.deeper _ l hl
    exact ⟨d, hd, by omega⟩
  have hreach := s.ends.reach hdeep
  rw [Outline.blockEnd_of_indent? indent?_fill, isItem_fill, drop_fill, hreach, List.length_map]

theorem body_fill (hf : Solid f.bodyLines) :
    (s.fill f).body s.line = f.bodyLines.map (·.deeper (s.column + 2)) := by
  rw [Outline.body, Outline.slice, blockEnd_fill hf, drop_fill, Nat.add_sub_cancel_left,
    List.take_left' (List.length_map _)]

end Slot

/-- The lines of entries and their keys, when the first is at `start`. -/
def places (start : Nat) : List (String × Form) → List (Nat × Line)
  | [] => []
  | (k, f) :: es => (start, k.toList) :: places (start + 1 + f.bodyLines.length) es

theorem length_mappingLines_cons (k : String) (f : Form) (es : List (String × Form)) :
    (mappingLines ((k, f) :: es)).length = 1 + f.bodyLines.length + (mappingLines es).length := by
  simp only [mappingLines, Form.entryLines_eq, List.length_append, List.length_cons,
    List.length_map]
  omega

theorem entriesAt_nil_of_deep (start : Nat) (h : ∀ l ∈ ls, ∃ d, l.indent? = some d ∧ column < d) :
    Outline.entriesAt column (ls.zipIdx start) = [] := by
  rw [Outline.entriesAt, List.filterMap_eq_nil_iff]
  rintro ⟨l, i⟩ hmem
  obtain ⟨d, hd, hlt⟩ := h l (List.fst_mem_of_mem_zipIdx hmem)
  have hne : l.indent? ≠ some column := by
    rw [hd]
    intro heq
    cases heq
    omega
  simp [hne]

theorem entriesAt_mappingLines {es : List (String × Form)} (hes : Form.entriesSound es)
    (column start : Nat) : Outline.entriesAt column
      (((mappingLines es).map (·.deeper column)).zipIdx start) = places start es := by
  induction es generalizing start with
  | nil => rfl
  | cons e es ih =>
    obtain ⟨k, f⟩ := e
    obtain ⟨hk, hf, hrest⟩ := Form.entriesSound_cons.mp hes
    have hbody : ∀ l ∈ f.bodyLines.map (·.deeper (column + 2)),
        ∃ d, l.indent? = some d ∧ column < d := by
      intro l hl
      obtain ⟨d, hd, hle⟩ := (Form.solid_lines f hf).deeper _ l hl
      exact ⟨d, hd, by omega⟩
    have hlines : (mappingLines ((k, f) :: es)).map (·.deeper column) =
        (headLine k f).deeper column :: (f.bodyLines.map (·.deeper (column + 2)) ++
          (mappingLines es).map (·.deeper column)) := by
      simp [mappingLines, Form.entryLines_eq, Function.comp_def, Slot.deeper_deeper]
    have hindent : ((headLine k f).deeper column).indent? = some column := by
      rw [Line.indent?_deeper, Form.indent?_headLine hk]
      rfl
    have hdeep := entriesAt_nil_of_deep (start + 1) hbody
    rw [Outline.entriesAt] at hdeep
    have ih := ih hrest (start + 1 + f.bodyLines.length)
    rw [Outline.entriesAt] at ih ⊢
    rw [hlines, List.zipIdx_cons, List.zipIdx_append, List.filterMap_cons, List.filterMap_append,
      hdeep, List.length_map, List.nil_append, ih]
    simp [hindent, Line.isItem_deeper, Form.isItem_headLine hk, Line.key?_deeper,
      Form.key?_headLine hk, places]

theorem find?_places_append {es₁ es₂ : List (String × Form)} {k : String} (g : Form) (start : Nat)
    (h : k ∉ es₁.map (·.1)) : (places start (es₁ ++ (k, g) :: es₂)).find? (·.2 = k.toList) =
      some (start + (mappingLines es₁).length, k.toList) := by
  induction es₁ generalizing start with
  | nil => simp [places, mappingLines]
  | cons e es₁ ih =>
    obtain ⟨k', f⟩ := e
    simp only [List.map_cons, List.mem_cons, not_or] at h
    have hne : k'.toList ≠ k.toList := fun heq => h.1 (String.toList_inj.mp heq).symm
    rw [List.cons_append, places, List.find?_cons_of_neg (by simpa using hne), ih _ h.2,
      length_mappingLines_cons]
    congr 2
    omega

theorem find?_places_none {es : List (String × Form)} {k : String} (start : Nat)
    (h : k ∉ es.map (·.1)) : (places start es).find? (·.2 = k.toList) = none := by
  induction es generalizing start with
  | nil => rfl
  | cons e es ih =>
    obtain ⟨k', f⟩ := e
    simp only [List.map_cons, List.mem_cons, not_or] at h
    have hne : k'.toList ≠ k.toList := fun heq => h.1 (String.toList_inj.mp heq).symm
    rw [places, List.find?_cons_of_neg (by simpa using hne), ih _ h.2]

namespace Slot

variable {s : Slot} {f g : Form} {es es₁ es₂ : List (String × Form)} {k : String}

theorem numberedBody_fill (hf : Solid f.bodyLines) : (s.fill f).numberedBody s.line =
    (f.bodyLines.map (·.deeper (s.column + 2))).zipIdx (s.line + 1) := by
  rw [Outline.numberedBody, body_fill hf]

/-- How deep the first line below stands. -/
theorem bodyDepth?_fill (hf : Solid f.bodyLines) : (s.fill f).bodyDepth? s.line =
    f.bodyLines.head?.bind fun l => l.indent?.map (s.column + 2 + ·) := by
  rw [Outline.bodyDepth?, body_fill hf]
  cases hlines : f.bodyLines with
  | nil => rfl
  | cons l ls =>
    obtain ⟨d, hd⟩ := hf l (by simp [hlines])
    simp [Line.indent?_deeper, hd]

theorem bodyLines_map (es : List (String × Form)) : bodyLines (.map es) = mappingLines es := rfl

theorem entries_fill (hes : Form.entriesSound es) :
    (s.fill (.map es)).entries s.line = places (s.line + 1) es := by
  have hsolid : Solid (bodyLines (.map es)) := Form.solid_mappingLines es hes
  rw [Outline.entries]
  simp only [isItem_fill, Bool.false_eq_true, if_false, bodyDepth?_fill hsolid,
    numberedBody_fill hsolid, bodyLines_map]
  cases es with
  | nil => rfl
  | cons e es =>
    obtain ⟨key, f⟩ := e
    have hkey := (Form.entriesSound_cons.mp hes).1
    have hhead : (mappingLines ((key, f) :: es)).head? = some (headLine key f) := by
      simp [mappingLines, Form.entryLines_eq]
    simp only [hhead, Option.bind_some, Form.indent?_headLine hkey, Option.map_some, Nat.add_zero]
    exact entriesAt_mappingLines hes _ _

theorem find?_fill (hes : Form.entriesSound es) : (s.fill (.map es)).find? s.line k =
    ((places (s.line + 1) es).find? (·.2 = k.toList)).map (·.1) := by
  rw [Outline.find?, entries_fill hes]

theorem find?_fill_append (hes : Form.entriesSound (es₁ ++ (k, g) :: es₂))
    (h : k ∉ es₁.map (·.1)) : (s.fill (.map (es₁ ++ (k, g) :: es₂))).find? s.line k =
      some (s.line + 1 + (mappingLines es₁).length) := by
  rw [find?_fill hes, find?_places_append g _ h]
  rfl

theorem find?_fill_none (hes : Form.entriesSound es) (h : k ∉ es.map (·.1)) :
    (s.fill (.map es)).find? s.line k = none := by
  rw [find?_fill hes, find?_places_none _ h]
  rfl

/-- The place of an entry inside the value in a place. -/
def inner (s : Slot) (es₁ es₂ : List (String × Form)) (k : String) (hk : Form.isKey k)
    (h₂ : Form.entriesSound es₂) : Slot where
  above := s.above ++ Line.deeper s.column (s.key.toList ++ [':']) ::
    (mappingLines es₁).map (·.deeper (s.column + 2))
  rest := (mappingLines es₂).map (·.deeper (s.column + 2)) ++ s.rest
  column := s.column + 2
  key := k
  isKey := hk
  ends := ends_mappingLines h₂ (s.ends.of_lt (by omega))

theorem fill_inner (hk : Form.isKey k) (h₂ : Form.entriesSound es₂) :
    (s.inner es₁ es₂ k hk h₂).fill g = s.fill (.map (es₁ ++ (k, g) :: es₂)) := by
  have hlines : ((s.inner es₁ es₂ k hk h₂).fill g).lines =
      (s.fill (.map (es₁ ++ (k, g) :: es₂))).lines := by
    simp [fill, inner, Form.entryLines, Form.lines, Form.mappingLines_append, mappingLines,
      Function.comp_def, deeper_deeper]
  rw [fill, fill] at hlines ⊢
  exact congrArg (Outline.mk · true) hlines

theorem line_inner (hk : Form.isKey k) (h₂ : Form.entriesSound es₂) :
    (s.inner es₁ es₂ k hk h₂).line = s.line + 1 + (mappingLines es₁).length := by
  simp only [line, inner, List.length_append, List.length_cons, List.length_map]
  omega

end Slot

end BlockFlow
