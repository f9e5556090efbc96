import BlockFlow.Proofs.Form.Slot

/-!
The items of a list, and the entries of an item that is a mapping.
-/

namespace BlockFlow

open Form (headLine bodyLines mappingLines sequenceLines itemLines Solid)

variable {column start : Nat} {items before after : List Form} {f : Form}

/-- The lines of items, when the first is at `start`. -/
def itemPlaces (start : Nat) : List Form → List Nat
  | [] => []
  | f :: items => start :: itemPlaces (start + (itemLines f f.lines).length) items

theorem mem_itemPlaces {i : Nat} : i ∈ itemPlaces start items ↔
    ∃ before f after, items = before ++ f :: after ∧ i = start + (sequenceLines before).length := by
  induction items generalizing start with
  | nil =>
    simp only [itemPlaces, List.not_mem_nil, false_iff]
    rintro ⟨before, f, after, heq, -⟩
    cases before <;> cases heq
  | cons g items ih =>
    rw [itemPlaces, List.mem_cons, ih]
    constructor
    · rintro (rfl | ⟨before, f, after, rfl, rfl⟩)
      · exact ⟨[], g, items, rfl, rfl⟩
      · refine ⟨g :: before, f, after, rfl, ?_⟩
        rw [sequenceLines, List.length_append]
        omega
    · rintro ⟨before, f, after, heq, rfl⟩
      cases before with
      | nil => exact .inl rfl
      | cons g' before =>
        cases heq
        refine .inr ⟨before, f, after, rfl, ?_⟩
        rw [sequenceLines, List.length_append]
        omega

/-- The lines of an item are the one with the dash, and deeper ones. -/
theorem exists_itemLines (hf : f.isSound) : ∃ (rest : Line) (ls : List Line),
    itemLines f f.lines = ('-' :: rest) :: ls ∧
    Line.startsItem ('-' :: rest) ∧ ∀ l ∈ ls, ∃ d, l.indent? = some d ∧ 0 < d := by
  have hdeeper {ls : List Line} (h : Solid ls) :
      ∀ l ∈ ls.map (·.deeper 2), ∃ d, l.indent? = some d ∧ 0 < d := by
    intro l hl
    obtain ⟨d, hd, hle⟩ := h.deeper 2 l hl
    exact ⟨d, hd, by omega⟩
  have hblock {g : Form} (hg : Solid g.lines) (hleaf : ∀ l, g ≠ .leaf l) :
      ∃ (rest : Line) (ls : List Line),
        itemLines g g.lines = ('-' :: rest) :: ls ∧ Line.startsItem ('-' :: rest) ∧
          ∀ l ∈ ls, ∃ d, l.indent? = some d ∧ 0 < d := by
    unfold itemLines
    split
    · exact absurd rfl (hleaf _)
    · exact ⟨[], [], rfl, rfl, by simp⟩
    · rename_i first ls _ heq
      rw [heq] at hg
      exact ⟨' ' :: first, _, rfl, rfl, hdeeper fun l hl => hg l (List.mem_cons_of_mem _ hl)⟩
  cases f with
  | leaf l => exact ⟨' ' :: l.text, [], rfl, rfl, by simp⟩
  | bare => exact hblock (Form.solid_lines .bare hf) nofun
  | map es => exact hblock (Form.solid_lines (.map es) hf) nofun
  | seq fs => exact hblock (Form.solid_lines (.seq fs) hf) nofun

theorem isItem_dash {rest : Line} (h : Line.startsItem ('-' :: rest)) :
    Line.isItem ('-' :: rest) = true := h

theorem filterMap_items (hitems : Form.itemsSound items) (column start : Nat) :
    (((sequenceLines items).map (Line.deeper column)).zipIdx start).filterMap (fun (l, j) =>
      if l.indent? = some column && l.isItem then some j else none) = itemPlaces start items := by
  induction items generalizing start with
  | nil => rfl
  | cons f items ih =>
    obtain ⟨hf, hrest⟩ := Form.itemsSound_cons.mp hitems
    obtain ⟨rest, ls, hlines, hstart, hdeep⟩ := exists_itemLines hf
    have hnone : ((ls.map (Line.deeper column)).zipIdx (start + 1)).filterMap (fun (l, j) =>
        if l.indent? = some column && l.isItem then some j else none) = [] := by
      rw [List.filterMap_eq_nil_iff]
      rintro ⟨l, i⟩ hmem
      obtain ⟨m, hm, rfl⟩ := List.mem_map.mp (List.fst_mem_of_mem_zipIdx hmem)
      obtain ⟨d, hd, hlt⟩ := hdeep m hm
      have hne : (m.deeper column).indent? ≠ some column := by
        rw [Line.indent?_deeper, hd]
        intro heq
        have hsum : column + d = column := Option.some.inj heq
        omega
      simp [hne]
    have hindent : (Line.deeper column ('-' :: rest)).indent? = some column := by
      rw [Line.indent?_deeper, Form.indent?_dash]
      rfl
    have hitem : (Line.deeper column ('-' :: rest)).isItem = true := by
      rw [Line.isItem_deeper, isItem_dash hstart]
    have hlength : (itemLines f f.lines).length = 1 + ls.length := by
      rw [hlines, List.length_cons, Nat.add_comm]
    rw [sequenceLines, List.map_append, List.zipIdx_append, List.filterMap_append, ih hrest,
      List.length_map, itemPlaces, hlines, List.map_cons, List.zipIdx_cons, List.filterMap_cons,
      hnone, ← hlines, hlength]
    simp [hindent, hitem]

theorem items_fill {s : Slot} (hitems : Form.itemsSound items) :
    (s.fill (.seq items)).items s.line = itemPlaces (s.line + 1) items := by
  have hsolid : Solid (bodyLines (.seq items)) := Form.solid_sequenceLines items hitems
  rw [Outline.items, Slot.bodyDepth?_fill hsolid, Slot.numberedBody_fill hsolid]
  cases items with
  | nil => rfl
  | cons f items =>
    obtain ⟨hf, -⟩ := Form.itemsSound_cons.mp hitems
    obtain ⟨rest, ls, hlines, -, -⟩ := exists_itemLines hf
    have hhead : (bodyLines (.seq (f :: items))).head? = some ('-' :: rest) := by
      simp [bodyLines, Form.lines, sequenceLines, hlines]
    simp only [hhead, Option.bind_some, Form.indent?_dash, Option.map_some, Nat.add_zero]
    exact filterMap_items hitems _ _

/-- A place for an item: the lines above and below it, and its depth. -/
structure Dash where
  above : List Line
  rest : List Line
  column : Nat
  ends : Ends column true rest

namespace Dash

variable {d : Dash} {e : String × Form} {es es₁ es₂ : List (String × Form)} {k : String} {g : Form}

/-- The line of the item. -/
def line (d : Dash) : Nat := d.above.length

/-- The outline with a mapping in the place. -/
def fill (d : Dash) (es : List (String × Form)) : Outline :=
  ⟨d.above ++ (itemLines (.map es) (mappingLines es)).map (·.deeper d.column) ++ d.rest, true⟩

theorem lines_fill : (d.fill (e :: es)).lines =
    d.above ++ Line.deeper d.column ('-' :: ' ' :: headLine e.1 e.2) ::
      (e.2.bodyLines.map (·.deeper (d.column + 4)) ++
        ((mappingLines es).map (·.deeper (d.column + 2)) ++ d.rest)) := by
  simp [fill, mappingLines, Form.entryLines_eq, itemLines, Function.comp_def, Slot.deeper_deeper]

theorem line_fill : (d.fill (e :: es)).line d.line =
    Line.deeper d.column ('-' :: ' ' :: headLine e.1 e.2) := by
  apply Outline.line_eq_of_getElem?
  rw [lines_fill, line, List.getElem?_append_right le_rfl, Nat.sub_self]
  rfl

theorem indent?_fill : ((d.fill (e :: es)).line d.line).indent? = some d.column := by
  rw [line_fill, Line.indent?_deeper, Form.indent?_dash]
  rfl

theorem isItem_fill : ((d.fill (e :: es)).line d.line).isItem = true := by
  rw [line_fill, Line.isItem_deeper]
  rfl

theorem drop_fill : (d.fill (e :: es)).lines.drop (d.line + 1) =
    e.2.bodyLines.map (·.deeper (d.column + 4)) ++
      (mappingLines es).map (·.deeper (d.column + 2)) ++ d.rest := by
  rw [lines_fill, line, List.drop_length_add_append]
  simp

theorem blockEnd_fill (hes : Form.entriesSound (e :: es)) :
    (d.fill (e :: es)).blockEnd d.line = d.line + (mappingLines (e :: es)).length := by
  obtain ⟨k, f⟩ := e
  obtain ⟨-, hf, hrest⟩ := Form.entriesSound_cons.mp hes
  have hdeep : ∀ l ∈ f.bodyLines.map (·.deeper (d.column + 4)) ++
      (mappingLines es).map (·.deeper (d.column + 2)), ∃ n, l.indent? = some n ∧ d.column < n := by
    intro l hl
    rcases List.mem_append.mp hl with hl | hl
    · obtain ⟨n, hn, hle⟩ := (Form.solid_lines f hf).deeper _ l hl
      exact ⟨n, hn, by omega⟩
    · obtain ⟨n, hn, hle⟩ := (Form.solid_mappingLines es hrest).deeper _ l hl
      exact ⟨n, hn, by omega⟩
  rw [Outline.blockEnd_of_indent? indent?_fill, isItem_fill, drop_fill, d.ends.reach hdeep,
    length_mappingLines_cons]
  simp only [List.length_append, List.length_map]
  omega

theorem numberedBody_fill (hes : Form.entriesSound (e :: es)) :
    (d.fill (e :: es)).numberedBody d.line =
      (e.2.bodyLines.map (·.deeper (d.column + 4)) ++
        (mappingLines es).map (·.deeper (d.column + 2))).zipIdx (d.line + 1) := by
  have hlength : d.line + (mappingLines (e :: es)).length - (d.line + 1) =
      (e.2.bodyLines.map (·.deeper (d.column + 4)) ++
        (mappingLines es).map (·.deeper (d.column + 2))).length := by
    rw [length_mappingLines_cons]
    simp only [List.length_append, List.length_map]
    omega
  rw [Outline.numberedBody, Outline.body, Outline.slice, blockEnd_fill hes, drop_fill, hlength,
    List.take_left]

/-- The first entry of an item stands on its line. -/
theorem entries_fill (hes : Form.entriesSound (e :: es)) :
    (d.fill (e :: es)).entries d.line = places d.line (e :: es) := by
  have hnumbered := numberedBody_fill (d := d) hes
  obtain ⟨k, f⟩ := e
  obtain ⟨hk, hf, hrest⟩ := Form.entriesSound_cons.mp hes
  have hbody : ∀ l ∈ f.bodyLines.map (·.deeper (d.column + 4)),
      ∃ n, l.indent? = some n ∧ d.column + 2 < n := by
    intro l hl
    obtain ⟨n, hn, hle⟩ := (Form.solid_lines f hf).deeper _ l hl
    exact ⟨n, hn, by omega⟩
  have hdeep := entriesAt_nil_of_deep (d.line + 1) hbody
  have hplaces := entriesAt_mappingLines hrest (d.column + 2) (d.line + 1 + f.bodyLines.length)
  have hdepth : (d.fill ((k, f) :: es)).depth d.line = d.column :=
    Outline.depth_of_indent? indent?_fill
  have hkey : ((d.fill ((k, f) :: es)).line d.line).itemKey? = some k.toList := by
    rw [line_fill, Form.itemKey?_dash hk]
  rw [Outline.entriesAt] at hdeep hplaces
  rw [Outline.entries]
  simp only [isItem_fill, if_true, hkey, hdepth, hnumbered]
  rw [Outline.entriesAt, List.zipIdx_append, List.filterMap_append, hdeep, List.length_map,
    hplaces]
  rfl

theorem find?_fill_append (hes : Form.entriesSound es)
    (heq : es = es₁ ++ (k, g) :: es₂) (h : k ∉ es₁.map (·.1)) :
    (d.fill es).find? d.line k = some (d.line + (mappingLines es₁).length) := by
  obtain ⟨e, es', hcons⟩ : ∃ e es', es = e :: es' := by
    cases es with
    | nil => cases es₁ <;> cases heq
    | cons e es' => exact ⟨e, es', rfl⟩
  rw [hcons] at hes
  rw [hcons, Outline.find?, entries_fill hes, ← hcons, heq, find?_places_append g _ h]
  rfl

theorem find?_fill_none (hes : Form.entriesSound es) (hne : es ≠ []) (h : k ∉ es.map (·.1)) :
    (d.fill es).find? d.line k = none := by
  obtain ⟨e, es, rfl⟩ := List.exists_cons_of_ne_nil hne
  rw [Outline.find?, entries_fill hes, find?_places_none _ h]
  rfl

/-- The place of an entry below the first one of an item. -/
def inner (d : Dash) (e : String × Form) (es₁ es₂ : List (String × Form)) (k : String)
    (hk : Form.isKey k) (h₂ : Form.entriesSound es₂) : Slot where
  above := d.above ++ Line.deeper d.column ('-' :: ' ' :: headLine e.1 e.2) ::
    (e.2.bodyLines.map (·.deeper (d.column + 4)) ++
      (mappingLines es₁).map (·.deeper (d.column + 2)))
  rest := (mappingLines es₂).map (·.deeper (d.column + 2)) ++ d.rest
  column := d.column + 2
  key := k
  isKey := hk
  ends := ends_mappingLines h₂ (d.ends.of_lt (by omega))

theorem fill_inner (hk : Form.isKey k) (h₂ : Form.entriesSound es₂) :
    (d.inner e es₁ es₂ k hk h₂).fill g = d.fill (e :: (es₁ ++ (k, g) :: es₂)) := by
  have hlines : ((d.inner e es₁ es₂ k hk h₂).fill g).lines =
      (d.fill (e :: (es₁ ++ (k, g) :: es₂))).lines := by
    simp [lines_fill, Slot.lines_fill, inner, Form.entryLines_eq, Form.mappingLines_append,
      mappingLines, Function.comp_def, Slot.deeper_deeper]
  exact congrArg (Outline.mk · true) hlines

theorem line_inner (hk : Form.isKey k) (h₂ : Form.entriesSound es₂) :
    (d.inner e es₁ es₂ k hk h₂).line = d.line + (mappingLines (e :: es₁)).length := by
  rw [length_mappingLines_cons]
  simp only [Slot.line, line, inner, List.length_append, List.length_cons, List.length_map]
  omega

/-- What is written behind the key of an entry of an item. -/
theorem value_fill (hes : Form.entriesSound es) (heq : es = es₁ ++ (k, g) :: es₂) :
    ((d.fill es).line (d.line + (mappingLines es₁).length)).value? = some g.written := by
  subst heq
  obtain ⟨h₁, hrest⟩ := Form.entriesSound_append.mp hes
  obtain ⟨hk, hg, h₂⟩ := Form.entriesSound_cons.mp hrest
  cases es₁ with
  | nil => exact (congrArg Line.value? line_fill).trans (Form.value?_dash hk hg _)
  | cons e es₁ =>
    rw [List.cons_append, ← fill_inner hk h₂, ← line_inner hk h₂,
      Slot.line_fill]
    exact Form.value?_headLine hk hg _

end Dash

namespace Slot

variable {s : Slot} {es : List (String × Form)}

/-- Items end the block of the line above them. -/
theorem ends_sequenceLines (s : Slot) (h : Form.itemsSound after) : Ends (s.column + 2) true
    ((sequenceLines after).map (·.deeper (s.column + 2)) ++ s.rest) := by
  cases after with
  | nil => exact s.ends.of_lt (by omega)
  | cons f after =>
    obtain ⟨rest, ls, hlines, -, -⟩ := exists_itemLines (Form.itemsSound_cons.mp h).1
    intro l hl
    obtain rfl : Line.deeper (s.column + 2) ('-' :: rest) = l := by
      simpa [sequenceLines, hlines] using hl
    have hindent : (Line.deeper (s.column + 2) ('-' :: rest)).indent? = some (s.column + 2) := by
      rw [Line.indent?_deeper, Form.indent?_dash]
      rfl
    refine ⟨s.column + 2, hindent, fun hin => ?_⟩
    rcases hin _ hindent with hlt | ⟨-, hitem, -⟩
    · exact absurd hlt (Nat.lt_irrefl _)
    · cases hitem

/-- The place of an item of the list in a place. -/
def dash (s : Slot) (before after : List Form) (h : Form.itemsSound after) : Dash where
  above := s.above ++ Line.deeper s.column (s.key.toList ++ [':']) ::
    (sequenceLines before).map (·.deeper (s.column + 2))
  rest := (sequenceLines after).map (·.deeper (s.column + 2)) ++ s.rest
  column := s.column + 2
  ends := s.ends_sequenceLines h

theorem fill_dash {h : Form.itemsSound after} :
    (s.dash before after h).fill es = s.fill (.seq (before ++ .map es :: after)) := by
  have hlines : ((s.dash before after h).fill es).lines =
      (s.fill (.seq (before ++ .map es :: after))).lines := by
    simp [Dash.fill, dash, fill, Form.entryLines, Form.lines, Form.sequenceLines_append,
      sequenceLines, Function.comp_def, deeper_deeper]
  exact congrArg (Outline.mk · true) hlines

theorem line_dash {h : Form.itemsSound after} :
    (s.dash before after h).line = s.line + 1 + (sequenceLines before).length := by
  simp only [line, Dash.line, dash, List.length_append, List.length_cons, List.length_map]
  omega

end Slot

end BlockFlow
