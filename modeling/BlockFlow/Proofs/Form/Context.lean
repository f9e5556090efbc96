import BlockFlow.Proofs.Form.Skeleton

/-!
The place of an entry in a page. Main statement: the lines of the page are those around the entry and
its own, and what the page is read as depends only on what the entry is read as.
-/

namespace BlockFlow

namespace Form

theorem entriesHeight_append (es ds : List (String × Form)) :
    entriesHeight (es ++ ds) = max (entriesHeight es) (entriesHeight ds) := by
  induction es with
  | nil => simp [entriesHeight]
  | cons e es ih => rw [List.cons_append, entriesHeight, entriesHeight, ih, max_assoc]

theorem itemsHeight_append (items more : List Form) :
    itemsHeight (items ++ more) = max (itemsHeight items) (itemsHeight more) := by
  induction items with
  | nil => simp [itemsHeight]
  | cons f items ih => rw [List.cons_append, itemsHeight, itemsHeight, ih, max_assoc]

end Form

namespace Page

open Form (entryLines itemLines mappingLines sequenceLines)

/-- A page without the value of one of its entries. -/
inductive Context where
  | here (above : List (String × Page)) (key : String) (below : List (String × Page))
  | entry (above : List (String × Page)) (key : String) (inside : Context)
      (below : List (String × Page))
  | item (above : List Page) (inside : Context) (below : List Page)

namespace Context

/-- The page with a value given. -/
def plug (q : Page) : Context → Page
  | here es key ds => .map (es ++ (key, q) :: ds)
  | entry es key C ds => .map (es ++ (key, C.plug q) :: ds)
  | item ps C qs => .seq (ps ++ C.plug q :: qs)

/-- The key of the entry. -/
def key : Context → String
  | here _ key _ => key
  | entry _ _ C _ => C.key
  | item _ C _ => C.key

/-- How deep the entry stands. -/
def column : Context → Nat
  | here _ _ _ => 0
  | entry _ _ C _ => C.column + 2
  | item _ C _ => C.column + 2

/-- The lines above the entry. -/
def front (φ : Form → Form) : Context → List Line
  | here es _ _ => mappingLines (entryForms φ es)
  | entry es key C _ => mappingLines (entryForms φ es) ++ entryLines key .bare (C.front φ)
  | item ps C _ => sequenceLines (itemForms φ ps) ++ itemLines .bare (C.front φ)

/-- The lines below the value. -/
def back (φ : Form → Form) : Context → List Line
  | here _ _ ds => mappingLines (entryForms φ ds)
  | entry _ _ C ds => (C.back φ).map (·.deeper 2) ++ mappingLines (entryForms φ ds)
  | item _ C qs => (C.back φ).map (·.deeper 2) ++ sequenceLines (itemForms φ qs)

/-- Whether the entry has a line of its own, and does not stand behind the dash of an item. -/
def IsApart (φ : Form → Form) : Context → Prop
  | here _ _ _ => True
  | entry _ _ C _ => C.IsApart φ
  | item _ C _ => C.front φ ≠ [] ∧ C.IsApart φ

variable {φ : Form → Form} {C : Context} {p q : Page} {es ds : List (String × Page)} {ps qs : List Page}

theorem isBlock_plug (C : Context) (q : Page) : (C.plug q).isBlock := by cases C <;> rfl

theorem form_plug_ne_leaf (C : Context) (q : Page) (l : Form.Leaf) : (C.plug q).form φ ≠ .leaf l := by
  cases C <;> exact nofun

/-- The lines of a page are those around an entry and its own. -/
theorem lines_plug (h : C.IsApart φ) : ((C.plug q).form φ).lines = C.front φ ++
    ((entryLines C.key (q.form φ) (q.form φ).lines).map (·.deeper C.column) ++ C.back φ) := by
  induction C with
  | here es key ds =>
    have hzero (l : Line) : l.deeper 0 = l := rfl
    simp [plug, form, entryForms_append, entryForms, Form.lines, Form.mappingLines_append, mappingLines,
      front, back, Context.key, column, hzero]
  | entry es key C ds ih =>
    have hbare (ls : List Line) :
        entryLines key .bare ls = (key.toList ++ [':']) :: ls.map (·.deeper 2) := rfl
    simp [plug, form, entryForms_append, entryForms, Form.lines, Form.mappingLines_append, mappingLines,
      Form.entryLines_of_not_leaf (form_plug_ne_leaf C q), hbare, ih h, front, back, Context.key,
      column, Function.comp_def, Slot.deeper_deeper, Nat.add_comm]
  | item ps C qs ih =>
    obtain ⟨hne, hapart⟩ := h
    obtain ⟨first, more, hfront⟩ := List.exists_cons_of_ne_nil hne
    have hinside := ih hapart
    rw [hfront, List.cons_append] at hinside
    have hbare := Form.itemLines_of_not_leaf (f := .bare) nofun
    simp [plug, form, itemForms_append, itemForms, Form.lines, Form.sequenceLines_append, sequenceLines,
      hinside, Form.itemLines_of_not_leaf (form_plug_ne_leaf C q), hbare, front, back, Context.key,
      column, hfront, Function.comp_def, Slot.deeper_deeper, Nat.add_comm]

/-- A page is sound when a value is, and what is around it. -/
theorem isSound_plug : (C.plug q).isSound ↔ q.isSound ∧ (C.plug .bare).isSound := by
  have hmap {es ds : List (String × Page)} {key : String} {p p' : Page}
      (h : p.isSound ↔ q.isSound ∧ p'.isSound) : (Page.map (es ++ (key, p) :: ds)).isSound ↔
        q.isSound ∧ (Page.map (es ++ (key, p') :: ds)).isSound := by
    simp only [isSound_map, entriesSound_append, entriesSound_cons, h, List.map_append, List.map_cons,
      ne_eq, List.append_eq_nil_iff, reduceCtorEq, and_false, not_false_eq_true, true_and]
    tauto
  induction C with
  | here es key ds => exact hmap (by simp [isSound])
  | entry es key C ds ih => exact hmap ih
  | item ps C qs ih =>
    simp only [plug, isSound_seq, itemsSound_append, itemsSound_cons, ih, ne_eq,
      List.append_eq_nil_iff, reduceCtorEq, and_false, not_false_eq_true, true_and]
    tauto

theorem isKey_key (h : (C.plug q).isSound) : Form.isKey C.key := by
  induction C with
  | here es key ds => exact (entriesSound_cons.mp (entriesSound_append.mp (isSound_map.mp h).2.2).2).1
  | entry es key C ds ih =>
    exact ih (entriesSound_cons.mp (entriesSound_append.mp (isSound_map.mp h).2.2).2).2.1
  | item ps C qs ih => exact ih (itemsSound_cons.mp (itemsSound_append.mp (isSound_seq.mp h).2).2).1

/-- What stands on one line does not move what is below it. -/
theorem length_front (h : (C.plug q).isSound) : (C.front onLine).length = (C.front hollow).length := by
  have hitem (ls : List Line) : (itemLines .bare ls).length = max 1 ls.length := by
    cases ls with
    | nil => rfl
    | cons l ls => simp [itemLines]
  induction C with
  | here es key ds =>
    exact (alike_mappingLines es (entriesSound_append.mp (isSound_map.mp h).2.2).1).length_eq
  | entry es key C ds ih =>
    obtain ⟨hes, hrest⟩ := entriesSound_append.mp (isSound_map.mp h).2.2
    have hinside := ih (entriesSound_cons.mp hrest).2.1
    simp only [front, entryLines, List.length_append, List.length_cons, List.length_map, hinside,
      (alike_mappingLines es hes).length_eq]
  | item ps C qs ih =>
    obtain ⟨hps, hrest⟩ := itemsSound_append.mp (isSound_seq.mp h).2
    have hinside := ih (itemsSound_cons.mp hrest).1
    simp only [front, List.length_append, hitem, hinside, (alike_sequenceLines ps hps).length_eq]

/-- A page is read as the same when an entry is. -/
theorem value_plug (h : p.unfolded.value = q.unfolded.value) :
    (C.plug p).unfolded.value = (C.plug q).unfolded.value := by
  have hmap {es ds : List (String × Page)} {key : String} {p q : Page}
      (h : p.unfolded.value = q.unfolded.value) :
      (Page.map (es ++ (key, p) :: ds)).unfolded.value =
        (Page.map (es ++ (key, q) :: ds)).unfolded.value := by
    simp only [unfolded] at h ⊢
    simp [form, entryForms_append, entryForms, Form.value, Form.entryValues_eq_map, h]
  induction C with
  | here es key ds => exact hmap h
  | entry es key C ds ih => exact hmap ih
  | item ps C qs ih =>
    simp only [unfolded] at ih ⊢
    simp [plug, form, itemForms_append, itemForms, Form.value, Form.itemValues_eq_map, ih]

/-- A page is not nested deeper when an entry is not. -/
theorem height_plug (h : p.unfolded.height ≤ q.unfolded.height) :
    (C.plug p).unfolded.height ≤ (C.plug q).unfolded.height := by
  have hmap {es ds : List (String × Page)} {key : String} {p q : Page}
      (h : p.unfolded.height ≤ q.unfolded.height) :
      (Page.map (es ++ (key, p) :: ds)).unfolded.height ≤
        (Page.map (es ++ (key, q) :: ds)).unfolded.height := by
    simp only [unfolded] at h ⊢
    simp only [form, entryForms_append, entryForms, Form.height, Form.entriesHeight_append,
      Form.entriesHeight]
    omega
  induction C with
  | here es key ds => exact hmap h
  | entry es key C ds ih => exact hmap ih
  | item ps C qs ih =>
    simp only [unfolded] at ih ⊢
    simp only [plug, form, itemForms_append, itemForms, Form.height, Form.itemsHeight_append,
      Form.itemsHeight]
    omega

/-- An entry is not nested deeper than its page. -/
theorem height_le_plug : q.unfolded.height ≤ (C.plug q).unfolded.height := by
  have hmap (es ds : List (String × Page)) (key : String) (p : Page) :
      p.unfolded.height ≤ (Page.map (es ++ (key, p) :: ds)).unfolded.height := by
    simp only [unfolded, form, entryForms_append, entryForms, Form.height, Form.entriesHeight_append,
      Form.entriesHeight]
    omega
  induction C with
  | here es key ds => exact hmap es ds key q
  | entry es key C ds ih => exact ih.trans (hmap es ds key _)
  | item ps C qs ih =>
    simp only [unfolded] at ih ⊢
    simp only [plug, form, itemForms_append, itemForms, Form.height, Form.itemsHeight_append,
      Form.itemsHeight]
    omega

end Context

end Page

end BlockFlow
