import BlockFlow.Proofs.Form.Page
import BlockFlow.Proofs.Outline.Alike

/-!
The outline of a page. Main statement: it agrees line by line with that of the form in which all
collections on one line are empty, so the same blocks and entries are found.
-/

namespace BlockFlow

open Form (headLine entryLines itemLines mappingLines sequenceLines)

namespace Form

variable {f : Form} {key : String}

theorem exists_brackets_folded (h : f.isFoldable) : ∃ (first last : Char) (inner : List Char),
    f.folded = first :: (inner ++ [last]) ∧ Text.isBlank first = false ∧ Text.isBlank last = false ∧
      (first = '[' ∨ first = '{') := by
  cases f with
  | map entries => exact ⟨'{', '}', _, rfl, rfl, rfl, .inr rfl⟩
  | seq items => exact ⟨'[', ']', _, rfl, rfl, rfl, .inl rfl⟩
  | _ => cases h

theorem trim_folded (h : f.isFoldable) : Text.trim f.folded = f.folded := by
  obtain ⟨first, last, inner, htext, hfirst, hlast, -⟩ := exists_brackets_folded h
  rw [htext, Text.trim, Text.trimStart_of_head (by simpa using hfirst), Text.trimEnd_of_last]
  rw [← List.cons_append, List.getLast?_concat]
  simpa using hlast

theorem dropComment_folded (h : f.isFoldable) : Line.dropComment f.folded = f.folded := by
  obtain ⟨-, hf, hfits, -⟩ := Page.isFoldable_iff.mp h
  obtain ⟨first, last, inner, htext, -, -, hbracket⟩ := exists_brackets_folded h
  have hhash : '#' ∉ f.folded := fun hmem =>
    absurd (all_isFoldChar_folded f hf hfits _ hmem) (by decide)
  have hnone : Text.splitFirst? [' ', '#'] f.folded = none := by
    cases hsplit : Text.splitFirst? [' ', '#'] f.folded with
    | none => rfl
    | some p =>
      refine absurd ?_ hhash
      rw [Text.splitFirst?_eq hsplit]
      simp
  unfold Line.dropComment
  split
  · rfl
  · rfl
  · rw [hnone]

/-- What stands behind the key of a collection on one line. -/
theorem value?_folded (hkey : isKey key) (h : f.isFoldable) (c : Nat) :
    ((headLine key (Page.onLine f)).deeper c).value? = some f.folded := by
  refine value?_of_pair? hkey ?_ (dropComment_folded h) c
  rw [Page.onLine, headLine, (plainKey_of_isKey hkey).pair?, Leaf.text, trim_folded h]

theorem flush_headLine (hkey : isKey key) : (headLine key f).Flush := trimStart_headLine hkey

end Form

namespace Page

open Form (isKey)

variable {p : Page} {key : String} {entries : List (String × Page)} {items : List Page}

/-- A collection on one line without what is in it. -/
def hollow (_ : Form) : Form := .leaf .noItems

theorem alike_headLine (hkey : isKey key) (h : p.isSound) :
    (headLine key p.written).Alike (headLine key (p.form hollow)) := by
  cases p with
  | folded f =>
    refine ⟨?_, ?_, ?_, fun hitem => ?_, .inr ?_⟩
    · rw [Form.indent?_headLine hkey, Form.indent?_headLine hkey]
    · rw [Form.isItem_headLine hkey, Form.isItem_headLine hkey]
    · rw [Form.key?_headLine hkey, Form.key?_headLine hkey]
    · rw [Form.isItem_headLine hkey] at hitem
      cases hitem
    · exact Form.value?_headLine (f := .leaf .noItems) hkey rfl 0
  | _ => exact .refl _

theorem alike_dash_folded {f : Form} (h : f.isFoldable) :
    Line.Alike ('-' :: ' ' :: f.folded) ('-' :: ' ' :: Line.blank) := by
  obtain ⟨first, last, inner, htext, hfirst, -, hbracket⟩ := Form.exists_brackets_folded h
  have hflush : f.folded.Flush := by
    rw [Line.Flush, htext, Text.trimStart_of_head (by simpa using hfirst)]
  have hpair : Line.pair? f.folded = none := by
    rw [htext]
    rcases hbracket with rfl | rfl <;> rfl
  have hitem : f.folded.isItem = false := by
    rw [Line.isItem, hflush, htext]
    rcases hbracket with rfl | rfl <;> rfl
  refine ⟨rfl, rfl, rfl, fun _ => ?_, .inl ?_⟩
  · rw [Line.itemKey?_dash_flush hflush, Line.key?, hflush, hpair]
    rfl
  · have hstart : Line.startsItem f.folded = false := by
      rwa [Line.isItem, hflush] at hitem
    rw [Line.value?_dash_flush hflush, hitem, Line.value?, hflush, Line.dropStem?_dash hstart,
      Option.getD_none, hpair]
    rfl

theorem flush_mappingLines (φ : Form → Form) (h : entriesSound entries) :
    ∀ l ∈ (mappingLines (entryForms φ entries)).head?, l.Flush := by
  cases entries with
  | nil => simp [entryForms, mappingLines]
  | cons e entries =>
    have hkey := (entriesSound_cons.mp h).1
    rw [entryForms, mappingLines, Form.entryLines_eq]
    simpa using Form.flush_headLine hkey

theorem flush_sequenceLines (fs : List Form) : ∀ l ∈ (sequenceLines fs).head?, l.Flush := by
  have hdash (rest : Line) : Line.Flush ('-' :: rest) := rfl
  cases fs with
  | nil => simp [sequenceLines]
  | cons f fs =>
    rw [sequenceLines]
    unfold itemLines
    split <;> simp [hdash]

theorem alike_itemLines {ls ms : List Line} {f g : Form} (hf : ∀ l, f ≠ .leaf l) (hg : ∀ l, g ≠ .leaf l)
    (h : List.Forall₂ Line.Alike ls ms) (hl : ∀ l ∈ ls.head?, l.Flush) (hm : ∀ m ∈ ms.head?, m.Flush) :
    List.Forall₂ Line.Alike (itemLines f ls) (itemLines g ms) := by
  cases h with
  | nil =>
    have hnone {f : Form} (hf : ∀ l, f ≠ .leaf l) : itemLines f [] = [['-']] := by
      cases f with
      | leaf l => exact absurd rfl (hf l)
      | _ => rfl
    rw [hnone hf, hnone hg]
    exact Line.alike_self _
  | cons hfirst hrest =>
    rw [Form.itemLines_of_not_leaf hf, Form.itemLines_of_not_leaf hg]
    exact .cons (hfirst.dash (hl _ rfl) (hm _ rfl)) (Line.alike_deeper hrest 2)

mutual

/-- The lines below the first one of an entry. -/
theorem alike_bodyLines : (p : Page) → p.isSound →
    List.Forall₂ Line.Alike p.written.bodyLines (p.form hollow).bodyLines
  | leaf _, _ => .nil
  | bare, _ => .nil
  | folded _, _ => .nil
  | map entries, h => alike_mappingLines entries (isSound_map.mp h).2.2
  | seq items, h => alike_sequenceLines items (isSound_seq.mp h).2

theorem alike_mappingLines : (entries : List (String × Page)) → entriesSound entries →
    List.Forall₂ Line.Alike (mappingLines (entryForms onLine entries))
      (mappingLines (entryForms hollow entries))
  | [], _ => .nil
  | (key, p) :: entries, h => by
    obtain ⟨hkey, hp, hrest⟩ := entriesSound_cons.mp h
    simp only [entryForms, mappingLines, Form.entryLines_eq]
    exact List.rel_append
      (.cons (alike_headLine hkey hp) (Line.alike_deeper (alike_bodyLines p hp) 2))
      (alike_mappingLines entries hrest)

theorem alike_sequenceLines : (items : List Page) → itemsSound items →
    List.Forall₂ Line.Alike (sequenceLines (itemForms onLine items))
      (sequenceLines (itemForms hollow items))
  | [], _ => .nil
  | p :: items, h => by
    obtain ⟨hp, hrest⟩ := itemsSound_cons.mp h
    simp only [itemForms, sequenceLines]
    refine List.rel_append ?_ (alike_sequenceLines items hrest)
    have hbody := alike_bodyLines p hp
    cases p with
    | leaf l => exact Line.alike_self _
    | bare => exact Line.alike_self _
    | folded f => exact .cons (alike_dash_folded hp) .nil
    | map entries =>
      have hentries := (isSound_map.mp hp).2.2
      exact alike_itemLines nofun nofun hbody (flush_mappingLines onLine hentries)
        (flush_mappingLines hollow hentries)
    | seq inner =>
      exact alike_itemLines nofun nofun hbody (flush_sequenceLines _) (flush_sequenceLines _)

end

end Page

end BlockFlow
