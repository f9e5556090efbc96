import BlockFlow.Text.Lines
import Mathlib.Data.List.Basic

/-!
Splitting a text into lines and writing lines again. Main statement: lines that were read from a
text are read back as they are, whatever is written between them.
-/

namespace BlockFlow.Text

variable {cs rest l acc : List Char} {ls before between after : List (List Char)}

/-- Carriage returns stand right before line feeds only. -/
def ReturnsEndLines (cs : List Char) : Prop :=
  ∀ before after, cs = before ++ '\r' :: after → after.head? = some '\n'

theorem ReturnsEndLines.of_append (h : ReturnsEndLines (acc ++ cs)) : ReturnsEndLines cs :=
  fun before after heq => h (acc ++ before) after (by rw [heq, List.append_assoc])

theorem returnsEndLines_of_not_mem (h : '\r' ∉ cs) : ReturnsEndLines cs := by
  intro before after heq
  subst heq
  simp at h

/-- A carriage return in front of a line feed is the last character there. -/
theorem ReturnsEndLines.not_mem {c : Char} (h : ReturnsEndLines (l ++ c :: cs)) (hl : '\n' ∉ l)
    (hc : c ≠ '\n') : '\r' ∉ l := by
  intro hret
  obtain ⟨a, b, rfl⟩ := List.append_of_mem hret
  have hb := h a (b ++ c :: cs) (by simp)
  cases b with
  | nil => exact hc (by simpa using hb)
  | cons x b =>
    have hx : x = '\n' := by simpa using hb
    exact hl (by simp [hx])

/-- A line as it is read: no line break is in it. -/
structure IsLine (l : List Char) : Prop where
  feed : '\n' ∉ l
  ret : '\r' ∉ l

theorem linesFrom_cons {c : Char} (hc : c ≠ '\n') :
    linesFrom l (c :: cs) = linesFrom (c :: l) cs := by
  rw [linesFrom]
  exact fun h => absurd h hc

theorem linesFrom_append (h : '\n' ∉ l) : linesFrom acc (l ++ rest) =
    linesFrom (l.reverse ++ acc) rest := by
  induction l generalizing acc with
  | nil => rfl
  | cons c l ih =>
    simp only [List.mem_cons, not_or] at h
    rw [List.cons_append, linesFrom_cons (Ne.symm h.1), ih h.2]
    simp

theorem dropReturn_of_not_mem (h : '\r' ∉ l) : dropReturn l = l := by
  unfold dropReturn
  split
  · simp at h
  · rfl

theorem lines_cons (h : IsLine l) : lines (l ++ '\n' :: rest) = l :: lines rest := by
  have hret : '\r' ∉ l.reverse := by simpa using h.ret
  rw [lines, linesFrom_append h.feed, List.append_nil, linesFrom, dropReturn_of_not_mem hret,
    List.reverse_reverse, lines]

theorem linesFrom_ended : linesFrom acc (l ++ '\n' :: rest) =
    linesFrom acc (l ++ ['\n']) ++ lines rest := by
  induction l generalizing acc with
  | nil => simp [linesFrom, lines]
  | cons c l ih =>
    by_cases hc : c = '\n'
    · subst hc
      simp only [List.cons_append, linesFrom, ih]
    · simp only [List.cons_append, linesFrom_cons hc, ih]

/-- The lines of lines that are ended each. -/
theorem lines_flatMap (h : ∀ l ∈ ls, IsLine l) :
    lines (ls.flatMap (· ++ ['\n']) ++ rest) = ls ++ lines rest := by
  induction ls with
  | nil => rfl
  | cons l ls ih =>
    rw [List.forall_mem_cons] at h
    rw [List.flatMap_cons, List.append_assoc, List.append_assoc, List.singleton_append,
      lines_cons h.1, ih h.2, List.cons_append]

theorem joinLines_append (h : after ≠ []) :
    joinLines (before ++ after) = before.flatMap (· ++ ['\n']) ++ joinLines after := by
  induction before with
  | nil => rfl
  | cons l before ih =>
    have hne : before ++ after ≠ [] := by simp [h]
    obtain ⟨m, more, hm⟩ := List.exists_cons_of_ne_nil hne
    rw [List.cons_append, hm, joinLines, ← hm, ih, List.flatMap_cons]
    · simp
    · simp

/-- The line feed behind the last line, when it is ended. -/
abbrev lineEnd (ended : Bool) : List Char := if ended then ['\n'] else []

/-- Lines can be read back when the last one is ended or not empty. -/
theorem lines_joinLines {ended : Bool} (hls : ls ≠ []) (h : ∀ l ∈ ls, IsLine l)
    (hlast : ended = false → ls.getLast? ≠ some []) :
    lines (joinLines ls ++ lineEnd ended) = ls := by
  obtain ⟨init, l, rfl⟩ := (List.eq_nil_or_concat ls).resolve_left hls
  rw [List.concat_eq_append] at h hlast ⊢
  rw [List.forall_mem_append, List.forall_mem_singleton] at h
  rw [joinLines_append (by simp), List.append_assoc, lines_flatMap h.1, joinLines]
  congr 1
  cases ended with
  | true =>
    have hcons : lines (l ++ ['\n']) = l :: lines [] := lines_cons h.2
    simpa [lineEnd, lines, linesFrom] using hcons
  | false =>
    have hne : l ≠ [] := by simpa using hlast rfl
    have hfrom : linesFrom [] (l ++ []) = linesFrom (l.reverse ++ []) [] :=
      linesFrom_append h.2.feed
    simpa [lineEnd, lines, linesFrom, hne] using hfrom

/-- Lines in front and behind are read back as they are, whatever is written between them. -/
theorem exists_lines_joinLines {ended : Bool} (hbefore : ∀ l ∈ before, IsLine l)
    (hafter : ∀ l ∈ after, IsLine l) (hbetween : between ≠ [])
    (hlast : ended = false → after.getLast? ≠ some []) : ∃ mid,
    lines (joinLines (before ++ between ++ after) ++ lineEnd ended) = before ++ mid ++ after := by
  by_cases hnil : after = []
  · subst hnil
    refine ⟨lines (joinLines between ++ lineEnd ended), ?_⟩
    rw [List.append_nil, joinLines_append hbetween, List.append_assoc, lines_flatMap hbefore,
      List.append_nil]
  · obtain ⟨init, l, rfl⟩ := (List.eq_nil_or_concat between).resolve_left hbetween
    refine ⟨lines ((init.flatMap (· ++ ['\n']) ++ l) ++ ['\n']), ?_⟩
    have hcut : (init.concat l).flatMap (· ++ ['\n']) ++ (joinLines after ++ lineEnd ended) =
        (init.flatMap (· ++ ['\n']) ++ l) ++ '\n' :: (joinLines after ++ lineEnd ended) := by
      simp [List.concat_eq_append]
    rw [List.append_assoc, joinLines_append (by simp), joinLines_append hnil, List.append_assoc,
      List.append_assoc, lines_flatMap hbefore, hcut, lines, linesFrom_ended,
      lines_joinLines hnil hafter hlast, lines]
    simp only [List.append_assoc]

/-- A line that a line feed ends has no line break in it. -/
theorem isLine_dropReturn (h : ReturnsEndLines (acc.reverse ++ '\n' :: cs)) (hacc : '\n' ∉ acc) :
    IsLine (dropReturn acc).reverse := by
  cases acc with
  | nil => exact ⟨by simp [dropReturn], by simp [dropReturn]⟩
  | cons c l =>
    simp only [List.mem_cons, not_or] at hacc
    rw [List.reverse_cons, List.append_assoc, List.singleton_append] at h
    have hret := h.not_mem (by simpa using hacc.2) (Ne.symm hacc.1)
    by_cases hc : c = '\r'
    · subst hc
      exact ⟨by simpa [dropReturn] using hacc.2, by simpa [dropReturn] using hret⟩
    · have hdrop : dropReturn (c :: l) = c :: l := by
        rw [dropReturn]
        simp [hc]
      rw [hdrop]
      exact ⟨by simpa [and_comm] using hacc, by simpa [Ne.symm hc] using hret⟩

theorem linesFrom_ne_nil {c : Char} : linesFrom acc (c :: cs) ≠ [] := by
  induction cs generalizing acc c with
  | nil =>
    by_cases hc : c = '\n'
    · subst hc
      simp [linesFrom]
    · rw [linesFrom_cons hc]
      simp [linesFrom]
  | cons d cs ih =>
    by_cases hc : c = '\n'
    · subst hc
      simp [linesFrom]
    · rw [linesFrom_cons hc]
      exact ih

/-- The lines of a text whose carriage returns end lines have no line break in them. By induction on
the text behind the line that is being read; `acc` is that line, last character first. -/
theorem isLine_of_linesFrom (h : ReturnsEndLines (acc.reverse ++ cs)) (hacc : '\n' ∉ acc) :
    ∀ l ∈ linesFrom acc cs, IsLine l := by
  induction cs generalizing acc with
  | nil =>
    intro l hl
    have hl : l = acc.reverse := by
      rw [linesFrom] at hl
      split at hl <;> simp_all
    subst hl
    refine ⟨by simpa using hacc, fun hret => ?_⟩
    obtain ⟨a, b, hab⟩ := List.append_of_mem hret
    have hb := h a b (by rw [hab, List.append_nil])
    have hfeed : '\n' ∈ acc.reverse := by
      rw [hab]
      exact List.mem_append_right _ (List.mem_cons_of_mem _ (List.mem_of_mem_head? hb))
    exact hacc (List.mem_reverse.mp hfeed)
  | cons c cs ih =>
    by_cases hc : c = '\n'
    · subst hc
      rw [linesFrom, List.forall_mem_cons]
      have hrest : ReturnsEndLines ([].reverse ++ cs) := by
        rw [List.append_cons] at h
        exact h.of_append
      exact ⟨isLine_dropReturn h hacc, ih hrest (by simp)⟩
    · rw [linesFrom_cons hc]
      exact ih (by simpa using h) (by simpa [Ne.symm hc] using hacc)

theorem isLine_of_lines (h : ReturnsEndLines cs) : ∀ l ∈ lines cs, IsLine l :=
  isLine_of_linesFrom (show ReturnsEndLines ([].reverse ++ cs) from h) (by simp)

/-- A text whose last line is not ended ends with a line that is not empty. -/
theorem getLast?_linesFrom (h : (acc.reverse ++ cs).getLast? ≠ some '\n') :
    (linesFrom acc cs).getLast? ≠ some [] := by
  induction cs generalizing acc with
  | nil =>
    rw [linesFrom]
    split
    · simp
    · rename_i hne
      simpa using hne
  | cons c cs ih =>
    by_cases hc : c = '\n'
    · subst hc
      rw [linesFrom]
      cases cs with
      | nil => simp at h
      | cons c cs =>
        have hrest : ([].reverse ++ c :: cs).getLast? ≠ some '\n' := by simpa using h
        have hlast := ih hrest
        have hne : linesFrom [] (c :: cs) ≠ [] := linesFrom_ne_nil
        rw [List.getLast?_cons_of_ne_nil hne]
        exact hlast
    · rw [linesFrom_cons hc]
      exact ih (by simpa using h)

theorem getLast?_lines (h : isEnded cs = false) : (lines cs).getLast? ≠ some [] := by
  apply getLast?_linesFrom
  intro hlast
  rw [List.reverse_nil, List.nil_append] at hlast
  simp [isEnded, hlast] at h

end BlockFlow.Text
