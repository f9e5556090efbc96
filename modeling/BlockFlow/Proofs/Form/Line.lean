import BlockFlow.Proofs.Form.Text

/-!
The lines of a form, one by one: how deep they stand, and the keys and values on them.
-/

namespace BlockFlow

namespace Form

/-- The line that an entry begins with. -/
def headLine (key : String) : Form → Line
  | leaf l => Outline.keyed key.toList l.text
  | _ => key.toList ++ [':']

/-- The lines below that one. -/
def bodyLines : Form → List Line
  | leaf _ => []
  | f => f.lines

/-- What stands behind the key. -/
def written : Form → Line
  | leaf l => l.text
  | _ => []

variable {key : String} {f : Form} {es : List (String × Form)} {items : List Form}

theorem entryLines_eq (key : String) (f : Form) :
    entryLines key f f.lines = headLine key f :: f.bodyLines.map (·.deeper 2) := by
  cases f <;> rfl

theorem mappingLines_append (es ds : List (String × Form)) :
    mappingLines (es ++ ds) = mappingLines es ++ mappingLines ds := by
  induction es with
  | nil => rfl
  | cons e es ih => simp [mappingLines, ih]

theorem sequenceLines_append (items more : List Form) :
    sequenceLines (items ++ more) = sequenceLines items ++ sequenceLines more := by
  induction items with
  | nil => rfl
  | cons f items ih => simp [sequenceLines, ih]

theorem entriesSound_append {es ds : List (String × Form)} :
    entriesSound (es ++ ds) ↔ entriesSound es ∧ entriesSound ds := by
  induction es with
  | nil => simp [entriesSound]
  | cons e es ih =>
    rw [List.cons_append, entriesSound_cons, entriesSound_cons, ih]
    simp only [and_assoc]

theorem plainKey_of_isKey (h : isKey key) : Outline.PlainKey key.toList := by
  simp only [isKey, Bool.and_eq_true] at h
  exact Outline.plainKey_of_isPlain h.1.1.1.1

theorem renderString_of_isKey (h : isKey key) : Outline.renderString key = key.toList := by
  simp only [isKey, Bool.and_eq_true] at h
  rw [Outline.renderString, Outline.renderChars, if_pos h.1.1.1.1]

end Form

namespace Outline

variable {key text : Line}

theorem PlainKey.startsItem (h : PlainKey key) (rest : Line) :
    Line.startsItem (key ++ rest) = false := by
  obtain ⟨c, cs, rfl⟩ := List.exists_cons_of_ne_nil h.nonempty
  have hdash : c ≠ '-' := by
    rintro rfl
    exact h.dash rfl
  unfold Line.startsItem
  split <;> simp_all

theorem PlainKey.trimStart_append (h : PlainKey key) (rest : Line) :
    Text.trimStart (key ++ rest) = key ++ rest := by
  obtain ⟨c, cs, rfl⟩ := List.exists_cons_of_ne_nil h.nonempty
  have hc : c ≠ ' ' := by
    rintro rfl
    exact h.first rfl
  exact Text.trimStart_of_head
    (by simpa using not_isBlank_of_isPlainChar (h.chars c List.mem_cons_self) hc)

theorem PlainKey.indent? (h : PlainKey key) (rest : Line) :
    Line.indent? (key ++ rest) = some 0 := by
  obtain ⟨c, cs, rfl⟩ := List.exists_cons_of_ne_nil h.nonempty
  have hc : c ≠ ' ' := by
    rintro rfl
    exact h.first rfl
  refine indent?_of_head (not_isBlank_of_isPlainChar (h.chars c List.mem_cons_self) hc) ?_
  rintro rfl
  exact h.not_mem (isPlainChar_special '#' (by simp)) List.mem_cons_self

/-- A key alone on its line. -/
theorem PlainKey.pair?_colon (h : PlainKey key) : Line.pair? (key ++ [':']) = some (key, []) := by
  have hcolon : ':' ∉ key := h.not_mem (isPlainChar_special _ (by simp))
  have hnone : Text.splitFirst? [':', ' '] (key ++ [':']) = none := by
    cases hsplit : Text.splitFirst? [':', ' '] (key ++ [':']) with
    | none => rfl
    | some p =>
      have hwhole := Text.splitFirst?_eq hsplit
      have hmem : ' ' ∈ p.2.reverse ++ [' '] := by simp
      have hlast := congrArg List.reverse hwhole
      simp only [List.reverse_append, List.reverse_cons, List.reverse_nil, List.nil_append,
        List.cons_append, List.append_assoc] at hlast
      cases hrest : p.2.reverse with
      | nil => simp [hrest] at hlast
      | cons c cs =>
        rw [hrest, List.cons_append, List.cons.injEq] at hlast
        have hin : ':' ∈ key.reverse := by
          rw [hlast.2]
          simp
        exact absurd (List.mem_reverse.mp hin) hcolon
  have hsplit : Line.splitColon? (key ++ [':']) = some (key, []) := by
    simp [Line.splitColon?, hnone]
  have hlast : Text.trimEnd key = key := by
    refine Text.trimEnd_of_last fun c hc => ?_
    refine not_isBlank_of_isPlainChar (h.chars c (List.mem_of_getLast? hc)) fun heq => ?_
    exact h.last (heq ▸ hc)
  have hitem := h.startsItem [':']
  obtain ⟨c, cs, hkey⟩ := List.exists_cons_of_ne_nil h.nonempty
  have hspecial : ∀ x ∈ ['"', '\'', '{', '[', '#', ':'], c ≠ x := by
    rintro x hx rfl
    exact h.not_mem (isPlainChar_special c hx) (by simp [hkey])
  have hstart : key ++ [':'] = c :: (cs ++ [':']) := by rw [hkey, List.cons_append]
  unfold Line.pair?
  split
  · rename_i heq
    simp [hstart] at heq
  all_goals try
    rename_i heq
    rw [hstart, List.cons.injEq] at heq
    exact absurd heq.1 (hspecial _ (by simp))
  have hempty : Text.trim [] = [] := rfl
  rw [hitem, hsplit]
  simp [hlast, h.nonempty, hempty]

end Outline

namespace Form

variable {key : String} {f : Form}

theorem headLine_append (key : String) (f : Form) : ∃ rest, headLine key f = key.toList ++ rest := by
  cases f with
  | leaf l => exact ⟨_, rfl⟩
  | _ => exact ⟨_, rfl⟩

theorem indent?_headLine (h : isKey key) : (headLine key f).indent? = some 0 := by
  obtain ⟨rest, hline⟩ := headLine_append key f
  rw [hline]
  exact (plainKey_of_isKey h).indent? rest

theorem isItem_headLine (h : isKey key) : (headLine key f).isItem = false := by
  obtain ⟨rest, hline⟩ := headLine_append key f
  rw [hline, Line.isItem, (plainKey_of_isKey h).trimStart_append]
  exact (plainKey_of_isKey h).startsItem rest

theorem not_isBlank_of_isTextChar {c : Char} (h : isTextChar c) (hc : c ≠ ' ') :
    Text.isBlank c = false := by
  simp only [isTextChar, Bool.and_eq_true, Bool.or_eq_true, decide_eq_true_eq, hc, false_or,
    Bool.not_eq_true'] at h
  exact h.1.1.1.2

theorem trim_leaf {l : Leaf} (h : l.isSound) : Text.trim l.text = l.text := by
  have hends {cs : Line} (hfirst : ∀ c ∈ cs.head?, Text.isBlank c = false)
      (hlast : ∀ c ∈ cs.getLast?, Text.isBlank c = false) : Text.trim cs = cs := by
    rw [Text.trim, Text.trimStart_of_head hfirst, Text.trimEnd_of_last hlast]
  cases l with
  | plain cs =>
    obtain ⟨hall, hfirst, hlast⟩ := Yaml.chars_of_isPlainText h
    have hblank {c : Char} (hc : c ∈ cs) (hspace : c ≠ ' ') : Text.isBlank c = false :=
      not_isBlank_of_isTextChar ((List.all_eq_true.mp hall) c hc) hspace
    refine hends (fun c hc => ?_) fun c hc => ?_
    · refine hblank (List.mem_of_head? hc) ?_
      rintro rfl
      exact hfirst hc
    · refine hblank (List.mem_of_getLast? hc) ?_
      rintro rfl
      exact hlast hc
  | quoted cs =>
    have hquote : Text.isBlank '"' = false := by decide
    refine hends (fun c hc => ?_) fun c hc => ?_
    · obtain rfl : '"' = c := Option.some.inj hc
      exact hquote
    · have hc : ('"' :: cs.flatMap Text.Quoted.encodeChar ++ ['"']).getLast? = some c := hc
      rw [List.getLast?_concat] at hc
      obtain rfl : '"' = c := Option.some.inj hc
      exact hquote
  | noItems => decide
  | noEntries => decide

theorem dropComment_leaf {l : Leaf} (h : l.isSound) : Line.dropComment l.text = l.text := by
  cases l with
  | plain cs =>
    have hall := (Yaml.chars_of_isPlainText h).1
    have hhash : '#' ∉ cs := fun hmem => by
      simpa [isTextChar] using (List.all_eq_true.mp hall) '#' hmem
    have hnone : Text.splitFirst? [' ', '#'] cs = none := by
      cases hsplit : Text.splitFirst? [' ', '#'] cs with
      | none => rfl
      | some p =>
        refine absurd ?_ hhash
        rw [Text.splitFirst?_eq hsplit]
        simp
    unfold Line.dropComment
    split
    · rfl
    · rfl
    · rw [Leaf.text, hnone]
  | quoted cs => rfl
  | noItems => decide
  | noEntries => decide

/-- The entry on the line that an entry begins with. -/
theorem pair?_headLine (hkey : isKey key) (hf : f.isSound) :
    Line.pair? (headLine key f) = some (key.toList, f.written) := by
  have hplain := plainKey_of_isKey hkey
  cases f with
  | leaf l => rw [headLine, hplain.pair?, trim_leaf hf, written]
  | _ => exact hplain.pair?_colon

theorem trimStart_headLine (hkey : isKey key) :
    Text.trimStart (headLine key f) = headLine key f := by
  obtain ⟨rest, hline⟩ := headLine_append key f
  rw [hline, (plainKey_of_isKey hkey).trimStart_append]

/-- A line has its key whatever stands behind it. -/
theorem key?_headLine (hkey : isKey key) : (headLine key f).key? = some key.toList := by
  have hplain := plainKey_of_isKey hkey
  rw [Line.key?, trimStart_headLine hkey]
  cases f with
  | leaf l => rw [headLine, hplain.pair?, Option.map_some]
  | _ => exact congrArg (Option.map (·.1)) hplain.pair?_colon

theorem dropComment_written (hf : f.isSound) : Line.dropComment f.written = f.written := by
  cases f with
  | leaf l => exact dropComment_leaf hf
  | _ => rfl

theorem value?_of_pair? {text : Line} (hkey : isKey key)
    (hpair : Line.pair? (headLine key f) = some (key.toList, text))
    (htext : Line.dropComment text = text) (c : Nat) :
    ((headLine key f).deeper c).value? = some text := by
  have hdash : Text.dropStem? ['-', ' '] (headLine key f) = none := by
    obtain ⟨rest, hline⟩ := headLine_append key f
    have hplain := plainKey_of_isKey hkey
    obtain ⟨d, ds, hkey⟩ := List.exists_cons_of_ne_nil hplain.nonempty
    have hd : '-' ≠ d := by
      rintro rfl
      exact hplain.dash (by rw [hkey, List.head?_cons])
    rw [hline, hkey, List.cons_append, Text.dropStem?, if_neg hd]
  rw [Line.value?, Line.deeper, Text.trimStart_spaces, trimStart_headLine hkey, hdash,
    Option.getD_none, hpair]
  simp [htext]

theorem value?_headLine (hkey : isKey key) (hf : f.isSound) (c : Nat) :
    ((headLine key f).deeper c).value? = some f.written :=
  value?_of_pair? hkey (pair?_headLine hkey hf) (dropComment_written hf) c

/-- The entry on the line of an item. -/
theorem value?_dash (hkey : isKey key) (hf : f.isSound) (c : Nat) :
    (Line.deeper c ('-' :: ' ' :: headLine key f)).value? = some f.written := by
  have hdash : Text.trimStart ('-' :: ' ' :: headLine key f) = '-' :: ' ' :: headLine key f := rfl
  rw [Line.value?, Line.deeper, Text.trimStart_spaces, hdash]
  simp [Text.dropStem?, pair?_headLine hkey hf, dropComment_written hf]

theorem itemKey?_dash (hkey : isKey key) (c : Nat) :
    (Line.deeper c ('-' :: ' ' :: headLine key f)).itemKey? = some key.toList := by
  have hdash : Text.trimStart ('-' :: ' ' :: headLine key f) = '-' :: ' ' :: headLine key f := rfl
  have hspace : Text.trimStart (' ' :: headLine key f) = headLine key f := by
    have hspaces := Text.trimStart_spaces 1 (headLine key f)
    rw [trimStart_headLine hkey] at hspaces
    exact hspaces
  rw [Line.itemKey?, Line.deeper, Text.trimStart_spaces, hdash, List.drop_one, List.tail_cons,
    hspace, ← key?_headLine hkey, Line.key?, trimStart_headLine hkey]

/-- Lines with content. -/
def Solid (ls : List Line) : Prop := ∀ l ∈ ls, ∃ d, l.indent? = some d

theorem Solid.deeper {ls : List Line} (h : Solid ls) (n : Nat) :
    ∀ l ∈ ls.map (·.deeper n), ∃ d, l.indent? = some d ∧ n ≤ d := by
  intro l hl
  obtain ⟨m, hm, rfl⟩ := List.mem_map.mp hl
  obtain ⟨d, hd⟩ := h m hm
  exact ⟨n + d, by rw [Line.indent?_deeper, hd]; rfl, by omega⟩

theorem Solid.map_deeper {ls : List Line} (h : Solid ls) (n : Nat) :
    Solid (ls.map (·.deeper n)) := by
  intro l hl
  obtain ⟨d, hd, -⟩ := h.deeper n l hl
  exact ⟨d, hd⟩

theorem indent?_dash (rest : Line) : Line.indent? ('-' :: rest) = some 0 :=
  Outline.indent?_of_head rfl (by decide)

theorem solid_itemLines (h : Solid f.bodyLines) : Solid (itemLines f f.lines) := by
  have hdash (rest : Line) : ∃ d, Line.indent? ('-' :: rest) = some d := ⟨0, indent?_dash rest⟩
  have hblock {g : Form} (hg : Solid g.lines) (hleaf : ∀ l, g ≠ leaf l) :
      Solid (itemLines g g.lines) := by
    unfold itemLines
    split
    · exact absurd rfl (hleaf _)
    · simpa [Solid] using hdash []
    · rename_i first rest _ heq
      rw [heq] at hg
      have hrest : Solid rest := fun l hl => hg l (List.mem_cons_of_mem _ hl)
      exact List.forall_mem_cons.mpr ⟨hdash _, hrest.map_deeper 2⟩
  cases f with
  | leaf l => simpa [itemLines, Solid] using hdash (' ' :: l.text)
  | _ => exact hblock h fun l heq => by cases heq

mutual

theorem solid_lines : (f : Form) → f.isSound → Solid f.bodyLines
  | leaf _, _ => by simp [bodyLines, Solid]
  | bare, _ => by simp [bodyLines, lines, Solid]
  | map entries, h => solid_mappingLines entries (isSound_map.mp h).2.2
  | seq items, h => solid_sequenceLines items (isSound_seq.mp h).2

theorem solid_mappingLines : (es : List (String × Form)) → entriesSound es → Solid (mappingLines es)
  | [], _ => by simp [mappingLines, Solid]
  | (key, f) :: es, h => by
    obtain ⟨hkey, hf, hrest⟩ := entriesSound_cons.mp h
    rw [mappingLines, entryLines_eq]
    exact List.forall_mem_append.mpr ⟨List.forall_mem_cons.mpr ⟨⟨0, indent?_headLine hkey⟩,
      (solid_lines f hf).map_deeper 2⟩, solid_mappingLines es hrest⟩

theorem solid_sequenceLines : (items : List Form) → itemsSound items → Solid (sequenceLines items)
  | [], _ => by simp [sequenceLines, Solid]
  | f :: items, h => by
    obtain ⟨hf, hrest⟩ := itemsSound_cons.mp h
    exact List.forall_mem_append.mpr
      ⟨solid_itemLines (solid_lines f hf), solid_sequenceLines items hrest⟩

end

end Form

end BlockFlow
